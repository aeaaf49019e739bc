import InferenceGateway.Fc.Life
import InferenceGateway.Fc.Waiters

/-!
# The waiting hall

The pool as its waiters see it: the entries in the ring as a list, the evicted list, the wakes that
are not over, and the calls of the owners.  `Hall.Step` lists what can happen there when three things
never do: that a waiter is evicted while its owner stands between its look at the evicted list and
its look at the ring, that a wake that failed puts an entry back after its wait is over or past its
owner's look, and that a waiter is evicted at a time a sweep has already taken up for it.

Each connection then lives its waits one after another: `Sits` relates what the hall holds of a
connection to a place of `Life`, and every step of the hall is a move of each life.

* `Sits.step`       one step, for one connection;
* `Hall.Ok.step`    one step, for all of them.
-/

set_option linter.unusedSectionVars false

open Function List Nat

namespace Fc

abbrev QueueEnt.conn (e : QueueEnt) : Conn := (e.fd, e.gen)
abbrev Evicted.conn (e : Evicted) : Conn := (e.fd, e.gen)
abbrev Permit.conn (p : Permit) : Conn := (p.qFd, p.qGen)

structure Hall (ι : Type) where
  threads : ι → Thread
  live : List QueueEnt
  evicted : List Evicted
  wakes : List (Wake ι)
  sweep : Option (List Evicted × List Evicted)
  waitNo : ι → Nat
  posted : ι → Bool
  shed : ι → Nat → Bool
  decided : ι → Nat → List Decision

/-! ## the owner's call -/

/-- a call of an owner whose permit is in no wait -/
def Pc.away : Pc → Bool
  | .acqTake _ _ | .acqOver _ | .acqShared _ _ | .acqBand _ _ | .relRoles _ | .relBand | .relTenant =>
    true
  | _ => false

/-- the call did not find its entry in the ring -/
def Pc.pastRing : Pc → Bool
  | .resTurn | .relClaim | .relSettle => true
  | _ => false

/-- the call did not find its entry on the evicted list -/
def Pc.pastList : Pc → Bool
  | .resHolds | .resTurn | .relSettle => true
  | _ => false

/-- the call took its entry off the evicted list -/
def Pc.hasAnswer : Pc → Bool
  | .resEvict => true
  | .relDrop => true
  | _ => false

/-- the call goes on to look for its entry by its name -/
def Pc.looks : Pc → Bool
  | .relTake | .relClaim | .resClaim => true
  | _ => false

/-- where the owner's call may stand while the wait is at a place -/
def Place.allows (pl : Place) (pc : Pc) : Bool :=
  match pl with
  | .out => true
  | .ring => !pc.away && !pc.hasAnswer && !pc.pastRing
  | .waking | .popped => !pc.away && !pc.hasAnswer
  | .listed => !pc.away && !pc.hasAnswer && !pc.pastList
  | .claimed => pc.hasAnswer

/-- the permit carries the name of its connection -/
structure Permit.Of (p : Permit) (c : Conn) : Prop where
  fc : p.fc = true
  name : p.conn = c
  fd : 0 ≤ c.1

/-- the thread of a connection whose wait is at a place -/
structure Fits (c : Conn) (pl : Place) (th : Thread) : Prop where
  queued : th.permit.state = .queued ↔ pl ≠ .out
  name : th.permit.state = .queued ∨ th.pc.looks = true → th.permit.Of c
  pc : pl.allows th.pc = true

variable {ι : Type} [DecidableEq ι]

/-! ## what the hall holds of a connection -/

def ringCount (c : Conn) (l : List QueueEnt) : Nat := l.countP fun e => decide (c = e.conn)
def owedCount (c : Conn) (l : List Evicted) : Nat := l.countP fun e => decide (c = e.conn)

/-- a wake that has the current wait's entry in its hands and was not delivered -/
def Wake.holds (conn : ι → Conn) (i : ι) (n : Nat) (w : Wake ι) : Bool :=
  decide (conn i = w.ent.conn) && decide (w.waits i = n) && decide (w.hook ≠ some true)

def wakeCount (conn : ι → Conn) (i : ι) (n : Nat) (ws : List (Wake ι)) : Nat :=
  ws.countP (Wake.holds conn i n)

def Place.inRing : Place → Nat
  | .ring => 1
  | _ => 0

def Place.owed : Place → Nat
  | .listed => 1
  | _ => 0

def Place.inWake : Place → Nat
  | .waking => 1
  | _ => 0

/-- the hall holds of a connection what its place says; `sure` says that an entry put back always
finds a place in the ring -/
structure Sits (conn : ι → Conn) (sure : Bool) (h : Hall ι) (i : ι) (pl : Place) : Prop where
  fits : Fits (conn i) pl (h.threads i)
  ring : ringCount (conn i) h.live = pl.inRing
  owed : owedCount (conn i) h.evicted = pl.owed
  wakes : pl ≠ .out → wakeCount conn i (h.waitNo i) h.wakes = pl.inWake
  posted : sure = true → pl = .popped → h.posted i = true

def Hall.life (h : Hall ι) (i : ι) (pl : Place) : Life := ⟨pl, h.waitNo i, h.shed i, h.decided i⟩

/-! ## what can happen -/

def Hall.conclude (h : Hall ι) (i : ι) (d : Decision) : Hall ι :=
  let ds := update (h.decided i) (h.waitNo i) (d :: h.decided i (h.waitNo i))
  { h with decided := update h.decided i ds }

def Hall.put (h : Hall ι) (i : ι) (th : Thread) : Hall ι :=
  { h with threads := update h.threads i th }

/-- a waiter is evicted -/
abbrev Hall.evicts (h : Hall ι) (conn : ι → Conn) (e : QueueEnt) (l : List QueueEnt) (nowNs : Nat) : Hall ι :=
  { h with
    live := l
    evicted := h.evicted ++ [⟨e.fd, e.gen, nowNs⟩]
    shed := fun j n => h.shed j n || (decide (conn j = e.conn) && decide (n = h.waitNo j)) }

/-- a wait begins -/
abbrev Hall.parks (h : Hall ι) (i : ι) (th : Thread) (l : List QueueEnt) : Hall ι :=
  { h.put i th with live := l, waitNo := update h.waitNo i (h.waitNo i + 1) }

inductive Hall.Step (conn : ι → Conn) (sure : Bool) (h : Hall ι) : Hall ι → Prop
  | act {i th} (hf : ∀ pl, Fits (conn i) pl (h.threads i) → Fits (conn i) pl th) :
      Step conn sure h (h.put i th)
  | post {f : ι → Bool} (hf : ∀ i, h.posted i = true → f i = true) :
      Step conn sure h { h with posted := f }
  | consume {i} (hq : (h.threads i).permit.state ≠ .queued ∨
        ∃ e ∈ h.live, e.conn = (h.threads i).permit.conn) :
      Step conn sure h { h with posted := update h.posted i false }
  | claim {i pc} (hl : (h.threads i).pc.looks = true) (hpc : pc.hasAnswer = true)
      (hn : ∃ e ∈ h.evicted, e.conn = (h.threads i).permit.conn) :
      Step conn sure h { h.put i ⟨(h.threads i).permit, pc⟩ with
        evicted := h.evicted.eraseP fun e => decide (e.conn = (h.threads i).permit.conn) }
  | claimNot {i pc} (hl : (h.threads i).pc.looks = true)
      (hpc : ∀ pl : Place, pl.owed = 0 → pl.allows (h.threads i).pc = true → pl.allows pc = true)
      (hpl : pc.looks = false)
      (hn : ∀ e ∈ h.evicted, e.conn ≠ (h.threads i).permit.conn) :
      Step conn sure h (h.put i ⟨(h.threads i).permit, pc⟩)
  | missed {i pc}
      (hpc : ∀ pl : Place, pl.inRing = 0 → pl.allows (h.threads i).pc = true → pl.allows pc = true)
      (hpl : pc.looks = true → (h.threads i).pc.looks = true)
      (hn : (h.threads i).permit.state = .queued →
        ∀ e ∈ h.live, e.conn ≠ (h.threads i).permit.conn) :
      Step conn sure h (h.put i ⟨(h.threads i).permit, pc⟩)
  | settle {i p d} (hp : p.state ≠ .queued)
      (hd : ∀ pl : Place, pl ≠ .out → pl.allows (h.threads i).pc = true →
        pl.ends d = true ∧ pl.inRing = 0 ∧ pl.owed = 0) :
      Step conn sure h (if (h.threads i).permit.state = .queued
        then (h.put i ⟨p, .idle⟩).conclude i d else h.put i ⟨p, .idle⟩)
  | take {i e l th d} (hq : (h.threads i).permit.state = .queued)
      (hn : e.conn = (h.threads i).permit.conn) (hl : Deletes e h.live l)
      (hd : Place.ring.ends d = true)
      (hf : Fits (conn i) .ring (h.threads i) → Fits (conn i) .out th) :
      Step conn sure h ({ h.put i th with live := l }.conclude i d)
  | pick {e u l} (hl : Deletes e h.live l) :
      Step conn sure h { h with live := l, wakes := h.wakes ++ [⟨e, u, none, h.waitNo⟩] }
  | hook {k w ok} (hw : h.wakes[k]? = some w) (hh : w.hook = none) : Step conn sure h { h with
        wakes := h.wakes.set k { w with hook := some ok }
        posted := fun j => h.posted j || (ok && decide (conn j = w.ent.conn)) }
  | done {k w} (hw : h.wakes[k]? = some w) (hh : w.hook = some true) :
      Step conn sure h { h with wakes := h.wakes.eraseIdx k }
  | back {k w} (hw : h.wakes[k]? = some w) (hh : w.hook = some false)
      (hg : ∀ j, conn j = w.ent.conn → (h.threads j).permit.state = .queued ∧
        w.waits j = h.waitNo j ∧ (h.threads j).pc.pastRing = false) :
      Step conn sure h { h with
        live := place true false { w.ent with live := true } h.live
        wakes := h.wakes.eraseIdx k }
  | lose {k w} (hs : sure = false) (hw : h.wakes[k]? = some w) (hh : w.hook = some false) :
      Step conn sure h { h with wakes := h.wakes.eraseIdx k }
  | evict {e l nowNs} (hl : Deletes e h.live l)
      (hg : ∀ j, conn j = e.conn → (h.threads j).pc ≠ .resHolds)
      (hs : ∀ take rest, h.sweep = some (take, rest) → (⟨e.fd, e.gen, nowNs⟩ : Evicted) ∉ take) :
      Step conn sure h (h.evicts conn e l nowNs)
  | park {i e th front ordered} (hq : (h.threads i).permit.state ≠ .queued) (he : e.conn = conn i)
      (hf : Fits (conn i) .ring th) :
      Step conn sure h (h.parks i th (place front ordered e h.live))
  | sweepStart {take} (hs : h.sweep = none) : Step conn sure h { h with sweep := some (take, take) }
  | sweepFn {i e take rest} (hs : h.sweep = some (take, e :: rest)) (hc : conn i = e.conn)
      (hq : (h.threads i).permit.state = .queued) (hn : ∃ y ∈ h.evicted, y.conn = e.conn) :
      Step conn sure h (({ h.put i
          ⟨{ (h.threads i).permit with state := .evicted }, (h.threads i).pc⟩ with
        evicted := h.evicted.eraseP fun y => decide (y.conn = e.conn)
        sweep := some (take, rest) } : Hall ι).conclude i .evictedPass)
  | sweepSkip {e take rest} (hs : h.sweep = some (take, e :: rest))
      (hn : ∀ y ∈ h.evicted, y.conn ≠ e.conn) :
      Step conn sure h { h with sweep := some (take, rest) }
  | sweepEnd {take} (hs : h.sweep = some (take, [])) : Step conn sure h { h with
        evicted := take.foldl (fun l x => l.eraseP fun y => decide (y = x)) h.evicted
        sweep := none }

variable {conn : ι → Conn} {sure : Bool} {h h' : Hall ι} {i : ι} {pl : Place}

/-! ## counting -/

variable {e : QueueEnt} {l : List QueueEnt} {c : Conn} {n k : Nat} {ws : List (Wake ι)} {w : Wake ι}
  {th : Thread} {pc : Pc} {j : ι} {d : Decision} {take : List Evicted}

theorem ringCount_deletes {l' : List QueueEnt} (hl : Deletes e l l') (c : Conn) :
    ringCount c l = ringCount c l' + if c = e.conn then 1 else 0 := by
  unfold ringCount
  rw [hl.countP]
  simp only [decide_eq_true_eq]

theorem ringCount_place (front ordered : Bool) (e : QueueEnt) (l : List QueueEnt) (c : Conn) :
    ringCount c (place front ordered e l) = ringCount c l + if c = e.conn then 1 else 0 := by
  unfold ringCount
  rw [countP_place]
  simp only [decide_eq_true_eq]

theorem owedCount_append (l : List Evicted) (e : Evicted) (c : Conn) :
    owedCount c (l ++ [e]) = owedCount c l + if c = e.conn then 1 else 0 := by
  unfold owedCount
  rw [countP_append, countP_singleton]
  simp only [decide_eq_true_eq]

theorem owedCount_erase {l : List Evicted} (hn : ∃ e ∈ l, e.conn = c) (c' : Conn) :
    owedCount c' l = owedCount c' (l.eraseP fun e => decide (e.conn = c)) + if c' = c then 1 else 0 := by
  obtain ⟨e, he, hc⟩ := hn
  obtain ⟨y, a, b, _, hy, rfl, hl⟩ := exists_of_eraseP he (p := fun e => decide (e.conn = c))
    (decide_eq_true hc)
  rw [hl]
  unfold owedCount
  rw [countP_append, countP_append, countP_cons, of_decide_eq_true hy]
  simp only [decide_eq_true_eq]
  omega

theorem countP_name_zero {α : Type} {f : α → Conn} {l : List α} :
    l.countP (fun e => decide (c = f e)) = 0 ↔ ∀ e ∈ l, f e ≠ c := by
  rw [countP_eq_zero]
  refine forall_congr' fun e => forall_congr' fun _ => ?_
  rw [decide_eq_true_eq]
  exact not_congr eq_comm

theorem owedCount_none {l : List Evicted} : owedCount c l = 0 ↔ ∀ e ∈ l, e.conn ≠ c :=
  countP_name_zero

theorem ringCount_pos (he : e ∈ l) (hc : e.conn = c) : 0 < ringCount c l :=
  countP_pos_iff.mpr ⟨e, he, decide_eq_true hc.symm⟩

theorem holds_iff :
    w.holds conn i n = true ↔ conn i = w.ent.conn ∧ w.waits i = n ∧ w.hook ≠ some true := by
  unfold Wake.holds
  simp only [Bool.and_eq_true, decide_eq_true_eq, and_assoc]

/-! ## where a connection is -/

theorem Sits.at_ring (hs : Sits conn sure h i pl) (he : e ∈ h.live) (hc : e.conn = conn i) :
    pl = .ring := by
  have hpos := ringCount_pos he hc
  rw [hs.ring] at hpos
  cases pl <;> first | rfl | exact absurd hpos (lt_irrefl 0)

theorem Sits.at_listed (hs : Sits conn sure h i pl) {e : Evicted} (he : e ∈ h.evicted)
    (hc : e.conn = conn i) : pl = .listed := by
  have hne : owedCount (conn i) h.evicted ≠ 0 := fun h0 => owedCount_none.mp h0 e he hc
  rw [hs.owed] at hne
  cases pl <;> first | rfl | exact absurd rfl hne

theorem Sits.at_waking (hs : Sits conn sure h i pl) (hw : h.wakes[k]? = some w)
    (hc : w.holds conn i (h.waitNo i) = true) (hq : pl ≠ .out) : pl = .waking := by
  have hpos : 0 < wakeCount conn i (h.waitNo i) h.wakes :=
    countP_pos_iff.mpr ⟨w, mem_of_getElem? hw, hc⟩
  rw [hs.wakes hq] at hpos
  cases pl <;> first | rfl | exact absurd hpos (lt_irrefl 0)

theorem Fits.conn_of (hf : Fits c pl th) (hq : th.permit.state = .queued ∨ th.pc.looks = true) :
    th.permit.conn = c := (hf.name hq).name

theorem Fits.free {p : Permit} (hp : p.state ≠ .queued) (hn : pc.looks = true → p.Of c) :
    Fits c .out ⟨p, pc⟩ := by
  refine ⟨⟨fun hc => absurd hc hp, fun hc => absurd rfl hc⟩, ?_, rfl⟩
  rintro (hc | hc)
  · exact absurd hc hp
  · exact hn hc

theorem Fits.out (hf : Fits c pl th) (hq : th.permit.state ≠ .queued) : pl = .out :=
  by_contra fun hc => hq (hf.queued.mpr hc)

theorem Fits.goes (hf : Fits c pl th) (hpl : pl ≠ .out) {pl' : Place} (hpl' : pl' ≠ .out)
    (ha : pl'.allows th.pc = true) : Fits c pl' th :=
  ⟨⟨fun _ => hpl', fun _ => hf.queued.mpr hpl⟩, hf.name, ha⟩

def Tracks (conn : ι → Conn) (sure : Bool) (h h' : Hall ι) (i : ι) : Prop :=
  ∀ pl, Sits conn sure h i pl → ∃ pl', Sits conn sure h' i pl' ∧ (h.life i pl).Next (h'.life i pl')

structure Hall.Same (conn : ι → Conn) (h h' : Hall ι) (i : ι) : Prop where
  fits : ∀ pl, Fits (conn i) pl (h.threads i) → Fits (conn i) pl (h'.threads i)
  ring : ringCount (conn i) h'.live = ringCount (conn i) h.live
  owed : owedCount (conn i) h'.evicted = owedCount (conn i) h.evicted
  waitNo : h'.waitNo i = h.waitNo i
  wakes : wakeCount conn i (h.waitNo i) h'.wakes = wakeCount conn i (h.waitNo i) h.wakes
  shed : h'.shed i = h.shed i
  decided : h'.decided i = h.decided i

theorem Hall.Same.tracks (hs : Hall.Same conn h h' i) (hp : h.posted i = true → h'.posted i = true) :
    Tracks conn sure h h' i := by
  intro pl hi
  refine ⟨pl, ⟨hs.fits pl hi.fits, hs.ring.trans hi.ring, hs.owed.trans hi.owed, fun hq => ?_,
    fun h1 h2 => hp (hi.posted h1 h2)⟩, ?_⟩
  · rw [hs.waitNo, hs.wakes]
    exact hi.wakes hq
  · unfold Hall.life
    rw [hs.waitNo, hs.shed, hs.decided]
    exact .stay

theorem Hall.put_self (h : Hall ι) (i : ι) (th : Thread) : (h.put i th).threads i = th :=
  update_self _ _ _

theorem Sits.out (hf : Fits (conn i) .out (h.threads i)) (hr : ringCount (conn i) h.live = 0)
    (ho : owedCount (conn i) h.evicted = 0) : Sits conn sure h i .out :=
  ⟨hf, hr, ho, fun hc => absurd rfl hc, fun _ hc => Place.noConfusion hc⟩

theorem Sits.put (hs : Sits conn sure h i pl) (hf : Fits (conn i) pl th) :
    Sits conn sure (h.put i th) i pl :=
  ⟨(Hall.put_self h i th).symm ▸ hf, hs.ring, hs.owed, hs.wakes, hs.posted⟩

theorem life_conclude (hd : pl.ends d = true) :
    (h.life i pl).Next ((h.conclude i d).life i .out) := by
  have hl : (h.conclude i d).life i .out = { h.life i pl with
      place := .out
      decided := update (h.life i pl).decided (h.life i pl).no
        (d :: (h.life i pl).decided (h.life i pl).no) } := by
    unfold Hall.life Hall.conclude
    dsimp only
    rw [update_self]
  rw [hl]
  exact .conclude hd

/-! ## one step, one connection -/

theorem owedCount_erase_other {l : List Evicted} {c' : Conn} (hn : ∃ e ∈ l, e.conn = c)
    (hne : c' ≠ c) : owedCount c' (l.eraseP fun e => decide (e.conn = c)) = owedCount c' l := by
  have h := owedCount_erase hn c'
  rw [if_neg hne] at h
  exact h.symm

theorem same_other (hij : i ≠ j) : Hall.Same conn h (h.put j th) i := by
  refine ⟨fun pl hf => ?_, rfl, rfl, rfl, rfl, rfl, rfl⟩
  rw [show (h.put j th).threads i = h.threads i from update_of_ne hij _ _]
  exact hf

theorem tracks_put (hf : ∀ pl, Sits conn sure h j pl → Fits (conn j) pl th) (i : ι) :
    Tracks conn sure h (h.put j th) i := by
  by_cases hij : i = j
  · subst hij
    exact fun pl hi => ⟨pl, hi.put (hf pl hi), .stay⟩
  · exact (same_other hij).tracks id

theorem tracks_claim (hinj : Injective conn) (hname : (h.threads j).permit.conn = conn j)
    (hl : (h.threads j).pc.looks = true) (hpc : pc.hasAnswer = true)
    (hn : ∃ e ∈ h.evicted, e.conn = conn j) (i : ι) :
    Tracks conn sure h { h.put j ⟨(h.threads j).permit, pc⟩ with
      evicted := h.evicted.eraseP fun e => decide (e.conn = conn j) } i := by
  by_cases hij : i = j
  · subst hij
    intro pl hi
    obtain ⟨e, he, hc⟩ := hn
    obtain rfl := hi.at_listed he hc
    have howed := owedCount_erase ⟨e, he, hc⟩ (conn i)
    rw [hi.owed, if_pos rfl] at howed
    refine ⟨.claimed, ⟨?_, hi.ring, (succ.inj howed).symm, fun _ => hi.wakes nofun,
      fun _ hc => Place.noConfusion hc⟩, .go rfl⟩
    rw [Hall.put_self]
    exact ⟨⟨fun _ => nofun, fun _ => hi.fits.queued.mpr nofun⟩,
      fun _ => hi.fits.name (.inr hl), hpc⟩
  · exact Hall.Same.tracks ⟨(same_other hij).fits, rfl, owedCount_erase_other hn (hinj.ne hij), rfl, rfl,
      rfl, rfl⟩ id

theorem tracks_settle {j : ι} {th : Thread} {d : Decision} {l : List QueueEnt} {ev : List Evicted}
    {sw : Option (List Evicted × List Evicted)}
    (hout : ∀ pl, Sits conn sure h j pl → Fits (conn j) .out th)
    (hring : ∀ i, i ≠ j → ringCount (conn i) l = ringCount (conn i) h.live)
    (howed : ∀ i, i ≠ j → owedCount (conn i) ev = owedCount (conn i) h.evicted)
    (hd : ∀ pl, Sits conn sure h j pl → pl ≠ .out → pl.ends d = true ∧ ringCount (conn j) l = 0 ∧
      owedCount (conn j) ev = 0)
    (hfree : (h.threads j).permit.state ≠ .queued → l = h.live ∧ ev = h.evicted) (i : ι) :
    Tracks conn sure h (if (h.threads j).permit.state = .queued
      then ({ h.put j th with live := l, evicted := ev, sweep := sw } : Hall ι).conclude j d
      else { h.put j th with live := l, evicted := ev, sweep := sw }) i := by
  by_cases hij : i = j
  · subst hij
    intro pl hi
    have hfits : Fits (conn i) .out ((h.put i th).threads i) := by
      rw [Hall.put_self]
      exact hout pl hi
    by_cases hq : (h.threads i).permit.state = .queued
    · rw [if_pos hq]
      obtain ⟨hend, hr, ho⟩ := hd pl hi (hi.fits.queued.mp hq)
      exact ⟨.out, .out hfits hr ho, life_conclude hend⟩
    · rw [if_neg hq]
      obtain ⟨rfl, rfl⟩ := hfree hq
      obtain rfl := hi.fits.out hq
      exact ⟨.out, .out hfits hi.ring hi.owed, .stay⟩
  · have hs : Hall.Same conn h (h.put j th) i := same_other hij
    split
    · exact Hall.Same.tracks ⟨hs.fits, hring i hij, howed i hij, rfl, rfl, rfl,
        update_of_ne hij _ _⟩ id
    · exact Hall.Same.tracks ⟨hs.fits, hring i hij, howed i hij, rfl, rfl, rfl, rfl⟩ id

theorem tracks_pick {u : PickUndo} (hl : Deletes e h.live l) (i : ι) :
    Tracks conn sure h { h with live := l, wakes := h.wakes ++ [⟨e, u, none, h.waitNo⟩] } i := by
  have hring := ringCount_deletes hl (conn i)
  have hwake : wakeCount conn i (h.waitNo i) (h.wakes ++ [⟨e, u, none, h.waitNo⟩]) =
      wakeCount conn i (h.waitNo i) h.wakes + if conn i = e.conn then 1 else 0 := by
    unfold wakeCount
    simp [Wake.holds]
  by_cases hc : conn i = e.conn
  · intro pl hi
    rw [if_pos hc] at hring hwake
    obtain rfl := hi.at_ring hl.mem_self hc.symm
    rw [hi.ring] at hring
    rw [hi.wakes nofun] at hwake
    have hpc := hi.fits.pc
    simp only [Place.allows, Bool.and_eq_true] at hpc
    refine ⟨.waking, ⟨hi.fits.goes nofun nofun ?_, (succ.inj hring).symm,
      hi.owed, fun _ => hwake, fun _ hc => Place.noConfusion hc⟩, .go rfl⟩
    simp only [Place.allows, Bool.and_eq_true]
    exact hpc.1
  · rw [if_neg hc] at hring hwake
    exact Hall.Same.tracks ⟨fun _ hf => hf, hring.symm, rfl, rfl, hwake, rfl, rfl⟩ id

theorem tracks_hook {ok : Bool} (hw : h.wakes[k]? = some w) (hh : w.hook = none) (i : ι) :
    Tracks conn sure h { h with
      wakes := h.wakes.set k { w with hook := some ok }
      posted := fun j => h.posted j || (ok && decide (conn j = w.ent.conn)) } i := by
  intro pl hi
  have hset := Run.countP_set hw { w with hook := some ok } (Wake.holds conn i (h.waitNo i))
  by_cases hpl : pl = .out
  · subst hpl
    exact ⟨.out, .out hi.fits hi.ring hi.owed, .stay⟩
  by_cases hc : ok = true ∧ w.holds conn i (h.waitNo i) = true
  · obtain ⟨rfl, hold⟩ := hc
    obtain rfl := hi.at_waking hw hold hpl
    have hnot : Wake.holds conn i (h.waitNo i) { w with hook := some true } = false := by
      simp [Wake.holds]
    rw [if_pos hold, hnot] at hset
    have hcount := hi.wakes hpl
    refine ⟨.popped, ⟨hi.fits.goes hpl nofun hi.fits.pc, hi.ring, hi.owed, fun _ => ?_,
      fun _ _ => ?_⟩, .go rfl⟩
    · rw [show h.wakes.countP (Wake.holds conn i (h.waitNo i)) = 1 from hcount] at hset
      exact succ.inj hset
    · show (h.posted i || (true && decide (conn i = w.ent.conn))) = true
      rw [(holds_iff.mp hold).1]
      simp
  · -- the wake holds after its hook's answer what it held before
    have hsame : Wake.holds conn i (h.waitNo i) { w with hook := some ok } =
        w.holds conn i (h.waitNo i) := by
      cases ok with
      | false => simp [Wake.holds, hh]
      | true =>
        have hold : w.holds conn i (h.waitNo i) = false := by
          rw [← Bool.not_eq_true]
          exact fun hold => hc ⟨rfl, hold⟩
        rw [hold]
        simp [Wake.holds]
    rw [hsame] at hset
    refine Hall.Same.tracks ?_ (fun hp => ?_) pl hi
    · exact ⟨fun _ hf => hf, rfl, rfl, rfl, add_right_cancel hset, rfl, rfl⟩
    · show (h.posted i || _) = true
      rw [hp, Bool.true_or]

theorem wakeCount_erase (conn : ι → Conn) (hw : ws[k]? = some w) (i : ι) (n : Nat) :
    wakeCount conn i n ws =
      wakeCount conn i n (ws.eraseIdx k) + if w.holds conn i n = true then 1 else 0 :=
  Run.countP_eraseIdx hw _

theorem tracks_done (hw : h.wakes[k]? = some w) (hh : w.hook = some true ∨ sure = false) (i : ι) :
    Tracks conn sure h { h with wakes := h.wakes.eraseIdx k } i := by
  intro pl hi
  have herase := wakeCount_erase conn hw i (h.waitNo i)
  by_cases hpl : pl = .out
  · subst hpl
    exact ⟨.out, .out hi.fits hi.ring hi.owed, .stay⟩
  by_cases hold : w.holds conn i (h.waitNo i) = true
  · obtain rfl := hi.at_waking hw hold hpl
    rcases hh with hh | hh
    · exact absurd hh (holds_iff.mp hold).2.2
    rw [if_pos hold, hi.wakes hpl] at herase
    refine ⟨.popped, ⟨hi.fits.goes hpl nofun hi.fits.pc, hi.ring, hi.owed,
      fun _ => (succ.inj herase).symm, fun hs _ => ?_⟩, .go rfl⟩
    rw [hh] at hs
    cases hs
  · rw [if_neg hold] at herase
    refine Hall.Same.tracks ?_ ?_ pl hi
    · exact ⟨fun _ hf => hf, rfl, rfl, rfl, herase.symm, rfl, rfl⟩
    · exact id

theorem tracks_back (hw : h.wakes[k]? = some w) (hh : w.hook = some false)
    (hg : ∀ j, conn j = w.ent.conn → (h.threads j).permit.state = .queued ∧
      w.waits j = h.waitNo j ∧ (h.threads j).pc.pastRing = false) (i : ι) :
    Tracks conn sure h { h with
      live := place true false { w.ent with live := true } h.live
      wakes := h.wakes.eraseIdx k } i := by
  have herase := wakeCount_erase conn hw i (h.waitNo i)
  have hring := ringCount_place true false { w.ent with live := true } h.live (conn i)
  by_cases hc : conn i = w.ent.conn
  · intro pl hi
    obtain ⟨hq, hn, hpc⟩ := hg i hc
    have hold : w.holds conn i (h.waitNo i) = true := by
      refine holds_iff.mpr ⟨hc, hn, ?_⟩
      rw [hh]
      simp
    have hpl : pl ≠ .out := hi.fits.queued.mp hq
    obtain rfl := hi.at_waking hw hold hpl
    rw [if_pos hold, hi.wakes hpl] at herase
    rw [if_pos hc, hi.ring] at hring
    have hallow := hi.fits.pc
    refine ⟨.ring, ⟨hi.fits.goes hpl nofun ?_, hring, hi.owed,
      fun _ => (succ.inj herase).symm, fun _ hc => Place.noConfusion hc⟩, .go rfl⟩
    simp only [Place.allows, Bool.and_eq_true] at hallow ⊢
    exact ⟨hallow, by rw [hpc]; rfl⟩
  · have hold : ¬ w.holds conn i (h.waitNo i) = true := fun hold => hc (holds_iff.mp hold).1
    rw [if_neg hold] at herase
    rw [if_neg hc] at hring
    exact Hall.Same.tracks ⟨fun _ hf => hf, hring, rfl, rfl, herase.symm, rfl, rfl⟩ id

theorem tracks_evict {nowNs : Nat} (hl : Deletes e h.live l)
    (hg : ∀ j, conn j = e.conn → (h.threads j).pc ≠ .resHolds) (i : ι) :
    Tracks conn sure h (h.evicts conn e l nowNs) i := by
  have hring := ringCount_deletes hl (conn i)
  have howed := owedCount_append h.evicted ⟨e.fd, e.gen, nowNs⟩ (conn i)
  by_cases hc : conn i = e.conn
  · intro pl hi
    rw [if_pos hc] at hring
    rw [if_pos hc] at howed
    obtain rfl := hi.at_ring hl.mem_self hc.symm
    rw [hi.ring] at hring
    rw [hi.owed] at howed
    refine ⟨.listed, ⟨hi.fits.goes nofun nofun ?_, (succ.inj hring).symm, howed,
      fun _ => hi.wakes nofun, fun _ hc => Place.noConfusion hc⟩, ?_⟩
    · -- the owner has not looked at the list yet
      have hpc := hi.fits.pc
      have hne := hg i hc
      revert hpc hne
      cases (h.threads i).pc <;> simp [Place.allows, Pc.away, Pc.hasAnswer, Pc.pastRing, Pc.pastList]
    · have hlife : (h.evicts conn e l nowNs).life i .listed = { h.life i .ring with
          place := .listed
          shed := fun n => (h.life i .ring).shed n || decide (n = (h.life i .ring).no) } := by
        simp only [Hall.life, hc, decide_true, Bool.true_and]
        rfl
      rw [hlife]
      exact .evict rfl
  · rw [if_neg hc] at hring
    rw [if_neg hc] at howed
    refine Hall.Same.tracks ⟨fun _ hf => hf, hring.symm, howed, rfl, rfl, ?_, rfl⟩ id
    funext n
    simp [hc]

theorem tracks_park {front ordered : Bool} (hinj : Injective conn)
    (hearly : ∀ w ∈ h.wakes, w.waits j ≤ h.waitNo j) (hq : (h.threads j).permit.state ≠ .queued)
    (he : e.conn = conn j) (hf : Fits (conn j) .ring th) (i : ι) :
    Tracks conn sure h (h.parks j th (place front ordered e h.live)) i := by
  have hring := ringCount_place front ordered e h.live (conn i)
  by_cases hij : i = j
  · subst hij
    intro pl hi
    obtain rfl := hi.fits.out hq
    rw [if_pos he.symm, hi.ring] at hring
    have hno : update h.waitNo i (h.waitNo i + 1) i = h.waitNo i + 1 := update_self _ _ _
    refine ⟨.ring, ⟨?_, hring, hi.owed, fun _ => ?_, fun _ hc => Place.noConfusion hc⟩, ?_⟩
    · rw [Hall.put_self]
      exact hf
    · -- the wakes in flight are of earlier waits
      show wakeCount conn i (update h.waitNo i (h.waitNo i + 1) i) h.wakes = 0
      refine countP_eq_zero.mpr fun w hw hold => ?_
      have := hearly w hw
      have := (holds_iff.mp hold).2.1
      omega
    · have hlife : (h.parks i th (place front ordered e h.live)).life i .ring =
          { h.life i .out with place := .ring, no := (h.life i .out).no + 1 } := by
        unfold Hall.life
        dsimp only
        rw [hno]
        rfl
      rw [hlife]
      exact .park rfl
  · rw [he, if_neg (hinj.ne hij)] at hring
    have hno : update h.waitNo j (h.waitNo j + 1) i = h.waitNo i := update_of_ne hij _ _
    exact Hall.Same.tracks ⟨(same_other hij).fits, hring, rfl, hno, rfl, rfl, rfl⟩ id

theorem sweepEnd_none (l : List Evicted) (hn : ∀ t ∈ take, t ∉ l) :
    take.foldl (fun l x => l.eraseP fun y => decide (y = x)) l = l := by
  induction take with
  | nil => rfl
  | cons t take ih =>
    have h1 : (l.eraseP fun y => decide (y = t)) = l := by
      refine eraseP_of_forall_not fun y hy hc => ?_
      rw [of_decide_eq_true hc] at hy
      exact hn t mem_cons_self hy
    rw [foldl_cons, h1]
    exact ih fun x hx => hn x (mem_cons_of_mem _ hx)

/-- the sweep in progress has yet to come to everything it took up that is still listed -/
def Hall.SweepOk (h : Hall ι) : Prop :=
  ∀ take rest, h.sweep = some (take, rest) → ∀ t ∈ take, t ∈ h.evicted → t ∈ rest

/-- **every step of the hall is a move of each life in it** -/
theorem Hall.Step.tracks (hinj : Injective conn) (hs : Hall.Step conn sure h h')
    (hsit : ∀ j, ∃ pl, Sits conn sure h j pl)
    (hearly : ∀ w ∈ h.wakes, ∀ j, w.waits j ≤ h.waitNo j) (hsweep : h.SweepOk) (i : ι) :
    Tracks conn sure h h' i := by
  cases hs with
  | act hf => exact tracks_put (fun pl hj => hf pl hj.fits) i
  | post hf =>
    exact Hall.Same.tracks ⟨fun _ hf => hf, rfl, rfl, rfl, rfl, rfl, rfl⟩ (hf i)
  | @consume j hq =>
    by_cases hij : i = j
    · subst hij
      intro pl hi
      refine ⟨pl, { hi with posted := fun _ hp => ?_ }, .stay⟩
      -- an owner in the ring, or in no wait, has no wake to lose
      subst hp
      have hqueued := hi.fits.queued.mpr nofun
      rcases hq with hq | ⟨e, he, hc⟩
      · exact absurd hqueued hq
      · cases hi.at_ring he (hc.trans (hi.fits.conn_of (.inl hqueued)))
    · exact Hall.Same.tracks ⟨fun _ hf => hf, rfl, rfl, rfl, rfl, rfl, rfl⟩ (update_of_ne hij _ _).trans
  | @claim j pc hl hpc hn =>
    obtain ⟨plj, hj⟩ := hsit j
    have hname := hj.fits.conn_of (.inr hl)
    rw [hname] at hn ⊢
    exact tracks_claim hinj hname hl hpc hn i
  | claimNot hl hpc hpl hn =>
    refine tracks_put (fun pl hj => ?_) i
    rw [hj.fits.conn_of (.inr hl)] at hn
    have howed : pl.owed = 0 := hj.owed.symm.trans (owedCount_none.mpr hn)
    exact ⟨hj.fits.queued, fun _ => hj.fits.name (.inr hl), hpc pl howed hj.fits.pc⟩
  | @missed j pc hpc hpl hn =>
    refine tracks_put (fun pl hj => ?_) i
    have hring : pl.inRing = 0 := by
      by_cases hq : (h.threads j).permit.state = .queued
      · have hnone := hn hq
        rw [hj.fits.conn_of (.inl hq)] at hnone
        exact hj.ring.symm.trans (countP_name_zero.mpr hnone)
      · rw [hj.fits.out hq]
        rfl
    exact ⟨hj.fits.queued, fun hc => hj.fits.name (hc.imp id hpl), hpc pl hring hj.fits.pc⟩
  | @settle j p d hp hd =>
    refine @tracks_settle _ _ conn sure h j ⟨p, .idle⟩ d h.live h.evicted h.sweep ?_
      (fun _ _ => rfl) (fun _ _ => rfl) ?_ (fun _ => ⟨rfl, rfl⟩) i
    · exact fun pl _ => Fits.free hp fun hc => by cases hc
    · intro pl hj hpl
      obtain ⟨hend, hr, ho⟩ := hd pl hpl hj.fits.pc
      exact ⟨hend, hj.ring.trans hr, hj.owed.trans ho⟩
  | @take j e l th d hq hn hl hd hf =>
    have hring := ringCount_deletes hl
    obtain ⟨plj, hj⟩ := hsit j
    have hname : e.conn = conn j := hn.trans (hj.fits.conn_of (.inl hq))
    have hat : ∀ {pl}, Sits conn sure h j pl → pl = .ring := fun hj => hj.at_ring hl.mem_self hname
    have htr := @tracks_settle _ _ conn sure h j th d l h.evicted h.sweep ?_ ?_ (fun _ _ => rfl) ?_
      (fun hc => absurd hq hc) i
    · rw [if_pos hq] at htr
      exact htr
    · intro pl hj
      obtain rfl := hat hj
      exact hf hj.fits
    · intro i hij
      have := hring (conn i)
      rw [hname, if_neg (hinj.ne hij)] at this
      exact this.symm
    · intro pl hj _
      obtain rfl := hat hj
      have := hring (conn j)
      rw [hname, if_pos rfl, hj.ring] at this
      exact ⟨hd, (succ.inj this).symm, hj.owed⟩
  | pick hl => exact tracks_pick hl i
  | hook hw hh => exact tracks_hook hw hh i
  | done hw hh => exact tracks_done hw (.inl hh) i
  | back hw hh hg => exact tracks_back hw hh hg i
  | lose hs hw hh => exact tracks_done hw (.inr hs) i
  | evict hl hg _ => exact tracks_evict hl hg i
  | park hq he hf => exact tracks_park hinj (fun w hw => hearly w hw _) hq he hf i
  | sweepStart | sweepSkip =>
    exact Hall.Same.tracks ⟨fun _ hf => hf, rfl, rfl, rfl, rfl, rfl, rfl⟩ id
  | @sweepFn j e take rest hs hc hq hn =>
    rw [← hc] at hn ⊢
    obtain ⟨y, hy, hyc⟩ := hn
    have hat : ∀ {pl}, Sits conn sure h j pl → pl = .listed := fun hj => hj.at_listed hy hyc
    have htr := @tracks_settle _ _ conn sure h j
      ⟨{ (h.threads j).permit with state := .evicted }, (h.threads j).pc⟩ .evictedPass h.live
      (h.evicted.eraseP fun y => decide (y.conn = conn j)) (some (take, rest)) ?_ (fun _ _ => rfl) ?_ ?_
      (fun hc => absurd hq hc) i
    · rw [if_pos hq] at htr
      exact htr
    · intro pl hj
      refine Fits.free nofun fun _ => ?_
      have hof := hj.fits.name (.inl hq)
      exact { hof with }
    · exact fun i hij => owedCount_erase_other ⟨y, hy, hyc⟩ (hinj.ne hij)
    · intro pl hj _
      obtain rfl := hat hj
      have howed := owedCount_erase ⟨y, hy, hyc⟩ (conn j)
      rw [hj.owed, if_pos rfl] at howed
      exact ⟨rfl, hj.ring, (succ.inj howed).symm⟩
  | @sweepEnd take hs =>
    have hnone : ∀ t ∈ take, t ∉ h.evicted := fun t ht hl => by cases hsweep take [] hs t ht hl
    refine Hall.Same.tracks ⟨fun _ hf => hf, rfl, ?_, rfl, rfl, rfl, rfl⟩ id
    exact congrArg (owedCount (conn i)) (sweepEnd_none _ hnone)

/-! ## one step, the whole hall -/

/-- everything in the hall is of some connection, wakes are of waits that have begun, and each
connection is where it should be with its history right -/
structure Hall.Ok (conn : ι → Conn) (sure : Bool) (h : Hall ι) : Prop where
  sits : ∀ i, ∃ pl, Sits conn sure h i pl ∧ (h.life i pl).Ok
  live : ∀ e ∈ h.live, ∃ i, conn i = e.conn
  evicted : ∀ e ∈ h.evicted, ∃ i, conn i = e.conn
  wakes : ∀ w ∈ h.wakes, (∃ i, conn i = w.ent.conn) ∧ ∀ i, w.waits i ≤ h.waitNo i
  sweep : h.SweepOk

theorem mem_foldl_erase : ∀ {l : List Evicted} {e : Evicted},
    e ∈ take.foldl (fun l x => l.eraseP fun y => decide (y = x)) l → e ∈ l := by
  induction take with
  | nil => exact fun he => he
  | cons t take ih =>
    intro l e he
    exact mem_of_mem_eraseP (ih he)

section
variable (hk : h.Ok conn sure) (hs : Hall.Step conn sure h h')
include hk hs

theorem Hall.Ok.named :
    (∀ e ∈ h'.live, ∃ i, conn i = e.conn) ∧ ∀ e ∈ h'.evicted, ∃ i, conn i = e.conn := by
  have hdel : ∀ {e : QueueEnt} {l : List QueueEnt}, Deletes e h.live l → ∀ y ∈ l, ∃ i, conn i = y.conn :=
    fun hl y hy => hk.live y (hl.mem hy)
  have herase : ∀ p, ∀ e ∈ h.evicted.eraseP p, ∃ i, conn i = e.conn :=
    fun _ e he => hk.evicted e (mem_of_mem_eraseP he)
  cases hs with
  | act | post | consume | claimNot | missed | hook | done | lose | sweepStart
  | sweepSkip =>
    exact ⟨hk.live, hk.evicted⟩
  | claim | sweepFn => exact ⟨hk.live, herase _⟩
  | settle => split <;> exact ⟨hk.live, hk.evicted⟩
  | take _ _ hl | pick hl => exact ⟨hdel hl, hk.evicted⟩
  | @back k w hw =>
    refine ⟨fun e he => ?_, hk.evicted⟩
    change e ∈ place true false { w.ent with live := true } h.live at he
    rcases mem_place.mp he with rfl | he
    · exact (hk.wakes w (mem_of_getElem? hw)).1
    · exact hk.live e he
  | @evict e l nowNs hl =>
    refine ⟨hdel hl, fun y hy => ?_⟩
    rcases mem_append.mp hy with hy | hy
    · exact hk.evicted y hy
    · rw [mem_singleton.mp hy]
      exact hk.live e hl.mem_self
  | @park i e th front ordered _ he =>
    refine ⟨fun y hy => ?_, hk.evicted⟩
    rcases mem_place.mp hy with rfl | hy
    · exact ⟨i, he.symm⟩
    · exact hk.live y hy
  | sweepEnd => exact ⟨hk.live, fun e he => hk.evicted e (mem_foldl_erase he)⟩

theorem Hall.Ok.wakes_step :
    ∀ w ∈ h'.wakes, (∃ i, conn i = w.ent.conn) ∧ ∀ i, w.waits i ≤ h'.waitNo i := by
  cases hs with
  | act | post | consume | claim | claimNot | missed | take | evict | sweepStart | sweepFn | sweepSkip
  | sweepEnd =>
    exact hk.wakes
  | settle => split <;> exact hk.wakes
  | pick hl =>
    intro w hw
    rcases mem_append.mp hw with hw | hw
    · exact hk.wakes w hw
    · rw [mem_singleton.mp hw]
      exact ⟨hk.live _ hl.mem_self, fun _ => le_refl _⟩
  | @hook k w ok hw =>
    intro y hy
    rcases mem_or_eq_of_mem_set hy with hy | rfl
    · exact hk.wakes y hy
    · exact hk.wakes w (mem_of_getElem? hw)
  | done | back | lose => exact fun w hw => hk.wakes w (mem_of_mem_eraseIdx hw)
  | @park j =>
    intro w hw
    refine ⟨(hk.wakes w hw).1, fun i => ((hk.wakes w hw).2 i).trans ?_⟩
    show h.waitNo i ≤ update h.waitNo j (h.waitNo j + 1) i
    by_cases hij : i = j
    · subst hij
      rw [update_self]
      exact le_succ _
    · rw [update_of_ne hij]

theorem Hall.Ok.sweep_step : h'.SweepOk := by
  cases hs with
  | act | post | consume | claimNot | missed | take | pick | hook | done | back | lose | park =>
    exact hk.sweep
  | settle => split <;> exact hk.sweep
  | claim =>
    intro take rest hr t ht hl
    exact hk.sweep take rest hr t ht (mem_of_mem_eraseP hl)
  | @evict e l nowNs _ _ hno =>
    intro take rest hr t ht hl
    rcases mem_append.mp hl with hl | hl
    · exact hk.sweep take rest hr t ht hl
    · rw [mem_singleton.mp hl] at ht
      exact absurd ht (hno take rest hr)
  | sweepStart =>
    intro take rest hr t ht _
    cases hr
    exact ht
  | @sweepFn j e take rest hr hc _ hn =>
    obtain ⟨pl, hj, _⟩ := hk.sits j
    -- the one entry of its name went
    have hgone : ∀ t ∈ h.evicted.eraseP fun y => decide (y.conn = e.conn), t.conn ≠ e.conn := by
      have howed := owedCount_erase hn (conn j)
      have hle : owedCount (conn j) h.evicted ≤ 1 := by
        rw [hj.owed]
        cases pl <;> decide
      rw [if_pos hc] at howed
      rw [← hc] at howed hn ⊢
      exact owedCount_none.mp (by omega)
    have hleft : ∀ t ∈ take, t ∈ (h.evicted.eraseP fun y => decide (y.conn = e.conn)) → t ∈ rest := by
      intro t ht hl
      rcases mem_cons.mp (hk.sweep _ _ hr t ht (mem_of_mem_eraseP hl)) with rfl | hin
      · exact absurd rfl (hgone _ hl)
      · exact hin
    intro take' rest' hr'
    cases hr'
    exact hleft
  | @sweepSkip e take rest hr hn =>
    intro take' rest' hr' t ht hl
    cases hr'
    rcases mem_cons.mp (hk.sweep _ _ hr t ht hl) with rfl | hin
    · exact absurd rfl (hn _ hl)
    · exact hin
  | sweepEnd =>
    intro take rest hr
    cases hr

end

/-- **every step keeps the hall in order** -/
theorem Hall.Ok.step (hinj : Injective conn) (hk : h.Ok conn sure)
    (hs : Hall.Step conn sure h h') : h'.Ok conn sure := by
  obtain ⟨h1, h2⟩ := hk.named hs
  refine ⟨fun i => ?_, h1, h2, hk.wakes_step hs, hk.sweep_step hs⟩
  obtain ⟨pl, hi, hl⟩ := hk.sits i
  have hsit : ∀ j, ∃ pl, Sits conn sure h j pl := fun j => (hk.sits j).imp fun _ hj => hj.1
  obtain ⟨pl', hi', hn⟩ := hs.tracks hinj hsit (fun w hw => (hk.wakes w hw).2) hk.sweep i pl hi
  exact ⟨pl', hi', hn.ok hl⟩

end Fc
