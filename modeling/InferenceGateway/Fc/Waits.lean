import InferenceGateway.Fc.Hall
import InferenceGateway.Fc.Turns

/-!
# Waits and their ends

The machine refines the waiting hall: a step that is orderly is a few steps of the hall
(`hall_micro`), so every orderly run keeps the hall in order (`waits_run`).

* `queue_permits_agree`   every entry in the ring is of a waiting permit, and no waiter is lost;
* `one_decision`          every wait that is over has one decision, an eviction exactly if it was
  evicted, and nothing on the evicted list is of a wait that is over;
* `ghost_entry`, `evicted_and_turned`   what happens otherwise.
-/

set_option linter.unusedSectionVars false

open Function List Option Run Bool

namespace Fc

open Relation

section
variable {ι : Type} [DecidableEq ι] {conn : ι → Conn} {x x' : Sys ι} {a : Act ι}

/-! ## the steps that are orderly -/

/-- the steps a wait can meet: a drain ends waits its own way -/
def Act.ofWaits : Act ι → Bool
  | .pop => false
  | .drainFn _ => false
  | _ => true

/-- no waiter is evicted while its owner stands between its two looks, or at a time a sweep has
taken up for it; and an entry goes back only while its wait goes on and its owner is not past its
look at the ring -/
def orderly [Fintype ι] (conn : ι → Conn) (x : Sys ι) : Act ι → Bool
  | .push i nowNs front firstNs ttlMs m =>
    (queuePush m x.fc (x.asks i firstNs ttlMs) (conn i).1 (conn i).2 nowNs front).2.2.2.all fun e =>
        decide (∀ j, conn j = (e.fd, e.gen) → (x.threads j).pc ≠ .resHolds) &&
          x.sweep.all fun s => decide ((⟨e.fd, e.gen, nowNs⟩ : Evicted) ∉ s.1)
  | .wakeEnd k _ =>
    x.wakes[k]?.all fun w => decide (w.hook = some false → ∀ j, conn j = (w.ent.fd, w.ent.gen) →
      (x.threads j).permit.state = .queued ∧ w.waits j = x.waitNo j ∧
        (x.threads j).pc.pastRing = false)
  | _ => true

/-- the allocations of a failed wake succeed, below the greatest depth -/
def allocates (x : Sys ι) : Act ι → Bool
  | .wakeEnd _ m => m.compact && m.grow && decide (x.fc.queue.count < queueDepthMax)
  | _ => true

/-! ## the machine refines the hall -/

def Sys.hall (x : Sys ι) : Hall ι :=
  { threads := x.threads, live := x.fc.queue.live, evicted := x.fc.queue.evicted, wakes := x.wakes
    sweep := x.sweep, waitNo := x.waitNo, posted := x.posted, shed := x.shed, decided := x.decided }

instance : Fintype Place :=
  ⟨{.out, .ring, .waking, .popped, .listed, .claimed}, fun pl => by cases pl <;> decide⟩

def Pc.calm (pc : Pc) : Bool :=
  !pc.away && !pc.pastRing && !pc.pastList && !pc.hasAnswer && !pc.looks

variable {pc : Pc} {p : Permit} {c : Conn} {th : Thread} {i : ι} {d : Decision} {nowNs : Nat}
  {m : Mem} {t : PState}

theorem calm_allows {pc' : Pc} (h : pc.calm = true) (h' : pc'.calm = true) {pl : Place}
    (ha : pl.allows pc = true) : pl.allows pc' = true := by
  unfold Pc.calm at h h'
  simp only [and_eq_true, not_eq_true'] at h h'
  cases pl with
  | out => rfl
  | claimed =>
    rw [Place.allows, h.1.2] at ha
    cases ha
  | _ => simp [Place.allows, h']

/-- the permit's part in a wait is as before -/
structure SameWait (p q : Permit) : Prop where
  state : q.state = p.state
  fc : q.fc = p.fc
  name : q.conn = p.conn

theorem SameWait.of {q : Permit} (h : SameWait p q) (ho : p.Of c) : q.Of c :=
  ⟨h.fc.trans ho.fc, h.name.trans ho.name, ho.fd⟩

variable {old : Pc}

theorem fits_keep (hpc : th.pc = old) (hp : SameWait th.permit p)
    (ha : ∀ pl : Place, pl.allows old = true → pl.allows pc = true)
    (hl : pc.looks = true → th.permit.state = .queued ∨ old.looks = true) (pl : Place)
    (h : Fits c pl th) : Fits c pl ⟨p, pc⟩ := by
  subst hpc
  refine ⟨?_, fun hc => hp.of (h.name ?_), ha pl h.pc⟩
  · rw [hp.state]
    exact h.queued
  · rcases hc with hc | hc
    · exact .inl (hp.state.symm.trans hc)
    · exact hl hc

theorem fits_calm (hpc : th.pc = old) (h1 : old.calm = true) (hp : SameWait th.permit p)
    (h2 : pc.calm = true) (pl : Place) (h : Fits c pl th) : Fits c pl ⟨p, pc⟩ := by
  refine fits_keep hpc hp (fun pl => calm_allows h1 h2) (fun hl => ?_) pl h
  unfold Pc.calm at h2
  rw [hl] at h2
  simp at h2

theorem fits_free (h0 : th.permit.state ≠ .queued) (hs : p.state ≠ .queued) (hl : pc.looks = false)
    (pl : Place) (h : Fits c pl th) : Fits c pl ⟨p, pc⟩ := by
  have hpl : pl = .out := by
    by_contra hc
    exact h0 (h.queued.mpr hc)
  rw [hpl]
  refine Fits.free hs fun hc => ?_
  rw [hl] at hc
  cases hc

theorem fits_away (hpc : th.pc = old) (ha : old.away = true) (hs : th.permit.state ≠ .queued → p.state ≠ .queued)
    (hl : pc.looks = false) (pl : Place) (h : Fits c pl th) : Fits c pl ⟨p, pc⟩ := by
  subst hpc
  have hpl : pl = .out := by
    have hpc := h.pc
    cases pl with
    | out => rfl
    | claimed =>
      revert ha hpc
      cases th.pc <;> simp [Place.allows, Pc.away, Pc.hasAnswer]
    | _ => simp [Place.allows, ha] at hpc
  have h0 : th.permit.state ≠ .queued := fun hc => h.queued.mp hc hpl
  exact fits_free h0 (hs h0) hl pl h

theorem acquireStart_free (s : State) (p : Permit) (canQueue woken : Bool) (tkey : UInt64) (band : Band) :
    (acquireStart s p canQueue woken tkey band).1.state ≠ .queued ∧
      (acquireStart s p canQueue woken tkey band).2.looks = false := by
  unfold acquireStart
  split
  · exact ⟨nofun, rfl⟩
  split
  · exact ⟨nofun, rfl⟩
  split
  · exact ⟨nofun, rfl⟩
  split <;> exact ⟨nofun, rfl⟩

theorem EpMove.calmPc {s s' : State} {r : Role} (h : EpMove s p r nowNs s' pc) : pc.calm = true := by
  cases h with
  | force state mode place | take state unit place => rcases place with rfl | rfl <;> rfl
  | stop | next | shed => rfl

theorem releaseRole_wait (s : State) (p : Permit) (r : Role) : SameWait p (releaseRole s p r).2 := by
  unfold releaseRole
  split
  · exact ⟨rfl, rfl, rfl⟩
  split <;> exact ⟨rfl, rfl, rfl⟩

theorem epLand_wait (s : State) (p : Permit) (ep : Nat) (r : Role) (nowNs : Nat) :
    SameWait p (epLand s p ep r nowNs).2 := by
  unfold epLand
  split <;> exact ⟨rfl, rfl, rfl⟩

theorem fits_release (hpc : th.pc = .idle) (pl : Place) (h : Fits c pl th) :
    Fits c pl ⟨(releaseStart th.permit).1, (releaseStart th.permit).2⟩ := by
  by_cases hq : th.permit.state = .queued
  · have hs : releaseStart th.permit = (th.permit, .relTake) := by
      unfold releaseStart
      rw [hq]
    rw [hs]
    show Fits c pl ⟨_, .relTake⟩
    exact fits_keep hpc ⟨rfl, rfl, rfl⟩ (by decide) (fun _ => .inl hq) pl h
  · refine fits_free hq ?_ ?_ pl h
    · unfold releaseStart
      split <;> simp_all
    · unfold releaseStart
      split <;> first | rfl | exact absurd ‹_› hq

theorem permitSettle_snd (p : Permit) (st : PState) :
    (permitSettle p st).2 = decide (p.state = .queued) := by
  unfold permitSettle
  split <;> simp [*]

theorem concludeIf_hall (y : Sys ι) (i : ι) (d : Decision) (c : Bool) :
    (y.concludeIf i d c).hall = if c = true then y.hall.conclude i d else y.hall := by
  cases c <;> rfl

variable {sure : Bool}

theorem hall_of {y : Sys ι} {h : Hall ι} {s : State} {l : List QueueEnt} {ev : List Evicted}
    (hl : s.queue.live = l) (he : s.queue.evicted = ev)
    (hs : Hall.Step conn sure h { y.hall with live := l, evicted := ev }) :
    Hall.Step conn sure h (Sys.hall { y with fc := s }) := by
  subst hl he
  exact hs

theorem names_eq (fd : Int) (gen : Nat) :
    (fun e : Evicted => e.names fd gen) = fun e => decide (e.conn = (fd, gen)) := by
  funext e
  unfold Evicted.names Evicted.conn
  simp [Prod.ext_iff]

theorem hall_claim (hp : PoolOk x.fc) (hk : x.hall.Ok conn sure) {yes no : Pc}
    (hl : (x.threads i).pc.looks = true) (hyes : yes.hasAnswer = true)
    (hno : ∀ pl : Place, pl.owed = 0 → pl.allows (x.threads i).pc = true → pl.allows no = true)
    (hnl : no.looks = false) :
    Hall.Step conn sure x.hall
      (x.put i (x.claim i).1 (x.threads i).permit (if (x.claim i).2 then yes else no)).hall := by
  obtain ⟨_, hlive, _, _, hc, hev⟩ :=
    evictedClaim_spec hp (x.threads i).permit.qFd (x.threads i).permit.qGen
  obtain ⟨pl, hi, _⟩ := hk.sits i
  have hof := hi.fits.name (.inr hl)
  have hfd : (x.threads i).permit.qFd ≥ 0 := by
    have h0 := hof.fd
    rw [← hof.name] at h0
    exact h0
  rw [names_eq, decide_eq_true hfd] at hc
  rw [names_eq] at hev
  refine hall_of (y := { x with threads := update x.threads i ⟨_, _⟩ }) hlive hev ?_
  generalize (x.claim i).2 = b at hc ⊢
  cases b with
  | true =>
    obtain ⟨e, he, hn⟩ := List.any_eq_true.mp hc.symm
    exact .claim hl hyes ⟨e, he, of_decide_eq_true hn⟩
  | false =>
    refine .claimNot hl hno hnl fun e he hn => ?_
    exact absurd (decide_eq_true hn) (List.any_eq_false.mp hc.symm e he)

theorem hall_take (hp : PoolOk x.fc) {r : Reason}
    (ht : (x.takes i).2.2 = true) (hd : Place.ring.ends d = true)
    (hf : Fits (conn i) .ring (x.threads i) → Fits (conn i) .out ⟨p, pc⟩) :
    Hall.Step conn sure x.hall ((x.put i (x.taken i r nowNs).1 p pc).conclude i d).hall := by
  obtain ⟨hq, _, e, hfd, hgen, hl⟩ := (queueTake_spec hp (x.threads i).permit).1 ht
  have hstep : Hall.Step conn sure x.hall _ := .take hq (Prod.ext hfd hgen) hl.live hd hf
  exact hall_of (y := { x with threads := update x.threads i ⟨p, pc⟩ }.conclude i d) rfl hl.evicted hstep

def parkPc (gone : Option QueueEnt) : Pc :=
  match gone with
  | some e => .pushHook e.fd e.gen
  | none => .idle

/-- the hall after the waiter a park takes the place of has left -/
def Hall.gone (conn : ι → Conn) (h : Hall ι) (gone : Option QueueEnt) (l : List QueueEnt) (nowNs : Nat) :
    Hall ι :=
  match gone with
  | some e => h.evicts conn e l nowNs
  | none => h

theorem park_hall {i : ι} {nowNs firstNs ttlMs : Nat} {front : Bool} {m : Mem} {l : List QueueEnt}
    {r : State × Permit × PushRc × Option QueueEnt}
    (hr : queuePush m x.fc (x.asks i firstNs ttlMs) (conn i).1 (conn i).2 nowNs front = r)
    (hev : r.1.queue.evicted =
      x.fc.queue.evicted ++ (r.2.2.2.map fun e => (⟨e.fd, e.gen, nowNs⟩ : Evicted)).toList) :
    (x.park conn i nowNs front firstNs ttlMs m).hall =
      { (x.hall.gone conn r.2.2.2 l nowNs).put i ⟨r.2.1, parkPc r.2.2.2⟩ with
        live := r.1.queue.live
        waitNo := if r.2.2.1 = .parked then update x.waitNo i (x.waitNo i + 1) else x.waitNo } := by
  unfold Sys.park Sys.hall Sys.put Hall.put Hall.gone parkPc
  dsimp only
  rw [hr, hev]
  cases r.2.2.2 with
  | some e => rfl
  | none =>
    simp only [map_none, toList_none, append_nil]

theorem not_queued_of_free (h : p.free = true) : p.state ≠ .queued :=
  of_decide_eq_true (and_eq_true_iff.mp h).2

theorem hall_push [Fintype ι] (hp : PoolOk x.fc) {firstNs ttlMs : Nat} {front : Bool}
    (hfree : (x.threads i).permit.free = true)
    (hok : orderly conn x (.push i nowNs front firstNs ttlMs m) = true) :
    ReflTransGen (Hall.Step conn sure) x.hall (x.park conn i nowNs front firstNs ttlMs m).hall := by
  have h0 := not_queued_of_free hfree
  simp only [orderly] at hok
  generalize hperm : x.asks i firstNs ttlMs = p at hok
  generalize hr : queuePush m x.fc p (conn i).1 (conn i).2 nowNs front = r at hok
  have hpark := fun l => @park_hall ι _ conn x i nowNs firstNs ttlMs front m l r (hperm ▸ hr)
  -- a push that leaves the queue alone
  have refused : ∀ q, q.state ≠ .queued → r.2.1 = q → r.1.queue.live = x.fc.queue.live →
      r.1.queue.evicted = x.fc.queue.evicted → r.2.2.2 = none → r.2.2.1 ≠ .parked →
      ReflTransGen (Hall.Step conn sure) x.hall (x.park conn i nowNs front firstNs ttlMs m).hall := by
    intro q hq h1 h2 h3 h4 h5
    have hev : r.1.queue.evicted = x.fc.queue.evicted ++
        (r.2.2.2.map fun e => (⟨e.fd, e.gen, nowNs⟩ : Evicted)).toList := by
      rw [h3, h4]
      simp
    rw [hpark x.fc.queue.live hev, h1, h2, h4, if_neg h5]
    exact .single (.act (fits_free h0 hq rfl))
  by_cases hfd : (conn i).1 < 0
  · rw [queuePush_negative hfd] at hr
    subst hr
    refine refused p ?_ rfl rfl rfl rfl nofun
    rw [← hperm]
    exact h0
  obtain ⟨hq, _, hrc, hgone, hpm⟩ := @queuePush_fields m x.fc p (conn i).1 (conn i).2 nowNs front hfd
  rw [hr] at hq hrc hgone hpm
  rcases pushLocked_spec hp m p (conn i).1 (conn i).2 nowNs front with hlk | hlk
  · rw [hlk] at hq hrc hgone hpm
    refine refused _ ?_ hpm (by rw [hq.queue]) (by rw [hq.queue]) hgone (by rw [hrc]; exact nofun)
    exact nofun
  · obtain ⟨l, hl, hlv⟩ := hlk.live
    rw [← hgone] at hl
    have hev : r.1.queue.evicted = x.fc.queue.evicted ++
        (r.2.2.2.map fun e => (⟨e.fd, e.gen, nowNs⟩ : Evicted)).toList := by
      rw [hq.queue, hgone]
      exact hlk.evicted
    -- the waiter that makes room
    have hmid : ReflTransGen (Hall.Step conn sure) x.hall (x.hall.gone conn r.2.2.2 l nowNs) ∧
        (x.hall.gone conn r.2.2.2 l nowNs).live = l := by
      revert hl hok
      cases r.2.2.2 with
      | none =>
        intro _ hl
        exact ⟨.refl, hl.symm⟩
      | some e =>
        intro hok hl
        simp only [all_some, and_eq_true, decide_eq_true_eq] at hok
        refine ⟨.single (.evict hl.1 hok.1 fun take rest hs => ?_), rfl⟩
        have hsw := hok.2
        rw [show x.sweep = some (take, rest) from hs] at hsw
        exact of_decide_eq_true hsw
    have hth : ∀ j, (x.hall.gone conn r.2.2.2 l nowNs).threads j = x.threads j := by
      intro j
      cases r.2.2.2 <;> rfl
    have hno : (x.hall.gone conn r.2.2.2 l nowNs).waitNo = x.waitNo := by
      cases r.2.2.2 <;> rfl
    refine hmid.1.trans (.single ?_)
    rw [hpark l hev, hq.queue, hlv, hrc]
    generalize x.hall.gone conn r.2.2.2 l nowNs = y at hmid hth hno ⊢
    obtain ⟨_, rfl⟩ := hmid
    have hfreeY : (y.threads i).permit.state ≠ .queued := by
      rw [hth]
      exact h0
    rw [← hno]
    by_cases hparked : (pushLocked m x.fc p (conn i).1 (conn i).2 nowNs front).rc = .parked
    · rw [if_pos hparked] at hpm ⊢
      rw [if_pos hparked]
      refine .park hfreeY rfl ?_
      rw [hpm]
      refine ⟨⟨fun _ => nofun, fun _ => rfl⟩, fun _ => ⟨rfl, rfl, Int.not_lt.mp hfd⟩, ?_⟩
      cases r.2.2.2 <;> rfl
    · rw [if_neg hparked] at hpm ⊢
      rw [if_neg hparked]
      refine .act (fits_free hfreeY ?_ ?_)
      · rw [hpm]
        exact nofun
      · cases r.2.2.2 <;> rfl

theorem resumed_free (p : Permit) :
    (queueResumed p).1.state ≠ .queued ∧ (resumeEvicted p).1.state ≠ .queued := by
  unfold queueResumed resumeEvicted permitSettle
  by_cases hq : p.state = .queued
  · simp [hq]
  · simp [hq]

section
variable (hp : p.state ≠ .queued)
  (hd : ∀ pl : Place, pl ≠ .out → pl.allows (x.threads i).pc = true →
    pl.ends d = true ∧ pl.inRing = 0 ∧ pl.owed = 0)
include hp hd

theorem hall_settle : Hall.Step conn sure x.hall ((x.put i x.fc p .idle).concludeIf i d
      (permitSettle (x.threads i).permit t).2).hall := by
  have hhall : ((x.put i x.fc p .idle).concludeIf i d (permitSettle (x.threads i).permit t).2).hall =
      if (x.hall.threads i).permit.state = .queued then (x.hall.put i ⟨p, .idle⟩).conclude i d
      else x.hall.put i ⟨p, .idle⟩ := by
    rw [concludeIf_hall, permitSettle_snd]
    simp only [decide_eq_true_eq]
    rfl
  rw [hhall]
  exact .settle hp hd

theorem hall_resumed :
    ReflTransGen (Hall.Step conn sure) x.hall (((x.put i x.fc p .idle).concludeIf i d
      (permitSettle (x.threads i).permit t).2).consume i).hall := by
  refine .tail (.single (hall_settle hp hd)) (.consume (.inl ?_))
  show (((x.put i x.fc p .idle).concludeIf i d
    (permitSettle (x.threads i).permit t).2).threads i).permit.state ≠ .queued
  rw [concludeIf_threads, put_self]
  exact hp

end

theorem hall_sweepFn (hp : PoolOk x.fc) (hk : x.hall.Ok conn sure) {take rest : List Evicted}
    {e : Evicted} (hs : x.sweep = some (take, e :: rest)) (hc : conn i = (e.fd, e.gen)) :
    Hall.Step conn sure x.hall ((({ x with sweep := some (take, rest) } : Sys ι).put i
      (x.settles i e).1 (x.settles i e).2.1 (x.threads i).pc).concludeIf i .evictedPass
      (x.settles i e).2.2).hall := by
  obtain ⟨_, hlive, _, _, hfound, hev⟩ := evictedClaim_spec hp e.fd e.gen
  obtain ⟨pl, hi, _⟩ := hk.sits i
  rw [names_eq] at hfound hev
  cases hb : (evictedClaim x.fc e.fd e.gen).2 with
  | true =>
    rw [hb] at hev
    rw [hb] at hfound
    obtain ⟨y, hy, hn⟩ := List.any_eq_true.mp (and_eq_true_iff.mp hfound.symm).2
    have hn := of_decide_eq_true hn
    have hq : (x.threads i).permit.state = .queued := by
      refine hi.fits.queued.mpr ?_
      rw [hi.at_listed hy (hn.trans hc.symm)]
      exact nofun
    have hset : x.settles i e =
        ((evictedClaim x.fc e.fd e.gen).1, { (x.threads i).permit with state := .evicted }, true) := by
      unfold Sys.settles evictedSettle permitSettle
      rw [if_pos hb, if_pos hq]
    have hstep : Hall.Step conn sure x.hall _ := .sweepFn hs hc hq ⟨y, hy, hn⟩
    rw [hset]
    unfold Sys.hall Sys.concludeIf Sys.conclude Sys.put
    simp only [if_true]
    rw [hlive, hev]
    exact hstep
  | false =>
    have hset : x.settles i e =
        (x.fc, (x.threads i).permit, false) := by
      unfold Sys.settles evictedSettle
      rw [if_neg (by rw [hb]; exact false_ne_true)]
    have hstep : Hall.Step conn sure x.hall _ := .sweepSkip hs fun y hy hn => ?_
    · rw [hset]
      unfold Sys.hall Sys.concludeIf Sys.put
      rw [update_eq_self]
      exact hstep
    · -- it would have been found
      obtain rfl := hi.at_listed hy (hn.trans hc.symm)
      have h0 := (hi.fits.name (.inl (hi.fits.queued.mpr nofun))).fd
      rw [hc] at h0
      rw [hb] at hfound
      have hany : (x.fc.queue.evicted.any fun y => decide (y.conn = e.conn)) = true :=
        List.any_eq_true.mpr ⟨y, hy, decide_eq_true hn⟩
      rw [hany, decide_eq_true h0] at hfound
      cases hfound

/-- **an orderly step of the machine is a few steps of the hall** -/
theorem hall_micro [Fintype ι] (hp : PoolOk x.fc) (hk : x.hall.Ok conn sure)
    (hcap : x.wakes ≠ [] → x.fc.queue.cap ≠ 0) (hin : a.ofWaits = true)
    (hok : orderly conn x a = true) (hall : sure = true → allocates x a = true)
    (hm : Micro conn x a x') : ReflTransGen (Hall.Step conn sure) x.hall x'.hall := by

  -- a step of one owner that moves no waiter
  have act : ∀ {i : ι} {s : State} {p : Permit} {pc : Pc}, s.queue.live = x.fc.queue.live →
      s.queue.evicted = x.fc.queue.evicted →
      (∀ pl, Fits (conn i) pl (x.threads i) → Fits (conn i) pl ⟨p, pc⟩) →
      ReflTransGen (Hall.Step conn sure) x.hall (x.put i s p pc).hall := by
    intro i s p pc hl he hf
    exact .single (hall_of (y := { x with threads := update x.threads i ⟨p, pc⟩ }) hl he (.act hf))
  have gate : ∀ {i : ι} {s : State} {p : Permit} {pc : Pc}, s.queue = x.fc.queue →
      (∀ pl, Fits (conn i) pl (x.threads i) → Fits (conn i) pl ⟨p, pc⟩) →
      ReflTransGen (Hall.Step conn sure) x.hall (x.put i s p pc).hall :=
    fun h => act (congrArg Queue.live h) (congrArg Queue.evicted h)
  have leg : ∀ {i : ι} {r : Role} {nowNs : Nat} {s : State} {pc : Pc},
      EpMove x.fc (x.threads i).permit r nowNs s pc → ∀ {old : Pc}, (x.threads i).pc = old →
      old.calm = true →
      ReflTransGen (Hall.Step conn sure) x.hall (x.put i s (x.threads i).permit pc).hall :=
    fun h _ hpc hc => gate h.onlyEp.queue (fits_calm hpc hc ⟨rfl, rfl, rfl⟩ h.calmPc)
  -- the owner did not find its entry in the ring
  have missed : ∀ {i : ι} {old pc : Pc}, (x.threads i).pc = old →
      (∀ pl : Place, pl.inRing = 0 → pl.allows old = true → pl.allows pc = true) →
      (pc.looks = true → old.looks = true) →
      ((x.threads i).permit.state = .queued →
        ∀ e ∈ x.fc.queue.live, e.conn ≠ (x.threads i).permit.conn) →
      ReflTransGen (Hall.Step conn sure) x.hall (x.put i x.fc (x.threads i).permit pc).hall :=
    fun hpc ha hl hn => .single (.missed (hpc ▸ ha) (hpc ▸ hl) hn)

  -- a step of the pool that moves no waiter
  have still : ∀ {s : State}, s.queue.live = x.fc.queue.live → s.queue.evicted = x.fc.queue.evicted →
      ReflTransGen (Hall.Step conn sure) x.hall (Sys.hall { x with fc := s }) := by
    intro s hl he
    have : Sys.hall { x with fc := s } = x.hall := by
      unfold Sys.hall
      rw [hl, he]
    rw [this]
  cases hm with
  | acquire hpc hf =>
    obtain ⟨h1, h2⟩ := acquireStart_free x.fc _ _ _ _ _
    exact act rfl rfl (fits_free (not_queued_of_free hf) h1 h2)
  | bypass hpc hf =>
    refine gate ?_ (fits_free (not_queued_of_free hf) nofun rfl)
    split <;> rfl
  | epAcquire hpc => exact act rfl rfl (fits_calm hpc rfl ⟨rfl, rfl, rfl⟩ rfl)
  | epAnyNot | deadlineNot => exact .refl
  | epAny hpc =>
    refine gate ?_ (fits_calm hpc rfl ⟨rfl, rfl, rfl⟩ rfl)
    split <;> rfl
  | move hpc => exact leg (moveStart_move _ _ _ _ _) hpc rfl
  | releaseRole hpc =>
    exact gate (onlyEp_releaseRole _ _ _).queue (fits_calm hpc rfl (releaseRole_wait _ _ _) rfl)
  | release hpc => exact act rfl rfl (fits_release hpc)
  | push hpc hf => exact hall_push hp hf hok
  | @resume i hpc hq =>
    exact act rfl rfl (fits_keep hpc ⟨rfl, rfl, rfl⟩ (by decide) fun _ => .inl hq)
  | @resumeNot i hpc hq =>
    refine .single (.consume (.inl fun hc => hq ⟨hc, ?_⟩))
    obtain ⟨pl, hi, _⟩ := hk.sits i
    exact (hi.fits.name (.inl hc)).fc
  | acqTake hpc | acqTakeNot hpc | acqOver hpc => exact act rfl rfl (fits_away hpc rfl id rfl)
  | acqRefuse hpc | acqBand hpc =>
    exact act rfl rfl (fits_away hpc rfl (fun _ => nofun) rfl)
  | acqShared hpc =>
    exact gate (acquireShared_spec _ x.fc _ _ _).1.queue (fits_away hpc rfl id rfl)
  | acqSharedNot hpc =>
    exact gate (acquireShared_spec _ x.fc _ _ _).1.queue (fits_away hpc rfl (fun _ => nofun) rfl)
  | legTry hpc => exact leg (legStep_move _ _ _ _ _) hpc rfl
  | legForce hpc | moveForce hpc =>
    exact gate rfl (fits_calm hpc rfl ⟨rfl, rfl, rfl⟩ rfl)
  | legLand hpc =>
    exact gate (onlyEp_epLand _ _ _ _ _).queue (fits_calm hpc rfl (epLand_wait _ _ _ _ _) rfl)
  | moveLand hpc =>
    exact gate (onlyEp_giveLeg _ _ _).queue (fits_calm hpc rfl ⟨rfl, rfl, rfl⟩ rfl)
  | @relRole i nowNs ok r rs hpc =>
    refine gate (onlyEp_releaseRole _ _ _).queue (fits_away hpc rfl (fun hs => ?_) rfl)
    rw [(releaseRole_wait x.fc (x.threads i).permit r).state]
    exact hs
  | relSvc hpc | relSvcNot hpc | relBand hpc =>
    exact gate rfl (fits_away hpc rfl id rfl)
  | relTenant hpc =>
    exact gate (releaseTenant_spec hp _).2.2 (fits_away hpc rfl (fun _ => nofun) rfl)
  | @relTake i nowNs ok hpc ht =>
    refine .single (hall_take hp ht rfl fun _ => Fits.free nofun fun hc => ?_)
    cases hc
  | @relTakeNot i nowNs ok hpc ht =>
    obtain ⟨_, hnone⟩ := (queueTake_spec hp (x.threads i).permit).2 ht
    exact missed hpc (by decide) (fun _ => rfl) fun hq e he hn => hnone hq e he (Prod.ext_iff.mp hn)
  | @relClaim _ _ _ hpc | @resClaim _ _ _ hpc =>
    exact .single (hall_claim hp hk (by rw [hpc]; rfl) rfl (by rw [hpc]; decide) rfl)
  | @relDrop _ _ _ hpc | @relSettle _ _ _ hpc =>
    exact .single (hall_settle nofun (by rw [hpc]; decide))
  | @resEvict i nowNs ok hpc =>
    exact hall_resumed (resumed_free _).2 (by rw [hpc]; decide)
  | @resTurn i nowNs ok hpc =>
    exact hall_resumed (resumed_free _).1 (by rw [hpc]; decide)
  | @resWait i nowNs ok hpc hh =>
    have hq : (x.threads i).permit.state = .queued := by
      exact of_decide_eq_true (and_eq_true_iff.mp hh).1
    obtain ⟨e, he, hn⟩ := (queueHolds_spec hp hq).mp hh
    have hwait : ReflTransGen (Hall.Step conn sure) x.hall
        (x.put i x.fc (x.threads i).permit .idle).hall :=
      act rfl rfl (fits_keep hpc ⟨rfl, rfl, rfl⟩ (by decide) nofun)
    refine .tail hwait (.consume (.inr ⟨e, he, ?_⟩))
    show e.conn = ((x.put i x.fc (x.threads i).permit .idle).threads i).permit.conn
    rw [put_self]
    exact Prod.ext hn.1 hn.2
  | @resHolds i nowNs ok hpc hh =>
    refine missed hpc (by decide) nofun fun hq e he hn => ?_
    have hyes := (queueHolds_spec hp hq).mpr ⟨e, he, Prod.ext_iff.mp hn⟩
    exact false_ne_true (hh.symm.trans hyes)
  | @pushHook i nowNs ok fd gen hpc =>
    refine .tail (act rfl rfl (fits_calm hpc rfl ⟨rfl, rfl, rfl⟩ rfl)) (.post fun j hj => ?_)
    show (x.posted j || (ok && decide (conn j = (fd, gen)))) = true
    rw [show x.posted j = true from hj, Bool.true_or]
  | @wakeNone pend hw =>
    have h := wakePop_spec hp pend
    rw [hw] at h
    exact still h.live h.evicted
  | @wakePop pend e u hw =>
    have h := wakePop_spec hp pend
    rw [hw] at h
    exact .single (hall_of (y := { x with wakes := x.wakes ++ [⟨e, u, none, x.waitNo⟩] }) rfl h.evicted
      (.pick h.live))
  | wakeHook hw hh => exact .single (.hook hw hh)
  | wakeDone hw hh => exact .single (.done hw hh)
  | @wakeFailed k m w hw hh =>
    obtain ⟨_, hev, ⟨hl, _⟩ | ⟨hnone, hl, _⟩⟩ := wakeFailed_spec hp m w.ent w.undo
    · -- the entry goes back
      simp only [orderly, hw, all_some, decide_eq_true_eq] at hok
      exact .single (hall_of (y := { x with wakes := x.wakes.eraseIdx k }) hl hev (.back hw hh (hok hh)))
    · -- no slot could be made for it
      have hsure : sure = false := by
        rw [← not_eq_true]
        intro hs
        have halloc := hall hs
        simp only [allocates, and_eq_true, decide_eq_true_eq] at halloc
        have hne : x.wakes ≠ [] := by
          intro hc
          rw [hc] at hw
          cases hw
        have hsome := ringInsert_room hp.ring (hcap hne) halloc.1.1 halloc.1.2 (.inr ⟨rfl, halloc.2⟩)
          w.ent false
        rw [hnone] at hsome
        cases hsome
      exact .single (hall_of (y := { x with wakes := x.wakes.eraseIdx k }) hl hev (.lose hsure hw hh))
  | @deadline i nowNs ht =>
    refine .single (hall_take hp ht rfl fun hf => ?_)
    have hof := hf.name (.inl (queueTake_true ht).1)
    rw [taken_permit ht]
    exact Fits.free nofun fun _ => { hof with }
  | pop | drainFn => cases hin
  | sweepStart hs => exact .single (.sweepStart hs)
  | sweepFn hs hc => exact .single (hall_sweepFn hp hk hs hc)
  | @sweepEnd take hs =>
    obtain ⟨_, hl, _, _, hev, _⟩ := sweepDrop_spec take hp
    exact .single (hall_of (y := { x with sweep := none }) hl hev (.sweepEnd hs))
  | apply =>
    obtain ⟨_, hl, he, _⟩ := stateApply_spec hp _ _
    exact still hl he
  | @tick sig =>
    have hq := (adaptTick_queue x.fc sig).1.queue
    exact still (by rw [hq]) (by rw [hq])
  | warm | drain => exact still rfl rfl

/-! ## over whole runs -/

theorem wakes_micro (hp : PoolOk x.fc) (hm : Micro conn x a x') (hw : x'.wakes ≠ []) :
    x.wakes ≠ [] ∨ x.fc.queue.live ≠ [] := by
  cases hm with
  | @wakePop pend e u he =>
    have h := wakePop_spec hp pend
    rw [he] at h
    exact .inr (ne_nil_of_mem h.live.mem_self)
  | wakeHook hk | wakeDone hk | wakeFailed hk =>
    refine .inl fun hc => ?_
    rw [hc] at hk
    cases hk
  | relDrop | relSettle | drainFn | sweepFn =>
    rw [concludeIf_wakes] at hw
    exact .inl hw
  | resEvict | resTurn =>
    change (Sys.concludeIf _ _ _ _).wakes ≠ [] at hw
    rw [concludeIf_wakes] at hw
    exact .inl hw
  | _ => exact .inl hw

structure Waits (conn : ι → Conn) (sure : Bool) (x : Sys ι) : Prop where
  pool : PoolOk x.fc
  cap : x.wakes ≠ [] → x.fc.queue.cap ≠ 0
  hall : x.hall.Ok conn sure

theorem waits_step [Fintype ι] (hinj : Injective conn) (h : Waits conn sure x)
    (hin : a.ofWaits = true) (hok : orderly conn x a = true)
    (halloc : sure = true → allocates x a = true) (hs : step conn x a = some x') :
    Waits conn sure x' := by
  have hm := step_cases hs
  refine ⟨(pool_micro h.pool hm).1, fun hw => ?_, ?_⟩
  · have hcap : x.fc.queue.cap ≠ 0 := by
      rcases wakes_micro h.pool hm hw with hw | hl
      · exact h.cap hw
      · exact fun hc => hl (live_of_unused (by have := h.pool.ring.used_le; omega))
    have := (pool_micro h.pool hm).2.1
    omega
  · have hrun := hall_micro h.pool h.hall h.cap hin hok halloc hm
    -- the hall is in order after each of its steps
    generalize x'.hall = g at hrun ⊢
    induction hrun with
    | refl => exact h.hall
    | tail _ hstep ih => exact ih.step hinj hstep

theorem waits_init (m : Mem) (slots : Nat) (cfg : Cfg) :
    Waits conn sure (Sys.init m slots cfg : Sys ι) := by
  obtain ⟨hlive, hev, _⟩ := stateInit_spec m slots cfg
  have hl : (Sys.init m slots cfg : Sys ι).hall.live = [] := hlive
  have he : (Sys.init m slots cfg : Sys ι).hall.evicted = [] := hev
  refine ⟨poolOk_init m slots cfg, fun hc => absurd rfl hc, ⟨fun i => ⟨.out, ?_, ?_⟩, ?_, ?_, ?_, ?_⟩⟩
  · have hfits : Fits (conn i) .out ⟨Permit.reset, .idle⟩ := Fits.free (by decide) fun hc => by cases hc
    refine ⟨hfits, ?_, ?_, fun hc => absurd rfl hc, fun _ hc => by cases hc⟩
    · rw [hl]
      rfl
    · rw [he]
      rfl
  · exact ⟨fun _ _ => ⟨rfl, rfl⟩, fun hc => absurd rfl hc, fun n h0 hle => by
      have : n ≤ 0 := hle
      omega⟩
  · intro e hmem
    rw [hl] at hmem
    cases hmem
  · intro e hmem
    rw [he] at hmem
    cases hmem
  · intro w hmem
    cases hmem
  · intro take rest hs
    cases hs

theorem waits_run [Fintype ι] (hinj : Injective conn) {slots : Nat} {cfg : Cfg}
    {as : List (Act ι)} (h : exec (step conn) (Sys.init m slots cfg) as = some x)
    (hin : ∀ a ∈ as, a.ofWaits = true)
    (hok : along (step conn) (orderly conn) (Sys.init m slots cfg) as = true)
    (halloc : sure = true → along (step conn) allocates (Sys.init m slots cfg) as = true) :
    Waits conn sure x := by
  have hguard : along (step conn)
      (fun y a => (a.ofWaits && orderly conn y a) && (!sure || allocates y a))
      (Sys.init m slots cfg) as = true := by
    refine along_and (along_and (along_all hin) hok) ?_
    cases sure with
    | false => exact along_all fun _ _ => rfl
    | true => exact halloc rfl
  refine inv_of_step (fun y a y' hy hg hs => ?_) (waits_init m slots cfg) hguard h
  rw [and_eq_true, and_eq_true, or_eq_true] at hg
  refine waits_step hinj hy hg.1.1 hg.1.2 (fun hsure => ?_) hs
  rcases hg.2 with hc | hc
  · rw [hsure] at hc
    cases hc
  · exact hc

/-- **the queue and the permits agree** in every orderly run whose allocations succeed below the
greatest depth: an entry in the ring is of a permit that waits, and a permit that waits has its
entry in the ring, on the evicted list or in somebody's hands -/
theorem queue_permits_agree [Fintype ι] (hinj : Injective conn) {m : Mem} {slots : Nat}
    {cfg : Cfg} {as : List (Act ι)}
    (h : exec (step conn) (Sys.init m slots cfg) as = some x)
    (hin : ∀ a ∈ as, a.ofWaits = true)
    (halloc : along (step conn) allocates (Sys.init m slots cfg) as = true)
    (hok : along (step conn) (orderly conn) (Sys.init m slots cfg) as = true) :
    (∀ e ∈ x.fc.queue.live, ∃ i, (x.threads i).permit.state = .queued ∧
      (x.threads i).permit.qFd = e.fd ∧ (x.threads i).permit.qGen = e.gen) ∧
    ∀ i, (x.threads i).permit.state = .queued →
      (∃ e ∈ x.fc.queue.live, e.fd = (x.threads i).permit.qFd ∧ e.gen = (x.threads i).permit.qGen) ∨
      (∃ e ∈ x.fc.queue.evicted,
        e.fd = (x.threads i).permit.qFd ∧ e.gen = (x.threads i).permit.qGen) ∨
      x.posted i = true ∨
      (x.threads i).pc = .resEvict ∨ (x.threads i).pc = .relDrop ∨
      ∃ w ∈ x.wakes, w.ent.fd = (x.threads i).permit.qFd ∧ w.ent.gen = (x.threads i).permit.qGen := by
  have hw : Waits conn true x := waits_run hinj h hin hok fun _ => halloc
  constructor
  · intro e he
    obtain ⟨i, hc⟩ := hw.hall.live e he
    obtain ⟨pl, hi, _⟩ := hw.hall.sits i
    obtain rfl := hi.at_ring he hc.symm
    have hq := hi.fits.queued.mpr Place.noConfusion
    have hname := (hi.fits.conn_of (.inl hq)).trans hc
    exact ⟨i, hq, (Prod.ext_iff.mp hname).1, (Prod.ext_iff.mp hname).2⟩
  · intro i hq
    obtain ⟨pl, hi, _⟩ := hw.hall.sits i
    have hname : (x.threads i).permit.conn = conn i := hi.fits.conn_of (.inl hq)
    have named : ∀ {fd : Int} {gen : Nat}, conn i = (fd, gen) →
        fd = (x.threads i).permit.qFd ∧ gen = (x.threads i).permit.qGen :=
      fun hc => Prod.ext_iff.mp (hc.symm.trans hname.symm)
    cases pl with
    | out => exact absurd rfl (hi.fits.queued.mp hq)
    | ring =>
      obtain ⟨e, he, hc⟩ := countP_pos_iff.mp (lt_of_lt_of_eq zero_lt_one hi.ring.symm)
      exact .inl ⟨e, he, named (of_decide_eq_true hc)⟩
    | listed =>
      obtain ⟨e, he, hc⟩ := countP_pos_iff.mp (lt_of_lt_of_eq zero_lt_one hi.owed.symm)
      exact .inr (.inl ⟨e, he, named (of_decide_eq_true hc)⟩)
    | popped => exact .inr (.inr (.inl (hi.posted rfl rfl)))
    | claimed =>
      have hpc := hi.fits.pc
      change (x.threads i).pc.hasAnswer = true at hpc
      revert hpc
      cases (x.threads i).pc <;> simp [Pc.hasAnswer]
    | waking =>
      obtain ⟨w, hw, hc⟩ := countP_pos_iff.mp
        (lt_of_lt_of_eq zero_lt_one (hi.wakes Place.noConfusion).symm)
      exact .inr (.inr (.inr (.inr (.inr ⟨w, hw, named (holds_iff.mp hc).1⟩))))

end

/-! runs in which waits meet each other -/

def narrowCfg : Cfg :=
  { Cfg.zero with mode := .enforce, maxOutstanding := 1, maxQueueDepth := 1, maxQueueWaitMs := 1000
                  shedQueue := true }

def roomyCfg : Cfg :=
  { Cfg.zero with mode := .enforce, maxOutstanding := 1, maxQueueDepth := 4, maxQueueWaitMs := 1000 }

theorem sampleConn_injective : Injective sampleConn := by
  intro i j h
  have hfd : (i : Int) + 10 = j + 10 := congrArg Prod.fst h
  omega

def backRun : List (Act (Fin 6)) :=
  admits 0 1 0 ++ [.push 1 100 false 0 0 Mem.ok, .push 2 200 false 0 0 Mem.ok, .wakePop noPend,
    .wakeHook 0 false, .wakeEnd 0 Mem.ok]

theorem queue_permits_agree_back :
    ∃ x, exec (step sampleConn) (Sys.init Mem.ok 64 roomyCfg) backRun = some x ∧
      x.wakes = [] ∧ x.fc.queue.live.map (fun e => e.fd) = [11, 12] ∧
      ∀ e ∈ x.fc.queue.live, ∃ i, (x.threads i).permit.state = .queued ∧
        (x.threads i).permit.qFd = e.fd ∧ (x.threads i).permit.qGen = e.gen := by
  refine exec_follows (P := fun x => x.wakes = [] ∧ x.fc.queue.live.map (fun e => e.fd) = [11, 12])
    (by decide +kernel) fun x hx ⟨hw, hl⟩ => ⟨hw, hl, ?_⟩
  have hagree := queue_permits_agree sampleConn_injective hx (by decide +kernel) (by decide +kernel)
    (by decide +kernel)
  exact hagree.1

/-- the waiter is cancelled between the pop and the hook's failure -/
def ghostRun : List (Act (Fin 6)) :=
  admits 0 1 0 ++ [.push 1 100 false 0 0 Mem.ok, .wakePop noPend,
    .release 1, .run 1 0 true, .run 1 0 true, .run 1 0 true, .wakeHook 0 false, .wakeEnd 0 Mem.ok]

/-- the wake puts back the entry of a wait that is over -/
theorem ghost_entry :
    ∃ x, exec (step sampleConn) (Sys.init Mem.ok 64 roomyCfg) ghostRun = some x ∧
      (∀ a ∈ ghostRun, a.ofWaits = true) ∧
      along (step sampleConn) allocates (Sys.init Mem.ok 64 roomyCfg) ghostRun = true ∧
      x.wakes = [] ∧ x.fc.queue.live.map (fun e => (e.fd, e.gen)) = [(11, 1)] ∧
      ∀ i, (x.threads i).pc = .idle ∧ (x.threads i).permit.state ≠ .queued :=
  exec_found (by decide +kernel)

section
variable {ι : Type} [DecidableEq ι] {conn : ι → Conn} {x : Sys ι}

/-- **one decision for each wait**: in every orderly run a wait that is over was decided once, one
that goes on was not, and an entry on the evicted list is of an evicted wait, its connection's only
one -/
theorem one_decision [Fintype ι] (hinj : Injective conn) {m : Mem} {slots : Nat} {cfg : Cfg}
    {as : List (Act ι)} (h : exec (step conn) (Sys.init m slots cfg) as = some x)
    (hin : ∀ a ∈ as, a.ofWaits = true)
    (hok : along (step conn) (orderly conn) (Sys.init m slots cfg) as = true) :
    (∀ i n, 0 < n → n ≤ x.waitNo i → (n = x.waitNo i → (x.threads i).permit.state ≠ .queued) →
      ∃ d, x.decided i n = [d] ∧ d.isEviction = x.shed i n ∧ d ≠ .drained) ∧
    (∀ i, (x.threads i).permit.state = .queued → x.decided i (x.waitNo i) = []) ∧
    (∀ i n, x.waitNo i < n → x.decided i n = [] ∧ x.shed i n = false) ∧
    ∀ e ∈ x.fc.queue.evicted, ∃ i, conn i = (e.fd, e.gen) ∧ (x.threads i).permit.state = .queued ∧
      x.shed i (x.waitNo i) = true ∧
      x.fc.queue.evicted.countP (fun y => decide (conn i = (y.fd, y.gen))) = 1 := by
  have hw : Waits conn false x := waits_run hinj h hin hok fun hc => by cases hc
  refine ⟨fun i n h0 hle hq => ?_, fun i hq => ?_, fun i n hlt => ?_, fun e he => ?_⟩
  · obtain ⟨pl, hi, hl⟩ := hw.hall.sits i
    refine hl.past n h0 hle fun hn => ?_
    by_contra hc
    exact hq hn (hi.fits.queued.mpr hc)
  · obtain ⟨pl, hi, hl⟩ := hw.hall.sits i
    exact (hl.current (hi.fits.queued.mp hq)).1
  · obtain ⟨pl, hi, hl⟩ := hw.hall.sits i
    exact (hl.ahead n hlt).symm
  · obtain ⟨i, hc⟩ := hw.hall.evicted e he
    obtain ⟨pl, hi, hl⟩ := hw.hall.sits i
    obtain rfl := hi.at_listed he hc.symm
    exact ⟨i, hc, hi.fits.queued.mpr nofun, (hl.current nofun).2, hi.owed⟩

end

/-- a waiter is evicted, and its owner sees it -/
def evictedRun : List (Act (Fin 6)) :=
  admits 0 1 0 ++ [.acquire 1 true false 1 2, .run 1 0 true, .run 1 0 true, .push 1 100 false 0 0 Mem.ok,
    .acquire 2 true false 2 1, .run 2 0 true, .run 2 0 true, .push 2 200 false 0 0 Mem.ok, .run 2 0 true,
    .resume 1, .run 1 0 true, .run 1 0 true]

theorem one_decision_evicted :
    ∃ x, exec (step sampleConn) (Sys.init Mem.ok 64 narrowCfg) evictedRun = some x ∧
      x.shed 1 1 = true ∧ ∃ d, x.decided 1 1 = [d] ∧ d.isEviction = true := by
  refine exec_follows
    (P := fun x => x.waitNo 1 = 1 ∧ (x.threads 1).permit.state ≠ .queued ∧ x.shed 1 1 = true)
    (by decide +kernel) fun x hx ⟨hno, hq, hshed⟩ => ⟨hshed, ?_⟩
  have hone := one_decision sampleConn_injective hx (by decide +kernel) (by decide +kernel)
  obtain ⟨d, hd, he, _⟩ := hone.1 1 1 one_pos (le_of_eq hno.symm) fun _ => hq
  exact ⟨d, hd, he.trans hshed⟩

/-- a waiter is evicted while its owner stands between its look at the evicted list and its look at
the ring, and waits a second time -/
def staleRun : List (Act (Fin 6)) :=
  admits 0 1 0 ++ [.acquire 1 true false 1 2, .run 1 0 true, .run 1 0 true, .push 1 100 false 0 0 Mem.ok,
    .resume 1, .run 1 0 true,
    .acquire 2 true false 2 1, .run 2 0 true, .run 2 0 true, .push 2 200 false 0 0 Mem.ok, .run 2 0 true,
    .run 1 0 true, .run 1 0 true,
    .release 2, .run 2 0 true, .push 1 300 false 0 0 Mem.ok, .resume 1, .run 1 0 true, .run 1 0 true]

/-- the evicted wait gets its turn, and its entry on the evicted list ends the next wait -/
theorem evicted_and_turned :
    ∃ x, exec (step sampleConn) (Sys.init Mem.ok 64 narrowCfg) staleRun = some x ∧
      (∀ a ∈ staleRun, a.ofWaits = true) ∧
      x.shed 1 1 = true ∧ x.decided 1 1 = [.turn] ∧
      x.shed 1 2 = false ∧ x.decided 1 2 = [.evictedOwner] :=
  exec_found (by decide +kernel)

end Fc
