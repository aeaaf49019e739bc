import InferenceGateway.Pools.Lifetime

/-!
# What holds of the pools in every state

* `Tables`         a pool waits for nothing while it is in a table, or in an index that is still read;
* `Counts`         the count is the table's reference and those of the workers;
* `Seen`           what a worker has loaded and found is not freed;
* `Base.release`   `sp_pool_put` keeps the counts, and hands over a pool without references once;
* `Inv.reclaim`    the reclaimer ends only work that no worker sees anything of.
-/

set_option linter.unusedSectionVars false

open Function List Run

namespace Pools

variable {n : Nat} {R : Type} [DecidableEq R]

/-- the pools a rule still keeps: in the table, or in the index though out of the table -/
def Rule.keeps (t : Rule) : List Nat := t.ephash ++ t.waiting

namespace State

/-- the reference of the table, until the first grace period is over -/
def tableRef (s : State n R) (p : Nat) : Nat :=
  if p < s.nextPool ∧ s.flow.place (.tableDrop p) ≠ .done then 1 else 0

def holders (s : State n R) (p : Nat) : Nat := ∑ i, (s.worker i).held p

theorem tableRef_congr {s s' : State n R} {p : Nat} (hn : s'.nextPool = s.nextPool)
    (hd : s'.flow.place (.tableDrop p) = .done ↔ s.flow.place (.tableDrop p) = .done) :
    s'.tableRef p = s.tableRef p := by
  unfold tableRef
  simp only [hn, ne_eq, hd]

/-- what a worker sees of a work item: the pool or the index it is about -/
def Sees (s : State n R) (i : Fin n) : Work → Prop
  | .tableDrop p => p ∈ (s.worker i).found ∨ ∃ x ∈ (s.worker i).indexes, p ∈ (s.index x).order
  | .finalFree _ => False
  | .indexFree x => x ∈ (s.worker i).indexes

end State

structure Tables (s : State n R) : Prop where
  nodup : ∀ r, (s.rule r).keeps.Nodup
  apart : ∀ r r' p, p ∈ (s.rule r).keeps → p ∈ (s.rule r').keeps → r = r'
  below : ∀ r p, p ∈ (s.rule r).keeps → p < s.nextPool
  kept : ∀ p, s.flow.place (.tableDrop p) = .nowhere ↔ (p < s.nextPool → ∃ r, p ∈ (s.rule r).keeps)
  current : ∀ r x, (s.rule r).pools = some x → x < s.nextIndex ∧
    s.flow.place (.indexFree x) = .nowhere ∧ ∀ p ∈ (s.index x).order, p ∈ (s.rule r).keeps
  own : ∀ r r' x, (s.rule r).pools = some x → (s.rule r').pools = some x → r = r'
  ahead : ∀ x, s.nextIndex ≤ x → s.flow.place (.indexFree x) = .nowhere

/-- the counts, with `owed` references of a pool about to be released -/
structure Counts (s : State n R) (owed : Nat → Nat) : Prop where
  refs : ∀ p, (s.pool p).refs = s.tableRef p + s.holders p + owed p
  last : ∀ p, s.flow.place (.finalFree p) = .nowhere ↔ (p < s.nextPool → 0 < (s.pool p).refs)
  ahead : ∀ p, s.nextPool ≤ p → (s.pool p).refs = 0

structure Seen (s : State n R) : Prop where
  quiet : Qsbr.Quiet s.flow.q s.Sees
  alive : ∀ i k, s.Sees i k → s.flow.place k ≠ .done
  indexes : ∀ i, ∀ x ∈ (s.worker i).indexes, x < s.nextIndex
  orders : ∀ x, ∀ p ∈ (s.index x).order, p < s.nextPool
  found : ∀ i, ∀ p ∈ (s.worker i).found, p < s.nextPool

structure Frees (s : State n R) : Prop where
  pool : ∀ p, (s.pool p).freed = if s.flow.place (.finalFree p) = .done then 1 else 0
  index : ∀ x, s.indexFreed x = if s.flow.place (.indexFree x) = .done then 1 else 0

/-- the index of a rule is the one that was built from the table at its last publish -/
structure Published (key : Nat → List Nat) (s : State n R) : Prop where
  built : ∀ x, x < s.nextIndex → ∃ l, l.Nodup ∧ s.index x = .build key l
  nodup : ∀ r, (s.rule r).published.Nodup
  index : ∀ r x, (s.rule r).pools = some x → s.index x = .build key (s.rule r).published
  none : ∀ r, (s.rule r).pools = none → (s.rule r).published = []

/-- everything but the counts -/
structure Base (key : Nat → List Nat) (s : State n R) : Prop where
  flow : s.flow.Inv
  tables : Tables s
  seen : Seen s
  frees : Frees s
  published : Published key s

structure Inv (key : Nat → List Nat) (s : State n R) : Prop extends Base key s where
  counts : Counts s fun _ => 0

variable {key : Nat → List Nat} {s : State n R}

variable {s' : State n R} {f : Flow n (Thread n R)} {i : Fin n} {x p : Nat} {τ : Thread n R}
  {works : List Work}

theorem Tables.setFlow (h : Tables s)
    (hd : ∀ p, f.place (.tableDrop p) = .nowhere ↔ s.flow.place (.tableDrop p) = .nowhere)
    (hx : ∀ x, f.place (.indexFree x) = .nowhere ↔ s.flow.place (.indexFree x) = .nowhere) :
    Tables (s.setFlow f) := by
  obtain ⟨h1, h2, h3, h4, h5, h6, h7⟩ := h
  constructor <;> simpa only [State.setFlow, hd, hx]

theorem Frees.congr (h : Frees s) (hp : ∀ p, (s'.pool p).freed = (s.pool p).freed)
    (hx : s'.indexFreed = s.indexFreed)
    (hd : ∀ k, s'.flow.place k = .done ↔ s.flow.place k = .done) : Frees s' := by
  obtain ⟨h1, h2⟩ := h
  constructor <;> simpa only [hp, hx, hd]

theorem Counts.congr {owed : Nat → Nat} (h : Counts s owed) (hn : s'.nextPool = s.nextPool)
    (hr : ∀ p, (s'.pool p).refs = (s.pool p).refs) (hh : ∀ p, s'.holders p = s.holders p)
    (hd : ∀ k, s'.flow.place k = .done ↔ s.flow.place k = .done)
    (hl : ∀ p, s'.flow.place (.finalFree p) = .nowhere ↔ s.flow.place (.finalFree p) = .nowhere) :
    Counts s' owed := by
  have htab : ∀ p, s'.tableRef p = s.tableRef p := fun p => State.tableRef_congr hn (hd _)
  obtain ⟨h1, h2, h3⟩ := h
  constructor <;> simpa only [hn, hr, hh, hl, htab]

theorem Published.congr (h : Published key s) (hp : ∀ r, (s'.rule r).pools = (s.rule r).pools)
    (hl : ∀ r, (s'.rule r).published = (s.rule r).published) (hi : s'.index = s.index)
    (hx : s'.nextIndex = s.nextIndex) : Published key s' := by
  obtain ⟨h1, h2, h3, h4⟩ := h
  constructor <;> simpa only [hp, hl, hi, hx]

theorem Inv.init : Inv key (State.init : State n R) where
  flow := .init
  tables := by
    refine ⟨fun _ => nodup_nil, ?_, ?_, ?_, ?_, ?_, fun _ _ => rfl⟩
    · exact fun _ _ _ h => absurd h not_mem_nil
    · exact fun _ _ h => absurd h not_mem_nil
    · exact fun p => ⟨fun _ h => absurd h (Nat.not_lt_zero p), fun _ => rfl⟩
    · exact nofun
    · exact nofun
  counts := by
    refine ⟨?_, ?_, fun _ _ => rfl⟩
    · intro p
      simp [State.init, State.tableRef, State.holders]
    · exact fun p => ⟨fun _ h => absurd h (Nat.not_lt_zero p), fun _ => rfl⟩
  seen := by
    have hsees : ∀ i k, ¬ (State.init : State n R).Sees i k := by
      intro i k
      cases k <;> simp [State.Sees, State.init]
    refine ⟨?_, fun i k h => absurd h (hsees i k), ?_, ?_, ?_⟩
    · exact Qsbr.Quiet.init.change fun i k h => absurd h (hsees i k)
    · exact fun _ _ h => absurd h not_mem_nil
    · exact fun _ _ h => absurd h not_mem_nil
    · exact fun _ _ h => absurd h not_mem_nil
  frees := by
    refine ⟨fun p => ?_, fun x => ?_⟩ <;> simp [State.init, Flow.init]
  published := by
    refine ⟨fun x h => absurd h (Nat.not_lt_zero x), fun _ => nodup_nil, ?_, fun _ _ => rfl⟩
    intro r x h
    cases h

/-! ## steps that leave most of the state alone -/

section
variable (h : Inv key s)
include h

theorem Inv.setFlow (hf : f.Inv) (hq : Qsbr.Quiet f.q s.Sees)
    (hp : ∀ k v, v.active = false → (f.place k = v ↔ s.flow.place k = v)) :
    Inv key (s.setFlow f) := by
  have hnow := fun k => hp k .nowhere rfl
  have hdone := fun k => hp k .done rfl
  refine ⟨⟨hf, h.tables.setFlow (fun _ => hnow _) fun _ => hnow _, ?_,
    h.frees.congr (fun _ => rfl) rfl hdone,
    { h.published with }⟩,
    h.counts.congr rfl (fun _ => rfl) (fun _ => rfl) hdone fun _ => hnow _⟩
  refine { h.seen with quiet := hq, alive := ?_ }
  intro i k hk hd
  exact h.seen.alive i k hk ((hdone k).mp hd)

theorem Inv.setQ {q : Qsbr.State n Work} (hp : q.pending = s.flow.q.pending)
    (hq : Qsbr.Quiet q s.Sees) : Inv key (s.setFlow (s.flow.setQ q)) := by
  refine h.setFlow ?_ hq fun _ _ _ => Iff.rfl
  refine { h.flow with pending := fun k => ?_, single := ?_ }
  · rw [Flow.setQ_q, hp]
    exact h.flow.pending k
  · rw [Flow.setQ_q, hp]
    exact h.flow.single

theorem Inv.load (i : Fin n) : Inv key (s.setFlow (s.flow.setQ (s.flow.q.load i))) :=
  h.setQ (s.flow.q.pending_load i) (h.seen.quiet.load i)

theorem Inv.store (i : Fin n) : Inv key (s.setFlow (s.flow.setQ (s.flow.q.store i))) :=
  h.setQ (s.flow.q.pending_store i) (h.seen.quiet.store i)

theorem Inv.advance (τ : Thread n R) : Inv key (s.setFlow (s.flow.advance τ)) :=
  have hstep := h.flow.advanced τ
  h.setFlow (hstep.inv h.flow) (hstep.quiet h.seen.quiet) fun k _ hv => hstep.settled h.flow k hv

end

section
variable {w : Worker} (hsees : ∀ k, (s.setWorker i w).Sees i k → s.Sees i k ∨
    (s.flow.place k = .nowhere ∧ ∃ e, s.flow.q.reader i = .online e))
  (hidx : ∀ x ∈ w.indexes, x < s.nextIndex) (hfound : ∀ p ∈ w.found, p < s.nextPool)
include hsees hidx hfound

theorem Base.setView (h : Base key s) : Base key (s.setWorker i w) := by
  have hold : ∀ j k, (s.setWorker i w).Sees j k → s.Sees j k ∨
      (s.flow.place k = .nowhere ∧ ∃ e, s.flow.q.reader j = .online e) := by
    intro j k hk
    by_cases hj : j = i
    · subst hj
      exact hsees k hk
    · have hw : (s.setWorker i w).worker j = s.worker j := update_of_ne hj ..
      left
      cases k with
      | finalFree p => exact hk
      | tableDrop p | indexFree x =>
        simp only [State.Sees, hw] at hk
        exact hk
  refine ⟨h.flow, { h.tables with }, ⟨?_, ?_, ?_, h.seen.orders, ?_⟩, { h.frees with },
    { h.published with }⟩
  · refine h.seen.quiet.change fun j k hk => (hold j k hk).imp id fun hn => ⟨?_, hn.2⟩
    rw [h.flow.pending, hn.1]
    exact nofun
  · intro j k hk hd
    rcases hold j k hk with hk | ⟨hn, -⟩
    · exact h.seen.alive j k hk hd
    · exact absurd (hn.symm.trans hd) nofun
  · exact update_all (fun _ (w' : Worker) => ∀ x ∈ w'.indexes, x < s.nextIndex) hidx h.seen.indexes
  · exact update_all (fun _ (w' : Worker) => ∀ p ∈ w'.found, p < s.nextPool) hfound h.seen.found

theorem Inv.setView (h : Inv key s) (hheld : w.held = (s.worker i).held) :
    Inv key (s.setWorker i w) := by
  refine ⟨h.toBase.setView hsees hidx hfound,
    h.counts.congr rfl (fun _ => rfl) (fun p => ?_) (fun _ => Iff.rfl) fun _ => Iff.rfl⟩
  exact Finset.sum_congr rfl fun j _ =>
    update_keeps (fun w : Worker => w.held p) (congrFun hheld p) j

end

theorem setWorker_self (s : State n R) (i : Fin n) (w : Worker) : (s.setWorker i w).worker i = w :=
  update_self ..

theorem Inv.offline (h : Inv key s) (i : Fin n) : Inv key
    ((s.setFlow (s.flow.setQ (s.flow.q.offline i))).setWorker i
      { s.worker i with indexes := [], found := [] }) := by
  have hnone : ∀ k, ¬ (s.setWorker i { s.worker i with indexes := [], found := [] }).Sees i k := by
    intro k
    cases k <;> simp [State.Sees, setWorker_self]
  have hview := h.setView (fun k hk => absurd hk (hnone k)) (fun _ hx => absurd hx not_mem_nil)
    (fun _ hp => absurd hp not_mem_nil) rfl
  exact hview.setQ (s.flow.q.pending_offline i) (hview.seen.quiet.offline hnone)

theorem Inv.index (h : Inv key s) (hon : (s.flow.q.reader i).seen ≠ 0) (r : R) : Inv key
    (s.setWorker i
      { s.worker i with indexes := (s.rule r).pools.toList ++ (s.worker i).indexes }) := by
  have hreader : ∃ e, s.flow.q.reader i = .online e := by
    cases hr : s.flow.q.reader i with
    | offline | loaded => exact absurd (by rw [hr]; rfl) hon
    | online e => exact ⟨e, rfl⟩
  refine h.setView ?_ ?_ (h.seen.found i) rfl
  · intro k hk
    cases k with
    | tableDrop p =>
      simp only [State.Sees, setWorker_self] at hk
      rcases hk with hk | ⟨x, hx, hk⟩
      · exact .inl (.inl hk)
      · rcases mem_append.mp hx with hx | hx
        · obtain ⟨-, -, hord⟩ := h.tables.current r x (by simpa using hx)
          exact .inr ⟨(h.tables.kept p).mpr fun _ => ⟨r, hord p hk⟩, hreader⟩
        · exact .inl (.inr ⟨x, hx, hk⟩)
    | finalFree p => exact hk.elim
    | indexFree x =>
      simp only [State.Sees, setWorker_self] at hk
      rcases mem_append.mp hk with hx | hx
      · exact .inr ⟨(h.tables.current r x (by simpa using hx)).2.1, hreader⟩
      · exact .inl hx
  · intro x hx
    rcases mem_append.mp hx with hx | hx
    · exact (h.tables.current r x (by simpa using hx)).1
    · exact h.seen.indexes i x hx

theorem Base.find_mem (h : Base key s) (hx : x < s.nextIndex) {k : List Nat}
    (hp : (s.index x).find key k = some p) : p ∈ (s.index x).order := by
  obtain ⟨l, hn, he⟩ := h.published.built x hx
  rw [he] at hp ⊢
  rw [Index.find_build key hn k] at hp
  exact mem_of_find?_eq_some hp

theorem Inv.find (h : Inv key s) (hx : x ∈ (s.worker i).indexes) (k : List Nat) :
    Inv key (s.setWorker i
      { s.worker i with found := ((s.index x).find key k).toList ++ (s.worker i).found }) := by
  have hmem : ∀ p ∈ ((s.index x).find key k).toList, p ∈ (s.index x).order := by
    intro p hp
    exact h.find_mem (h.seen.indexes i x hx) (by simpa using hp)
  refine h.setView ?_ (h.seen.indexes i) ?_ rfl
  · intro w hw
    cases w with
    | tableDrop p =>
      simp only [State.Sees, setWorker_self] at hw
      rcases hw with hw | hw
      · rcases mem_append.mp hw with hw | hw
        · exact .inl (.inr ⟨x, hx, hmem p hw⟩)
        · exact .inl (.inl hw)
      · exact .inl (.inr hw)
    | finalFree p => exact hw.elim
    | indexFree y =>
      simp only [State.Sees, setWorker_self] at hw
      exact .inl hw
  · intro p hp
    rcases mem_append.mp hp with hp | hp
    · exact h.seen.orders x p (hmem p hp)
    · exact h.seen.found i p hp

/-! ## references -/

section
variable (s : State n R) (p v : Nat)

theorem refs_setRefs (q : Nat) :
    ((s.setRefs p v).pool q).refs = if q = p then v else (s.pool q).refs := by
  show (update s.pool p _ q).refs = _
  rw [update_apply]
  split <;> rfl

theorem freed_setRefs (q : Nat) : ((s.setRefs p v).pool q).freed = (s.pool q).freed :=
  update_keeps Pool.freed (f := s.pool) (v := { s.pool p with refs := v }) rfl q

theorem refs_setFreed (q : Nat) : ((s.setFreed p v).pool q).refs = (s.pool q).refs :=
  update_keeps Pool.refs (f := s.pool) (v := { s.pool p with freed := v }) rfl q

theorem freed_setFreed (q : Nat) :
    ((s.setFreed p v).pool q).freed = if q = p then v else (s.pool q).freed := by
  show (update s.pool p _ q).freed = _
  rw [update_apply]
  split <;> rfl

variable (i : Fin n)

theorem held_setHeld (j : Fin n) (q : Nat) : ((s.setHeld i p v).worker j).held q =
    if j = i ∧ q = p then v else (s.worker j).held q := by
  show (update s.worker i _ j).held q = _
  by_cases hj : j = i
  · subst hj
    simp [update_apply]
  · simp [hj]

theorem held_le_holders : (s.worker i).held p ≤ s.holders p :=
  tally_le (fun w => w.held p) s.worker i

theorem holders_update (q : Nat) : (s.setHeld i p v).holders q + (s.worker i).held q =
    s.holders q + update (s.worker i).held p v q :=
  tally_update (fun w => w.held q) s.worker i _

theorem holders_setHeld : (s.setHeld i p v).holders p + (s.worker i).held p = s.holders p + v := by
  rw [holders_update, update_self]

theorem holders_setHeld_of_ne {q : Nat} (hq : q ≠ p) :
    (s.setHeld i p v).holders q = s.holders q := by
  have hsum := holders_update s p v i q
  rw [update_of_ne hq] at hsum
  omega

end

theorem Base.setRefs (h : Base key s) (p v : Nat) : Base key (s.setRefs p v) :=
  ⟨h.flow, { h.tables with }, { h.seen with },
    ⟨fun q => (freed_setRefs s p v q).trans (h.frees.pool q), h.frees.index⟩,
    { h.published with }⟩

theorem Base.setHeld (h : Base key s) (i : Fin n) (p v : Nat) : Base key (s.setHeld i p v) := by
  refine h.setView (fun k hk => .inl ?_) (h.seen.indexes i) (h.seen.found i)
  cases k with
  | finalFree q => exact hk
  | tableDrop q | indexFree x =>
    simp only [State.Sees, setWorker_self] at hk
    exact hk

section
variable {owed owed' : Nat → Nat} {v : Nat}

theorem Counts.setRefs (h : Counts s owed) (hlt : p < s.nextPool)
    (hv : v + owed p = (s.pool p).refs + owed' p) (ho : ∀ q, q ≠ p → owed' q = owed q)
    (hd : ∀ k, f.place k = .done ↔ s.flow.place k = .done)
    (hl : ∀ q, q ≠ p → (f.place (.finalFree q) = .nowhere ↔ s.flow.place (.finalFree q) = .nowhere))
    (hp : f.place (.finalFree p) = .nowhere ↔ 0 < v) : Counts ((s.setRefs p v).setFlow f) owed' := by
  have hpool : ∀ q, (((s.setRefs p v).setFlow f).pool q).refs = if q = p then v else (s.pool q).refs :=
    refs_setRefs s p v
  refine ⟨fun q => ?_, fun q => ?_, fun q hge => ?_⟩
  · have hrefs := h.refs q
    have htab : ((s.setRefs p v).setFlow f).tableRef q = s.tableRef q :=
      State.tableRef_congr rfl (hd _)
    rw [hpool, htab]
    show _ = _ + s.holders q + _
    by_cases hq : q = p
    · subst hq
      rw [if_pos rfl]
      omega
    · rw [if_neg hq, ho q hq]
      exact hrefs
  · rw [hpool]
    by_cases hq : q = p
    · subst hq
      rw [if_pos rfl]
      exact hp.trans ⟨fun hv _ => hv, fun hv => hv hlt⟩
    · rw [if_neg hq]
      exact (hl q hq).trans (h.last q)
  · have hge' : s.nextPool ≤ q := hge
    rw [hpool, if_neg (by omega)]
    exact h.ahead q hge

theorem Counts.setHeld (h : Counts s owed) (hv : v + owed' p = (s.worker i).held p + owed p)
    (ho : ∀ q, q ≠ p → owed' q = owed q) : Counts (s.setHeld i p v) owed' := by
  refine ⟨fun q => ?_, h.last, h.ahead⟩
  have hrefs := h.refs q
  show (s.pool q).refs = s.tableRef q + _ + _
  by_cases hq : q = p
  · subst hq
    have hsum := holders_setHeld s q v i
    omega
  · rw [ho q hq, holders_setHeld_of_ne s p v i hq]
    exact hrefs

end

theorem Inv.refs_pos (h : Inv key s) (hu : s.mayUse i p = true) :
    p < s.nextPool ∧ 0 < (s.pool p).refs := by
  simp only [State.mayUse, Bool.or_eq_true, decide_eq_true_eq, contains_iff_mem] at hu
  have hrefs := h.counts.refs p
  rcases hu with hu | hu
  · have hle := held_le_holders s p i
    have hpos : 0 < (s.pool p).refs := by omega
    refine ⟨?_, hpos⟩
    by_contra hlt
    have := h.counts.ahead p (by omega)
    omega
  · have hlt := h.seen.found i p hu
    have hone : s.tableRef p = 1 := if_pos ⟨hlt, h.seen.alive i (.tableDrop p) (.inl hu)⟩
    exact ⟨hlt, by omega⟩

theorem Inv.get (h : Inv key s) (hu : s.mayUse i p = true) : Inv key (s.get i p) := by
  obtain ⟨hlt, hpos⟩ := h.refs_pos hu
  have hnow := (h.counts.last p).mpr fun _ => hpos
  -- the new reference is owed until the worker has it
  have hc : Counts (s.setRefs p ((s.pool p).refs + 1)) fun q => if q = p then 1 else 0 :=
    h.counts.setRefs hlt (by simp) (fun _ hq => if_neg hq) (fun _ => Iff.rfl) (fun _ _ => Iff.rfl)
      (iff_of_true hnow (Nat.succ_pos _))
  refine ⟨(h.toBase.setRefs p _).setHeld i p _, hc.setHeld ?_ fun _ hq => (if_neg hq).symm⟩
  rw [if_pos rfl]
  rfl

theorem start_done (hw : ∀ k ∈ works, f.place k = .nowhere) (k : Work) :
    (f.start τ works).place k = .done ↔ f.place k = .done := by
  rw [f.start_place]
  split
  case isTrue hk =>
    rw [hw k hk]
    simp
  case isFalse => exact Iff.rfl

theorem start_nowhere (k : Work) :
    (f.start τ works).place k = .nowhere ↔ k ∉ works ∧ f.place k = .nowhere := by
  rw [f.start_place]
  split
  case isTrue hk => simp [hk]
  case isFalse hk => simp [hk]

theorem start_other {k w : Work} (hk : k ≠ w) :
    (f.start τ [w]).place k = .nowhere ↔ f.place k = .nowhere := by
  rw [start_nowhere, mem_singleton]
  exact ⟨fun he => he.2, fun he => ⟨hk, he⟩⟩

theorem Base.startFinal (h : Base key s) (hτ : s.flow.todo τ = [])
    (hp : s.flow.place (.finalFree p) = .nowhere) (hd : s.flow.place (.tableDrop p) = .done) :
    Base key (s.start τ [.finalFree p]) := by
  have hw : ∀ k ∈ [Work.finalFree p], s.flow.place k = .nowhere := forall_mem_singleton.mpr hp
  have hdone := start_done (τ := τ) hw
  refine ⟨?_, h.tables.setFlow (fun _ => start_other nofun)
    fun _ => start_other nofun, ?_, h.frees.congr (fun _ => rfl) rfl hdone,
    { h.published with }⟩
  · refine h.flow.start hτ (nodup_singleton _) hw ?_
    intro k hk k' hpool _ hk'
    obtain rfl := mem_singleton.mp hk
    rcases hk' with hk' | hk'
    · exact (mem_singleton.mp hk').symm
    · cases k' with
      | tableDrop q =>
        cases hpool
        rw [hd] at hk'
        cases hk'
      | finalFree q =>
        cases hpool
        rfl
      | indexFree x => cases hpool
  · exact { h.seen with alive := fun i k hk he => h.seen.alive i k hk ((hdone k).mp he) }

theorem Base.release (h : Base key s) {p : Nat} (hc : Counts s fun q => if q = p then 1 else 0)
    (hlt : p < s.nextPool) {τ : Thread n R} (hτ : s.flow.todo τ = []) :
    Inv key (s.release τ p) := by
  have hrefs := hc.refs p
  rw [if_pos rfl] at hrefs
  have ho : ∀ q, q ≠ p → 0 = if q = p then 1 else 0 := fun _ hq => (if_neg hq).symm
  have hnow : s.flow.place (.finalFree p) = .nowhere := (hc.last p).mpr fun _ => by omega
  unfold State.release
  split
  case h_1 hz => omega
  case h_2 hone =>
    have hd : s.flow.place (.tableDrop p) = .done := by
      by_contra hd
      have htab : s.tableRef p = 1 := if_pos ⟨hlt, hd⟩
      omega
    refine ⟨(h.setRefs p 0).startFinal hτ hnow hd, hc.setRefs hlt ?_ ho
      (start_done (forall_mem_singleton.mpr hnow))
      (fun q hq => start_other fun hk => hq (Work.finalFree.inj hk)) (iff_of_false ?_ (lt_irrefl 0))⟩
    · rw [if_pos rfl, hone]
    · rw [start_nowhere]
      exact fun he => he.1 mem_cons_self
  case h_3 m hm =>
    refine ⟨h.setRefs p _, hc.setRefs hlt ?_ ho (fun _ => Iff.rfl) (fun _ _ => Iff.rfl)
      (iff_of_true hnow (Nat.succ_pos m))⟩
    rw [if_pos rfl, hm]

theorem Inv.put (h : Inv key s) (hi : s.flow.todo (.worker i) = [])
    (hheld : 0 < (s.worker i).held p) : Inv key (s.put i p) := by
  have hlt := (h.refs_pos (i := i) (p := p) (by simp [State.mayUse, hheld])).1
  refine (h.toBase.setHeld i p _).release (h.counts.setHeld ?_ fun _ hq => if_neg hq) hlt hi
  rw [if_pos rfl]
  omega

theorem Inv.hold (h : Inv key s) {old new : Option Nat} (hi : s.flow.todo (.worker i) = [])
    (hold : ∀ p ∈ old, 0 < (s.worker i).held p) (hnew : ∀ p ∈ new, s.mayUse i p = true) :
    Inv key (s.hold i old new) := by
  unfold State.hold
  split
  case isTrue => exact h
  case isFalse hne =>
    cases new with
    | none =>
      cases old with
      | none => exact h
      | some q => exact h.put hi (hold q rfl)
    | some p =>
      have hget := h.get (hnew p rfl)
      cases old with
      | none => exact hget
      | some q =>
        refine hget.put hi ?_
        show 0 < (((s.setRefs p _).setHeld i p _).worker i).held q
        rw [held_setHeld]
        split
        · exact Nat.succ_pos _
        · exact hold q rfl

/-! ## the reclaimer -/

section
variable {f : Flow n (Thread n R)}

theorem reclaim_nowhere (h : f.Inv) (k : Work) : f.reclaim.place k = .nowhere ↔ f.place k = .nowhere := by
  rw [f.reclaim_place]
  split
  case isTrue hk =>
    rw [h.handed hk]
    simp
  case isFalse => exact Iff.rfl

theorem reclaim_done (k : Work) :
    f.reclaim.place k = .done ↔ f.q.handed = some k ∨ f.place k = .done := by
  rw [f.reclaim_place]
  split
  case isTrue hk => simp [hk]
  case isFalse hk => simp [hk]

end

theorem Base.tables_reclaim (h : Base key s) : Tables (s.setFlow s.flow.reclaim) :=
  h.tables.setFlow (fun _ => reclaim_nowhere h.flow _) fun _ => reclaim_nowhere h.flow _

theorem Base.seen_reclaim (h : Base key s) : Seen (s.setFlow s.flow.reclaim) := by
  refine { h.seen with quiet := ?_, alive := ?_ }
  · show Qsbr.Quiet s.flow.reclaim.q s.Sees
    rw [Flow.reclaim_q]
    exact h.seen.quiet.reclaim
  · intro i k hk hd
    rcases (reclaim_done k).mp hd with hd | hd
    · exact h.seen.quiet.handed hd i hk
    · exact h.seen.alive i k hk hd

theorem Frees.after (h : Frees s) : (∀ p, s.flow.q.handed ≠ some (.finalFree p) →
      (s.pool p).freed = if s.flow.reclaim.place (.finalFree p) = .done then 1 else 0) ∧
    (∀ x, s.flow.q.handed ≠ some (.indexFree x) →
      s.indexFreed x = if s.flow.reclaim.place (.indexFree x) = .done then 1 else 0) := by
  constructor
  · intro p hp
    simp only [reclaim_done, hp, false_or]
    exact h.pool p
  · intro x hx
    simp only [reclaim_done, hx, false_or]
    exact h.index x

theorem Inv.reclaim (h : Inv key s) (hτ : s.flow.todo .reclaimer = []) : Inv key s.reclaim := by
  have htab := h.tables_reclaim
  have hseen := h.seen_reclaim
  obtain ⟨hpool, hindex⟩ := h.frees.after
  set t := s.setFlow s.flow.reclaim
  have hpub : Published key t := { h.published with }
  have hlast : ∀ p, s.flow.reclaim.place (.finalFree p) = .nowhere ↔
      (p < s.nextPool → 0 < (s.pool p).refs) :=
    fun p => (reclaim_nowhere h.flow _).trans (h.counts.last p)
  have hrefs : ∀ p, s.flow.q.handed ≠ some (.tableDrop p) →
      (s.pool p).refs = t.tableRef p + s.holders p + 0 := by
    intro p hp
    have hdone : s.flow.reclaim.place (.tableDrop p) = .done ↔ s.flow.place (.tableDrop p) = .done :=
      (reclaim_done _).trans ⟨fun hd => hd.resolve_left hp, .inr⟩
    have href : t.tableRef p = s.tableRef p := State.tableRef_congr rfl hdone
    rw [href]
    exact h.counts.refs p
  unfold State.reclaim
  split
  case h_1 hd =>
    simp only [hd, ne_eq, reduceCtorEq, not_false_eq_true, forall_const] at hpool hindex hrefs
    exact ⟨⟨h.flow.reclaim, htab, hseen, ⟨hpool, hindex⟩, hpub⟩, hrefs, hlast, h.counts.ahead⟩
  case h_2 p hd =>
    simp only [hd, ne_eq, Option.some.injEq, Work.tableDrop.injEq, reduceCtorEq, not_false_eq_true,
      forall_const] at hpool hindex hrefs
    have hbase : Base key t := ⟨h.flow.reclaim, htab, hseen, ⟨hpool, hindex⟩, hpub⟩
    -- the pool was made: its work is not nowhere
    have hlt : p < s.nextPool := by
      by_contra hge
      have hn := (h.tables.kept p).mpr fun hlt => absurd hlt hge
      rw [h.flow.handed hd] at hn
      cases hn
    refine hbase.release ⟨?_, hlast, h.counts.ahead⟩ hlt ?_
    · intro q
      by_cases hq : q = p
      · subst hq
        have hbefore : s.tableRef q = 1 := by
          refine if_pos ⟨hlt, ?_⟩
          rw [h.flow.handed hd]
          exact nofun
        have hafter : t.tableRef q = 0 := by
          refine if_neg fun he => he.2 ?_
          exact (reclaim_done _).mpr (.inl hd)
        have := h.counts.refs q
        rw [if_pos rfl, hafter]
        show (s.pool q).refs = 0 + s.holders q + 1
        omega
      · rw [if_neg hq]
        exact hrefs q fun he => hq he.symm
    · show s.flow.reclaim.todo .reclaimer = []
      rw [Flow.reclaim_todo]
      exact hτ
  case h_3 p hd =>
    simp only [hd, ne_eq, Option.some.injEq, Work.finalFree.injEq, reduceCtorEq, not_false_eq_true,
      forall_const] at hpool hindex hrefs
    have hpend := h.flow.handed hd
    have hzero : (s.pool p).refs = 0 := by
      by_contra hne
      have hn := (h.counts.last p).mpr fun _ => Nat.pos_of_ne_zero hne
      rw [hpend] at hn
      cases hn
    have hnot : (s.pool p).freed = 0 := by
      rw [h.frees.pool p, hpend]
      rfl
    have hcounts : Counts t fun _ => 0 := ⟨hrefs, hlast, h.counts.ahead⟩
    rw [if_neg (fun hne => hne hzero)]
    refine ⟨⟨h.flow.reclaim, { htab with }, { hseen with }, ⟨?_, hindex⟩, { hpub with }⟩,
      hcounts.congr rfl (refs_setFreed _ _ _) (fun _ => rfl) (fun _ => Iff.rfl) fun _ => Iff.rfl⟩
    intro q
    rw [freed_setFreed]
    show _ = if s.flow.reclaim.place _ = _ then 1 else 0
    by_cases hq : q = p
    · subst hq
      rw [if_pos rfl, if_pos ((reclaim_done _).mpr (.inl hd)), hnot]
    · rw [if_neg hq]
      exact hpool q fun he => hq he.symm
  case h_4 x hd =>
    simp only [hd, ne_eq, Option.some.injEq, Work.indexFree.injEq, reduceCtorEq, not_false_eq_true,
      forall_const] at hpool hindex hrefs
    refine ⟨⟨h.flow.reclaim, { htab with }, { hseen with }, ⟨hpool, ?_⟩, { hpub with }⟩, hrefs, hlast,
      h.counts.ahead⟩
    intro y
    show update s.indexFreed x _ y = if s.flow.reclaim.place _ = _ then 1 else 0
    by_cases hy : y = x
    · subst hy
      have hnot : s.indexFreed y = 0 := by
        rw [h.frees.index y, h.flow.handed hd]
        rfl
      rw [update_self, if_pos ((reclaim_done _).mpr (.inl hd)), hnot]
    · rw [update_of_ne hy]
      exact hindex y fun he => hy he.symm

end Pools
