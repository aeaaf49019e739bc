import InferenceGateway.Pools.Qsbr

/-!
# The way of deferred work

A pool's header and an index have one work node each.  A thread that lets go of a pool takes the
header's `queued` flag (`pool_queue`) and then defers the node (`sp_qsbr_defer`); an index has no
flag.  The flag is given back when the work is run.  `place` records how far each work item is.

* `Flow.Inv`         the lists, the flags and the recorded places agree, and a node is used once;
* `Advanced`         what one step of a thread can be: the refusal of `pool_queue` is not among it;
* `Flow.Goes.done`   work that was begun is run.
-/

set_option linter.unusedSectionVars false

open Function List Option

namespace Pools

/-- the work that can be deferred, by the function that is run -/
inductive Work where
  | tableDrop (p : Nat)
  | finalFree (p : Nat)
  | indexFree (x : Nat)
  deriving DecidableEq

/-- the pool that has the node in its header -/
def Work.pool : Work → Option Nat
  | .tableDrop p | .finalFree p => some p
  | .indexFree _ => none

/-- how far a work item is; a thread that has it to do may have taken the flag -/
inductive Place (T : Type) where
  | nowhere
  | todo (τ : T) (marked : Bool)
  | pending | done
  deriving DecidableEq

namespace Place
variable {T : Type}

def active : Place T → Bool
  | .todo _ _ => true
  | .pending => true
  | _ => false

/-- the item has the flag of its node -/
def marked : Place T → Bool
  | .todo _ b => b
  | .pending => true
  | _ => false

theorem active_of_marked {v : Place T} (h : v.marked = true) : v.active = true := by
  cases v with
  | todo | pending => rfl
  | nowhere | done => exact h

end Place

structure Flow (n : Nat) (T : Type) where
  q : Qsbr.State n Work
  /-- what each thread still has to hand over, in order -/
  todo : T → List (Work × Bool)
  queued : Nat → Bool
  place : Work → Place T

variable {n : Nat} {T : Type}

namespace Flow

def init : Flow n T := ⟨.init, fun _ => [], fun _ => false, fun _ => .nowhere⟩

/-- `queued` of the header that has the node -/
def flag (f : Flow n T) (k : Work) : Bool :=
  match k.pool with
  | some p => f.queued p
  | none => false

def setFlag (f : Flow n T) (k : Work) (v : Bool) : Flow n T :=
  match k.pool with
  | some p => { f with queued := update f.queued p v }
  | none => f

@[simps -fullyApplied q todo place]
def move (f : Flow n T) (k : Work) (v : Place T) : Flow n T :=
  { f with place := update f.place k v }

@[simps -fullyApplied q todo place]
def setQ (f : Flow n T) (q : Qsbr.State n Work) : Flow n T := { f with q }

variable [DecidableEq T]

@[simps -fullyApplied q todo place]
def setTodo (f : Flow n T) (τ : T) (l : List (Work × Bool)) : Flow n T :=
  { f with todo := update f.todo τ l }

/-- a thread comes to the calls that hand these over -/
def start (f : Flow n T) (τ : T) (works : List Work) : Flow n T :=
  { f with
    todo := update f.todo τ (works.map fun k => (k, k.pool.isNone))
    place := fun k => if k ∈ works then .todo τ k.pool.isNone else f.place k }

/-- the thread's next step: the exchange of `pool_queue`, or `sp_qsbr_defer` when the lock is free -/
def advance (f : Flow n T) (τ : T) : Flow n T :=
  match f.todo τ with
  | [] => f
  | (k, false) :: rest =>
    if f.flag k then (f.setTodo τ rest).move k .nowhere
    else ((f.setFlag k true).setTodo τ ((k, true) :: rest)).move k (.todo τ true)
  | (k, true) :: rest =>
    if f.q.locked then f else ((f.setTodo τ rest).move k .pending).setQ (f.q.defer k)

/-- one step of the reclaimer; a function that is run first gives the flag back -/
def reclaim (f : Flow n T) : Flow n T :=
  match f.q.handed with
  | none => f.setQ f.q.reclaim
  | some k => ((f.setFlag k false).move k .done).setQ f.q.reclaim

section
variable (f : Flow n T) (k : Work)

@[simp] theorem setFlag_q (v : Bool) : (f.setFlag k v).q = f.q := by
  unfold setFlag
  split <;> rfl

@[simp] theorem setFlag_todo (v : Bool) : (f.setFlag k v).todo = f.todo := by
  unfold setFlag
  split <;> rfl

@[simp] theorem setFlag_place (v : Bool) : (f.setFlag k v).place = f.place := by
  unfold setFlag
  split <;> rfl

theorem setFlag_flag (v : Bool) (k' : Work) (hk : k'.pool ≠ none) :
    (f.setFlag k v).flag k' = if k'.pool = k.pool then v else f.flag k' := by
  unfold flag setFlag
  cases hp' : k'.pool with
  | none => exact absurd hp' hk
  | some p' =>
    cases hp : k.pool with
    | none => simp
    | some p => simp [update_apply]

@[simp] theorem move_flag (v : Place T) : (f.move k v).flag = f.flag := rfl
@[simp] theorem setQ_flag (q : Qsbr.State n Work) : (f.setQ q).flag = f.flag := rfl

end

section
variable (f : Flow n T) (τ : T) (l : List (Work × Bool))

@[simp] theorem setTodo_flag : (f.setTodo τ l).flag = f.flag := rfl
@[simp] theorem start_q (works : List Work) : (f.start τ works).q = f.q := rfl

theorem start_place (works : List Work) (k : Work) : (f.start τ works).place k =
    if k ∈ works then .todo τ k.pool.isNone else f.place k := rfl

end

/-! ## the lists and the places agree -/

structure Inv (f : Flow n T) : Prop where
  todo : ∀ τ k b, (k, b) ∈ f.todo τ ↔ f.place k = .todo τ b
  once : ∀ τ, ((f.todo τ).map Prod.fst).Nodup
  pending : ∀ k, k ∈ f.q.pending ↔ f.place k = .pending
  single : f.q.pending.Nodup
  flag : ∀ k, k.pool ≠ none →
    (f.flag k = true ↔ ∃ k', k'.pool = k.pool ∧ (f.place k').marked = true)
  alone : ∀ k k', (f.place k).active = true → (f.place k').active = true → k.pool ≠ none →
    k.pool = k'.pool → k = k'

namespace Inv
variable {f : Flow n T} {τ : T} {k : Work}

theorem init : (Flow.init : Flow n T).Inv where
  todo := fun τ k b => by simp [Flow.init]
  once := fun _ => nodup_nil
  pending := fun k => by simp [Flow.init, Qsbr.State.init, Qsbr.State.pending, Qsbr.State.ready]
  single := nodup_nil
  flag := by
    intro k hk
    cases k <;> simp [Flow.init, Flow.flag, Work.pool, Place.marked]
  alone := nofun

variable (h : f.Inv) {rest : List (Work × Bool)}
include h

theorem start (hτ : f.todo τ = []) {works : List Work} (hn : works.Nodup)
    (hw : ∀ k ∈ works, f.place k = .nowhere)
    (ha : ∀ k ∈ works, ∀ k', k'.pool = k.pool → k.pool ≠ none → k' ∈ works ∨ (f.place k').active = true → k = k') :
    (f.start τ works).Inv where
  todo := by
    intro σ k b
    rw [f.start_place]
    show (k, b) ∈ update f.todo τ _ σ ↔ _
    by_cases hk : k ∈ works
    · by_cases hσ : σ = τ
      · subst hσ
        simp [hk]
      · rw [update_of_ne hσ, if_pos hk, h.todo, hw k hk]
        simp [Ne.symm hσ]
    · rw [if_neg hk]
      by_cases hσ : σ = τ
      · subst hσ
        simp [hk, ← h.todo, hτ]
      · rw [update_of_ne hσ, h.todo]
  once := by
    intro σ
    show ((update f.todo τ _ σ).map Prod.fst).Nodup
    by_cases hσ : σ = τ
    · subst hσ
      simpa [List.map_map, comp_def] using hn
    · rw [update_of_ne hσ]
      exact h.once σ
  pending := by
    intro k
    rw [f.start_q, f.start_place]
    by_cases hk : k ∈ works
    · simp [hk, h.pending, hw k hk]
    · rw [if_neg hk, h.pending]
  single := h.single
  flag := by
    intro k hk
    refine (h.flag k hk).trans (exists_congr fun k' => and_congr_right fun hp => ?_)
    rw [f.start_place]
    by_cases hk' : k' ∈ works
    · -- work that was just begun has not taken its flag
      rw [if_pos hk', hw k' hk']
      cases hn : k'.pool with
      | none => exact absurd (hp.symm.trans hn) hk
      | some p => simp [Place.marked]
    · rw [if_neg hk']
  alone := by
    intro k k' hk hk' hp hpp
    have hact : ∀ j, ((f.start τ works).place j).active = true →
        j ∈ works ∨ (f.place j).active = true := by
      intro j hj
      by_cases hjw : j ∈ works
      · exact .inl hjw
      · exact .inr (by rwa [f.start_place, if_neg hjw] at hj)
    rcases hact k hk with hkw | hka
    · exact ha k hkw k' hpp.symm hp (hact k' hk')
    · rcases hact k' hk' with hkw' | hka'
      · exact (ha k' hkw' k hpp (hpp ▸ hp) (.inr hka)).symm
      · exact h.alone k k' hka hka' hp hpp

theorem unflagged (hτ : f.todo τ = (k, false) :: rest) : f.flag k = false := by
  have hk : f.place k = .todo τ false := (h.todo τ k false).mp (hτ ▸ mem_cons_self)
  by_cases hp : k.pool = none
  · rw [Flow.flag, hp]
  · by_contra hf
    obtain ⟨k', hpp, hm⟩ := (h.flag k hp).mp (Bool.not_eq_false _ ▸ hf)
    obtain rfl := h.alone k k' (by rw [hk]; rfl) (Place.active_of_marked hm) hp hpp.symm
    rw [hk] at hm
    cases hm

theorem head_once {b : Bool} (hτ : f.todo τ = (k, b) :: rest) (b' : Bool) : (k, b') ∉ rest := by
  have hn := h.once τ
  rw [hτ, map_cons, nodup_cons] at hn
  exact fun hm => hn.1 (List.mem_map.mpr ⟨_, hm, rfl⟩)

/-- one item moves on: the lists change at it alone, and its node's flag is then its own -/
theorem moved (hk : (f.place k).active = true) {f' : Flow n T} {v : Place T}
    (hplace : f'.place = update f.place k v)
    (htodo : ∀ σ j b, (j, b) ∈ f'.todo σ ↔ if j = k then v = .todo σ b else (j, b) ∈ f.todo σ)
    (honce : ∀ σ, ((f'.todo σ).map Prod.fst).Nodup)
    (hpending : ∀ j, j ∈ f'.q.pending ↔ if j = k then v = .pending else j ∈ f.q.pending)
    (hsingle : f'.q.pending.Nodup)
    (hflag : ∀ j, j.pool ≠ none → f'.flag j = if j.pool = k.pool then v.marked else f.flag j) :
    f'.Inv where
  todo := by
    intro σ j b
    rw [htodo, hplace, update_apply]
    split
    · rfl
    · exact h.todo σ j b
  once := honce
  pending := by
    intro j
    rw [hpending, hplace, update_apply]
    split
    · rfl
    · exact h.pending j
  single := hsingle
  flag := by
    intro j hj
    rw [hflag j hj, hplace]
    by_cases hjk : j.pool = k.pool
    · rw [if_pos hjk]
      refine ⟨fun hv => ⟨k, hjk.symm, by rwa [update_self]⟩, fun ⟨j', hj', hm⟩ => ?_⟩
      by_cases he : j' = k
      · rwa [he, update_self] at hm
      · -- the node had one item only
        rw [update_of_ne he] at hm
        exact absurd (h.alone j' k (Place.active_of_marked hm) hk (hj' ▸ hj) (hj'.trans hjk)) he
    · rw [if_neg hjk, h.flag j hj]
      refine exists_congr fun j' => and_congr_right fun hj' => ?_
      have hne : j' ≠ k := fun he => hjk (hj'.symm.trans (he ▸ rfl))
      rw [update_of_ne hne]
  alone := by
    have hact : ∀ j, (f'.place j).active = true → (f.place j).active = true := by
      intro j hj
      by_cases hjk : j = k
      · rwa [hjk]
      · rwa [hplace, update_of_ne hjk] at hj
    exact fun j j' hj hj' => h.alone j j' (hact j hj) (hact j' hj')

theorem mark (hτ : f.todo τ = (k, false) :: rest) :
    (((f.setFlag k true).setTodo τ ((k, true) :: rest)).move k (.todo τ true)).Inv := by
  have hk : f.place k = .todo τ false := (h.todo τ k false).mp (hτ ▸ mem_cons_self)
  have hrest := h.head_once hτ
  refine h.moved (v := .todo τ true) (by rw [hk]; rfl) (by simp) ?_ ?_ ?_
    (by simpa using h.single) (f.setFlag_flag k true)
  · intro σ j b
    by_cases hσ : σ = τ <;> by_cases hjk : j = k
    · subst hσ hjk
      simp [hrest, eq_comm]
    · subst hσ
      simp [hτ, hjk]
    · subst hjk
      simp [hσ, h.todo, hk, Ne.symm hσ]
    · simp [hσ, hjk]
  · intro σ
    have hσ := h.once σ
    by_cases he : σ = τ
    · subst he
      simpa [hτ] using hσ
    · simpa [he] using hσ
  · intro j
    by_cases hjk : j = k
    · simp [hjk, h.pending, hk]
    · simp [hjk]

theorem defer (hτ : f.todo τ = (k, true) :: rest) :
    (((f.setTodo τ rest).move k .pending).setQ (f.q.defer k)).Inv := by
  have hk : f.place k = .todo τ true := (h.todo τ k true).mp (hτ ▸ mem_cons_self)
  have hrest := h.head_once hτ
  have hq : k ∉ f.q.pending := by
    rw [h.pending, hk]
    exact nofun
  refine h.moved (v := .pending) (by rw [hk]; rfl) (by simp) ?_ ?_ ?_ ?_ ?_
  · intro σ j b
    by_cases hσ : σ = τ <;> by_cases hjk : j = k
    · subst hσ hjk
      simp [hrest]
    · subst hσ
      simp [hτ, hjk]
    · subst hjk
      simp [hσ, h.todo, hk, Ne.symm hσ]
    · simp [hσ, hjk]
  · intro σ
    have hσ := h.once σ
    by_cases he : σ = τ
    · subst he
      rw [hτ, map_cons, nodup_cons] at hσ
      simpa using hσ.2
    · simpa [he] using hσ
  · intro j
    rw [setQ_q, Qsbr.State.pending_defer]
    by_cases hjk : j = k <;> simp [hjk]
  · rw [setQ_q, Qsbr.State.pending_defer]
    exact nodup_append.mpr ⟨h.single, nodup_singleton k, fun a ha b hb =>
      fun hab => hq (mem_singleton.mp hb ▸ hab ▸ ha)⟩
  · intro j hj
    split
    case isTrue hjk => exact (h.flag j hj).mpr ⟨k, hjk.symm, by rw [hk]; rfl⟩
    case isFalse => rfl

theorem reclaim : f.reclaim.Inv := by
  have hq := f.q.pending_reclaim
  unfold Flow.reclaim
  split
  case h_1 hd =>
    rw [hd, toList_none, nil_append] at hq
    refine ⟨h.todo, h.once, ?_, ?_, h.flag, h.alone⟩
    · intro j
      rw [setQ_q, ← hq]
      exact h.pending j
    · rw [setQ_q, ← hq]
      exact h.single
  case h_2 k hd =>
    rw [hd, toList_some, singleton_append] at hq
    have hsingle := h.single
    rw [hq, nodup_cons] at hsingle
    have hk : f.place k = .pending := (h.pending k).mp (hq ▸ mem_cons_self)
    refine h.moved (v := .done) (by rw [hk]; rfl) (by simp) ?_ (by simpa using h.once) ?_
      hsingle.2 (f.setFlag_flag k false)
    · intro σ j b
      by_cases hjk : j = k
      · simp [hjk, h.todo, hk]
      · simp [hjk]
    · intro j
      by_cases hjk : j = k
      · simpa [hjk] using hsingle.1
      · simp [hjk, hq]

end Inv

/-! ## one step of a thread -/

/-- what a thread's next step can be -/
inductive Advanced (f : Flow n T) (τ : T) : Flow n T → Prop where
  | idle (hτ : f.todo τ = []) : Advanced f τ f
  | mark {k : Work} {rest : List (Work × Bool)} (hτ : f.todo τ = (k, false) :: rest) :
    Advanced f τ (((f.setFlag k true).setTodo τ ((k, true) :: rest)).move k (.todo τ true))
  | wait {k : Work} {rest : List (Work × Bool)} (hτ : f.todo τ = (k, true) :: rest)
    (hl : f.q.locked = true) : Advanced f τ f
  | defer {k : Work} {rest : List (Work × Bool)} (hτ : f.todo τ = (k, true) :: rest)
    (hl : f.q.locked = false) :
    Advanced f τ (((f.setTodo τ rest).move k .pending).setQ (f.q.defer k))

namespace Inv
variable {f : Flow n T} {τ : T} {k : Work}

theorem advanced (h : f.Inv) (τ : T) : Advanced f τ (f.advance τ) := by
  unfold Flow.advance
  split
  case h_1 hτ => exact .idle hτ
  case h_2 k rest hτ =>
    rw [if_neg (by rw [h.unflagged hτ]; exact Bool.false_ne_true)]
    exact .mark hτ
  case h_3 k rest hτ =>
    split
    case isTrue hl => exact .wait hτ hl
    case isFalse hl => exact .defer hτ (Bool.not_eq_true _ ▸ hl)

end Inv

namespace Advanced
variable {f f' : Flow n T} {τ : T} {k : Work} (hstep : Advanced f τ f') (h : f.Inv)
include hstep h

theorem inv : f'.Inv := by
  cases hstep with
  | idle | wait => exact h
  | mark hτ => exact h.mark hτ
  | defer hτ => exact h.defer hτ

theorem place (k : Work) : f'.place k = f.place k ∨
      ((f.place k).active = true ∧ (f'.place k).active = true) := by
  cases hstep with
  | idle | wait => exact .inl rfl
  | @mark j _ hτ | @defer j _ hτ =>
    have hj := (h.todo τ j _).mp (hτ ▸ mem_cons_self)
    by_cases hkj : k = j
    · subst hkj
      exact .inr ⟨by rw [hj]; rfl, by simp [Place.active]⟩
    · exact .inl (by simp [hkj])

theorem settled (k : Work) {v : Place T} (hv : v.active = false) : f'.place k = v ↔ f.place k = v := by
  rcases hstep.place h k with he | ⟨h1, h2⟩
  · rw [he]
  · constructor
    · rintro rfl
      rw [hv] at h2
      cases h2
    · rintro rfl
      rw [hv] at h1
      cases h1

omit h in
theorem quiet {Sees : Fin n → Work → Prop} (hq : Qsbr.Quiet f.q Sees) : Qsbr.Quiet f'.q Sees := by
  cases hstep with
  | idle | wait => exact hq
  | mark hτ => simpa using hq
  | defer hτ hl => exact hq.defer hl _

end Advanced

theorem reclaim_q (f : Flow n T) : f.reclaim.q = f.q.reclaim := by
  unfold reclaim
  split <;> rfl

theorem reclaim_todo (f : Flow n T) : f.reclaim.todo = f.todo := by
  unfold reclaim
  split
  · rfl
  · simp

theorem reclaim_place (f : Flow n T) (k : Work) :
    f.reclaim.place k = if f.q.handed = some k then .done else f.place k := by
  unfold reclaim
  split
  case h_1 hd => simp [hd]
  case h_2 j hd => simp [hd, update_apply, eq_comm]

variable {f f' : Flow n T} {k : Work} {τ : T}

theorem Inv.handed (h : f.Inv) (hk : f.q.handed = some k) : f.place k = .pending := by
  have hq := f.q.pending_reclaim
  rw [hk] at hq
  exact (h.pending k).mp (hq ▸ mem_cons_self)

/-! ## work that was begun is run -/

/-- what happens to the deferred work in one step of the whole program -/
inductive Op (n : Nat) (T : Type) where
  | load (i : Fin n)
  | store (i : Fin n)
  | offline (i : Fin n)
  | start (τ : T) (works : List Work)
  | advance (τ : T)
  | reclaim (τ : T) (works : List Work)
  | skip

/-- work that is run may begin other work -/
def apply (f : Flow n T) : Op n T → Flow n T
  | .load i => f.setQ (f.q.load i)
  | .store i => f.setQ (f.q.store i)
  | .offline i => f.setQ (f.q.offline i)
  | .start τ works => f.start τ works
  | .advance τ => f.advance τ
  | .reclaim τ works => f.reclaim.start τ works
  | .skip => f

def grace (f : Flow n T) : Op n T → Qsbr.Op n Work
  | .load i => .load i
  | .store i => .store i
  | .offline i => .offline i
  | .advance τ =>
    match f.todo τ with
    | (k, true) :: _ => if f.q.locked then .skip else .defer k
    | _ => .skip
  | .reclaim _ _ => .reclaim
  | _ => .skip

structure Moves (f : Nat → Flow n T) (op : Nat → Op n T) : Prop where
  step : ∀ t, f (t + 1) = (f t).apply (op t)
  inv : ∀ t, (f t).Inv
  stamped : ∀ t w stamp, (w, stamp) ∈ (f t).q.queue → stamp ≤ (f t).q.epoch
  starts : ∀ t τ works, op t = .start τ works ∨ op t = .reclaim τ works →
    (f t).todo τ = [] ∧ ∀ k ∈ works, (f t).place k = .nowhere

/-- and nobody stops in it -/
structure Goes (f : Nat → Flow n T) (op : Nat → Op n T) : Prop extends Moves f op where
  advances : ∀ τ t, ∃ t', t ≤ t' ∧ op t' = .advance τ ∧ (f t').q.locked = false
  reclaims : ∀ t, ∃ t', t ≤ t' ∧ ∃ τ works, op t' = .reclaim τ works
  leaves : ∀ i t, ∃ t', t ≤ t' ∧ (f t').q.reader i = .offline

/-- the steps a thread has in front of it -/
def weight (l : List (Work × Bool)) : Nat := (l.map fun x => if x.2 then 1 else 2).sum

theorem weight_cons (x : Work × Bool) (l : List (Work × Bool)) :
    weight (x :: l) = (if x.2 then 1 else 2) + weight l := by
  unfold weight
  rw [map_cons, sum_cons]

theorem Advanced.lighter (hstep : Advanced f τ f') (hτ : f.todo τ ≠ []) :
    weight (f'.todo τ) ≤ weight (f.todo τ) ∧
      (f.q.locked = false → weight (f'.todo τ) < weight (f.todo τ)) := by
  cases hstep with
  | idle he => exact absurd he hτ
  | @mark k rest he =>
    have hw : weight ((k, true) :: rest) < weight (f.todo τ) := by
      rw [he, weight_cons, weight_cons]
      simp
    exact ⟨by simpa using hw.le, fun _ => by simpa using hw⟩
  | wait he hl =>
    refine ⟨le_rfl, fun hl' => ?_⟩
    rw [hl] at hl'
    cases hl'
  | @defer k rest he hl =>
    have hw : weight rest < weight (f.todo τ) := by
      rw [he, weight_cons]
      simp
    exact ⟨by simpa using hw.le, fun _ => by simpa using hw⟩

theorem Advanced.todo (hstep : Advanced f τ f') {b : Bool} (hk : (k, b) ∈ f.todo τ) :
    f'.place k = .pending ∨ ∃ b', (k, b') ∈ f'.todo τ := by
  cases hstep with
  | idle | wait => exact .inr ⟨b, hk⟩
  | @mark j rest hτ =>
    rw [hτ] at hk
    rcases mem_cons.mp hk with he | hk
    · obtain ⟨rfl, -⟩ := Prod.mk.inj he
      exact .inr ⟨true, by simp⟩
    · exact .inr ⟨b, by simp [hk]⟩
  | @defer j rest hτ hl =>
    by_cases hkj : k = j
    · subst hkj
      exact .inl (by simp)
    · rw [hτ] at hk
      exact .inr ⟨b, by simpa [hkj] using hk⟩

theorem Advanced.other (hstep : Advanced f τ f') {σ : T} (hne : σ ≠ τ) : f'.todo σ = f.todo σ := by
  cases hstep with
  | idle | wait => rfl
  | mark | defer => simp [hne]

theorem grace_lock (f : Flow n T) (op : Op n T) {w : Work} (h : f.grace op = .defer w) :
    f.q.locked = false := by
  cases op with
  | advance τ =>
    simp only [grace] at h
    split at h
    · split at h
      · cases h
      · exact Bool.not_eq_true _ ▸ ‹_›
    · cases h
  | _ => cases h

theorem grace_reclaim {op : Op n T} (h : f.grace op = .reclaim) :
    ∃ τ works, op = .reclaim τ works := by
  cases op with
  | advance τ =>
    simp only [grace] at h
    split at h
    · split at h <;> cases h
    · cases h
  | reclaim τ works => exact ⟨τ, works, rfl⟩
  | _ => cases h

namespace Moves
variable {f : Nat → Flow n T} {op : Nat → Op n T} (h : Moves f op)
include h

theorem apply_q (t : Nat) : ((f t).apply (op t)).q = (f t).q.apply ((f t).grace (op t)) := by
  cases op t with
  | load | store | offline | start | skip => rfl
  | advance τ =>
    show ((f t).advance τ).q = _
    have hstep := (h.inv t).advanced τ
    generalize (f t).advance τ = f' at hstep
    cases hstep with
    | idle hτ | mark hτ => simp [grace, hτ, Qsbr.State.apply]
    | wait hτ hl | defer hτ hl => simp [grace, hτ, hl, Qsbr.State.apply]
  | reclaim τ works => exact (f t).reclaim_q

theorem todo_step (t : Nat) {τ : T} (hop : op t ≠ .advance τ)
    (hnew : ∀ works, op t ≠ .start τ works ∧ op t ≠ .reclaim τ works) :
    (f (t + 1)).todo τ = (f t).todo τ := by
  rw [h.step t]
  cases ho : op t with
  | load | store | offline | skip => rfl
  | start σ works =>
    have hne : τ ≠ σ := by
      rintro rfl
      exact (hnew works).1 ho
    exact update_of_ne hne ..
  | advance σ => exact ((h.inv t).advanced σ).other fun he => hop (he ▸ ho)
  | reclaim σ works =>
    have hne : τ ≠ σ := by
      rintro rfl
      exact (hnew works).2 ho
    exact (update_of_ne hne ..).trans (congrFun (f t).reclaim_todo τ)

theorem busy {t : Nat} {τ : T} (hτ : (f t).todo τ ≠ []) (works : List Work) :
    op t ≠ .start τ works ∧ op t ≠ .reclaim τ works :=
  ⟨fun ho => hτ (h.starts t τ works (.inl ho)).1, fun ho => hτ (h.starts t τ works (.inr ho)).1⟩

theorem weight_step (t : Nat) {τ : T} (hτ : (f t).todo τ ≠ []) :
    weight ((f (t + 1)).todo τ) ≤ weight ((f t).todo τ) ∧
      (op t = .advance τ ∧ (f t).q.locked = false →
        weight ((f (t + 1)).todo τ) < weight ((f t).todo τ)) := by
  by_cases hop : op t = .advance τ
  · rw [h.step t, hop]
    have hw := ((h.inv t).advanced τ).lighter hτ
    exact ⟨hw.1, fun hl => hw.2 hl.2⟩
  · rw [h.todo_step t hop (h.busy hτ)]
    exact ⟨le_rfl, fun hl => absurd hl.1 hop⟩

section
variable {τ : T} (hadv : ∀ t, ∃ t', t ≤ t' ∧ op t' = .advance τ ∧ (f t').q.locked = false)
include hadv

theorem todo_pending {t : Nat} {k : Work} {b : Bool} (hk : (f t).place k = .todo τ b) :
    ∃ t', t ≤ t' ∧ (f t').place k = .pending := by
  have hone : ∀ m b, (k, b) ∈ (f m).todo τ → (f (m + 1)).place k = .pending ∨
      ∃ b', (k, b') ∈ (f (m + 1)).todo τ := by
    intro m b hm
    by_cases hop : op m = .advance τ
    · rw [h.step m, hop]
      exact ((h.inv m).advanced τ).todo hm
    · rw [h.todo_step m hop (h.busy (ne_nil_of_mem hm))]
      exact .inr ⟨b, hm⟩
  exact Run.leads_measure hadv (fun g : Flow n T => ∃ b, (k, b) ∈ g.todo τ)
    (fun g => g.place k = .pending) (fun g => weight (g.todo τ)) ⟨b, ((h.inv t).todo τ k b).mpr hk⟩
    (fun m _ ⟨b, hb⟩ => (hone m b hb).imp id fun hk =>
      ⟨hk, (h.weight_step m (ne_nil_of_mem hb)).1⟩)
    (fun m _ ⟨b, hb⟩ hm => (hone m b hb).imp id fun hk =>
      ⟨hk, (h.weight_step m (ne_nil_of_mem hb)).2 hm⟩)

theorem todo_drains (t : Nat) : ∃ t', t ≤ t' ∧ (f t').todo τ = [] := by
  by_cases hτ : (f t).todo τ = []
  · exact ⟨t, le_rfl, hτ⟩
  · exact Run.leads_measure hadv (fun g : Flow n T => g.todo τ ≠ []) (fun g => g.todo τ = [])
      (fun g => weight (g.todo τ)) hτ
      (fun m _ hm => (em _).imp id fun hn => ⟨hn, (h.weight_step m hm).1⟩)
      (fun m _ hm ht => (em _).imp id fun hn => ⟨hn, (h.weight_step m hm).2 ht⟩)

end

theorem not_started {t : Nat} {τ : T} {works : List Work} {k : Work}
    (ho : op t = .start τ works ∨ op t = .reclaim τ works) (hk : (f t).place k ≠ .nowhere) :
    k ∉ works :=
  fun hm => hk ((h.starts t τ works ho).2 k hm)

theorem done_stays {t t' : Nat} (ht : t ≤ t') {k : Work} (hk : (f t).place k = .done) :
    (f t').place k = .done := by
  induction t', ht using Nat.le_induction with
  | base => exact hk
  | succ t' ht ih =>
    have hold : ∀ {τ works}, op t' = .start τ works ∨ op t' = .reclaim τ works → k ∉ works :=
      fun ho => h.not_started ho (ih ▸ nofun)
    rw [h.step t']
    cases ho : op t' with
    | load | store | offline | skip => exact ih
    | start τ works => exact (if_neg (hold (.inl ho))).trans ih
    | advance τ => exact (((h.inv t').advanced τ).settled (h.inv t') k rfl).mpr ih
    | reclaim τ works =>
      refine (if_neg (hold (.inr ho))).trans ?_
      rw [reclaim_place]
      split
      · rfl
      · exact ih

end Moves

namespace Goes
variable {f : Nat → Flow n T} {op : Nat → Op n T}

theorem periods (h : Goes f op) : Qsbr.Goes (fun t => (f t).q) (fun t => (f t).grace (op t)) where
  step := fun t => by
    rw [h.step t, h.apply_q t]
  lock := fun t w hw => grace_lock (f t) (op t) hw
  stamped := h.stamped
  reclaims := fun t => by
    obtain ⟨t', ht, τ, works, hop⟩ := h.reclaims t
    exact ⟨t', ht, by rw [hop]; rfl⟩
  leaves := h.leaves

/-- **Work that was begun is run.** -/
theorem done (h : Goes f op) {t : Nat} {k : Work} (hk : (f t).place k ≠ .nowhere) :
    ∃ t', t ≤ t' ∧ (f t').place k = .done := by
  have hpend : ∀ m, (f m).place k = .pending → ∃ t', m ≤ t' ∧ (f t').place k = .done := by
    intro m hm
    obtain ⟨t', ht, hop, hd⟩ := h.periods.deferred_runs (((h.inv m).pending k).mpr hm)
    obtain ⟨τ, works, hr⟩ := grace_reclaim hop
    refine ⟨t' + 1, by omega, ?_⟩
    rw [h.step t', hr]
    show ((f t').reclaim.start τ works).place k = .done
    rw [start_place, if_neg (h.not_started (.inr hr) ((h.inv t').handed hd ▸ nofun)), reclaim_place,
      if_pos hd]
  cases hp : (f t).place k with
  | nowhere => exact absurd hp hk
  | todo τ b =>
    obtain ⟨m, hm, hq⟩ := h.todo_pending (h.advances τ) hp
    obtain ⟨t', ht, hd⟩ := hpend m hq
    exact ⟨t', le_trans hm ht, hd⟩
  | pending => exact hpend t hp
  | done => exact ⟨t, le_rfl, hp⟩

end Goes

end Flow

end Pools
