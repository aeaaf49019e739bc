import InferenceGateway.Lib.Run
import InferenceGateway.Lb.Chwbl

/-!
# Load units across rule updates

Workers take units (`chwbl_select_runtime`, `chwbl_hash_and_select_runtime`, `chwbl_inc_runtime`)
and give them back (`chwbl_dec_runtime`) while rule updates replace the table of counters in
place, interleaved: every atomic access is one step, and so is the swap, which waits until no
worker holds `chwbl_state_lock`.  `chwbl_prepare_runtime` copies the counters one by one before
that, without the lock.

* `owed`        the units of an endpoint whose increment was made and whose decrement was not;
* `drift`       what the counter of a copied slot changed by since it was copied;
* `Conserved`   the counters are the units, and none has wrapped;
* **`units_conserved_iff`**  a run keeps that exactly when no update swaps in a drifted copy and no
  counter is full.
-/

open Function List Option Nat

namespace Lb

def maxProxyEp : Nat := 32

/-- what a rule gives: the endpoints by slot (address and port), the ring built from them and the
load factor -/
structure Rule where
  nEps : Nat
  eps : Nat → Nat × Nat
  ring : List Vnode
  factor : Nat

namespace Rule

/-- the update leaves every endpoint at its slot -/
def Keeps (old new : Rule) : Prop :=
  old.nEps ≤ new.nEps ∧ new.nEps ≤ maxProxyEp ∧ ∀ i, i < old.nEps → new.eps i = old.eps i

instance (old new : Rule) : Decidable (old.Keeps new) :=
  inferInstanceAs (Decidable (_ ∧ _ ∧ ∀ i, i < old.nEps → _))

/-- no address and port stands at two slots -/
def Distinct (r : Rule) : Prop := ∀ i j, i < r.nEps → j < r.nEps → r.eps i = r.eps j → i = j

end Rule

/-- what a worker is doing; all but `idle` hold `chwbl_state_lock` for reading -/
inductive Task
  | idle
  /-- before the increment of slot `i` -/
  | adding (i : Nat)
  /-- after it, before the unlock -/
  | added (i : Nat)
  /-- in `chwbl_dec_load`, before the counter is read -/
  | checking (i : Nat)
  /-- the counter was not 0 -/
  | subbing (i : Nat)
  /-- before the unlock of `chwbl_dec_runtime` -/
  | leaving
  deriving DecidableEq

def Task.slot : Task → Option Nat
  | .idle => none
  | .adding i | .added i | .checking i | .subbing i => some i
  | .leaving => none

/-- the task stands between an increment and a decrement of slot `i` -/
def Task.owes (i : Nat) : Task → Bool
  | .added j | .checking j | .subbing j => j == i
  | _ => false

/-- an update between the start of `chwbl_prepare_runtime` and the swap -/
structure Candidate where
  rule : Rule
  /-- the slots below are copied -/
  next : Nat
  loads : Nat → Nat
  /-- increments less decrements of a copied slot since it was copied -/
  drift : Nat → Int

structure State where
  rule : Rule
  /-- `ep_loads[i].active_conns` -/
  loads : Nat → Nat
  tasks : List Task
  /-- units of a slot that were taken and are held by connections -/
  held : Nat → Nat
  update : Option Candidate
  /-- a counter has wrapped below zero -/
  wrapped : Bool

inductive Act
  /-- a worker selects an endpoint for a hash; its reads return these values -/
  | select (w : Nat) (hash : UInt64) (o : Seen)
  /-- a worker takes a unit of an endpoint of the pool that was chosen elsewhere -/
  | inc (w i : Nat)
  /-- a worker gives back a unit that is held on slot `i` -/
  | dec (w i : Nat)
  /-- the next step of what a worker is doing -/
  | step (w : Nat)
  | prepare (r : Rule)
  | copy
  /-- it is given up: the ring could not be built -/
  | reject | swap

namespace State

def setTask (s : State) (w : Nat) (t : Task) : State := { s with tasks := s.tasks.set w t }

/-- an atomic change of the counter of slot `i` to `v`; `d` is what it changed by -/
def setLoad (s : State) (i v : Nat) (d : Int) : State :=
  { s with
    loads := Function.update s.loads i v
    update := s.update.map fun c =>
      if i < c.next then { c with drift := Function.update c.drift i (c.drift i + d) } else c }

def fetchAdd (s : State) (i : Nat) : State :=
  s.setLoad i ((s.loads i + 1) % uint32) (((s.loads i + 1) % uint32 : Nat) - s.loads i)

def fetchSub (s : State) (i : Nat) : State :=
  if s.loads i = 0 then { s.setLoad i (uint32 - 1) (uint32 - 1) with wrapped := true }
  else s.setLoad i (s.loads i - 1) (-1)

def setHeld (s : State) (i n : Nat) : State := { s with held := Function.update s.held i n }

/-- the units of slot `i` whose increment was made and whose decrement was not -/
def owed (s : State) (i : Nat) : Nat := s.held i + s.tasks.countP (Task.owes i)
def Quiet (s : State) : Prop := (∀ t ∈ s.tasks, t = .idle) ∧ s.update = none

end State

def advance (s : State) (w : Nat) : Task → State
  | .idle => s
  | .adding i => (s.fetchAdd i).setTask w (.added i)
  | .added i => (s.setHeld i (s.held i + 1)).setTask w .idle
  | .checking i => s.setTask w (if 0 < s.loads i then .subbing i else .leaving)
  | .subbing i => (s.fetchSub i).setTask w .leaving
  | .leaving => s.setTask w .idle

/-- the counter `chwbl_prepare_runtime` copies for slot `k`: that of the first old slot with the
same address and port -/
def copied (s : State) (r : Rule) (k : Nat) : Nat :=
  match (range s.rule.nEps).find? fun j => r.eps k == s.rule.eps j with
  | some j => s.loads j
  | none => 0

/-- the update copies the counter of its next slot -/
def copyNext (s : State) (c : Candidate) : Candidate :=
  { c with
    next := c.next + 1
    loads := Function.update c.loads c.next (copied s c.rule c.next)
    drift := Function.update c.drift c.next 0 }

/-- the swap can be made: all counters are copied and nobody reads -/
def CanSwap (s : State) (c : Candidate) : Prop := c.next = c.rule.nEps ∧ ∀ t ∈ s.tasks, t = .idle

instance (s : State) (c : Candidate) : Decidable (CanSwap s c) :=
  inferInstanceAs (Decidable (_ ∧ _))

/-- one step; what cannot be done now changes nothing -/
def apply (s : State) : Act → State
  | .select w hash o =>
    if s.tasks[w]? = some .idle then
      match chwblSelectEndpoint s.rule.ring s.rule.nEps s.rule.factor hash o with
      | some i => s.setTask w (.adding i)
      | none => s
    else s
  | .inc w i =>
    if s.tasks[w]? = some .idle ∧ i < s.rule.nEps then s.setTask w (.adding i) else s
  | .dec w i =>
    if s.tasks[w]? = some .idle ∧ 0 < s.held i then
      (s.setHeld i (s.held i - 1)).setTask w (.checking i)
    else s
  | .step w =>
    match s.tasks[w]? with
    | some t => advance s w t
    | none => s
  | .prepare r =>
    if s.update.isNone ∧ s.rule.Keeps r then
      { s with update := some ⟨r, 0, fun _ => 0, fun _ => 0⟩ }
    else s
  | .copy =>
    match s.update with
    | some c => if c.next < c.rule.nEps then { s with update := some (copyNext s c) } else s
    | none => s
  | .reject => { s with update := none }
  | .swap =>
    match s.update with
    | some c =>
      if CanSwap s c then { s with rule := c.rule, loads := c.loads, update := none } else s
    | none => s

def init (r : Rule) (n : Nat) : State := ⟨r, fun _ => 0, replicate n .idle, fun _ => 0, none, false⟩
def run (s : State) (acts : List Act) : State := acts.foldl apply s

/-- the counters are the units taken and not yet given back, and none has wrapped -/
structure Conserved (s : State) : Prop where
  loads : ∀ i, s.loads i = s.owed i
  unwrapped : s.wrapped = false

variable {s : State} {w i v k : Nat} {t t' : Task} {d : Int} {r : Rule} {c : Candidate} {a : Act}

theorem Conserved.of_quiet (h : Conserved s) (hq : s.Quiet) (i : Nat) : s.loads i = s.held i := by
  have hnone : s.tasks.countP (Task.owes i) = 0 := by
    apply countP_eq_zero.mpr
    intro t ht
    rw [hq.1 t ht]
    exact Bool.false_ne_true
  rw [h.loads i, State.owed, hnone, add_zero]

/-- the updates of the run name no endpoint twice -/
def Act.Distinct : Act → Prop
  | .prepare r => r.Distinct
  | _ => True

/-- a swap finds no copied counter that has changed since, and an increment no full one -/
def Act.Undrifted (s : State) : Act → Bool
  | .swap => s.update.all fun c => !decide (CanSwap s c) || (range c.next).all fun i => c.drift i = 0
  | .step w =>
    match s.tasks[w]? with
    | some (.adding i) => s.owed i + 1 < uint32
    | _ => true
  | _ => true

/-! ## what stays true beside the counters -/

/-- an update in progress under the rule `old`: the copied counters with their drift are the live
ones -/
structure Copying (old : Rule) (live : Nat → Nat) (c : Candidate) : Prop where
  keeps : old.Keeps c.rule
  distinct : c.rule.Distinct
  next_le : c.next ≤ c.rule.nEps
  copied : ∀ k, k < c.next → (c.loads k : Int) + c.drift k = live k
  rest : ∀ k, c.next ≤ k → c.loads k = 0 ∧ c.drift k = 0

/-- units are of endpoints of the pool, and an update in progress is consistent -/
structure Steady (s : State) : Prop where
  held : ∀ i, s.rule.nEps ≤ i → s.held i = 0
  tasks : ∀ t ∈ s.tasks, ∀ i, t.slot = some i → i < s.rule.nEps
  update : ∀ c, s.update = some c → Copying s.rule s.loads c

/-! ## one task changes -/

theorem owed_setTask (h : s.tasks[w]? = some t) (t' : Task) (i : Nat) :
    (s.setTask w t').owed i + (if t.owes i then 1 else 0)
      = s.owed i + if t'.owes i then 1 else 0 := by
  have hset := Run.countP_set h t' (Task.owes i)
  unfold State.owed State.setTask
  dsimp only
  omega

theorem Steady.setTask (h : Steady s) (w : Nat) (ht : ∀ i, t'.slot = some i → i < s.rule.nEps) :
    Steady (s.setTask w t') where
  held := h.held
  tasks := by
    intro t hmem i hi
    rcases mem_or_eq_of_mem_set hmem with hold | hnew
    · exact h.tasks t hold i hi
    · rw [hnew] at hi
      exact ht i hi
  update := h.update

theorem Steady.setHeld (h : Steady s) (hi : i < s.rule.nEps) (n : Nat) :
    Steady (s.setHeld i n) where
  held := by
    intro k hk
    have hki : k ≠ i := fun he => absurd hi (not_lt.mpr (he ▸ hk))
    show Function.update s.held i n k = 0
    rw [update_of_ne hki]
    exact h.held k hk
  tasks := h.tasks
  update := h.update

theorem Conserved.setTask (h : Conserved s) (hw : s.tasks[w]? = some t)
    (ho : ∀ i, t'.owes i = t.owes i) : Conserved (s.setTask w t') where
  loads := by
    intro i
    have howed := owed_setTask hw t' i
    rw [ho i] at howed
    show s.loads i = _
    rw [h.loads i]
    omega
  unwrapped := h.unwrapped

theorem owed_of_le (h : Steady s) (hi : s.rule.nEps ≤ i) : s.owed i = 0 := by
  have hnone : s.tasks.countP (Task.owes i) = 0 := by
    apply countP_eq_zero.mpr
    intro t ht ho
    have hlt : i < s.rule.nEps := by
      apply h.tasks t ht
      cases t with
      | added | checking | subbing => exact congrArg some (beq_iff_eq.mp ho)
      | idle | adding | leaving => cases ho
    omega
  rw [State.owed, h.held i hi, hnone]

/-! ## one counter changes -/

theorem Steady.setLoad (h : Steady s) (hv : (v : Int) = s.loads i + d) :
    Steady (s.setLoad i v d) where
  held := h.held
  tasks := h.tasks
  update := by
    intro c' hc'
    obtain ⟨c, hc, rfl⟩ := map_eq_some_iff.mp hc'
    have hcopy := h.update c hc
    by_cases hi : i < c.next
    · rw [if_pos hi]
      refine ⟨hcopy.keeps, hcopy.distinct, hcopy.next_le, ?_, ?_⟩
      · intro k hk
        show (c.loads k : Int) + Function.update c.drift i (c.drift i + d) k
          = (Function.update s.loads i v k : Nat)
        by_cases hki : k = i
        · rw [hki, update_self, update_self]
          have := hcopy.copied i hi
          omega
        · rw [update_of_ne hki, update_of_ne hki]
          exact hcopy.copied k hk
      · intro k hk
        have hki : k ≠ i := fun he => absurd hi (not_lt.mpr (he ▸ hk))
        show c.loads k = 0 ∧ Function.update c.drift i (c.drift i + d) k = 0
        rw [update_of_ne hki]
        exact hcopy.rest k hk
    · rw [if_neg hi]
      refine ⟨hcopy.keeps, hcopy.distinct, hcopy.next_le, ?_, hcopy.rest⟩
      intro k hk
      have hki : k ≠ i := fun he => hi (he ▸ hk)
      show (c.loads k : Int) + c.drift k = (Function.update s.loads i v k : Nat)
      rw [update_of_ne hki]
      exact hcopy.copied k hk

theorem Conserved.setLoad (h : Conserved s) (hw : s.tasks[w]? = some t)
    (hv : v + (if t.owes i then 1 else 0) = s.loads i + if t'.owes i then 1 else 0)
    (hne : ∀ k, k ≠ i → t'.owes k = t.owes k) : Conserved ((s.setLoad i v d).setTask w t') where
  loads := by
    intro k
    have howed : ((s.setLoad i v d).setTask w t').owed k + (if t.owes k then 1 else 0)
        = s.owed k + if t'.owes k then 1 else 0 := owed_setTask hw t' k
    show update s.loads i v k = _
    by_cases hk : k = i
    · subst hk
      rw [update_self]
      rw [h.loads k] at hv
      omega
    · rw [update_of_ne hk, h.loads k]
      rw [hne k hk] at howed
      omega
  unwrapped := h.unwrapped

theorem Conserved.setHeld (h : Conserved s) {n : Nat} (hw : s.tasks[w]? = some t)
    (hn : n + (if t'.owes i then 1 else 0) = s.held i + if t.owes i then 1 else 0)
    (hne : ∀ k, k ≠ i → t'.owes k = t.owes k) : Conserved ((s.setHeld i n).setTask w t') where
  loads := by
    intro k
    have hcount := Run.countP_set hw t' (Task.owes k)
    show s.loads k = update s.held i n k + (s.tasks.set w t').countP (Task.owes k)
    rw [h.loads k, State.owed]
    by_cases hk : k = i
    · subst hk
      rw [update_self]
      omega
    · rw [update_of_ne hk]
      rw [hne k hk] at hcount
      omega
  unwrapped := h.unwrapped

section
variable (hc : Conserved s) (hs : Steady s)
include hc hs

omit hc in
theorem steady_add (hw : s.tasks[w]? = some (.adding i)) :
    Steady ((s.fetchAdd i).setTask w (.added i)) := by
  refine Steady.setTask (hs.setLoad (by omega)) w fun k hk => ?_
  rw [← some.inj hk]
  exact hs.tasks _ (mem_of_getElem? hw) i rfl

omit hs in
theorem conserved_add_iff (hw : s.tasks[w]? = some (.adding i)) :
    Conserved ((s.fetchAdd i).setTask w (.added i)) ↔ s.owed i + 1 < uint32 := by
  constructor
  · intro h
    have hload : (s.loads i + 1) % uint32 = _ := (update_self ..).symm.trans (h.loads i)
    have howed : ((s.fetchAdd i).setTask w (.added i)).owed i + 0 = s.owed i + if i == i then 1 else 0 :=
      owed_setTask hw (.added i) i
    rw [BEq.rfl, if_pos rfl, add_zero] at howed
    rw [← howed, ← hload]
    exact mod_lt _ (by decide)
  · intro hlt
    refine hc.setLoad hw ?_ fun _ hk => beq_false_of_ne hk.symm
    show (s.loads i + 1) % uint32 + 0 = s.loads i + if i == i then 1 else 0
    rw [mod_eq_of_lt (hc.loads i ▸ hlt), BEq.rfl, if_pos rfl]

omit hs in
theorem one_le_loads (hw : s.tasks[w]? = some t) (ht : t.owes i = true) : 1 ≤ s.loads i := by
  have howed : (s.setTask w .idle).owed i + (if t.owes i then 1 else 0) = s.owed i + 0 :=
    owed_setTask hw .idle i
  rw [ht, if_pos rfl] at howed
  rw [hc.loads i]
  omega

theorem kept_sub (hw : s.tasks[w]? = some (.subbing i)) :
    Conserved ((s.fetchSub i).setTask w .leaving) ∧ Steady ((s.fetchSub i).setTask w .leaving) := by
  have hone : 1 ≤ s.loads i := one_le_loads hc hw BEq.rfl
  have hsub : s.fetchSub i = s.setLoad i (s.loads i - 1) (-1) := by
    rw [State.fetchSub, if_neg (one_le_iff_ne_zero.mp hone)]
  rw [hsub]
  refine ⟨hc.setLoad hw ?_ fun _ hk => (beq_false_of_ne hk.symm).symm,
    Steady.setTask (hs.setLoad (by omega)) w fun k hk => by cases hk⟩
  show s.loads i - 1 + (if i == i then 1 else 0) = s.loads i + 0
  rw [BEq.rfl, if_pos rfl]
  omega

theorem kept_advance (hw : s.tasks[w]? = some t) (hok : (Act.step w).Undrifted s = true) :
    Conserved (advance s w t) ∧ Steady (advance s w t) := by
  cases t with
  | idle => exact ⟨hc, hs⟩
  | adding i =>
    simp only [Act.Undrifted, hw, decide_eq_true_eq] at hok
    exact ⟨(conserved_add_iff hc hw).mpr hok, steady_add hs hw⟩
  | added i =>
    have hi : i < s.rule.nEps := hs.tasks _ (mem_of_getElem? hw) i rfl
    refine ⟨hc.setHeld hw ?_ fun _ hk => (beq_false_of_ne hk.symm).symm, ?_⟩
    · show s.held i + 1 + 0 = s.held i + if i == i then 1 else 0
      rw [BEq.rfl, if_pos rfl]
    · apply (hs.setHeld hi _).setTask
      intro k hk
      cases hk
  | checking i =>
    have hi : i < s.rule.nEps := hs.tasks _ (mem_of_getElem? hw) i rfl
    have hone : 0 < s.loads i := one_le_loads hc hw BEq.rfl
    have hnext : advance s w (.checking i) = s.setTask w (.subbing i) := by
      rw [advance, if_pos hone]
    rw [hnext]
    refine ⟨hc.setTask hw fun _ => rfl, hs.setTask w ?_⟩
    intro k hk
    rw [← some.inj hk]
    exact hi
  | subbing i => exact kept_sub hc hs hw
  | leaving => exact ⟨hc.setTask hw fun _ => rfl, hs.setTask w fun k hk => by cases hk⟩

/-! ## updates -/

omit hc hs in
theorem copied_of_lt (hk : s.rule.Keeps r) (hd : r.Distinct) (h : k < s.rule.nEps) :
    copied s r k = s.loads k := by
  have hfind : (range s.rule.nEps).find? (fun j => r.eps k == s.rule.eps j) = some k := by
    rw [find?_range_eq_some]
    refine ⟨beq_iff_eq.mpr (hk.2.2 k h), mem_range.mpr h, ?_⟩
    intro j hj
    have hjn : j < s.rule.nEps := lt_trans hj h
    rw [Bool.not_eq_true', beq_eq_false_iff_ne]
    intro he
    rw [← hk.2.2 j hjn] at he
    have := hd k j (lt_of_lt_of_le h hk.1) (lt_of_lt_of_le hjn hk.1) he
    omega
  rw [copied, hfind]

omit hc hs in
theorem copied_of_le (hk : s.rule.Keeps r) (hd : r.Distinct) (h : s.rule.nEps ≤ k)
    (hkr : k < r.nEps) : copied s r k = 0 := by
  have hfind : (range s.rule.nEps).find? (fun j => r.eps k == s.rule.eps j) = none := by
    rw [find?_eq_none]
    intro j hj he
    have hjn := mem_range.mp hj
    rw [beq_iff_eq, ← hk.2.2 j hjn] at he
    have := hd k j hkr (lt_of_lt_of_le hjn hk.1) he
    omega
  rw [copied, hfind]

theorem copying_copyNext (h : Copying s.rule s.loads c) (hlt : c.next < c.rule.nEps) :
    Copying s.rule s.loads (copyNext s c) := by
  have hcopy : copied s c.rule c.next = s.loads c.next := by
    rcases lt_or_ge c.next s.rule.nEps with hin | hout
    · exact copied_of_lt h.keeps h.distinct hin
    · rw [copied_of_le h.keeps h.distinct hout hlt, hc.loads, owed_of_le hs hout]
  refine ⟨h.keeps, h.distinct, hlt, ?_, ?_⟩
  · intro k hk
    show ((update c.loads c.next (copied s c.rule c.next) k : Nat) : Int)
      + update c.drift c.next 0 k = s.loads k
    by_cases hkn : k = c.next
    · rw [hkn, update_self, update_self, hcopy, Int.add_zero]
    · rw [update_of_ne hkn, update_of_ne hkn]
      exact h.copied k (lt_of_le_of_ne (le_of_lt_succ hk) hkn)
  · intro k hk
    have hkn : k ≠ c.next := ne_of_gt hk
    show update c.loads c.next _ k = 0 ∧ update c.drift c.next 0 k = 0
    rw [update_of_ne hkn, update_of_ne hkn]
    exact h.rest k (le_of_lt hk)

theorem kept_update {u : Option Candidate} (hu : ∀ c, u = some c → Copying s.rule s.loads c) :
    Conserved { s with update := u } ∧ Steady { s with update := u } :=
  ⟨{ hc with }, ⟨hs.held, hs.tasks, hu⟩⟩

theorem conserved_swap (h : Copying s.rule s.loads c) (hall : c.next = c.rule.nEps) :
    Conserved { s with rule := c.rule, loads := c.loads, update := none } ↔
      ∀ i < c.next, c.drift i = 0 := by
  -- slots beyond the pool carry no units
  have hlive : ∀ i, (c.loads i : Int) + c.drift i = s.owed i := by
    intro i
    rcases lt_or_ge i c.next with hi | hi
    · rw [← hc.loads i]
      exact h.copied i hi
    · have hout : s.rule.nEps ≤ i := le_trans h.keeps.1 (hall ▸ hi)
      obtain ⟨hl, hd⟩ := h.rest i hi
      rw [hl, hd, owed_of_le hs hout]
      rfl
  constructor
  · intro hafter i _
    have hload : c.loads i = s.owed i := hafter.loads i
    have := hlive i
    omega
  · intro hdrift
    refine ⟨fun i => ?_, hc.unwrapped⟩
    show c.loads i = s.owed i
    have := hlive i
    rw [(lt_or_ge i c.next).elim (hdrift i) fun hi => (h.rest i hi).2] at this
    omega

omit hc in
theorem steady_swap (h : Copying s.rule s.loads c) (hidle : ∀ t ∈ s.tasks, t = .idle) :
    Steady { s with rule := c.rule, loads := c.loads, update := none } where
  held := fun i hi => hs.held i (le_trans h.keeps.1 hi)
  tasks := by
    intro t ht i hi
    rw [hidle t ht] at hi
    cases hi
  update := fun _ he => by cases he

/-! ## runs -/

theorem kept_apply (ha : a ≠ .swap) (hd : a.Distinct) (hok : a.Undrifted s = true) :
    Conserved (apply s a) ∧ Steady (apply s a) := by
  cases a with
  | swap => exact absurd rfl ha
  | select w hash o =>
    unfold apply
    dsimp only
    split
    · split
      · rename_i hw _ i hsel
        refine ⟨hc.setTask hw fun _ => rfl, hs.setTask w ?_⟩
        intro k hk
        rw [← some.inj hk]
        exact chwblSelectEndpoint_lt hsel
      · exact ⟨hc, hs⟩
    · exact ⟨hc, hs⟩
  | inc w i =>
    unfold apply
    dsimp only
    split
    · rename_i h
      refine ⟨hc.setTask h.1 fun _ => rfl, hs.setTask w ?_⟩
      intro k hk
      rw [← some.inj hk]
      exact h.2
    · exact ⟨hc, hs⟩
  | dec w i =>
    unfold apply
    dsimp only
    split
    · rename_i h
      have hi : i < s.rule.nEps := by
        by_contra hout
        rw [hs.held i (Nat.le_of_not_lt hout)] at h
        exact absurd h.2 (lt_irrefl 0)
      refine ⟨hc.setHeld h.1 ?_ fun _ hk => beq_false_of_ne hk.symm, ?_⟩
      · show s.held i - 1 + (if i == i then 1 else 0) = s.held i + 0
        rw [BEq.rfl, if_pos rfl]
        omega
      · apply (hs.setHeld hi _).setTask
        intro k hk
        rw [← some.inj hk]
        exact hi
    · exact ⟨hc, hs⟩
  | step w =>
    unfold apply
    dsimp only
    split
    · exact kept_advance hc hs ‹_› hok
    · exact ⟨hc, hs⟩
  | prepare r =>
    unfold apply
    dsimp only
    split
    · rename_i h
      apply kept_update hc hs
      intro c he
      cases he
      exact ⟨h.2, hd, zero_le _, fun k hk => absurd hk (not_lt_zero k), fun _ _ => ⟨rfl, rfl⟩⟩
    · exact ⟨hc, hs⟩
  | copy =>
    unfold apply
    dsimp only
    split
    · rename_i c hu
      split
      · rename_i hlt
        apply kept_update hc hs
        intro c' he
        cases he
        exact copying_copyNext hc hs (hs.update c hu) hlt
      · exact ⟨hc, hs⟩
    · exact ⟨hc, hs⟩
  | reject => exact kept_update hc hs fun c he => by cases he

omit hc hs in
/-- beside a swap, only an increment of a full counter breaks the balance -/
theorem full_of_not_undrifted (ha : a ≠ .swap) (h : ¬ a.Undrifted s = true) :
    ∃ w i, a = .step w ∧ s.tasks[w]? = some (.adding i) ∧ ¬ s.owed i + 1 < uint32 := by
  cases a with
  | swap => exact absurd rfl ha
  | step w =>
    simp only [Act.Undrifted] at h
    split at h
    · exact ⟨w, _, rfl, ‹_›, mt decide_eq_true h⟩
    · exact absurd rfl h
  | _ => exact absurd rfl h

theorem steady_apply (hd : a.Distinct) : Steady (apply s a) := by
  by_cases ha : a = .swap
  · subst ha
    unfold apply
    dsimp only
    split
    · split
      · rename_i c hu hcan
        exact steady_swap hs (hs.update c hu) hcan.2
      · exact hs
    · exact hs
  by_cases hok : a.Undrifted s = true
  · exact (kept_apply hc hs ha hd hok).2
  · obtain ⟨w, i, rfl, hw, -⟩ := full_of_not_undrifted ha hok
    unfold apply
    dsimp only
    rw [hw]
    exact steady_add hs hw

theorem conserved_apply_iff (hd : a.Distinct) : Conserved (apply s a) ↔ a.Undrifted s = true := by
  by_cases ha : a = .swap
  · subst ha
    unfold apply Act.Undrifted
    cases hu : s.update with
    | none => exact iff_of_true hc rfl
    | some c =>
      dsimp only
      split
      · rename_i hcan
        rw [conserved_swap hc hs (hs.update c hu) hcan.1]
        simp [hcan]
      · rename_i hcan
        exact iff_of_true hc (by simp [hcan])
  by_cases hok : a.Undrifted s = true
  · exact iff_of_true (kept_apply hc hs ha hd hok).1 hok
  · refine iff_of_false (fun h => ?_) hok
    obtain ⟨w, i, rfl, hw, hfull⟩ := full_of_not_undrifted ha hok
    unfold apply at h
    dsimp only at h
    rw [hw] at h
    exact hfull ((conserved_add_iff hc hw).mp h)

end

theorem conserved_init (r : Rule) (n : Nat) : Conserved (init r n) where
  loads := by
    intro i
    have hnone : (replicate n Task.idle).countP (Task.owes i) = 0 := by
      apply countP_eq_zero.mpr
      intro t ht
      rw [eq_of_mem_replicate ht]
      exact Bool.false_ne_true
    show 0 = 0 + (replicate n Task.idle).countP (Task.owes i)
    rw [hnone]
  unwrapped := rfl

theorem steady_init (r : Rule) (n : Nat) : Steady (init r n) where
  held := fun _ _ => rfl
  tasks := by
    intro t ht i hi
    rw [eq_of_mem_replicate ht] at hi
    cases hi
  update := fun _ he => by cases he

/-- **Units are conserved exactly when no drifted copy is swapped in.** In any interleaving of
workers and updates that keep the endpoints at their slots, each counter is always the number of
units taken and not given back if and only if at every swap each copied counter has had as many
increments as decrements since it was copied, and no endpoint has all the units a counter can count. -/
theorem units_conserved_iff (r : Rule) (n : Nat) (acts : List Act) (hd : ∀ a ∈ acts, a.Distinct) :
    ((∀ pre post, acts = pre ++ post → Conserved (run (init r n) pre)) ↔
      ∀ pre a post, acts = pre ++ a :: post → a.Undrifted (run (init r n) pre)) ∧
    ((∀ pre a post, acts = pre ++ a :: post → a.Undrifted (run (init r n) pre)) →
      ∀ pre post, acts = pre ++ post → (run (init r n) pre).Quiet →
        ∀ i, (run (init r n) pre).loads i = (run (init r n) pre).held i) := by
  have hiff := Run.prefix_iff_of_inv apply (init r n) Conserved (fun s a => a.Undrifted s = true)
    (conserved_init r n) Steady (steady_init r n) acts
    (fun s a ha hc hs => steady_apply hc hs (hd a ha))
    (fun s a ha hc hs => conserved_apply_iff hc hs (hd a ha))
  exact ⟨hiff, fun h pre post he hq => ((hiff.mpr h) pre post he).of_quiet hq⟩

def twoSlots : Rule := ⟨2, fun i => (i, 80), [⟨5, 0⟩, ⟨9, 1⟩], 175⟩
def idlePool : Seen := ⟨fun _ => true, 0, fun _ => 0, 0, fun _ => 0⟩

/-- a unit is taken and given back while an update waits to be swapped in, on a slot it has
copied -/
def undriftedUpdate : List Act :=
  [.select 0 7 idlePool, .step 0, .step 0, .prepare twoSlots, .copy, .copy,
    .inc 1 0, .step 1, .step 1, .dec 1 0, .step 1, .step 1, .step 1]

theorem distinct_twoSlots : twoSlots.Distinct := by
  intro i j _ _ h
  exact congrArg Prod.fst h

theorem units_conserved_iff_undrifted :
    (run (init twoSlots 2) (undriftedUpdate ++ [.swap])).loads 1 = 1 ∧
    ∀ i, (run (init twoSlots 2) (undriftedUpdate ++ [.swap])).loads i
      = (run (init twoSlots 2) (undriftedUpdate ++ [.swap])).held i := by
  have hd : ∀ a ∈ undriftedUpdate ++ [.swap], a.Distinct := by
    simp only [undriftedUpdate, cons_append, nil_append, forall_mem_cons,
      Act.Distinct, distinct_twoSlots, not_mem_nil, false_imp_iff, implies_true, and_true]
  have hok : Run.throughout apply Act.Undrifted (init twoSlots 2) (undriftedUpdate ++ [.swap]) = true := by
    decide +kernel
  obtain ⟨-, hquiet⟩ := units_conserved_iff twoSlots 2 _ hd
  exact ⟨by decide +kernel, hquiet (Run.of_throughout hok) _ [] (append_nil _).symm
    ⟨by decide +kernel, rfl⟩⟩

def oneSlot : Rule := ⟨1, fun i => (i, 80), [⟨5, 0⟩], 175⟩

/-- a unit is taken between the copy of its slot and the swap -/
def takenBeforeSwap : List Act :=
  [.inc 0 0, .step 0, .step 0, .prepare oneSlot, .copy, .inc 0 0, .step 0, .step 0, .swap]

def bothGivenBack : List Act :=
  [.dec 0 0, .dec 1 0, .step 0, .step 1, .step 0, .step 1, .step 0, .step 1]

def sameAddress : Rule := ⟨2, fun _ => (0, 80), [⟨5, 0⟩], 175⟩

/-- a unit is taken on the second of them, and an update is made later -/
def updatedTwice : List Act :=
  [.inc 0 1, .step 0, .step 0, .prepare sameAddress, .copy, .copy, .swap]

/-- after the swap two units are held and one is counted, and the counter wraps; a unit of an
address at two slots is not counted after an update -/
theorem units_lost : (run (init oneSlot 2) takenBeforeSwap).loads 0 = 1 ∧
    (run (init oneSlot 2) takenBeforeSwap).held 0 = 2 ∧
    (run (init oneSlot 2) (takenBeforeSwap ++ bothGivenBack)).loads 0 = 4294967295 ∧
    (run (init sameAddress 1) updatedTwice).loads 1 = 0 ∧
    (run (init sameAddress 1) updatedTwice).held 1 = 1 := by
  decide +kernel

end Lb
