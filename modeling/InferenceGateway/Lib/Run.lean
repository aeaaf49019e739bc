import Mathlib.Data.Fintype.BigOperators
import Mathlib.Algebra.GroupWithZero.Nat
import Mathlib.Algebra.Order.BigOperators.Group.Finset

/-!
# Runs of a step function

A machine is a step function `step : S → A → Option S`; a step that is not enabled is `none`.
`exec` runs a list of actions, `along` says that a condition holds at every step of the run.

* `exec_found`       a run that was executed, as a statement;
* `inv_of_step`      what every step that meets the condition keeps, every such run keeps;
* `prefix_inv`       the same for a machine whose steps are always enabled, along a run;
* `prefix_iff`       when a condition on the steps is what keeps a total machine's invariant;
* `of_throughout`    a condition on the steps of a given run, checked;
* `prefix_iff_of_inv`  the same beside an invariant that needs no condition;
* `leads`            what holds until a step that must come turns it into something else;
* `until_tick`       what lasts until a moment that must come holds at such a moment;
* `leads_measure`    a measure that falls at such moments and never rises runs out;
* `sum_update`       a sum after one of its members changed;
* `tally_update`     the same for the sum over all threads;
* `countP_set`       a count over a list of tasks after one of them changed.
-/

open Function List Finset

namespace Run

section
variable {S A : Type*} (step : S → A → Option S)

/-- the state after the actions, `none` when one of them is not enabled -/
def exec (s : S) : List A → Option S
  | [] => some s
  | a :: as => (step s a).bind fun s' => exec s' as

/-- the condition holds at every step of the run -/
def along (ok : S → A → Bool) (s : S) : List A → Bool
  | [] => true
  | a :: as =>
    ok s a && match step s a with
      | some s' => along ok s' as
      | none => true

variable {step}

variable {s s' : S} {a : A} {as : List A} {ok ok' : S → A → Bool} {P Q : S → Prop}

theorem exec_cons :
    exec step s (a :: as) = some s' ↔ ∃ m, step s a = some m ∧ exec step m as = some s' := by
  rw [exec, Option.bind_eq_some_iff]

theorem along_and (h : along step ok s as = true) (h' : along step ok' s as = true) :
    along step (fun s a => ok s a && ok' s a) s as = true := by
  induction as generalizing s with
  | nil => rfl
  | cons a as ih =>
    unfold along at h h' ⊢
    rw [Bool.and_eq_true] at h h' ⊢
    refine ⟨Bool.and_eq_true_iff.mpr ⟨h.1, h'.1⟩, ?_⟩
    cases hs : step s a with
    | none => rfl
    | some m =>
      rw [hs] at h h'
      exact ih h.2 h'.2

theorem along_all {ok : A → Bool} (h : ∀ a ∈ as, ok a = true) :
    along step (fun _ a => ok a) s as = true := by
  induction as generalizing s with
  | nil => rfl
  | cons a as ih =>
    unfold along
    rw [h a mem_cons_self]
    cases step s a with
    | none => rfl
    | some m => exact ih fun b hb => h b (mem_cons_of_mem _ hb)

/-- a run that was executed, with what was found in its last state -/
theorem exec_found [DecidablePred P] (h : ((exec step s as).any fun s' => decide (P s')) = true) :
    ∃ s', exec step s as = some s' ∧ P s' := by
  cases he : exec step s as with
  | none =>
    rw [he] at h
    cases h
  | some s' =>
    rw [he] at h
    exact ⟨s', rfl, of_decide_eq_true h⟩

theorem exec_follows [DecidablePred P] (h : ((exec step s as).any fun s' => decide (P s')) = true)
    (hq : ∀ s', exec step s as = some s' → P s' → Q s') : ∃ s', exec step s as = some s' ∧ Q s' :=
  let ⟨s', hs, hp⟩ := exec_found h
  ⟨s', hs, hq s' hs hp⟩

/-- **the invariant rule**: what holds at the start and is kept by every step that meets the
condition holds after every run whose steps meet it -/
theorem inv_of_step (hstep : ∀ s a s', P s → ok s a = true → step s a = some s' → P s') (hi : P s)
    (ha : along step ok s as = true) (he : exec step s as = some s') : P s' := by
  induction as generalizing s with
  | nil =>
    cases he
    exact hi
  | cons a as ih =>
    obtain ⟨m, hs, he'⟩ := exec_cons.mp he
    rw [along, hs, Bool.and_eq_true] at ha
    exact ih (hstep s a m hi ha.1 hs) ha.2 he'

theorem inv_of_every_step (hstep : ∀ s a s', P s → step s a = some s' → P s') (hi : P s)
    (he : exec step s as = some s') : P s' :=
  inv_of_step (fun s a s' hp _ => hstep s a s' hp) hi (along_all fun _ _ => rfl) he

end

/-! ## machines whose steps are always enabled -/

section
variable {S A : Type*} {step : S → A → S}

section
variable (step : S → A → S) (s : S) (P : S → Prop) (ok : S → A → Prop) (hi : P s)
include hi

/-- what holds at the start and is kept by every step that meets the condition holds throughout a
run whose steps meet it -/
theorem prefix_inv (hstep : ∀ s a, P s → ok s a → P (step s a)) {as : List A}
    (h : ∀ pre a post, as = pre ++ a :: post → ok (pre.foldl step s) a) (pre post : List A)
    (he : as = pre ++ post) : P (pre.foldl step s) := by
  induction pre using reverseRecOn generalizing post with
  | nil => exact hi
  | append_singleton pre a ih =>
    rw [append_assoc] at he
    rw [foldl_append]
    exact hstep _ a (ih _ he) (h pre a post he)

/-- when a step keeps `P` exactly under the condition, and a second invariant in any case, a run keeps
`P` throughout exactly when all its steps meet the condition -/
theorem prefix_iff_of_inv (J : S → Prop) (hj : J s) (as : List A)
    (hJ : ∀ s a, a ∈ as → P s → J s → J (step s a))
    (hstep : ∀ s a, a ∈ as → P s → J s → (P (step s a) ↔ ok s a)) :
    (∀ pre post, as = pre ++ post → P (pre.foldl step s)) ↔
      ∀ pre a post, as = pre ++ a :: post → ok (pre.foldl step s) a := by
  have hmem : ∀ pre a post, as = pre ++ a :: post → a ∈ as := by
    intro pre a post he
    rw [he]
    exact mem_append_right pre mem_cons_self
  constructor
  · intro h pre a post he
    have hj' := prefix_inv step s J (fun s a => P s ∧ a ∈ as) hj
      (fun s a hj hp => hJ s a hp.2 hp.1 hj)
      (fun pre a post he => ⟨h pre (a :: post) he, hmem pre a post he⟩) pre (a :: post) he
    have hnext := h (pre ++ [a]) post (by rw [he, append_assoc]; rfl)
    rw [foldl_append] at hnext
    exact (hstep _ a (hmem pre a post he) (h pre (a :: post) he) hj').mp hnext
  · intro h pre post he
    exact (prefix_inv step s (fun s => P s ∧ J s) (fun s a => ok s a ∧ a ∈ as) ⟨hi, hj⟩
      (fun s a hpj hok => ⟨(hstep s a hok.2 hpj.1 hpj.2).mpr hok.1, hJ s a hok.2 hpj.1 hpj.2⟩)
      (fun pre a post he => ⟨h pre a post he, hmem pre a post he⟩) pre post he).1

theorem prefix_iff (hstep : ∀ s a, P s → (P (step s a) ↔ ok s a)) (as : List A) :
    (∀ pre post, as = pre ++ post → P (pre.foldl step s)) ↔
      ∀ pre a post, as = pre ++ a :: post → ok (pre.foldl step s) a :=
  prefix_iff_of_inv step s P ok hi (fun _ => True) trivial as (fun _ _ _ _ _ => trivial)
    fun s a _ hp _ => hstep s a hp

end

variable (step) in
def throughout (ok : S → A → Bool) (s : S) : List A → Bool
  | [] => true
  | a :: as => ok s a && throughout ok (step s a) as

theorem of_throughout {ok : S → A → Bool} {s : S} {as : List A}
    (h : throughout step ok s as = true) (pre : List A) (a : A) (post : List A)
    (he : as = pre ++ a :: post) : ok (pre.foldl step s) a = true := by
  induction pre generalizing s as with
  | nil =>
    subst he
    exact (Bool.and_eq_true_iff.mp h).1
  | cons b pre ih =>
    subst he
    exact ih (Bool.and_eq_true_iff.mp h).2 rfl

variable (step) in
def trace (s : S) (σ : Nat → A) : Nat → S
  | 0 => s
  | n + 1 => step (trace s σ n) (σ n)

theorem trace_inv {P : S → Prop} (hstep : ∀ s a, P s → P (step s a)) {s : S} (hi : P s)
    (σ : Nat → A) (n : Nat) : P (trace step s σ n) := by
  induction n with
  | zero => exact hi
  | succ n ih => exact hstep _ _ ih

/-- **the leads-to rule**: what stays until something else holds becomes it at the latest with a
step that turns the one into the other -/
theorem leads (step : S → A → S) (s : S) (σ : Nat → A) {n m : Nat} (hnm : n ≤ m) (P Q : S → Prop)
    (hn : P (trace step s σ n))
    (hkeep : ∀ k, n ≤ k → P (trace step s σ k) →
      P (trace step s σ (k + 1)) ∨ Q (trace step s σ (k + 1)))
    (hfire : P (trace step s σ m) → Q (trace step s σ (m + 1))) :
    ∃ k, n ≤ k ∧ Q (trace step s σ k) := by
  by_contra hnever
  rw [not_exists] at hnever
  have hstays : ∀ k, n ≤ k → P (trace step s σ k) := by
    intro k hk
    induction k, hk using Nat.le_induction with
    | base => exact hn
    | succ k hk ih =>
      rcases hkeep k hk ih with hp | hq
      · exact hp
      · exact absurd ⟨Nat.le_succ_of_le hk, hq⟩ (hnever (k + 1))
  exact hnever (m + 1) ⟨Nat.le_succ_of_le hnm, hfire (hstays m hnm)⟩

/-! ## moments that keep coming -/

variable {x : Nat → S} {tick : Nat → Prop} {n : Nat}

/-- what lasts until a tick still holds at the first one -/
theorem until_tick (hinf : ∀ n, ∃ m, n ≤ m ∧ tick m) (P : S → Prop) (hn : P (x n))
    (hkeep : ∀ k, n ≤ k → ¬ tick k → P (x k) → P (x (k + 1))) : ∃ m, n ≤ m ∧ tick m ∧ P (x m) := by
  by_contra hnever
  have hstays : ∀ k, n ≤ k → P (x k) := by
    intro k hk
    induction k, hk using Nat.le_induction with
    | base => exact hn
    | succ k hk ih =>
      exact hkeep k hk (fun ht => hnever ⟨k, hk, ht, ih⟩) ih
  obtain ⟨m, hm, ht⟩ := hinf n
  exact hnever ⟨m, hm, ht, hstays m hm⟩

/-- **the ranking rule**: while `P` lasts the measure never rises, and every tick lowers it; so `Q`
comes -/
theorem leads_measure (hinf : ∀ n, ∃ m, n ≤ m ∧ tick m) (P Q : S → Prop) (μ : S → Nat)
    (hn : P (x n))
    (hkeep : ∀ k, n ≤ k → P (x k) → Q (x (k + 1)) ∨ (P (x (k + 1)) ∧ μ (x (k + 1)) ≤ μ (x k)))
    (htick : ∀ k, n ≤ k → P (x k) → tick k →
      Q (x (k + 1)) ∨ (P (x (k + 1)) ∧ μ (x (k + 1)) < μ (x k))) :
    ∃ k, n ≤ k ∧ Q (x k) := by
  by_contra hnever
  have hno : ∀ k, n ≤ k → ¬ Q (x k) := fun k hk hq => hnever ⟨k, hk, hq⟩
  -- from any moment on the measure is lower at some later one
  have hfall : ∀ v k, n ≤ k → P (x k) → μ (x k) = v → False := by
    intro v
    induction v using Nat.strong_induction_on with
    | _ v ih =>
      intro k hk hp hv
      obtain ⟨m, hm, ht, hpm, hle⟩ := until_tick hinf (fun y => P y ∧ μ y ≤ v) ⟨hp, hv.le⟩
        (fun j hj _ hpj => by
          rcases hkeep j (le_trans hk hj) hpj.1 with hq | ⟨hp', hle⟩
          · exact absurd hq (hno _ (by omega))
          · exact ⟨hp', le_trans hle hpj.2⟩)
      rcases htick m (le_trans hk hm) hpm ht with hq | ⟨hp', hlt⟩
      · exact hno _ (by omega) hq
      · exact ih _ (lt_of_lt_of_le hlt hle) (m + 1) (by omega) hp' rfl
  exact hfall _ n le_rfl hn rfl

end

/-! ## sums over threads -/

section
variable {ι : Type*} [DecidableEq ι] {T : Type*}

/-- what an update leaves alone at its place, it leaves alone everywhere -/
theorem update_keeps {U : Type*} (g : T → U) {f : ι → T} {i : ι} {v : T} (h : g v = g (f i)) (j : ι) :
    g (update f i v j) = g (f j) := by
  rw [update_apply]
  split
  case isTrue hj => rw [hj, h]
  case isFalse => rfl

/-- what holds at the new place and held everywhere holds everywhere -/
theorem update_all (P : ι → T → Prop) {f : ι → T} {i : ι} {v : T} (hv : P i v) (hf : ∀ j, P j (f j))
    (j : ι) : P j (update f i v j) := by
  rw [update_apply]
  split
  case isTrue hj => rwa [hj]
  case isFalse => exact hf j

theorem sum_update (S : Finset ι) (g : T → Nat) (x : ι → T) {i : ι} (hi : i ∈ S) (v : T) :
    (∑ j ∈ S, g (update x i v j)) + g (x i) = (∑ j ∈ S, g (x j)) + g v := by
  have h1 : (∑ j ∈ S, g (update x i v j)) = g v + ∑ j ∈ S.erase i, g (x j) := by
    rw [← add_sum_erase _ _ hi, update_self]
    congr 1
    apply sum_congr rfl
    intro j hj
    rw [update_of_ne (ne_of_mem_erase hj)]
  have h2 : (∑ j ∈ S, g (x j)) = g (x i) + ∑ j ∈ S.erase i, g (x j) :=
    (add_sum_erase _ _ hi).symm
  omega

theorem tally_update [Fintype ι] (g : T → Nat) (x : ι → T) (i : ι) (v : T) :
    (∑ j, g (update x i v j)) + g (x i) = (∑ j, g (x j)) + g v :=
  sum_update univ g x (mem_univ i) v

omit [DecidableEq ι] in
theorem tally_le [Fintype ι] (g : T → Nat) (x : ι → T) (i : ι) : g (x i) ≤ ∑ j, g (x j) :=
  single_le_sum (f := fun j => g (x j)) (fun _ _ => Nat.zero_le _) (mem_univ i)

end

/-! ## lists of tasks -/

theorem countP_eraseIdx {α : Type*} {l : List α} {k : Nat} {w : α} (h : l[k]? = some w)
    (p : α → Bool) : l.countP p = (l.eraseIdx k).countP p + if p w then 1 else 0 := by
  obtain ⟨hk, rfl⟩ := List.getElem?_eq_some_iff.mp h
  rw [← countP_cons, (getElem_cons_eraseIdx_perm hk).countP_eq]

theorem countP_set {α : Type*} {l : List α} {k : Nat} {w : α} (h : l[k]? = some w) (v : α)
    (p : α → Bool) : (l.set k v).countP p + (if p w then 1 else 0) =
      l.countP p + if p v then 1 else 0 := by
  obtain ⟨hk, -⟩ := List.getElem?_eq_some_iff.mp h
  have hset := countP_eraseIdx (getElem?_set_self (a := v) hk) p
  rw [eraseIdx_set_eq] at hset
  have := countP_eraseIdx h p
  omega

end Run
