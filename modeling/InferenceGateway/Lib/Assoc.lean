import Mathlib.Data.List.Nodup

/-!
# Keyed lists as finite maps

A table is a list of pairs; `List.lookup` reads it, `del` and `put` change it.  A table with distinct
keys (`Keyed`) can be counted: what a deletion takes away from a count is the weight of the deleted
key.

* `Keyed.del`, `Keyed.put`   both keep the keys distinct;
* `lookup_del_of_ne`, `lookup_put_of_ne`   the other keys are found as before;
* `countP_del`   what a count is afterwards.
-/

set_option linter.unusedSectionVars false

open List

namespace Assoc

variable {α β : Type*} [DecidableEq α] {t : List (α × β)} {k k' : α} {v : β}

def Keyed (t : List (α × β)) : Prop := (t.map Prod.fst).Nodup
def del (t : List (α × β)) (k : α) : List (α × β) := t.filter fun p => p.1 ≠ k
def put (t : List (α × β)) (k : α) (v : β) : List (α × β) := (k, v) :: del t k
theorem Keyed.nil : Keyed ([] : List (α × β)) := nodup_nil

theorem Keyed.filter (h : Keyed t) (p : α × β → Bool) : Keyed (t.filter p) :=
  h.sublist (filter_sublist.map Prod.fst)

theorem Keyed.del (h : Keyed t) (k : α) : Keyed (del t k) := h.filter _

theorem not_mem_del (t : List (α × β)) (k : α) : k ∉ (del t k).map Prod.fst := by
  intro hk
  obtain ⟨p, hp, rfl⟩ := mem_map.mp hk
  have := (mem_filter.mp hp).2
  simp at this

theorem Keyed.put (h : Keyed t) (k : α) (v : β) : Keyed (put t k v) :=
  nodup_cons.mpr ⟨not_mem_del t k, h.del k⟩

theorem lookup_cons_of_ne (h : k' ≠ k) : ((k, v) :: t).lookup k' = t.lookup k' := by
  rw [lookup_cons, beq_false_of_ne h]

theorem lookup_del_of_ne (h : k' ≠ k) : (del t k).lookup k' = t.lookup k' := by
  induction t with
  | nil => rfl
  | cons p t ih =>
    obtain ⟨a, b⟩ := p
    unfold del at ih ⊢
    by_cases ha : a = k
    · rw [filter_cons_of_neg (by simpa using ha), ih, lookup_cons_of_ne (by rwa [ha])]
    · rw [filter_cons_of_pos (by simpa using ha)]
      by_cases hk : k' = a
      · rw [hk, lookup_cons_self, lookup_cons_self]
      · rw [lookup_cons_of_ne hk, lookup_cons_of_ne hk, ih]

theorem lookup_put_of_ne (h : k' ≠ k) : (put t k v).lookup k' = t.lookup k' := by
  rw [put, lookup_cons_of_ne h, lookup_del_of_ne h]

theorem del_of_not_mem (h : k ∉ t.map Prod.fst) : del t k = t := by
  refine filter_eq_self.mpr fun p hp => ?_
  simp only [ne_eq, decide_eq_true_eq]
  rintro rfl
  exact h (mem_map_of_mem hp)

/-! ## counting -/

/-- what a key adds to a count -/
def weight (p : α × β → Bool) (t : List (α × β)) (k : α) : Nat :=
  match t.lookup k with
  | some v => if p (k, v) then 1 else 0
  | none => 0

theorem weight_of_lookup {p : α × β → Bool} (h : t.lookup k = some v) :
    weight p t k = if p (k, v) then 1 else 0 := by
  rw [weight, h]

theorem weight_of_ne {p : α × β → Bool} (h : k' ≠ k) : weight p (del t k) k' = weight p t k' := by
  rw [weight, weight, lookup_del_of_ne h]

theorem countP_del (h : Keyed t) (p : α × β → Bool) (k : α) :
    t.countP p = (del t k).countP p + weight p t k := by
  induction t with
  | nil => rfl
  | cons q t ih =>
    obtain ⟨a, b⟩ := q
    obtain ⟨ha, ht⟩ := nodup_cons.mp h
    have ih := ih ht
    by_cases hk : a = k
    · subst hk
      have hnone : del t a = t := del_of_not_mem ha
      rw [weight_of_lookup lookup_cons_self, countP_cons]
      unfold del at hnone ⊢
      rw [filter_cons_of_neg (by simp), hnone]
    · have hw : weight p ((a, b) :: t) k = weight p t k := by
        rw [weight, weight, lookup_cons_of_ne (Ne.symm hk)]
      rw [countP_cons]
      unfold del at ih ⊢
      rw [filter_cons_of_pos (by simpa using hk), countP_cons]
      omega

end Assoc
