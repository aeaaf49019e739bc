import Mathlib.Data.List.Nodup

/-!
# A list linked through an array

The members of a list are numbers below `n`; `next i` is the member after `i`, and a number
that is not below `n` ends the list.

* `Linked`          the list that starts at a number;
* `follow`          the list as a program reads it, for at most `fuel` members;
* `Linked.push`     a member put in front, `Linked.congr` members elsewhere do not matter.
-/

open Function List

namespace Chain

/-- the list `l` starts at `a` -/
def Linked (next : Nat → Nat) (n : Nat) : Nat → List Nat → Prop
  | a, [] => n ≤ a
  | a, b :: l => a = b ∧ b < n ∧ Linked next n (next b) l

/-- the members met from `a` on -/
def follow (next : Nat → Nat) (n : Nat) : Nat → Nat → List Nat
  | 0, _ => []
  | fuel+1, a => if a < n then a :: follow next n fuel (next a) else []

variable {next : Nat → Nat} {n : Nat} {l : List Nat}

theorem Linked.congr {next' : Nat → Nat} (hn : ∀ i ∈ l, next' i = next i) :
    ∀ {a}, Linked next n a l → Linked next' n a l := by
  induction l with
  | nil => exact fun h => h
  | cons b l ih =>
    rintro a ⟨rfl, hb, h⟩
    refine ⟨rfl, hb, ?_⟩
    rw [hn a mem_cons_self]
    exact ih (fun i hi => hn i (mem_cons_of_mem _ hi)) h

theorem Linked.push {next : Nat → Nat} {n a b : Nat} {l : List Nat} (h : Linked next n a l)
    (hb : b < n) (hl : b ∉ l) : Linked (update next b a) n b (b :: l) := by
  refine ⟨rfl, hb, ?_⟩
  rw [update_self]
  refine h.congr ?_
  intro i hi
  have hib : i ≠ b := by
    rintro rfl
    exact hl hi
  exact update_of_ne hib a next

theorem linked_succ (n : Nat) : ∀ k a, a + k = n →
    Linked (fun i => i + 1) n a ((range k).map (a + ·)) := by
  intro k
  induction k with
  | zero =>
    intro a ha
    exact Nat.le_of_eq ha.symm
  | succ k ih =>
    intro a ha
    rw [range_succ_eq_map, map_cons, map_map]
    refine ⟨rfl, by omega, ?_⟩
    have hmap : (range k).map ((a + ·) ∘ Nat.succ) = (range k).map (a + 1 + ·) := by
      apply map_congr_left
      intro i _
      show a + (i + 1) = a + 1 + i
      omega
    rw [hmap]
    exact ih (a + 1) (by omega)

theorem Linked.follow_eq :
    ∀ {a fuel}, Linked next n a l → l.length ≤ fuel → follow next n fuel a = l := by
  induction l with
  | nil =>
    intro a fuel h _
    cases fuel with
    | zero => rfl
    | succ fuel => exact if_neg (by have : n ≤ a := h; omega)
  | cons b l ih =>
    rintro a fuel ⟨rfl, hb, h⟩ hf
    cases fuel with
    | zero => exact absurd hf (by simp)
    | succ fuel =>
      show (if a < n then a :: follow next n fuel (next a) else []) = a :: l
      rw [if_pos hb, ih h (Nat.le_of_succ_le_succ hf)]

end Chain
