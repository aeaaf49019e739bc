import Mathlib.Data.List.Nodup
import Mathlib.Data.List.Perm.Basic
import Mathlib.Data.Nat.ModEq

/-!
# Walking round a circular array

An array of `cap` slots is used as a circle.  A loop of the form `i = start; repeat n times:
visit i; i = i + 1, wrapped` visits the slots `walk cap n start`, the same loop run backwards
visits `back cap n start`.

* `walk_eq`, `walk_nodup`, `walk_append`, `walk_snoc`   the slots a loop visits;
* `back_eq`             a backward loop visits the reverse of a forward one;
* `bubble`, `sift`      one element is carried along a path of slots by neighbour swaps until a
                        stop test holds;
* `bubble_map`          read along the path, the result is the insertion `sift`;
* `sift_filter`         elements the stop test ignores do not matter.
-/

open Function List Nat

namespace Walk

/-! ## the slots a loop visits -/

/-- one past the last slot is slot zero -/
def wrap (cap i : Nat) : Nat := if i ≥ cap then i - cap else i
def prev (cap i : Nat) : Nat := if i = 0 then cap - 1 else i - 1

/-- the slots of a forward loop of `n` rounds from `i` -/
def walk (cap : Nat) : Nat → Nat → List Nat
  | 0, _ => []
  | n+1, i => i :: walk cap n (wrap cap (i+1))

/-- the slots of a backward loop of `n` rounds from `i` -/
def back (cap : Nat) : Nat → Nat → List Nat
  | 0, _ => []
  | n+1, i => i :: back cap n (prev cap i)

theorem walk_zero (cap i : Nat) : walk cap 0 i = [] := rfl
theorem walk_succ (cap n i : Nat) : walk cap (n+1) i = i :: walk cap n (wrap cap (i+1)) := rfl
theorem back_succ (cap n i : Nat) : back cap (n+1) i = i :: back cap n (prev cap i) := rfl

variable {cap i n j : Nat}

theorem wrap_lt (h : i < 2 * cap) : wrap cap i < cap := by
  unfold wrap
  split <;> omega

theorem wrap_eq_mod (h : i < 2 * cap) : wrap cap i = i % cap := by
  unfold wrap
  by_cases hc : i ≥ cap
  · rw [if_pos hc, mod_eq_sub_mod hc, mod_eq_of_lt (by omega)]
  · rw [if_neg hc, mod_eq_of_lt (by omega)]

theorem prev_lt (h : i < cap) : prev cap i < cap := by
  unfold prev
  split <;> omega

theorem prev_wrap (h : i < cap) : prev cap (wrap cap (i+1)) = i := by
  unfold prev wrap
  split <;> split <;> omega

theorem wrap_prev (h : i < cap) : wrap cap (prev cap i + 1) = i := by
  unfold prev wrap
  split <;> split <;> omega

theorem walk_length (cap n i : Nat) : (walk cap n i).length = n := by
  induction n generalizing i with
  | zero => rfl
  | succ n ih => rw [walk_succ, length_cons, ih]

theorem walk_eq (cap n i : Nat) (hi : i < cap) :
    walk cap n i = (range n).map (fun k => (i + k) % cap) := by
  induction n generalizing i with
  | zero => rfl
  | succ n ih =>
    rw [walk_succ, ih _ (wrap_lt (by omega)), range_succ_eq_map, map_cons, map_map,
      wrap_eq_mod (by omega)]
    refine congrArg₂ List.cons (mod_eq_of_lt hi).symm ?_
    apply map_congr_left
    intro k _
    rw [mod_add_mod]
    congr 1
    omega

theorem mem_walk (hi : i < cap) : j ∈ walk cap n i ↔ ∃ k, k < n ∧ j = (i + k) % cap := by
  rw [walk_eq cap n i hi, mem_map]
  constructor
  · rintro ⟨k, hk, rfl⟩
    exact ⟨k, mem_range.mp hk, rfl⟩
  · rintro ⟨k, hk, rfl⟩
    exact ⟨k, mem_range.mpr hk, rfl⟩

theorem walk_lt (hi : i < cap) (h : j ∈ walk cap n i) : j < cap := by
  obtain ⟨k, _, rfl⟩ := (mem_walk hi).mp h
  exact mod_lt _ (by omega)

theorem add_mod_inj {k : Nat} (hj : j < cap) (hk : k < cap) (h : (i + j) % cap = (i + k) % cap) :
    j = k := by
  have h1 : j % cap = k % cap := Nat.ModEq.add_left_cancel' i h
  rwa [mod_eq_of_lt hj, mod_eq_of_lt hk] at h1

theorem walk_nodup (hi : i < cap) (hn : n ≤ cap) : (walk cap n i).Nodup := by
  rw [walk_eq cap n i hi]
  refine Nodup.map_on ?_ nodup_range
  intro j hj k hk h
  have hj' := mem_range.mp hj
  have hk' := mem_range.mp hk
  exact add_mod_inj (by omega) (by omega) h

theorem mem_walk_lap (hi : i < cap) (hj : j < cap) : j ∈ walk cap cap i := by
  refine (mem_walk hi).mpr ⟨(j + cap - i) % cap, mod_lt _ (by omega), ?_⟩
  rw [add_mod_mod, show i + (j + cap - i) = j + cap by omega, add_mod_right, mod_eq_of_lt hj]

theorem walk_append (cap n m i : Nat) (hi : i < cap) :
    walk cap (n + m) i = walk cap n i ++ walk cap m ((i + n) % cap) := by
  induction n generalizing i with
  | zero => rw [zero_add, add_zero, mod_eq_of_lt hi]; rfl
  | succ n ih =>
    rw [succ_add_eq_add_succ, add_succ, walk_succ, walk_succ, ih _ (wrap_lt (by omega)),
      wrap_eq_mod (by omega), mod_add_mod]
    congr 4
    omega

theorem walk_snoc (cap n i : Nat) (hi : i < cap) :
    walk cap (n + 1) i = walk cap n i ++ [(i + n) % cap] :=
  walk_append cap n 1 i hi

/-- the slot visited after `b` is the next one round the circle -/
theorem walk_next {b c : Nat} (pre post : List Nat) (h : walk cap n i = pre ++ b :: c :: post) :
    c = wrap cap (b + 1) := by
  induction n generalizing i pre with
  | zero => exact absurd h (by simp [walk_zero])
  | succ n ih =>
    cases pre with
    | nil =>
      obtain ⟨rfl, h'⟩ := List.cons.inj h
      cases n with
      | zero => exact absurd h' (by simp [walk_zero])
      | succ n =>
        exact (List.cons.inj h').1.symm
    | cons d pre => exact ih pre (List.cons.inj h).2

/-- a backward loop visits the reverse of the forward loop that ends where it starts -/
theorem back_eq (cap n i : Nat) (hi : i < cap) :
    back cap n (prev cap ((i + n) % cap)) = (walk cap n i).reverse := by
  have hc : 0 < cap := by omega
  induction n with
  | zero => rfl
  | succ n ih =>
    rw [walk_snoc cap n i hi, reverse_append, reverse_singleton, singleton_append, back_succ, ← ih]
    have e : prev cap ((i + (n + 1)) % cap) = (i + n) % cap := by
      have hl : (i + n) % cap < cap := mod_lt _ hc
      rw [← prev_wrap hl, wrap_eq_mod (by omega), mod_add_mod, add_assoc]
    rw [e]

theorem back_lap (hi : i < cap) : back cap cap (prev cap i) = (walk cap cap i).reverse := by
  rw [← back_eq cap cap i hi, add_mod_right, mod_eq_of_lt hi]

/-! ## carrying one element along a path -/

variable {α : Type*}

def swap (a : Nat → α) (i j : Nat) : Nat → α := update (update a j (a i)) i (a j)

/-- carry the element of `slot` along the path by neighbour swaps, until the next element
makes it stop: the array and the slot where it came to rest -/
def bubble (stop : α → α → Bool) (a : Nat → α) (slot : Nat) : List Nat → (Nat → α) × Nat
  | [] => (a, slot)
  | nx :: path =>
    if stop (a nx) (a slot) then (a, slot) else bubble stop (swap a slot nx) nx path

/-- insert `e` before the first element that makes it stop -/
def sift (stop : α → α → Bool) (e : α) : List α → List α
  | [] => [e]
  | x :: xs => if stop x e then e :: x :: xs else x :: sift stop e xs

/-- a write outside the path is not seen along it -/
theorem map_update {a : Nat → α} {i : Nat} {x : α} {l : List Nat} (h : i ∉ l) :
    l.map (update a i x) = l.map a := by
  apply map_congr_left
  intro k hk
  have hne : k ≠ i := fun e => h (e ▸ hk)
  exact update_of_ne hne _ _

theorem swap_left (a : Nat → α) (i j : Nat) : swap a i j i = a j := by
  unfold swap
  rw [update_self]

theorem swap_right (a : Nat → α) {i j : Nat} (h : i ≠ j) : swap a i j j = a i := by
  unfold swap
  rw [update_of_ne h.symm, update_self]

theorem swap_other (a : Nat → α) {i j k : Nat} (hi : k ≠ i) (hj : k ≠ j) : swap a i j k = a k := by
  unfold swap
  rw [update_of_ne hi, update_of_ne hj]

section
variable (stop : α → α → Bool)

variable (path : List Nat)

theorem bubble_other :
    ∀ (a : Nat → α) (slot k : Nat), k ≠ slot → k ∉ path → (bubble stop a slot path).1 k = a k := by
  induction path with
  | nil => intro a slot k _ _; rfl
  | cons nx path ih =>
    intro a slot k hk hp
    obtain ⟨h1, h2⟩ := not_or.mp (fun h => hp (mem_cons.mpr h))
    unfold bubble
    by_cases hs : stop (a nx) (a slot) = true
    · rw [if_pos hs]
    · rw [if_neg hs, ih _ _ _ h1 h2, swap_other a hk h1]

theorem bubble_rest_mem :
    ∀ (a : Nat → α) (slot : Nat), (bubble stop a slot path).2 ∈ slot :: path := by
  induction path with
  | nil => intro a slot; exact mem_cons_self ..
  | cons nx path ih =>
    intro a slot
    unfold bubble
    by_cases hs : stop (a nx) (a slot) = true
    · rw [if_pos hs]; exact mem_cons_self ..
    · rw [if_neg hs]; exact mem_cons_of_mem _ (ih _ _)

/-- the element rests in the slot the loop ends at -/
theorem bubble_rest : ∀ (a : Nat → α) (slot : Nat), (slot :: path).Nodup →
      (bubble stop a slot path).1 (bubble stop a slot path).2 = a slot := by
  induction path with
  | nil => intro a slot _; rfl
  | cons nx path ih =>
    intro a slot hnd
    obtain ⟨h1, h2⟩ := nodup_cons.mp hnd
    have hne : slot ≠ nx := fun e => h1 (e ▸ mem_cons_self ..)
    unfold bubble
    by_cases hs : stop (a nx) (a slot) = true
    · rw [if_pos hs]
    · rw [if_neg hs, ih _ _ h2, swap_right a hne]

/-- **read along the path, carrying an element is inserting it** -/
theorem bubble_map : ∀ (a : Nat → α) (slot : Nat), (slot :: path).Nodup →
      (slot :: path).map (bubble stop a slot path).1 = sift stop (a slot) (path.map a) := by
  induction path with
  | nil => intro a slot _; rfl
  | cons nx path ih =>
    intro a slot hnd
    obtain ⟨h1, h2⟩ := nodup_cons.mp hnd
    have hne : slot ≠ nx := fun e => h1 (e ▸ mem_cons_self ..)
    have hnp : slot ∉ path := fun h => h1 (mem_cons_of_mem _ h)
    rw [map_cons (f := a), sift]
    unfold bubble
    by_cases hs : stop (a nx) (a slot) = true
    · rw [if_pos hs, if_pos hs]
      rfl
    · rw [if_neg hs, if_neg hs, map_cons, ih _ _ h2, swap_right a hne,
        bubble_other stop path _ _ _ hne hnp, swap_left]
      congr 2
      apply map_congr_left
      intro k hk
      have hk1 : k ≠ slot := fun e => hnp (e ▸ hk)
      have hk2 : k ≠ nx := fun e => (nodup_cons.mp h2).1 (e ▸ hk)
      exact swap_other a hk1 hk2

theorem sift_perm (e : α) (l : List α) : (sift stop e l).Perm (e :: l) := by
  induction l with
  | nil => exact Perm.refl _
  | cons x xs ih =>
    unfold sift
    by_cases hs : stop x e = true
    · rw [if_pos hs]
    · rw [if_neg hs]
      exact (ih.cons x).trans (Perm.swap e x xs)

/-- an insertion puts one element between two halves of the list -/
theorem sift_split (e : α) (l : List α) : ∃ a b, l = a ++ b ∧ sift stop e l = a ++ e :: b := by
  induction l with
  | nil => exact ⟨[], [], rfl, rfl⟩
  | cons x xs ih =>
    unfold sift
    by_cases hs : stop x e = true
    · rw [if_pos hs]; exact ⟨[], x :: xs, rfl, rfl⟩
    · rw [if_neg hs]
      obtain ⟨a, b, h1, h2⟩ := ih
      exact ⟨x :: a, b, by rw [h1]; rfl, by rw [h2]; rfl⟩

/-- elements that never stop the insertion may be left out before it -/
theorem sift_filter (live : α → Bool) (e : α) (he : live e = true)
    (hs : ∀ x, live x = false → stop x e = false) (l : List α) :
    (sift stop e l).filter live = sift stop e (l.filter live) := by
  induction l with
  | nil => simp [sift, he]
  | cons x xs ih =>
    by_cases hx : live x = true
    · rw [filter_cons_of_pos hx, sift, sift]
      by_cases h : stop x e = true
      · rw [if_pos h, if_pos h, filter_cons_of_pos he, filter_cons_of_pos hx]
      · rw [if_neg h, if_neg h, filter_cons_of_pos hx, ih]
    · have hx' : live x = false := by simpa using hx
      rw [filter_cons_of_neg hx, sift, if_neg (by rw [hs x hx']; simp), filter_cons_of_neg hx, ih]

end

/-- inserting by a key into a list sorted by that key keeps it sorted -/
theorem sift_sorted {β : Type*} [LinearOrder β] (key : α → β) (stop : α → α → Bool) (e : α)
    (l : List α) (hs : ∀ x ∈ l, stop x e = decide (key e ≤ key x))
    (h : l.Pairwise (fun x y => key x ≤ key y)) :
    (sift stop e l).Pairwise (fun x y => key x ≤ key y) := by
  induction l with
  | nil => exact pairwise_singleton _ _
  | cons x xs ih =>
    obtain ⟨h1, h2⟩ := pairwise_cons.mp h
    have hx := hs x (mem_cons_self ..)
    unfold sift
    by_cases hk : key e ≤ key x
    · rw [if_pos (by rw [hx]; exact decide_eq_true hk)]
      refine pairwise_cons.mpr ⟨?_, h⟩
      intro y hy
      rcases mem_cons.mp hy with rfl | hy'
      · exact hk
      · exact hk.trans (h1 y hy')
    · rw [if_neg (by rw [hx]; simpa using hk)]
      refine pairwise_cons.mpr ⟨?_, ih (fun y hy => hs y (mem_cons_of_mem _ hy)) h2⟩
      intro y hy
      rcases mem_cons.mp ((sift_perm stop e xs).mem_iff.mp hy) with rfl | hy'
      · exact (not_le.mp hk).le
      · exact h1 y hy'

end Walk
