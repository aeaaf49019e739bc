import Mathlib.Data.List.Infix

/-!
# Texts at offsets

A buffer is a list and a pointer into it an offset.  `At b p s` says that the text `s` stands in `b`
at `p`; it splits along `s` (`at_cons`, `at_append`), so a proof about a loop over a buffer follows
the text the loop reads.

* `infix_window`          a text that comes in pieces, searched for through a window;
* `splitOn_isPrefix_iff`  texts compared by their pieces.
-/

open List

namespace Text

variable {α : Type}

/-- the part of a buffer between two offsets -/
def slice (b : List α) (i j : Nat) : List α := (b.drop i).take (j - i)

/-- a text stands at an offset -/
def At (b : List α) (p : Nat) (s : List α) : Prop := s <+: b.drop p

variable {b : List α} {p q : Nat} {s t : List α} {c : α}

theorem at_append : At b p (s ++ t) ↔ At b p s ∧ At b (p + s.length) t := by
  unfold At
  rw [← drop_drop]
  constructor
  · rintro ⟨u, hu⟩
    rw [append_assoc] at hu
    refine ⟨⟨t ++ u, hu⟩, u, ?_⟩
    rw [← hu, drop_left]
  · rintro ⟨⟨u, hu⟩, v, hv⟩
    rw [← hu, drop_left] at hv
    exact ⟨v, by rw [append_assoc, hv, hu]⟩

theorem at_one : At b p [c] ↔ b[p]? = some c := by
  unfold At
  have h : b[p]? = (b.drop p)[0]? := by rw [getElem?_drop, Nat.add_zero]
  rw [h]
  cases b.drop p with
  | nil => simp
  | cons a l => simp [cons_prefix_cons, eq_comm]

theorem at_cons : At b p (c :: s) ↔ b[p]? = some c ∧ At b (p + 1) s := by
  rw [← singleton_append, at_append, at_one]
  rfl

theorem At.head (h : At b p (c :: s)) : b[p]? = some c := (at_cons.mp h).1
theorem At.tail (h : At b p (c :: s)) : At b (p + 1) s := (at_cons.mp h).2
theorem At.left (h : At b p (s ++ t)) : At b p s := (at_append.mp h).1
theorem At.right (h : At b p (s ++ t)) : At b (p + s.length) t := (at_append.mp h).2
theorem at_zero : At b 0 b := prefix_rfl

theorem At.drop (h : At b p s) : ∃ u, b.drop p = s ++ u := by
  obtain ⟨u, hu⟩ := h
  exact ⟨u, hu.symm⟩

/-- the text between an offset and the end of what stands there -/
theorem At.slice (h : At b p s) : slice b p (p + s.length) = s := by
  obtain ⟨u, hu⟩ := h
  unfold Text.slice
  rw [← hu, Nat.add_sub_cancel_left, take_left]

theorem at_mid (a s u : List α) : At (a ++ (s ++ u)) a.length s := by
  unfold At
  rw [drop_left]
  exact prefix_append _ _

/-! ## texts found in two pieces -/

section

variable {p s s' t t' : List α}

/-- a text begins in one piece and ends in the next -/
def Across (p s t : List α) : Prop := ∃ u v, p = u ++ v ∧ u ≠ [] ∧ v ≠ [] ∧ u <:+ s ∧ v <+: t

theorem infix_append_across : p <:+: s ++ t ↔ p <:+: s ∨ p <:+: t ∨ Across p s t := by
  rw [infix_append_iff]
  constructor
  · rintro (h | h | ⟨u, v, rfl, hu, hv⟩)
    · exact .inl h
    · exact .inr (.inl h)
    · rcases eq_or_ne u [] with rfl | hne
      · exact .inr (.inl hv.isInfix)
      rcases eq_or_ne v [] with rfl | hne'
      · rw [append_nil]
        exact .inl hu.isInfix
      · exact .inr (.inr ⟨u, v, rfl, hne, hne', hu, hv⟩)
  · exact Or.imp_right (Or.imp_right fun ⟨u, v, hp, _, _, h⟩ => ⟨u, v, hp, h⟩)

section
variable (hs : s' <:+ s) (hk : p.length ≤ s'.length + 1 ∨ s' = s) (ht : t' <+: t)
  (hh : p.length ≤ t'.length + 1 ∨ t' = t)
include hs hk ht hh

/-- what the pieces leave out does not matter where what is kept is long enough -/
theorem across_iff : Across p s' t' ↔ Across p s t := by
  constructor
  · rintro ⟨u, v, hp, hu, hv, hus, hvt⟩
    exact ⟨u, v, hp, hu, hv, hus.trans hs, hvt.trans ht⟩
  · rintro ⟨u, v, rfl, hu, hv, hus, hvt⟩
    have hul := length_pos_iff.mpr hu
    have hvl := length_pos_iff.mpr hv
    rw [length_append] at hk hh
    refine ⟨u, v, rfl, hu, hv, ?_, ?_⟩
    · rcases hk with hk | rfl
      · exact suffix_of_suffix_length_le hus hs (by omega)
      · exact hus
    · rcases hh with hh | rfl
      · exact prefix_of_prefix_length_le hvt ht (by omega)
      · exact hvt

/-- a text is found where it is found before, in the next piece, or in a window on their border -/
theorem infix_window : p <:+: s ++ t ↔ p <:+: s ∨ p <:+: s' ++ t' ∨ p <:+: t := by
  have hs' : p <:+: s' → p <:+: s := fun h => h.trans hs.isInfix
  have ht' : p <:+: t' → p <:+: t := fun h => h.trans ht.isInfix
  rw [infix_append_across, infix_append_across, across_iff hs hk ht hh]
  tauto

end

end

/-! ## texts cut at a separator -/

variable {a : α}

theorem intercalate_append {l m : List (List α)} (hl : l ≠ []) (hm : m ≠ []) :
    [a].intercalate (l ++ m) = [a].intercalate l ++ a :: [a].intercalate m := by
  induction l with
  | nil => contradiction
  | cons x l ih =>
    rcases eq_or_ne l [] with rfl | h
    · simp [intercalate_cons_of_ne_nil hm]
    · have hlm := append_ne_nil_of_left_ne_nil h m
      simp [intercalate_cons_of_ne_nil h, intercalate_cons_of_ne_nil hlm, ih h]

variable [BEq α] [LawfulBEq α]

/-- the pieces of one text begin with those of another where it is that text, whole or up to a
separator -/
theorem splitOn_isPrefix_iff : s.splitOn a <+: t.splitOn a ↔ t = s ∨ ∃ u, t = s ++ a :: u := by
  constructor
  · rintro ⟨m, hm⟩
    have ht := congrArg [a].intercalate hm
    rw [intercalate_splitOn] at ht
    rcases eq_or_ne m [] with rfl | h
    · rw [append_nil, intercalate_splitOn] at ht
      exact .inl ht.symm
    · rw [intercalate_append (splitOn_ne_nil a s) h, intercalate_splitOn] at ht
      exact .inr ⟨_, ht.symm⟩
  · rintro (rfl | ⟨u, rfl⟩)
    · exact prefix_rfl
    · rw [splitOn_append_cons_self]
      exact prefix_append _ _

/-- the last piece is empty only where the text is, or ends with the separator -/
theorem of_splitOn_getLast? (h : (s.splitOn a).getLast? = some []) : s = [] ∨ ∃ u, s = u ++ [a] := by
  obtain ⟨l, hl⟩ := getLast?_eq_some_iff.mp h
  have hs := congrArg [a].intercalate hl
  rw [intercalate_splitOn] at hs
  rcases eq_or_ne l [] with rfl | hne
  · exact .inl hs
  · rw [intercalate_append hne (cons_ne_nil _ _)] at hs
    exact .inr ⟨_, hs⟩

end Text
