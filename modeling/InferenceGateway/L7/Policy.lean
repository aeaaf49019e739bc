import InferenceGateway.Lib.Text

/-!
# Conditions of a routing rule

`l7_op_matches` compares a field of the request with the value of a condition.  Texts are C strings,
without their terminator.

* `matches_iff`          the segment test: the trimmed value, whole or up to a slash;
* `segment_matches_iff`  where that is the meaning of the value as a list of segments.
-/

open List Text

namespace L7

abbrev slash : UInt8 := 0x2F

/-- the value without its one last slash: `lv` of `l7_path_segment_prefix` -/
def trimmed (value : List UInt8) : List UInt8 :=
  if 1 < value.length ∧ value.getLast? = some slash then value.dropLast else value

def l7PathSegmentPrefix (s value : List UInt8) : Bool :=
  let v := trimmed value
  v.isEmpty || (v.isPrefixOf s && match s[v.length]? with
    | none => true
    | some after => after == slash)

inductive Op
  | equal | starts | segment | ends | contains | regex

/-- `l7_op_matches`; `re` is the compiled expression, where there is one -/
def l7OpMatches (re : Option (List UInt8 → Bool)) (op : Op) (operand : Option (List UInt8))
    (value : List UInt8) : Bool :=
  match operand with
  | none => false
  | some s => match op with
    | .equal => s == value
    | .starts => value.isPrefixOf s
    | .segment => l7PathSegmentPrefix s value
    | .ends => value.isSuffixOf s
    | .contains => decide (value <:+: s)
    -- the expression sees no more than its buffer holds
    | .regex => re.any fun r => r (s.take 1023)

/-- the segments of a value, one trailing empty one dropped -/
def segments (v : List UInt8) : List (List UInt8) :=
  if (v.splitOn slash).getLast? = some [] then (v.splitOn slash).dropLast else v.splitOn slash

variable {s v w : List UInt8}

theorem trimmed_concat (hw : w ≠ []) : trimmed (w ++ [slash]) = w := by
  have hpos := length_pos_iff.mpr hw
  simp [trimmed, hpos]

theorem trimmed_of_last (h : v.getLast? ≠ some slash) : trimmed v = v := if_neg fun hv => h hv.2

theorem matches_iff : l7PathSegmentPrefix s v = true ↔
    trimmed v = [] ∨ s = trimmed v ∨ ∃ u, s = trimmed v ++ slash :: u := by
  simp only [l7PathSegmentPrefix, Bool.or_eq_true, List.isEmpty_iff, Bool.and_eq_true,
    isPrefixOf_iff_prefix]
  refine or_congr_right ⟨?_, ?_⟩
  · rintro ⟨⟨u, rfl⟩, hu⟩
    cases u with
    | nil => simp
    | cons c u => simpa using hu
  · rintro (rfl | ⟨u, rfl⟩) <;> simp

theorem segments_eq (hv : v ≠ [slash]) (hne : v ≠ []) : segments v = (trimmed v).splitOn slash := by
  unfold segments
  split
  case isTrue h =>
    obtain rfl | ⟨w, rfl⟩ := of_splitOn_getLast? h
    · contradiction
    · have hw : w ≠ [] := fun he => hv (by rw [he, nil_append])
      rw [trimmed_concat hw, splitOn_append_cons_self, splitOn_nil, dropLast_concat]
  case isFalse h =>
    rw [trimmed_of_last]
    intro hl
    obtain ⟨w, rfl⟩ := getLast?_eq_some_iff.mp hl
    rw [splitOn_append_cons_self, splitOn_nil, getLast?_concat] at h
    contradiction

theorem trimmed_ne_nil (hne : v ≠ []) : trimmed v ≠ [] := by
  unfold trimmed
  split
  case isTrue h =>
    refine ne_nil_of_length_pos ?_
    rw [length_dropLast]
    exact Nat.sub_pos_of_lt h.1
  case isFalse => exact hne

/-- A path begins with the segments of a value exactly where the operator says so, except for the
value that is one slash, which is not trimmed.  A longer path keeps the match, and a last slash of
the value makes no difference. -/
theorem segment_matches_iff (re : Option (List UInt8 → Bool)) (p v : List UInt8) :
    ((l7OpMatches re .segment (some (slash :: p)) (slash :: v) = true ↔
        segments (slash :: v) <+: (slash :: p).splitOn slash) ↔
      v ≠ [] ∨ p.head?.all (· == slash) = true) ∧
    (l7OpMatches re .segment (some (slash :: p)) (slash :: v) = true →
      ∀ x, l7OpMatches re .segment (some (slash :: p ++ slash :: x)) (slash :: v) = true) ∧
    ((slash :: v).getLast? ≠ some slash →
      (l7OpMatches re .segment (some (slash :: p)) (slash :: v) = true ↔
        l7OpMatches re .segment (some (slash :: p)) (slash :: v ++ [slash]) = true)) := by
  simp only [l7OpMatches, matches_iff]
  refine ⟨?_, ?_, fun hv => ?_⟩
  · rcases eq_or_ne v [] with rfl | hv
    · have hall : segments [slash] <+: (slash :: p).splitOn slash := by
        refine (splitOn_isPrefix_iff (s := [])).mpr (.inr ⟨p, rfl⟩)
      cases p <;> simp [hall, trimmed]
    · have hne : slash :: v ≠ [slash] := fun he => hv (cons.inj he).2
      rw [segments_eq hne (cons_ne_nil _ _), splitOn_isPrefix_iff]
      simp [hv, trimmed_ne_nil (cons_ne_nil slash v)]
  · rintro (h | h | ⟨u, h⟩) x
    · exact .inl h
    · exact .inr (.inr ⟨x, by rw [h]⟩)
    · exact .inr (.inr ⟨u ++ slash :: x, by rw [h, append_assoc, cons_append]⟩)
  · rw [trimmed_of_last hv, trimmed_concat (cons_ne_nil _ _)]

/-- the value of one slash does not match the path `/a` -/
theorem root_value_unmatched : l7OpMatches none .segment (some [slash, 0x61]) [slash] = false ∧
    segments [slash] <+: [slash, 0x61].splitOn slash := by decide

end L7
