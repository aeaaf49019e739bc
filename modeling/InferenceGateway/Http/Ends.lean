import InferenceGateway.Lib.Text

/-!
# Markers in a stream that comes in pieces

Two observers look for markers in the bytes of an answer, read by read, and carry the last 20 bytes
over.  `sp_sse_body` joins them with the first bytes of the read; `pd_scan_msg_end_window` joins them
with its last.

* `sse_seen`         the first observer does not depend on how the stream is cut;
* `message_end_iff`  where the second one does not.
-/

open List Text

namespace Ends

abbrev Bytes := List UInt8

/-- `data:`, with or without a blank, and then the given text -/
def event (blank : Bool) (text : Bytes) : Bytes :=
  [0x64, 0x61, 0x74, 0x61, 0x3A] ++ (if blank then [0x20] else []) ++ text

/-! ## the events of an answer -/

/-- the loop of `sp_sse_has_done` and `sp_sse_has_object` -/
def spSseHas (text : Bytes) : Bytes → Bool
  | [] => false
  | c :: p =>
    (event false text).isPrefixOf (c :: p) || (event true text).isPrefixOf (c :: p) || spSseHas text p

/-- `[DONE]` -/
def marker : Bytes := [0x5B, 0x44, 0x4F, 0x4E, 0x45, 0x5D]
def doneText : Bytes := marker ++ [0x0A, 0x0A]
def spSseHasDone : Bytes → Bool := spSseHas doneText
def spSseHasObject : Bytes → Bool := spSseHas [0x7B]

/-- the fields of `sp_sse_observer_t` that follow the body -/
structure Observer where
  (isSse done firstObj : Bool)
  tail : Bytes

/-- `sp_sse_body`: the observer after a read, and what it returns -/
def spSseBody (s : Observer) (m : Bytes) : Observer × Bool :=
  if !s.isSse || m.isEmpty then (s, false)
  else
    let window := s.tail ++ m.take 20
    let first := !s.firstObj && (spSseHasObject window || spSseHasObject m)
    let keep := min s.tail.length (20 - m.length)
    ({ s with
        done := s.done || spSseHasDone window || spSseHasDone m
        firstObj := s.firstObj || first
        tail := if 20 ≤ m.length then m.drop (m.length - 20)
          else s.tail.drop (s.tail.length - keep) ++ m }, first)

/-- the observer of a stream after some reads -/
def observed (reads : List Bytes) : Observer :=
  reads.foldl (fun s m => (spSseBody s m).1) ⟨true, false, false, []⟩

/-- the stream has the event -/
def Has (text s : Bytes) : Prop := event false text <:+: s ∨ event true text <:+: s

variable {text s m : Bytes}

theorem spSseHas_iff : spSseHas text s = true ↔ Has text s := by
  induction s with
  | nil => simp [spSseHas, Has, event]
  | cons c p ih =>
    rw [Has, infix_cons_iff, infix_cons_iff]
    simp only [spSseHas, Bool.or_eq_true, isPrefixOf_iff_prefix, ih, Has]
    tauto

/-- the last bytes of a stream -/
def lastBytes (s : Bytes) : Bytes := s.drop (s.length - 20)
theorem lastBytes_suffix (s : Bytes) : lastBytes s <:+ s := drop_suffix _ _

theorem lastBytes_long (s : Bytes) : 20 ≤ (lastBytes s).length ∨ lastBytes s = s := by
  unfold lastBytes
  rw [length_drop]
  rcases Nat.lt_or_ge s.length 20 with h | h
  · exact .inr (by rw [Nat.sub_eq_zero_of_le (Nat.le_of_lt h), drop_zero])
  · exact .inl (by omega)

theorem lastBytes_append : lastBytes (s ++ m) = if 20 ≤ m.length then m.drop (m.length - 20)
    else (lastBytes s).drop ((lastBytes s).length - min (lastBytes s).length (20 - m.length)) ++ m := by
  unfold lastBytes
  rw [length_append, drop_append, length_drop, drop_drop]
  split
  · rw [drop_eq_nil_of_le (by omega), nil_append]
    congr 1
    omega
  · rw [show s.length + m.length - 20 - s.length = 0 by omega, drop_zero]
    congr 2
    omega

theorem has_append (h : text.length ≤ 14) :
    Has text (s ++ m) ↔ Has text s ∨ Has text (lastBytes s ++ m.take 20) ∨ Has text m := by
  have hone : ∀ blank, event blank text <:+: s ++ m ↔ event blank text <:+: s ∨
      event blank text <:+: lastBytes s ++ m.take 20 ∨ event blank text <:+: m := by
    intro blank
    have hlen : (event blank text).length ≤ 20 := by cases blank <;> simp [event] <;> omega
    refine infix_window (lastBytes_suffix s) ((lastBytes_long s).imp_left (by omega)) ( take_prefix 20 m) ?_
    rw [length_take]
    rcases Nat.le_total m.length 20 with hm | hm
    · exact .inr (take_of_length_le hm)
    · exact .inl (by omega)
  simp only [Has, hone]
  tauto

/-- what the observer knows of the stream -/
structure Follows (s : Bytes) (o : Observer) : Prop where
  isSse : o.isSse = true
  done : o.done = true ↔ Has doneText s
  firstObj : o.firstObj = true ↔ Has [0x7B] s
  tail : o.tail = lastBytes s

theorem Follows.body {o : Observer} (h : Follows s o) (m : Bytes) :
    Follows (s ++ m) (spSseBody o m).1 ∧
      ((spSseBody o m).2 = true ↔ Has [0x7B] (s ++ m) ∧ ¬ Has [0x7B] s) := by
  unfold spSseBody
  rw [h.isSse]
  rcases eq_or_ne m [] with rfl | hm
  · simpa using h
  have hold : o.firstObj = false ↔ ¬ Has [0x7B] s := by rw [← h.firstObj, Bool.not_eq_true]
  have hdone := @has_append doneText s m (by decide)
  have hobj := @has_append [0x7B] s m (by decide)
  have hm' : (!true || m.isEmpty) = false := by simpa using hm
  rw [if_neg (by rw [hm']; decide)]
  simp only [spSseHasDone, spSseHasObject, h.tail, Bool.and_eq_true, Bool.or_eq_true, spSseHas_iff,
    Bool.not_eq_true', hold]
  refine ⟨⟨rfl, ?_, ?_, lastBytes_append.symm⟩, ?_⟩
  · simp only [Bool.or_eq_true, spSseHas_iff, h.done]
    rw [hdone, or_assoc]
  · simp only [Bool.or_eq_true, Bool.and_eq_true, spSseHas_iff, h.firstObj, hold, Bool.not_eq_true']
    rw [hobj]
    by_cases hs : Has [0x7B] s <;> simp [hs]
  · rw [hobj]
    by_cases hs : Has [0x7B] s <;> simp [hs]

theorem follows_observed (reads : List Bytes) : Follows reads.flatten (observed reads) := by
  induction reads using reverseRecOn with
  | nil => refine ⟨rfl, ?_, ?_, rfl⟩ <;> simp [observed, Has, event]
  | append_singleton reads m ih =>
    rw [flatten_append, flatten_singleton, observed, foldl_append]
    exact (ih.body m).1

/-- **However the stream is cut**, the end has been seen exactly where the stream has it, and a read
returns 1 exactly where the first object is complete with it. -/
theorem sse_seen (reads : List Bytes) :
    ((observed reads).done = true ↔ Has doneText reads.flatten) ∧
    ∀ m, (spSseBody (observed reads) m).2 = true ↔
      Has [0x7B] (reads.flatten ++ m) ∧ ¬ Has [0x7B] reads.flatten :=
  ⟨(follows_observed reads).done, fun m => ((follows_observed reads).body m).2⟩

/-! ## the end of a message -/

/-- the last chunk, and the done marker in its two spellings -/
def terminators : List Bytes := [[0x30, 0x0D, 0x0A, 0x0D, 0x0A], event false marker, event true marker]
def pdDetectHttpMsgEnd (buf : Bytes) : Bool := terminators.any fun t => decide (t <:+: buf)

/-- `pd_scan_msg_end_window`: the tail after a packet, and what it returns -/
def pdScanMsgEndWindow (tail m : Bytes) : Bytes × Bool :=
  if m.isEmpty then (tail, false)
  else (lastBytes m, pdDetectHttpMsgEnd (tail ++ lastBytes m) || pdDetectHttpMsgEnd m)

/-- the tail after some packets -/
def carried (packets : List Bytes) : Bytes :=
  packets.foldl (fun tail m => (pdScanMsgEndWindow tail m).1) []

/-- a terminator ends in the packet -/
def Completes (s m : Bytes) : Prop := ∃ t ∈ terminators, ∃ v, v ≠ [] ∧ v <+: m ∧ t <:+ s ++ v

/-- The packet is empty, or has a terminator itself; or there is one in the window exactly if there is
one across the border. -/
def Fits (s tail m : Bytes) : Prop :=
  m = [] ∨ (∃ t ∈ terminators, t <:+: m) ∨
    ((∃ t ∈ terminators, t <:+: tail ++ lastBytes m) ↔ ∃ t ∈ terminators, Across t s m)

theorem terminator_length : ∀ t ∈ terminators, t ≠ [] ∧ t.length ≤ 12 := by decide

theorem completes_iff : Completes s m ↔ ∃ t ∈ terminators, t <:+: m ∨ Across t s m := by
  refine exists_congr fun t => and_congr_right fun ht => ⟨?_, ?_⟩
  · rintro ⟨v, hv, ⟨y, rfl⟩, x, hx⟩
    rcases append_eq_append_iff.mp hx with ⟨u, hu, rfl⟩ | ⟨u, -, rfl⟩
    · rcases eq_or_ne u [] with rfl | hne
      · exact .inl (prefix_append _ _).isInfix
      · exact .inr ⟨u, v, rfl, hne, hv, ⟨x, hu.symm⟩, prefix_append _ _⟩
    · exact .inl ⟨u, y, rfl⟩
  · rintro (⟨x, y, rfl⟩ | ⟨u, v, rfl, -, hv, hu, hm⟩)
    · refine ⟨x ++ t, ?_, prefix_append _ _, s ++ x, append_assoc _ _ _⟩
      exact append_ne_nil_of_right_ne_nil x (terminator_length t ht).1
    · obtain ⟨x, rfl⟩ := hu
      exact ⟨v, hv, hm, x, (append_assoc _ _ _).symm⟩

theorem detect_iff : pdDetectHttpMsgEnd s = true ↔ ∃ t ∈ terminators, t <:+: s := by
  simp [pdDetectHttpMsgEnd]

theorem carried_suffix (packets : List Bytes) : carried packets <:+ packets.flatten := by
  induction packets using reverseRecOn with
  | nil => exact suffix_rfl
  | append_singleton packets m ih =>
    rw [flatten_append, flatten_singleton, carried, foldl_append]
    show (pdScanMsgEndWindow (carried packets) m).1 <:+ _
    unfold pdScanMsgEndWindow
    split
    case isTrue hm => rwa [isEmpty_iff.mp hm, append_nil]
    case isFalse => exact (lastBytes_suffix m).trans (suffix_append _ _)

/-- **A call finds the end of the message exactly where it comes with the packet**, for exactly the
packets that fit the window. -/
theorem message_end_iff (packets : List Bytes) (m : Bytes) :
    ((pdScanMsgEndWindow (carried packets) m).2 = true ↔ Completes packets.flatten m) ↔
      Fits packets.flatten (carried packets) m := by
  rw [completes_iff]
  unfold pdScanMsgEndWindow Fits
  split
  case isTrue hm =>
    rw [isEmpty_iff.mp hm]
    refine iff_of_true ⟨nofun, ?_⟩ (.inl rfl)
    rintro ⟨t, ht, hm | ⟨u, v, -, -, hv, -, hm⟩⟩
    · exact absurd (infix_nil.mp hm) (terminator_length t ht).1
    · exact absurd (prefix_nil.mp hm) hv
  case isFalse hm =>
    have hne : m ≠ [] := fun h => hm (isEmpty_iff.mpr h)
    rw [Bool.or_eq_true, detect_iff, detect_iff]
    simp only [and_or_left, exists_or]
    by_cases hown : ∃ t, t ∈ terminators ∧ t <:+: m <;> simp [hown, hne]

/-- so does a packet that is in the window whole, when the tail reaches back far enough and has no
terminator -/
theorem fits_small (packets : List Bytes) (hm : m.length ≤ 20)
    (hlen : 11 ≤ (carried packets).length ∨ carried packets = packets.flatten)
    (h : ∀ t ∈ terminators, ¬ t <:+: carried packets) : Fits packets.flatten (carried packets) m := by
  have hlast : lastBytes m = m := by rw [lastBytes, Nat.sub_eq_zero_of_le hm, drop_zero]
  refine .inr (or_iff_not_imp_left.mpr fun hno => exists_congr fun t => and_congr_right fun ht => ?_)
  have hshort := (terminator_length t ht).2
  rw [hlast, infix_append_across, across_iff (carried_suffix packets) (hlen.imp_left (by omega)) prefix_rfl
    (.inr rfl)]
  simp only [h t ht, false_or, show ¬ t <:+: m from fun hc => hno ⟨t, ht, hc⟩]

/-- a marker whose rest comes with more bytes is not -/
theorem message_end_missed : ∃ s m, (pdScanMsgEndWindow (carried [s]) m).2 = false ∧ Completes s m :=
  ⟨(event true marker).take 9, marker.drop 3 ++ replicate 20 0x0A, by decide, event true marker,
    by decide, marker.drop 3, by decide⟩

end Ends
