import InferenceGateway.Lib.Json
import Mathlib.Data.Nat.Bitwise

/-!
# Reading string spans

`json_str_eq` and `kv_json_unescape_copy` read the raw bytes between two quotes.  Both follow the
escapes as the grammar does: `jsonStrEq_iff` says that the comparison is with what the span spells,
`unescapeCopy_eq` that the copy is that text when it fits.
-/

open List Option UInt8 Nat

namespace SpJson

open Json

/-! ## the escapes -/

/-- four hexadecimal digits, `kv_json__hex4` -/
def kvJsonHex4 (s : Bytes) : Option Nat :=
  (s.take 4).foldlM (fun v c => (hexVal c).map (v <<< 4 ||| ·)) 0

def kvJsonUtf8Len (cp : Nat) : Nat :=
  if cp < 0x80 then 1
  else if cp < 0x800 then 2
  else if cp < 0x10000 then 3
  else if cp ≤ 0x10FFFF then 4
  else 0

def kvJsonUtf8Emit (cp : Nat) : Bytes :=
  if cp < 0x80 then [UInt8.ofNat cp]
  else if cp < 0x800 then [UInt8.ofNat (0xC0 ||| cp >>> 6), UInt8.ofNat (0x80 ||| cp &&& 0x3F)]
  else if cp < 0x10000 then
    [UInt8.ofNat (0xE0 ||| cp >>> 12), UInt8.ofNat (0x80 ||| cp >>> 6 &&& 0x3F),
      UInt8.ofNat (0x80 ||| cp &&& 0x3F)]
  else
    [UInt8.ofNat (0xF0 ||| cp >>> 18), UInt8.ofNat (0x80 ||| cp >>> 12 &&& 0x3F),
      UInt8.ofNat (0x80 ||| cp >>> 6 &&& 0x3F), UInt8.ofNat (0x80 ||| cp &&& 0x3F)]

/-- the letter after a backslash, where it is not `u` -/
def escapeLetter (e : UInt8) : Option UInt8 :=
  if e = 34 then some 34
  else if e = 92 then some 92
  else if e = 47 then some 47
  else if e = 98 then some 8
  else if e = 102 then some 12
  else if e = 110 then some 10
  else if e = 114 then some 13
  else if e = 116 then some 9
  else none

/-- the code point of a unicode escape that `raw` begins with, and what follows it: a high surrogate
needs its low one, and a low one does not stand alone -/
def unicodeEscape (raw : Bytes) : Option (Nat × Bytes) :=
  if raw.length < 6 then none
  else
    match kvJsonHex4 (raw.drop 2) with
    | none => none
    | some cp =>
      let raw := raw.drop 6
      if 0xD800 ≤ cp ∧ cp ≤ 0xDBFF then
        if raw.length < 6 ∨ raw[0]? ≠ some backslash ∨ raw[1]? ≠ some 117 then none
        else
          match kvJsonHex4 (raw.drop 2) with
          | none => none
          | some lo =>
            if lo < 0xDC00 ∨ lo > 0xDFFF then none
            else some (0x10000 + ((cp - 0xD800) <<< 10 ||| (lo - 0xDC00)), raw.drop 6)
      else if 0xDC00 ≤ cp ∧ cp ≤ 0xDFFF then none
      else some (cp, raw)

/-- the bytes an escape that `raw` begins with spells, and what follows it -/
def escapeUnit (raw : Bytes) : Option (Bytes × Bytes) :=
  match raw with
  | _ :: e :: rest =>
    if e = 117 then
      match unicodeEscape raw with
      | none => none
      | some (cp, rest) => if kvJsonUtf8Len cp = 0 then none else some (kvJsonUtf8Emit cp, rest)
    else (escapeLetter e).map fun d => ([d], rest)
  | _ => none

/-! ## comparing a span -/

/-- the bytes the next byte or escape of a span spells, and what follows it -/
def strUnit (raw : Bytes) : Option (Bytes × Bytes) :=
  match raw with
  | [] => none
  | c :: rest => if c ≠ backslash then some ([c], rest) else escapeUnit raw

def jsonStrEqLoop : Nat → Bytes → Bytes → Bool
  | 0, raw, s => raw.isEmpty && s.isEmpty
  | n + 1, raw, s =>
    if raw.isEmpty then s.isEmpty
    else
      match strUnit raw with
      | none => false
      | some (dec, rest) =>
        if dec.isPrefixOf s then jsonStrEqLoop n rest (s.drop dec.length) else false

/-- a raw span spells a name, `json_str_eq` -/
def jsonStrEq (raw s : Bytes) : Bool :=
  if backslash ∉ raw then decide (raw = s) else jsonStrEqLoop raw.length raw s

/-! ## copying a span -/

/-- the length a lead byte announces -/
def leadLen (c : UInt8) : Option Nat :=
  if c &&& 0xE0 = 0xC0 then some 2
  else if c &&& 0xF0 = 0xE0 then some 3
  else if c &&& 0xF8 = 0xF0 then some 4
  else none

def isContinuation (c : UInt8) : Bool := c &&& 0xC0 == 0x80

/-- the bytes the next character or escape of a span spells, and what follows it; none where the copy
stops -/
def copyUnit (src : Bytes) : Option (Bytes × Bytes) :=
  match src with
  | [] => none
  | c :: rest =>
    if c = backslash then escapeUnit src
    else if c < 0x80 then some ([c], rest)
    else
      match leadLen c with
      | none => none
      | some need =>
        if src.length < need ∨ (rest.take (need - 1)).all isContinuation = false then none
        else some (src.take need, src.drop need)

def unescapeLoop (dstcap : Nat) : Nat → Bytes → Bytes → Bytes
  | 0, _, dst => dst
  | n + 1, src, dst =>
    if dst.length < dstcap - 1 then
      match copyUnit src with
      | none => dst
      | some (dec, rest) =>
        -- a character is copied whole or not at all
        if dst.length + dec.length > dstcap - 1 then dst else unescapeLoop dstcap n rest (dst ++ dec)
    else dst

/-- the text a raw span spells, cut to a capacity, `kv_json_unescape_copy` -/
def kvJsonUnescapeCopy (src : Bytes) (dstcap : Nat) : Bytes :=
  if dstcap = 0 then [] else unescapeLoop dstcap src.length src []

/-! ## what the escapes spell -/

theorem Hex.val_lt (h : Hex) : h.val < 16 := by
  have hh : hexVal h.byte = some h.val := (some_get h.isHex).symm
  unfold hexVal at hh
  simp only [le_iff_toNat_le, reduceToNat] at hh
  split at hh
  · have := some.inj hh
    omega
  split at hh
  · have := some.inj hh
    omega
  split at hh
  · have := some.inj hh
    omega
  · cases hh

theorem code_val_lt (u : Code) : u.val < 0x10000 := by
  have ha := Hex.val_lt u.a
  have hb := Hex.val_lt u.b
  have hc := Hex.val_lt u.c
  have hd := Hex.val_lt u.d
  unfold Code.val
  omega

theorem shift_or (v d : Nat) (hd : d < 16) : v <<< 4 ||| d = v * 16 + d := by
  rw [← shiftLeft_add_eq_or_of_lt hd, shiftLeft_eq]

theorem hex4_bytes (u : Code) (rest : Bytes) : kvJsonHex4 (u.bytes ++ rest) = some u.val := by
  have hex : ∀ h : Hex, hexVal h.byte = some h.val := fun h => (some_get h.isHex).symm
  have htake : (u.bytes ++ rest).take 4 = u.bytes := take_left' rfl
  unfold kvJsonHex4
  rw [htake]
  unfold Code.bytes Code.val
  simp only [foldlM_cons, foldlM_nil, hex, map_some, bind_eq_bind, bind_some, Option.pure_def]
  rw [shift_or _ _ (Hex.val_lt _), shift_or _ _ (Hex.val_lt _), shift_or _ _ (Hex.val_lt _),
    shift_or _ _ (Hex.val_lt _), Nat.zero_add]

theorem or_two_pow {i a b : Nat} (h : b < 2 ^ i) : 2 ^ i * a ||| b = 2 ^ i * a + b :=
  (two_pow_add_eq_or_of_lt h a).symm

theorem and_low (n : Nat) : n &&& 0x3F = n % 64 := and_two_pow_sub_one_eq_mod n 6

theorem tail_byte (n : Nat) : 0x80 ||| n &&& 0x3F = n % 64 + 128 := by
  rw [and_low]
  have hb : 0x80 ||| n % 64 = 0x80 + n % 64 := @or_two_pow 6 2 (n % 64) (mod_lt _ (by decide))
  rw [hb, add_comm]

variable {cp n cap : Nat} {u : Code} {rest t dst src : Bytes} {c : Char} {p : Piece} {s : Str}

theorem emit_eq_utf8 (h : cp.isValidChar) : kvJsonUtf8Emit cp = utf8 cp := by
  have hval : (Char.ofNat cp).val.toNat = cp := by
    rw [Char.ofNat, dif_pos h]
    rfl
  unfold kvJsonUtf8Emit utf8 String.utf8EncodeChar
  simp only [hval, tail_byte, shiftRight_eq_div_pow]
  by_cases h1 : cp < 0x80
  · rw [if_pos h1, if_pos (show cp ≤ 0x7f by omega)]
  rw [if_neg h1, if_neg (show ¬ cp ≤ 0x7f by omega)]
  by_cases h2 : cp < 0x800
  · have hb : 0xC0 ||| cp / 2 ^ 6 = cp / 64 % 32 + 0xc0 := by
      have hor : 0xC0 ||| cp / 2 ^ 6 = 0xC0 + cp / 2 ^ 6 := @or_two_pow 6 3 _ (by omega)
      omega
    rw [if_pos h2, if_pos (show cp ≤ 0x7ff by omega), hb]
  rw [if_neg h2, if_neg (show ¬ cp ≤ 0x7ff by omega)]
  by_cases h3 : cp < 0x10000
  · have hb : 0xE0 ||| cp / 2 ^ 12 = cp / 4096 % 16 + 0xe0 := by
      have hor : 0xE0 ||| cp / 2 ^ 12 = 0xE0 + cp / 2 ^ 12 := @or_two_pow 5 7 _ (by omega)
      omega
    rw [if_pos h3, if_pos (show cp ≤ 0xffff by omega), hb]
  · have hb : 0xF0 ||| cp / 2 ^ 18 = cp / 262144 % 8 + 0xf0 := by
      have hor : 0xF0 ||| cp / 2 ^ 18 = 0xF0 + cp / 2 ^ 18 := @or_two_pow 4 15 _ (by omega)
      omega
    rw [if_neg h3, if_neg (show ¬ cp ≤ 0xffff by omega), hb]

theorem escapeUnit_letter (e : Short) (rest : Bytes) :
    escapeUnit (backslash :: e.letter :: rest) = some ([e.meaning], rest) := by
  cases e <;> rfl

theorem unicodeEscape_code : unicodeEscape (backslash :: 117 :: (u.bytes ++ rest)) =
      if u.isHigh = true then
        if rest.length < 6 ∨ rest[0]? ≠ some backslash ∨ rest[1]? ≠ some 117 then none
        else
          match kvJsonHex4 (rest.drop 2) with
          | none => none
          | some lo =>
            if lo < 0xDC00 ∨ lo > 0xDFFF then none
            else some (0x10000 + ((u.val - 0xD800) <<< 10 ||| (lo - 0xDC00)), rest.drop 6)
      else if u.isLow = true then none
      else some (u.val, rest) := by
  change (match kvJsonHex4 (u.bytes ++ rest) with
    | none => none
    | some cp => _) = _
  rw [hex4_bytes]
  simp only [Code.isHigh, Code.isLow, decide_eq_true_eq]
  rfl

theorem len_valid (h : cp.isValidChar) : kvJsonUtf8Len cp ≠ 0 := by
  have hmax : cp ≤ 0x10FFFF := by
    rcases h with h | h
    · omega
    · exact le_of_lt_succ h.2
  unfold kvJsonUtf8Len
  split_ifs <;> decide

/-- a step of a reader over a string: it fails where the string spells nothing, and else what is left
is the rest of the string -/
def Follows (s : Str) : Option (Bytes × Bytes) → Prop
  | none => decode s = none
  | some (dec, rest) =>
    ∃ s', rest = strBytes s' ∧ (strBytes s').length < (strBytes s).length ∧ dec ≠ [] ∧
      decode s = (decode s').map (dec ++ ·)

theorem strBytes_cons (p : Piece) (s : Str) : strBytes (p :: s) = p.bytes ++ strBytes s := rfl

theorem strBytes_lt (p : Piece) (s : Str) : (strBytes s).length < (strBytes (p :: s)).length := by
  have hpos : 0 < p.bytes.length := by
    cases p with
    | char c h => exact length_pos_iff.mpr String.utf8EncodeChar_ne_nil
    | short | unicode => exact succ_pos _
  rw [strBytes_cons, length_append]
  omega

theorem char_first (hp : isPlain c = true) (rest : Bytes) :
    (String.utf8EncodeChar c ++ rest)[0]? ≠ some backslash := by
  cases hb : String.utf8EncodeChar c with
  | nil => exact absurd hb String.utf8EncodeChar_ne_nil
  | cons b bs =>
    have := (plain_bytes hp (hb ▸ mem_cons_self)).2.2
    exact fun hc => this (some.inj hc)

theorem unicode_eq {r : Bytes} (hv : cp.isValidChar)
    (h : unicodeEscape (backslash :: 117 :: (u.bytes ++ rest)) = some (cp, r)) :
    escapeUnit (backslash :: 117 :: (u.bytes ++ rest)) = some (utf8 cp, r) := by
  unfold escapeUnit
  dsimp only
  rw [if_pos rfl, h]
  dsimp only
  rw [if_neg (len_valid hv), emit_eq_utf8 hv]

theorem unicode_none (h : unicodeEscape (backslash :: 117 :: (u.bytes ++ rest)) = none) :
    escapeUnit (backslash :: 117 :: (u.bytes ++ rest)) = none := by
  unfold escapeUnit
  dsimp only
  rw [if_pos rfl, h]

theorem not_high_low (h : u.isHigh ≠ true) (h' : u.isLow ≠ true) : u.val.isValidChar := by
  have := code_val_lt u
  simp only [Code.isHigh, Code.isLow, ne_eq, decide_eq_true_eq] at h h'
  omega

theorem pair_eq {l : Code} (h : u.isHigh = true) (h' : l.isLow = true) :
    0x10000 + ((u.val - 0xD800) <<< 10 ||| (l.val - 0xDC00)) = pairVal u l ∧
      (pairVal u l).isValidChar := by
  simp only [Code.isHigh, Code.isLow, decide_eq_true_eq] at h h'
  have hor : (u.val - 0xD800) <<< 10 ||| (l.val - 0xDC00) =
      (u.val - 0xD800) * 1024 + (l.val - 0xDC00) := by
    rw [← shiftLeft_add_eq_or_of_lt (by omega), shiftLeft_eq]
  unfold pairVal Nat.isValidChar
  omega

theorem escapeUnit_high (hu : u.isHigh = true) (s : Str) :
    Follows (.unicode u :: s) (escapeUnit (strBytes (.unicode u :: s))) := by
  have hbytes : strBytes (.unicode u :: s) = backslash :: 117 :: (u.bytes ++ strBytes s) := rfl
  rw [hbytes]
  -- without a low surrogate after it the escape spells nothing
  have bad : (∀ l s', s = .unicode l :: s' → l.isLow ≠ true) →
      unicodeEscape (backslash :: 117 :: (u.bytes ++ strBytes s)) = none →
      Follows (.unicode u :: s) (escapeUnit (backslash :: 117 :: (u.bytes ++ strBytes s))) := by
    intro hs hnone
    rw [unicode_none hnone]
    change decode (.unicode u :: s) = none
    unfold decode
    rw [if_pos hu]
    split
    · rename_i l s'
      rw [if_neg (hs l s' rfl)]
    · rfl
  cases s with
  | nil =>
    refine bad nofun ?_
    rw [unicodeEscape_code, if_pos hu]
    exact if_pos (.inl (by decide))
  | cons p s =>
    cases p with
    | char c hp =>
      refine bad nofun ?_
      rw [unicodeEscape_code, if_pos hu]
      exact if_pos (.inr (.inl (char_first hp _)))
    | short e =>
      refine bad nofun ?_
      rw [unicodeEscape_code, if_pos hu]
      refine if_pos (.inr (.inr ?_))
      cases e <;> exact fun hc => absurd (some.inj hc) (by decide)
    | unicode l =>
      have hhex : kvJsonHex4 ((strBytes (.unicode l :: s)).drop 2) = some l.val := hex4_bytes l _
      by_cases hl : l.isLow = true
      · obtain ⟨hp, hv⟩ := pair_eq hu hl
        have hlow : ¬ (l.val < 0xDC00 ∨ l.val > 0xDFFF) := by
          simp only [Code.isLow, decide_eq_true_eq] at hl
          omega
        have hesc : unicodeEscape (backslash :: 117 :: (u.bytes ++ strBytes (.unicode l :: s))) =
            some (pairVal u l, strBytes s) := by
          rw [unicodeEscape_code, if_pos hu, hhex]
          dsimp only
          rw [if_neg hlow, hp]
          rfl
        rw [unicode_eq hv hesc]
        refine ⟨s, rfl, lt_trans (strBytes_lt _ _) (strBytes_lt _ _), String.utf8EncodeChar_ne_nil, ?_⟩
        rw [decode, if_pos hu]
        exact if_pos hl
      · refine bad (fun l' s' hc => by cases hc; exact hl) ?_
        have hout : l.val < 0xDC00 ∨ l.val > 0xDFFF := by
          simp only [Code.isLow, decide_eq_true_eq] at hl
          omega
        rw [unicodeEscape_code, if_pos hu, hhex]
        exact if_pos hout

theorem char_or_escape (p : Piece) (s : Str) : (∃ c h, p = .char c h) ∨
    (∃ rest, strBytes (p :: s) = backslash :: rest) ∧ Follows (p :: s) (escapeUnit (strBytes (p :: s))) := by
  cases p with
  | char c h => exact .inl ⟨c, h, rfl⟩
  | short e =>
    refine .inr ⟨⟨_, rfl⟩, ?_⟩
    have h : escapeUnit (strBytes (.short e :: s)) = some ([e.meaning], strBytes s) :=
      escapeUnit_letter e _
    rw [h]
    exact ⟨s, rfl, strBytes_lt _ _, cons_ne_nil _ _, rfl⟩
  | unicode u =>
    have hbytes : strBytes (.unicode u :: s) = backslash :: 117 :: (u.bytes ++ strBytes s) := rfl
    refine .inr ⟨⟨_, hbytes⟩, ?_⟩
    by_cases hu : u.isHigh = true
    · exact escapeUnit_high hu s
    rw [hbytes]
    by_cases hl : u.isLow = true
    · rw [unicode_none (by rw [unicodeEscape_code, if_neg hu, if_pos hl])]
      change decode (.unicode u :: s) = none
      unfold decode
      rw [if_neg hu, if_pos hl]
    · rw [unicode_eq (not_high_low hu hl) (by rw [unicodeEscape_code, if_neg hu, if_neg hl])]
      refine ⟨s, rfl, strBytes_lt _ _, String.utf8EncodeChar_ne_nil, ?_⟩
      conv_lhs => unfold decode
      rw [if_neg hu, if_neg hl]

/-! ## the comparison -/

theorem loop_char {bs : Bytes} (hb : ∀ b ∈ bs, b ≠ backslash) (n : Nat) (rest s : Bytes) :
    jsonStrEqLoop (bs.length + n) (bs ++ rest) s =
      (bs.isPrefixOf s && jsonStrEqLoop n rest (s.drop bs.length)) := by
  induction bs generalizing s with
  | nil => simp
  | cons b bs ih =>
    have hne : b ≠ backslash := hb b mem_cons_self
    have hunit : strUnit (b :: (bs ++ rest)) = some ([b], bs ++ rest) := if_pos hne
    have hlen : (b :: bs).length + n = (bs.length + n) + 1 := by
      rw [length_cons]
      omega
    rw [hlen, cons_append, jsonStrEqLoop, hunit]
    dsimp only
    cases s with
    | nil => rfl
    | cons c s =>
      rw [ih (fun x hx => hb x (mem_cons_of_mem _ hx))]
      by_cases hc : b = c
      · subst hc
        simp
      · simp [hc]

theorem loop_nil (n : Nat) (t : Bytes) : jsonStrEqLoop n [] t = t.isEmpty := by
  cases n <;> rfl

theorem map_append_eq_some {o : Option Bytes} {dec : Bytes} :
    o.map (dec ++ ·) = some t ↔ dec.isPrefixOf t = true ∧ o = some (t.drop dec.length) := by
  rw [map_eq_some_iff, isPrefixOf_iff_prefix]
  constructor
  · rintro ⟨a, rfl, rfl⟩
    exact ⟨prefix_append _ _, by rw [drop_left]⟩
  · rintro ⟨⟨u, rfl⟩, h⟩
    rw [drop_left] at h
    exact ⟨u, h, rfl⟩

theorem jsonStrEqLoop_iff (hn : (strBytes s).length ≤ n) (t : Bytes) :
    jsonStrEqLoop n (strBytes s) t = true ↔ decode s = some t := by
  -- a round takes a byte of a character, or an escape, off the string
  induction n using Nat.strong_induction_on generalizing s t with
  | _ n ih =>
  cases s with
  | nil =>
    rw [show strBytes [] = [] from rfl, loop_nil, List.isEmpty_iff, decode, some_inj, eq_comm]
  | cons p s =>
    rcases char_or_escape p s with ⟨c, h, rfl⟩ | ⟨⟨rest, hrest⟩, hf⟩
    · have hpos : 0 < (String.utf8EncodeChar c).length :=
        length_pos_iff.mpr String.utf8EncodeChar_ne_nil
      rw [strBytes_cons, length_append] at hn
      change (String.utf8EncodeChar c).length + _ ≤ n at hn
      obtain ⟨m, rfl⟩ := Nat.exists_eq_add_of_le (Nat.le_of_add_right_le hn)
      rw [strBytes_cons, Piece.bytes, loop_char (fun b hb => (plain_bytes h hb).2.2), Bool.and_eq_true,
        ih m (by omega) (by omega), decode, map_append_eq_some]
    · have hunit : strUnit (strBytes (p :: s)) = escapeUnit (strBytes (p :: s)) := by
        rw [hrest]
        unfold strUnit
        exact if_neg (not_not_intro rfl)
      have hne : (strBytes (p :: s)).isEmpty = false := by
        rw [hrest]
        rfl
      cases n with
      | zero =>
        rw [hrest] at hn
        cases hn
      | succ n =>
        rw [jsonStrEqLoop, hne, hunit]
        revert hf
        cases escapeUnit (strBytes (p :: s)) with
        | none =>
          intro hf
          rw [show decode (p :: s) = none from hf]
          simp
        | some r =>
          obtain ⟨dec, rest⟩ := r
          rintro ⟨s', rfl, hlt, _, hd⟩
          rw [hd, map_append_eq_some, ← ih n (lt_succ_self n) (by omega)]
          by_cases hpre : dec.isPrefixOf t = true
          · simp [hpre]
          · simp [hpre]

theorem decode_plain (h : backslash ∉ strBytes s) : decode s = some (strBytes s) := by
  induction s with
  | nil => rfl
  | cons p s ih =>
    rw [strBytes_cons, mem_append, not_or] at h
    cases p with
    | char c hc => rw [decode, ih h.2]; rfl
    | short | unicode => exact absurd mem_cons_self h.1

theorem jsonStrEq_iff (s : Str) (t : Bytes) : jsonStrEq (strBytes s) t = true ↔ decode s = some t := by
  unfold jsonStrEq
  split
  · rename_i h
    rw [decode_plain h, decide_eq_true_iff, some_inj]
  · exact jsonStrEqLoop_iff (le_refl _) t

/-! ## the copy -/

theorem leadLen_two : ∀ x : Fin 32, leadLen (ofNat (x + 0xc0)) = some 2 := by decide
theorem leadLen_three : ∀ x : Fin 16, leadLen (ofNat (x + 0xe0)) = some 3 := by decide
theorem leadLen_four : ∀ x : Fin 8, leadLen (ofNat (x + 0xf0)) = some 4 := by decide
theorem continuation_ok : ∀ x : Fin 64, isContinuation (ofNat (x + 0x80)) = true := by decide

theorem copyUnit_lead {c : UInt8} {cs : Bytes} (h : 128 ≤ c) (hl : leadLen c = some (cs.length + 1))
    (hc : ∀ x ∈ cs, isContinuation x = true) :
    copyUnit (c :: cs ++ rest) = some (c :: cs, rest) := by
  have hb : c ≠ backslash := by
    rintro rfl
    exact absurd h (by decide)
  have hlow : ¬ c < 0x80 := UInt8.not_lt.mpr h
  have hall : (cs ++ rest).take (cs.length + 1 - 1) = cs := take_left' rfl
  unfold copyUnit
  dsimp only [cons_append]
  rw [if_neg hb, if_neg hlow, hl]
  dsimp only
  rw [hall, List.all_eq_true.mpr hc]
  simp

theorem copyUnit_char (hp : isPlain c = true) (rest : Bytes) :
    copyUnit (String.utf8EncodeChar c ++ rest) = some (String.utf8EncodeChar c, rest) := by
  by_cases h : c.toNat < 128
  · have hb : ofNat c.toNat ≠ backslash := by
      refine (plain_bytes hp ?_).2.2
      rw [utf8_ascii h]
      exact mem_singleton_self _
    have hlow : ofNat c.toNat < 0x80 := by
      rw [lt_iff_toNat_lt, toNat_ofNat', mod_eq_of_lt (by omega)]
      exact h
    rw [utf8_ascii h]
    unfold copyUnit
    dsimp only [singleton_append]
    rw [if_neg hb, if_pos hlow]
  · have hhigh : ∀ b ∈ String.utf8EncodeChar c, 128 ≤ b := fun b hb =>
      utf8_high (Nat.le_of_not_lt h) hb
    have hv : ¬ c.val.toNat ≤ 0x7f := fun hc => h (lt_succ_of_le hc)
    have cont : ∀ n, isContinuation (ofNat (n % 64 + 0x80)) = true := fun n =>
      continuation_ok ⟨n % 64, mod_lt _ (by decide)⟩
    unfold String.utf8EncodeChar at hhigh ⊢
    simp only [if_neg hv] at hhigh ⊢
    split at hhigh
    · rename_i h2
      rw [if_pos h2]
      refine copyUnit_lead (hhigh _ mem_cons_self)
        (leadLen_two ⟨c.val.toNat / 64 % 32, mod_lt _ (by decide)⟩) fun x hx => ?_
      rw [mem_singleton.mp hx]
      exact cont _
    rename_i h2
    rw [if_neg h2]
    split at hhigh
    · rename_i h3
      rw [if_pos h3]
      refine copyUnit_lead (hhigh _ mem_cons_self)
        (leadLen_three ⟨c.val.toNat / 4096 % 16, mod_lt _ (by decide)⟩) fun x hx => ?_
      simp only [mem_cons, not_mem_nil, or_false] at hx
      rcases hx with rfl | rfl <;> exact cont _
    · rename_i h3
      rw [if_neg h3]
      refine copyUnit_lead (hhigh _ mem_cons_self)
        (leadLen_four ⟨c.val.toNat / 262144 % 8, mod_lt _ (by decide)⟩) fun x hx => ?_
      simp only [mem_cons, not_mem_nil, or_false] at hx
      rcases hx with rfl | rfl | rfl <;> exact cont _

theorem copyUnit_follows (p : Piece) (s : Str) :
    Follows (p :: s) (copyUnit (strBytes (p :: s))) := by
  rcases char_or_escape p s with ⟨c, h, rfl⟩ | ⟨⟨rest, hrest⟩, hf⟩
  · rw [strBytes_cons, Piece.bytes, copyUnit_char h]
    exact ⟨s, rfl, strBytes_lt _ _, String.utf8EncodeChar_ne_nil, by rw [decode]⟩
  · have hunit : copyUnit (strBytes (p :: s)) = escapeUnit (strBytes (p :: s)) := by
      rw [hrest]
      unfold copyUnit
      exact if_pos rfl
    rw [hunit]
    exact hf

theorem unescapeLoop_eq (hn : (strBytes s).length ≤ n) (hd : decode s = some t)
    (hfit : dst.length + t.length ≤ cap - 1) :
    unescapeLoop cap n (strBytes s) dst = dst ++ t := by
  induction n generalizing s t dst with
  | zero =>
    cases s with
    | nil =>
      rw [decode, some_inj] at hd
      rw [← hd, append_nil]
      rfl
    | cons p s =>
      have := strBytes_lt p s
      omega
  | succ n ih =>
    cases s with
    | nil =>
      rw [decode, some_inj] at hd
      rw [← hd, append_nil, unescapeLoop]
      split <;> rfl
    | cons p s =>
      have hf := copyUnit_follows p s
      rw [unescapeLoop]
      revert hf
      cases copyUnit (strBytes (p :: s)) with
      | none =>
        intro hf
        rw [show decode (p :: s) = none from hf] at hd
        cases hd
      | some r =>
        obtain ⟨dec, rest⟩ := r
        rintro ⟨s', rfl, hlt, hne, hds⟩
        rw [hds, map_append_eq_some, isPrefixOf_iff_prefix] at hd
        obtain ⟨⟨u, rfl⟩, hs'⟩ := hd
        rw [drop_left] at hs'
        have hpos : 0 < dec.length := length_pos_iff.mpr hne
        rw [length_append] at hfit
        have hgo : ¬ dst.length + dec.length > cap - 1 := by omega
        rw [if_pos (by omega)]
        dsimp only
        rw [if_neg hgo, ih (by omega) hs' (by rw [length_append]; omega), append_assoc]

theorem unescapeCopy_eq (hcap : cap ≠ 0) (hd : decode s = some t) (hfit : t.length < cap) :
    kvJsonUnescapeCopy (strBytes s) cap = t := by
  unfold kvJsonUnescapeCopy
  rw [if_neg hcap, unescapeLoop_eq (le_refl _) hd (by rw [length_nil]; omega), nil_append]

theorem unescapeLoop_length (h : dst.length ≤ cap - 1) :
    (unescapeLoop cap n src dst).length ≤ cap - 1 := by
  induction n generalizing src dst with
  | zero => exact h
  | succ n ih =>
    rw [unescapeLoop]
    split
    · split
      · exact h
      · split
        · exact h
        · refine ih ?_
          rw [length_append]
          omega
    · exact h

theorem unescapeCopy_length : (kvJsonUnescapeCopy src cap).length ≤ cap - 1 := by
  unfold kvJsonUnescapeCopy
  split
  · exact zero_le _
  · exact unescapeLoop_length (zero_le _)

end SpJson
