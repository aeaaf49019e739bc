import Mathlib.Data.List.Basic

/-!
# JSON texts

The grammar of JSON over bytes, as trees that keep every byte of the text: `Value.bytes` and
`Doc.bytes` write a tree out, so a text is valid exactly if a tree writes it.

* `decode`             what the inside of a string spells (a lone surrogate spells nothing);
* `Member.Named`       the members of an object under a name; a reader takes the last of them;
* `Inside`, `Skips`    what a scan that only follows quotes and brackets sees of a string and of a
  value: `strBytes_inside`, `Value.skips`.
-/

open List UInt8 Nat

namespace Json

abbrev Bytes := List UInt8
def ascii (s : String) : Bytes := s.toList.map fun c => UInt8.ofNat c.toNat
abbrev quote : UInt8 := 34
abbrev comma : UInt8 := 44
abbrev colon : UInt8 := 58
abbrev lbracket : UInt8 := 91
abbrev backslash : UInt8 := 92
abbrev rbracket : UInt8 := 93
abbrev lbrace : UInt8 := 123
abbrev rbrace : UInt8 := 125

/-! ## white space -/

inductive Blank where
  | space | tab | lf | cr
  deriving DecidableEq

def Blank.byte : Blank → UInt8
  | .space => 32
  | .tab => 9
  | .lf => 10
  | .cr => 13

abbrev Ws := List Blank
def Ws.bytes (w : Ws) : Bytes := w.map Blank.byte
def isBlank (c : UInt8) : Bool := c == 32 || c == 9 || c == 10 || c == 13

/-! ## strings -/

/-- the escapes of one letter -/
inductive Short where
  | quote | backslash | slash | b | f | n | r | t
  deriving DecidableEq

def Short.letter : Short → UInt8
  | .quote => 34
  | .backslash => 92
  | .slash => 47
  | .b => 98
  | .f => 102
  | .n => 110
  | .r => 114
  | .t => 116

def Short.meaning : Short → UInt8
  | .quote => 34
  | .backslash => 92
  | .slash => 47
  | .b => 8
  | .f => 12
  | .n => 10
  | .r => 13
  | .t => 9

def hexVal (c : UInt8) : Option Nat :=
  if 48 ≤ c ∧ c ≤ 57 then some (c.toNat - 48)
  else if 97 ≤ c ∧ c ≤ 102 then some (c.toNat - 87)
  else if 65 ≤ c ∧ c ≤ 70 then some (c.toNat - 55)
  else none

structure Hex where
  byte : UInt8
  isHex : (hexVal byte).isSome = true

def Hex.val (h : Hex) : Nat := (hexVal h.byte).get h.isHex

/-- the four digits of a unicode escape -/
structure Code where
  (a b c d : Hex)

def Code.val (u : Code) : Nat := ((u.a.val * 16 + u.b.val) * 16 + u.c.val) * 16 + u.d.val
def Code.bytes (u : Code) : Bytes := [u.a.byte, u.b.byte, u.c.byte, u.d.byte]
def Code.isHigh (u : Code) : Bool := decide (0xD800 ≤ u.val ∧ u.val ≤ 0xDBFF)
def Code.isLow (u : Code) : Bool := decide (0xDC00 ≤ u.val ∧ u.val ≤ 0xDFFF)

/-- the code point of a surrogate pair -/
def pairVal (hi lo : Code) : Nat := 0x10000 + (hi.val - 0xD800) * 1024 + (lo.val - 0xDC00)

/-- a character that may stand in a string as it is -/
def isPlain (c : Char) : Bool := decide (32 ≤ c.toNat) && c != '"' && c != '\\'

inductive Piece where
  | char (c : Char) (plain : isPlain c = true)
  | short (e : Short)
  | unicode (u : Code)

def Piece.bytes : Piece → Bytes
  | .char c _ => String.utf8EncodeChar c
  | .short e => [backslash, e.letter]
  | .unicode u => backslash :: 117 :: u.bytes

abbrev Str := List Piece
def strBytes (s : Str) : Bytes := s.flatMap Piece.bytes
def utf8 (n : Nat) : Bytes := String.utf8EncodeChar (Char.ofNat n)

/-- the bytes a string spells -/
def decode : Str → Option Bytes
  | [] => some []
  | .char c _ :: s => (decode s).map (String.utf8EncodeChar c ++ ·)
  | .short e :: s => (decode s).map (e.meaning :: ·)
  | .unicode u :: s =>
    if u.isHigh then
      match s with
      | .unicode l :: s => if l.isLow then (decode s).map (utf8 (pairVal u l) ++ ·) else none
      | _ => none
    else if u.isLow then none
    else (decode s).map (utf8 u.val ++ ·)

/-! ## numbers -/

abbrev Digits := List (Fin 10)
def digitByte (d : Fin 10) : UInt8 := UInt8.ofNat (48 + d.val)

/-- the number a text of digits writes -/
def Digits.val (ds : Digits) : Nat := ds.foldl (fun n d => n * 10 + d.val) 0

/-- the part of a number before its point: one digit, or more that do not begin with zero -/
structure Whole where
  digits : Digits
  nonempty : digits ≠ []
  noZeros : digits.head? = some 0 → digits.length = 1

structure Exponent where
  upper : Bool
  sign : Option Bool
  digits : Digits
  nonempty : digits ≠ []

structure Number where
  neg : Bool
  whole : Whole
  frac : Option { ds : Digits // ds ≠ [] }
  exp : Option Exponent

def signBytes : Option Bool → Bytes
  | none => []
  | some true => [45]
  | some false => [43]

def Exponent.bytes (e : Exponent) : Bytes :=
  (if e.upper then 69 else 101) :: signBytes e.sign ++ e.digits.map digitByte

def Number.bytes (n : Number) : Bytes :=
  (if n.neg then [45] else []) ++ n.whole.digits.map digitByte ++
    (n.frac.elim [] fun ds => 46 :: ds.val.map digitByte) ++ n.exp.elim [] Exponent.bytes

/-! ## values -/

inductive Atom where
  | null
  | bool (b : Bool)
  | num (n : Number)

def Atom.bytes : Atom → Bytes
  | .null => ascii "null"
  | .bool true => ascii "true"
  | .bool false => ascii "false"
  | .num n => n.bytes

/- White space after an opening bracket stands before its first element or apart from it: both
trees write the same text. -/
mutual
inductive Value where
  | atom (a : Atom)
  | str (s : Str)
  | arr (w : Ws) (es : List Elem)
  | obj (w : Ws) (ms : List Member)
inductive Elem where
  | mk (before : Ws) (value : Value) (after : Ws)
inductive Member where
  | mk (before : Ws) (key : Str) (mid gap : Ws) (value : Value) (after : Ws)
end

mutual
def Value.bytes : Value → Bytes
  | .atom a => a.bytes
  | .str s => quote :: strBytes s ++ [quote]
  | .arr w es => lbracket :: (w.bytes ++ elemsBytes es) ++ [rbracket]
  | .obj w ms => lbrace :: (w.bytes ++ membersBytes ms) ++ [rbrace]
def Elem.bytes : Elem → Bytes
  | .mk before v after => before.bytes ++ v.bytes ++ after.bytes
def Member.bytes : Member → Bytes
  | .mk before key mid gap v after =>
    before.bytes ++ ((quote :: strBytes key ++ [quote]) ++ (mid.bytes ++ colon :: (gap.bytes ++
      (v.bytes ++ after.bytes))))
def elemsBytes : List Elem → Bytes
  | [] => []
  | e :: es => e.bytes ++ elemsTail es
def elemsTail : List Elem → Bytes
  | [] => []
  | e :: es => comma :: e.bytes ++ elemsTail es
def membersBytes : List Member → Bytes
  | [] => []
  | m :: ms => m.bytes ++ membersTail ms
def membersTail : List Member → Bytes
  | [] => []
  | m :: ms => comma :: m.bytes ++ membersTail ms
end

mutual
/-- how deep brackets are nested -/
def Value.depth : Value → Nat
  | .atom _ => 0
  | .str _ => 0
  | .arr _ es => elemsDepth es + 1
  | .obj _ ms => membersDepth ms + 1
def Elem.depth : Elem → Nat
  | .mk _ v _ => v.depth
def Member.depth : Member → Nat
  | .mk _ _ _ _ v _ => v.depth
def elemsDepth : List Elem → Nat
  | [] => 0
  | e :: es => max e.depth (elemsDepth es)
def membersDepth : List Member → Nat
  | [] => 0
  | m :: ms => max m.depth (membersDepth ms)
end

def Member.key : Member → Str
  | .mk _ key _ _ _ _ => key

def Member.value : Member → Value
  | .mk _ _ _ _ v _ => v

def Member.withValue (v : Value) : Member → Member
  | .mk before key mid gap _ after => .mk before key mid gap v after

/-- a text that is an object -/
structure Doc where
  (before gap : Ws)
  members : List Member
  after : Ws

def Doc.bytes (d : Doc) : Bytes :=
  d.before.bytes ++ ((Value.obj d.gap d.members).bytes ++ d.after.bytes)

def plain (cs : List Char) (h : cs.all isPlain = true) : Str :=
  cs.pmap Piece.char (all_eq_true.mp h)

def member (key : Str) (v : Value) : Member := .mk [] key [] [] v []

/-! ## reading -/

def Member.named (key : Bytes) (m : Member) : Bool := decide (decode m.key = some key)

def valuesOf (key : Bytes) (ms : List Member) : List Value :=
  (ms.filter (Member.named key)).map Member.value

/-- the value under a name for a parser that keeps the last -/
def lastOf (key : Bytes) (ms : List Member) : Option Value := (valuesOf key ms).getLast?

/-- the value under a name for one that keeps the first -/
def firstOf (key : Bytes) (ms : List Member) : Option Value := (valuesOf key ms).head?

/-- a new value for the first member of a name -/
def setFirst (key : Bytes) (v : Value) : List Member → List Member
  | [] => []
  | m :: ms => if m.named key then m.withValue v :: ms else m :: setFirst key v ms

/-! ## what a scan of quotes and brackets sees -/

/-- the inside of a string -/
inductive Inside : Bytes → Prop
  | nil : Inside []
  | byte {c : UInt8} {s : Bytes} (low : 32 ≤ c) (quote : c ≠ quote) (backslash : c ≠ backslash)
      (rest : Inside s) : Inside (c :: s)
  | esc {c : UInt8} {s : Bytes} (low : 32 ≤ c) (rest : Inside s) : Inside (backslash :: c :: s)

variable {s t : Bytes} {b c : UInt8} {n : Nat}

theorem Inside.append (hs : Inside s) (ht : Inside t) : Inside (s ++ t) := by
  induction hs with
  | nil => exact ht
  | byte low hq hb _ ih => exact .byte low hq hb ih
  | esc low _ ih => exact .esc low ih

theorem utf8_high {c : Char} (h : 128 ≤ c.toNat) (hb : b ∈ String.utf8EncodeChar c) : 128 ≤ b := by
  have hv : ¬ c.val.toNat ≤ 0x7f := by
    change 128 ≤ c.val.toNat at h
    omega
  unfold String.utf8EncodeChar at hb
  simp only [if_neg hv] at hb
  have small : ∀ n, n < 128 → 128 ≤ ofNat (n + 128) := fun n hn => by
    change 128 ≤ (n + 128) % 256
    omega
  split at hb
  · rcases mem_cons.mp hb with rfl | hb
    · exact small (c.val.toNat / 64 % 32 + 64) (by omega)
    · rw [mem_singleton.mp hb]
      exact small (c.val.toNat % 64) (by omega)
  split at hb
  · simp only [mem_cons, not_mem_nil, or_false] at hb
    rcases hb with rfl | rfl | rfl
    · exact small (c.val.toNat / 4096 % 16 + 96) (by omega)
    · exact small (c.val.toNat / 64 % 64) (by omega)
    · exact small (c.val.toNat % 64) (by omega)
  · simp only [mem_cons, not_mem_nil, or_false] at hb
    rcases hb with rfl | rfl | rfl | rfl
    · exact small (c.val.toNat / 262144 % 8 + 112) (by omega)
    · exact small (c.val.toNat / 4096 % 64) (by omega)
    · exact small (c.val.toNat / 64 % 64) (by omega)
    · exact small (c.val.toNat % 64) (by omega)

theorem utf8_ascii {c : Char} (h : c.toNat < 128) : String.utf8EncodeChar c = [ofNat c.toNat] :=
  if_pos (le_of_lt_succ h)

theorem ofNat_eq_iff {c : Char} (h : c.toNat < 128) {d : Char} (hd : d.toNat < 128) :
    ofNat c.toNat = ofNat d.toNat ↔ c = d := by
  refine ⟨fun hc => ?_, fun hc => by rw [hc]⟩
  have hn := congrArg toNat hc
  rw [toNat_ofNat', toNat_ofNat', mod_eq_of_lt (by omega), mod_eq_of_lt (by omega)] at hn
  exact Char.toNat_inj.mp hn

/-- a digit of a unicode escape is no quote and no backslash -/
theorem Hex.range (h : Hex) : 48 ≤ h.byte.toNat ∧ h.byte.toNat ≠ 92 := by
  have hh := h.isHex
  unfold hexVal at hh
  simp only [le_iff_toNat_le] at hh
  split at hh
  · rename_i hc
    exact ⟨hc.1, fun h92 => by rw [h92] at hc; exact absurd hc.2 (by decide)⟩
  split at hh
  · rename_i hc
    have h97 : 97 ≤ h.byte.toNat := hc.1
    omega
  split at hh
  · rename_i hc
    have h65 : 65 ≤ h.byte.toNat := hc.1
    have h70 : h.byte.toNat ≤ 70 := hc.2
    omega
  · cases hh

theorem Hex.inside {h : Hex} (hs : Inside s) : Inside (h.byte :: s) := by
  obtain ⟨h48, h92⟩ := h.range
  refine .byte (le_iff_toNat_le.mpr (Nat.le_trans (by decide) h48)) (fun hc => ?_) (fun hc => ?_) hs
  · rw [hc] at h48
    exact absurd h48 (by decide)
  · rw [hc] at h92
    exact h92 rfl

theorem plain_bytes {c : Char} (hp : isPlain c = true) (hb : b ∈ String.utf8EncodeChar c) :
    32 ≤ b ∧ b ≠ quote ∧ b ≠ backslash := by
  simp only [isPlain, Bool.and_eq_true, decide_eq_true_eq, bne_iff_ne] at hp
  by_cases h : c.toNat < 128
  · rw [utf8_ascii h, mem_singleton] at hb
    subst hb
    refine ⟨?_, fun hc => hp.1.2 ?_, fun hc => hp.2 ?_⟩
    · rw [le_iff_toNat_le, toNat_ofNat', mod_eq_of_lt (by omega)]
      exact hp.1.1
    · exact (ofNat_eq_iff h (by decide)).mp hc
    · exact (ofNat_eq_iff h (by decide)).mp hc
  · have h128 : 128 ≤ b.toNat := le_iff_toNat_le.mp (utf8_high (Nat.le_of_not_lt h) hb)
    refine ⟨le_iff_toNat_le.mpr (Nat.le_trans (by decide) h128), ?_, ?_⟩
    · rintro rfl
      exact absurd h128 (by decide)
    · rintro rfl
      exact absurd h128 (by decide)

theorem inside_of_plain (h : ∀ b ∈ s, 32 ≤ b ∧ b ≠ quote ∧ b ≠ backslash) : Inside s := by
  induction s with
  | nil => exact .nil
  | cons b s ih =>
    obtain ⟨h32, hq, hb⟩ := h b mem_cons_self
    exact .byte h32 hq hb (ih fun x hx => h x (mem_cons_of_mem _ hx))

theorem Piece.inside (p : Piece) : Inside p.bytes := by
  cases p with
  | char c hp => exact inside_of_plain fun b hb => plain_bytes hp hb
  | short e => cases e <;> exact .esc (by decide) .nil
  | unicode u => exact .esc (by decide) (Hex.inside (Hex.inside (Hex.inside (Hex.inside .nil))))

theorem strBytes_inside (s : Str) : Inside (strBytes s) := by
  induction s with
  | nil => exact .nil
  | cons p s ih => exact p.inside.append ih

/-- a byte that is no quote, no backslash and no bracket -/
def isQuiet (c : UInt8) : Bool :=
  c != quote && c != backslash && c != lbrace && c != rbrace && c != lbracket && c != rbracket

/-- a byte of a literal or a number -/
def isAtomic (c : UInt8) : Bool :=
  decide (48 ≤ c ∧ c ≤ 57) || decide (97 ≤ c ∧ c ≤ 122) || c == 43 || c == 45 || c == 46 || c == 69

/-- bytes in which quotes and brackets are closed, the brackets nested `n` deep at most -/
inductive Skips : Nat → Bytes → Prop
  | nil {n : Nat} : Skips n []
  | byte {n : Nat} {c : UInt8} {s : Bytes} (quiet : isQuiet c = true) (rest : Skips n s) :
      Skips n (c :: s)
  | str {n : Nat} {t s : Bytes} (inside : Inside t) (rest : Skips n s) :
      Skips n (quote :: t ++ quote :: s)
  | arr {n : Nat} {t s : Bytes} (inside : Skips n t) (rest : Skips (n + 1) s) :
      Skips (n + 1) (lbracket :: t ++ rbracket :: s)
  | obj {n : Nat} {t s : Bytes} (inside : Skips n t) (rest : Skips (n + 1) s) :
      Skips (n + 1) (lbrace :: t ++ rbrace :: s)

theorem Skips.append (hs : Skips n s) (ht : Skips n t) : Skips n (s ++ t) := by
  induction hs with
  | nil => exact ht
  | byte hc _ ih => exact .byte hc (ih ht)
  | str hi _ ih =>
    rw [append_assoc]
    exact .str hi (ih ht)
  | arr hi _ _ ih =>
    rw [append_assoc]
    exact .arr hi (ih ht)
  | obj hi _ _ ih =>
    rw [append_assoc]
    exact .obj hi (ih ht)

theorem skips_of_quiet (h : ∀ c ∈ s, isQuiet c = true) : Skips n s := by
  induction s with
  | nil => exact .nil
  | cons c s ih =>
    exact .byte (h c mem_cons_self) (ih fun x hx => h x (mem_cons_of_mem _ hx))

theorem Ws.blank {w : Ws} (h : c ∈ w.bytes) : isBlank c = true := by
  obtain ⟨b, _, rfl⟩ := mem_map.mp h
  cases b <;> rfl

theorem quiet_of_blank (h : isBlank c = true) : isQuiet c = true := by
  simp only [isBlank, Bool.or_eq_true, beq_iff_eq] at h
  rcases h with ((rfl | rfl) | rfl) | rfl <;> rfl

theorem Ws.skips (w : Ws) : Skips n w.bytes :=
  skips_of_quiet fun _ hc => quiet_of_blank (Ws.blank hc)

theorem digit_atomic (d : Fin 10) : isAtomic (digitByte d) = true := by
  revert d
  decide

theorem digits_atomic {ds : Digits} (h : c ∈ ds.map digitByte) : isAtomic c = true := by
  obtain ⟨d, _, rfl⟩ := mem_map.mp h
  exact digit_atomic d

theorem Exponent.atomic {e : Exponent} (h : c ∈ e.bytes) : isAtomic c = true := by
  rcases mem_append.mp h with h | h
  · rcases mem_cons.mp h with rfl | h
    · cases e.upper <;> rfl
    · revert h
      cases e.sign with
      | none => exact fun h => by cases h
      | some s =>
        cases s <;> intro h <;> rw [mem_singleton.mp h] <;> rfl
  · exact digits_atomic h

theorem Number.atomic {n : Number} (h : c ∈ n.bytes) : isAtomic c = true := by
  unfold Number.bytes at h
  rw [mem_append, mem_append, mem_append] at h
  rcases h with ((h | h) | h) | h
  · cases hn : n.neg with
    | false =>
      rw [hn] at h
      cases h
    | true =>
      rw [hn] at h
      rw [mem_singleton.mp h]
      rfl
  · exact digits_atomic h
  · cases hf : n.frac with
    | none =>
      rw [hf] at h
      cases h
    | some ds =>
      rw [hf] at h
      rcases mem_cons.mp h with rfl | h
      · rfl
      · exact digits_atomic h
  · cases he : n.exp with
    | none =>
      rw [he] at h
      cases h
    | some e =>
      rw [he] at h
      exact e.atomic h

theorem Atom.atomic {a : Atom} (h : c ∈ a.bytes) : isAtomic c = true := by
  cases a with
  | num n => exact n.atomic h
  | null => exact all_eq_true.mp (show (ascii "null").all isAtomic = true by decide) c h
  | bool b =>
    cases b with
    | true => exact all_eq_true.mp (show (ascii "true").all isAtomic = true by decide) c h
    | false => exact all_eq_true.mp (show (ascii "false").all isAtomic = true by decide) c h

theorem atomic_ne {x : UInt8} (h : isAtomic c = true) (hx : isAtomic x = false) : c ≠ x := by
  rintro rfl
  rw [h] at hx
  cases hx

theorem quiet_of_atomic (h : isAtomic c = true) : isQuiet c = true := by
  simp only [isQuiet, Bool.and_eq_true, bne_iff_ne]
  exact ⟨⟨⟨⟨⟨atomic_ne h rfl, atomic_ne h rfl⟩, atomic_ne h rfl⟩, atomic_ne h rfl⟩, atomic_ne h rfl⟩,
    atomic_ne h rfl⟩

theorem Atom.bytes_ne_nil (a : Atom) : a.bytes ≠ [] := by
  cases a with
  | null => decide
  | bool b => cases b <;> decide
  | num n =>
    have h : n.whole.digits.map digitByte ≠ [] := fun hc => n.whole.nonempty (map_eq_nil_iff.mp hc)
    intro hc
    simp only [Atom.bytes, Number.bytes, append_eq_nil_iff] at hc
    exact h hc.1.1.2

theorem Atom.head (a : Atom) : ∃ c s, a.bytes = c :: s ∧ isAtomic c = true := by
  cases h : a.bytes with
  | nil => exact absurd h a.bytes_ne_nil
  | cons c s => exact ⟨c, s, rfl, Atom.atomic (h ▸ mem_cons_self)⟩

mutual
theorem Value.skips : ∀ (v : Value) {n : Nat}, v.depth ≤ n → Skips n v.bytes
  | .atom _, _, _ => skips_of_quiet fun _ hc => quiet_of_atomic (Atom.atomic hc)
  | .str s, _, _ => .str (strBytes_inside s) .nil
  | .arr _ _, 0, h => absurd h (not_succ_le_zero _)
  | .arr w es, _ + 1, h => .arr (w.skips.append (elemsBytes_skips es (le_of_succ_le_succ h))) .nil
  | .obj _ _, 0, h => absurd h (not_succ_le_zero _)
  | .obj w ms, _ + 1, h =>
    .obj (w.skips.append (membersBytes_skips ms (le_of_succ_le_succ h))) .nil
theorem Elem.skips : ∀ (e : Elem) {n : Nat}, e.depth ≤ n → Skips n e.bytes
  | .mk before v after, _, h => (before.skips.append (v.skips h)).append after.skips
theorem Member.skips : ∀ (m : Member) {n : Nat}, m.depth ≤ n → Skips n m.bytes
  | .mk before key mid gap v after, _, h => by
    have hv := gap.skips.append ((v.skips h).append after.skips)
    exact before.skips.append ((Skips.str (strBytes_inside key) .nil).append
      (mid.skips.append (.byte rfl hv)))
theorem elemsBytes_skips : ∀ (es : List Elem) {n : Nat}, elemsDepth es ≤ n → Skips n (elemsBytes es)
  | [], _, _ => .nil
  | e :: es, _, h => (e.skips (Nat.max_le.mp h).1).append (elemsTail_skips es (Nat.max_le.mp h).2)
theorem elemsTail_skips : ∀ (es : List Elem) {n : Nat}, elemsDepth es ≤ n → Skips n (elemsTail es)
  | [], _, _ => .nil
  | e :: es, _, h => .byte rfl ((e.skips (Nat.max_le.mp h).1).append
      (elemsTail_skips es (Nat.max_le.mp h).2))
theorem membersBytes_skips : ∀ (ms : List Member) {n : Nat}, membersDepth ms ≤ n →
    Skips n (membersBytes ms)
  | [], _, _ => .nil
  | m :: ms, _, h => (m.skips (Nat.max_le.mp h).1).append (membersTail_skips ms (Nat.max_le.mp h).2)
theorem membersTail_skips : ∀ (ms : List Member) {n : Nat}, membersDepth ms ≤ n →
    Skips n (membersTail ms)
  | [], _, _ => .nil
  | m :: ms, _, h => .byte rfl ((m.skips (Nat.max_le.mp h).1).append
      (membersTail_skips ms (Nat.max_le.mp h).2))
end

end Json
