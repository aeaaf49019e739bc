import Mathlib.Data.Nat.Bitwise
import Mathlib.Data.List.Basic
import Mathlib.Tactic.Ring

/-!
# CBOR

Data items of integers, byte strings, arrays and null.  The head of an item holds its kind and an
argument, which may be written in five widths; `head` takes the least that fits.

* `decode_encode`    decoding gives the item back, and what follows it;
* `decode_shortest`  no text that decodes to an item is shorter than its encoding.
-/

open List UInt8 Nat

namespace Cbor

abbrev Bytes := List UInt8

/-! ## numbers of a fixed width -/

/-- big-endian digits -/
def be : Nat → Nat → Bytes
  | 0, _ => []
  | w + 1, n => UInt8.ofNat (n / 256 ^ w) :: be w n

def ofBe (bs : Bytes) : Nat := bs.foldl (fun n b => n * 256 + b.toNat) 0

theorem be_length (w n : Nat) : (be w n).length = w := by
  induction w with
  | zero => rfl
  | succ w ih => rw [be, length_cons, ih]

theorem foldl_be (w n a : Nat) :
    (be w n).foldl (fun n b => n * 256 + b.toNat) a = a * 256 ^ w + n % 256 ^ w := by
  induction w generalizing a with
  | zero => rw [be, foldl_nil, pow_zero, Nat.mul_one, Nat.mod_one, Nat.add_zero]
  | succ w ih =>
    have hdigit : (ofNat (n / 256 ^ w)).toNat = n / 256 ^ w % 256 := toNat_ofNat'
    have hsplit : n % 256 ^ (w + 1) = 256 ^ w * (n / 256 ^ w % 256) + n % 256 ^ w := by
      rw [pow_succ, mod_mul, add_comm]
    rw [be, foldl_cons, ih, hdigit, hsplit]
    ring

variable {n major : Nat} {bs rest : Bytes} {x : Item}

theorem ofBe_be {w : Nat} (h : n < 256 ^ w) : ofBe (be w n) = n := by
  rw [ofBe, foldl_be, Nat.zero_mul, Nat.zero_add, Nat.mod_eq_of_lt h]

theorem foldl_lt (bs : Bytes) (a : Nat) :
    bs.foldl (fun n b => n * 256 + b.toNat) a < (a + 1) * 256 ^ bs.length := by
  induction bs generalizing a with
  | nil => rw [foldl_nil, length_nil, pow_zero, Nat.mul_one]; exact Nat.lt_succ_self a
  | cons b bs ih =>
    have hb : b.toNat < 256 := b.toNat_lt
    have hstep : (a * 256 + b.toNat + 1) * 256 ^ bs.length ≤ (a + 1) * 256 * 256 ^ bs.length :=
      mul_le_mul_right _ (by omega)
    rw [length_cons, pow_succ', ← Nat.mul_assoc]
    exact lt_of_lt_of_le (ih _) hstep

theorem ofBe_lt (bs : Bytes) : ofBe bs < 256 ^ bs.length := by
  have h := foldl_lt bs 0
  rw [Nat.one_mul] at h
  exact h

/-! ## heads -/

/-- how an argument is written after the first byte -/
inductive Width where
  | one | two | four | eight
  deriving DecidableEq

def Width.size : Width → Nat
  | .one => 1
  | .two => 2
  | .four => 4
  | .eight => 8

def Width.info : Width → Nat
  | .one => 24
  | .two => 25
  | .four => 26
  | .eight => 27

/-- a head with its argument in a given width; in its first byte where there is none -/
def headWith (w : Option Width) (major n : Nat) : Bytes :=
  match w with
  | none => [UInt8.ofNat (major * 32 + n)]
  | some w => UInt8.ofNat (major * 32 + w.info) :: be w.size n

def shortest (n : Nat) : Option Width :=
  if n ≤ 23 then none
  else if n < 256 then some .one
  else if n < 256 ^ 2 then some .two
  else if n < 256 ^ 4 then some .four
  else some .eight

def head (major n : Nat) : Bytes := headWith (shortest n) major n

def widthOf (info : Nat) : Option Width :=
  if info = 24 then some .one
  else if info = 25 then some .two
  else if info = 26 then some .four
  else if info = 27 then some .eight
  else none

/-- a head of any width: its kind, its argument and what follows -/
def decodeHead : Bytes → Option (Nat × Nat × Bytes)
  | [] => none
  | b :: rest =>
    if b.toNat % 32 ≤ 23 then some (b.toNat / 32, b.toNat % 32, rest)
    else
      match widthOf (b.toNat % 32) with
      | none => none
      | some w =>
        if w.size ≤ rest.length then some (b.toNat / 32, ofBe (rest.take w.size), rest.drop w.size)
        else none

theorem widthOf_info (w : Width) : widthOf w.info = some w := by
  cases w <;> rfl

theorem first_byte {k : Nat} (hm : major < 8) (hk : k < 32) :
    (ofNat (major * 32 + k)).toNat = major * 32 + k := by
  rw [toNat_ofNat', mod_eq_of_lt (show major * 32 + k < 2 ^ 8 by omega)]

theorem info_range (w : Width) : 23 < w.info ∧ w.info < 32 := by
  cases w <;> decide

theorem decodeHead_direct (hm : major < 8) (hn : n ≤ 23) (rest : Bytes) :
    decodeHead (headWith none major n ++ rest) = some (major, n, rest) := by
  have hb := first_byte hm (show n < 32 by omega)
  change decodeHead (ofNat (major * 32 + n) :: rest) = _
  rw [decodeHead, hb, show (major * 32 + n) % 32 = n by omega, show (major * 32 + n) / 32 = major by omega,
    if_pos hn]

theorem decodeHead_wide {w : Width} (hm : major < 8) (hn : n < 256 ^ w.size) (rest : Bytes) :
    decodeHead (headWith (some w) major n ++ rest) = some (major, n, rest) := by
  obtain ⟨h1, h2⟩ := info_range w
  have hb := first_byte hm h2
  have hlen : (be w.size n).length = w.size := be_length _ _
  change decodeHead (ofNat (major * 32 + w.info) :: (be w.size n ++ rest)) = _
  rw [decodeHead, hb, show (major * 32 + w.info) % 32 = w.info by omega,
    show (major * 32 + w.info) / 32 = major by omega, if_neg (by omega), widthOf_info]
  dsimp only
  rw [if_pos (by rw [length_append, hlen]; omega), take_left' hlen, drop_left' hlen, ofBe_be hn]

theorem decodeHead_head (hm : major < 8) (hn : n < 2 ^ 64) (rest : Bytes) :
    decodeHead (head major n ++ rest) = some (major, n, rest) := by
  unfold head shortest
  split
  · rename_i h
    exact decodeHead_direct hm h rest
  split
  · rename_i h
    exact decodeHead_wide hm (show n < 256 ^ 1 from h) rest
  split
  · rename_i h
    exact decodeHead_wide hm h rest
  split
  · rename_i h
    exact decodeHead_wide hm h rest
  · exact decodeHead_wide hm (show n < 256 ^ 8 from hn) rest

theorem head_length (major n : Nat) : (head major n).length =
    1 + (shortest n).elim 0 Width.size := by
  unfold head
  cases shortest n with
  | none => rfl
  | some w =>
    change (be w.size n).length + 1 = _
    rw [be_length, add_comm]
    rfl

theorem head_length_le {major n : Nat} {w : Width} (h : n < 256 ^ w.size) :
    (head major n).length ≤ 1 + w.size := by
  rw [head_length]
  unfold shortest
  cases w with
  | one =>
    change n < 256 at h
    split_ifs <;> first | exact le_add_right 1 _ | exact le_refl _
  | two =>
    change n < 256 ^ 2 at h
    split_ifs <;> simp only [Option.elim, Width.size] <;> omega
  | four =>
    change n < 256 ^ 4 at h
    split_ifs <;> simp only [Option.elim, Width.size] <;> omega
  | eight => split_ifs <;> simp only [Option.elim, Width.size] <;> omega

/-- no head that is read as this one is shorter -/
theorem decodeHead_shortest (h : decodeHead bs = some (major, n, rest)) :
    (head major n).length + rest.length ≤ bs.length := by
  cases bs with
  | nil => cases h
  | cons b bs =>
    rw [decodeHead] at h
    split at h
    · rename_i hdirect
      obtain ⟨rfl, rfl, rfl⟩ : b.toNat / 32 = major ∧ b.toNat % 32 = n ∧ bs = rest := by
        simpa using h
      rw [head_length, shortest, if_pos hdirect]
      exact (add_comm _ _).le
    split at h
    · cases h
    · rename_i w _
      split at h
      · rename_i hsize
        obtain ⟨rfl, rfl, rfl⟩ : b.toNat / 32 = major ∧ ofBe (bs.take w.size) = n ∧ bs.drop w.size = rest := by
          simpa using h
        have hlt := ofBe_lt (bs.take w.size)
        rw [length_take_of_le hsize] at hlt
        have := @head_length_le (b.toNat / 32) _ _ hlt
        rw [length_drop, length_cons]
        omega
      · cases h

/-! ## items -/

inductive Item where
  | uint (n : Nat)
  | bytes (b : Bytes)
  | arr (items : List Item)
  | null

mutual
def Item.encode : Item → Bytes
  | .uint n => head 0 n
  | .bytes b => head 2 b.length ++ b
  | .arr items => head 4 items.length ++ encodeAll items
  | .null => head 7 22
def encodeAll : List Item → Bytes
  | [] => []
  | x :: xs => x.encode ++ encodeAll xs
end

mutual
/-- every number and every length has a head -/
def Item.Fits : Item → Prop
  | .uint n => n < 2 ^ 64
  | .bytes b => b.length < 2 ^ 64
  | .arr items => items.length < 2 ^ 64 ∧ FitsAll items
  | .null => True
def FitsAll : List Item → Prop
  | [] => True
  | x :: xs => x.Fits ∧ FitsAll xs
end

mutual
def Item.depth : Item → Nat
  | .arr items => depthAll items + 1
  | _ => 0
def depthAll : List Item → Nat
  | [] => 0
  | x :: xs => max x.depth (depthAll xs)
end

/-- as many items as announced -/
def many (f : Bytes → Option (Item × Bytes)) : Nat → Bytes → Option (List Item × Bytes)
  | 0, bs => some ([], bs)
  | n + 1, bs =>
    match f bs with
    | none => none
    | some (x, bs) =>
      match many f n bs with
      | none => none
      | some (xs, bs) => some (x :: xs, bs)

/-- an item and what follows it; arrays are followed to a depth -/
def decode : Nat → Bytes → Option (Item × Bytes)
  | depth, bs =>
    match decodeHead bs with
    | none => none
    | some (major, n, rest) =>
      if major = 0 then some (.uint n, rest)
      else if major = 2 then
        if n ≤ rest.length then some (.bytes (rest.take n), rest.drop n) else none
      else if major = 4 then
        match depth with
        | 0 => none
        | depth + 1 =>
          match many (decode depth) n rest with
          | none => none
          | some (xs, rest) => some (.arr xs, rest)
      else if major = 7 ∧ n = 22 then some (.null, rest)
      else none

mutual
/-- **an item is read back, and what follows it** -/
theorem decode_encode : ∀ (x : Item) {depth : Nat}, x.Fits → x.depth ≤ depth → ∀ rest,
    decode depth (x.encode ++ rest) = some (x, rest)
  | .uint n, depth, hx, _, rest => by
    rw [Item.Fits] at hx
    rw [decode, Item.encode, decodeHead_head (by decide) hx]
    rfl
  | .bytes b, depth, hx, _, rest => by
    rw [Item.Fits] at hx
    rw [decode, Item.encode, append_assoc, decodeHead_head (by decide) hx]
    dsimp only
    rw [if_neg (by decide), if_pos rfl, if_pos (by rw [length_append]; omega), take_left, drop_left]
  | .arr xs, 0, _, hd, _ => by
    rw [Item.depth] at hd
    exact absurd hd (not_succ_le_zero _)
  | .arr xs, depth + 1, hx, hd, rest => by
    rw [Item.Fits] at hx
    rw [Item.depth] at hd
    rw [decode, Item.encode, append_assoc, decodeHead_head (by decide) hx.1]
    dsimp only
    rw [if_neg (by decide), if_neg (by decide), if_pos rfl,
      decodeAll_encode xs hx.2 (le_of_succ_le_succ hd)]
  | .null, depth, _, _, rest => by
    rw [decode, Item.encode, decodeHead_head (by decide) (by decide)]
    rfl
theorem decodeAll_encode : ∀ (xs : List Item) {depth : Nat}, FitsAll xs → depthAll xs ≤ depth → ∀ rest,
    many (decode depth) xs.length (encodeAll xs ++ rest) = some (xs, rest)
  | [], _, _, _, _ => rfl
  | x :: xs, depth, hx, hd, rest => by
    rw [FitsAll] at hx
    rw [depthAll] at hd
    rw [length_cons, many, encodeAll, append_assoc,
      decode_encode x hx.1 (le_trans (le_max_left _ _) hd)]
    dsimp only
    rw [decodeAll_encode xs hx.2 (le_trans (le_max_right _ _) hd)]
end

theorem encode_inj {x y : Item} (hx : x.Fits) (hy : y.Fits) {rest rest' : Bytes}
    (h : x.encode ++ rest = y.encode ++ rest') : x = y ∧ rest = rest' := by
  have h1 := decode_encode x hx (le_max_left x.depth y.depth) rest
  have h2 := decode_encode y hy (le_max_right x.depth y.depth) rest'
  rw [h, h2] at h1
  obtain ⟨hxy, hr⟩ := Prod.mk.inj (Option.some.inj h1)
  exact ⟨hxy.symm, hr.symm⟩

theorem many_shortest {f : Bytes → Option (Item × Bytes)}
    (hf : ∀ {bs x rest}, f bs = some (x, rest) → x.encode.length + rest.length ≤ bs.length)
    {xs : List Item} (h : many f n bs = some (xs, rest)) :
    xs.length = n ∧ (encodeAll xs).length + rest.length ≤ bs.length := by
  induction n generalizing bs xs with
  | zero =>
    cases h
    exact ⟨rfl, by rw [encodeAll, length_nil, zero_add]⟩
  | succ n ih =>
    rw [many] at h
    split at h
    · cases h
    rename_i x mid hx
    split at h
    · cases h
    rename_i ys r hys
    cases h
    obtain ⟨hlen, hle⟩ := ih hys
    have := hf hx
    refine ⟨by rw [length_cons, hlen], ?_⟩
    rw [encodeAll, length_append]
    omega

theorem decode_shortest_step {depth : Nat}
    (hrec : ∀ d, depth = d + 1 → ∀ {bs x rest}, decode d bs = some (x, rest) →
      x.encode.length + rest.length ≤ bs.length) (h : decode depth bs = some (x, rest)) :
    x.encode.length + rest.length ≤ bs.length := by
  rw [decode.eq_def] at h
  dsimp only at h
  split at h
  · cases h
  rename_i major n after hhead
  have hle := decodeHead_shortest hhead
  split at h
  · rename_i hm
    subst hm
    cases h
    exact hle
  split at h
  · rename_i hm
    subst hm
    split at h
    · rename_i hn
      cases h
      rw [Item.encode, length_append, length_take_of_le hn, length_drop]
      omega
    · cases h
  split at h
  · rename_i hm
    subst hm
    split at h
    · cases h
    rename_i d
    split at h
    · cases h
    rename_i xs r hxs
    cases h
    obtain ⟨hlen, hitems⟩ := many_shortest (hrec d rfl) hxs
    rw [Item.encode, length_append, hlen]
    omega
  split at h
  · rename_i hm
    obtain ⟨rfl, rfl⟩ := hm
    cases h
    exact hle
  · cases h

/-- **no text of an item is shorter than its encoding** -/
theorem decode_shortest {depth : Nat} (h : decode depth bs = some (x, rest)) :
    x.encode.length + rest.length ≤ bs.length := by
  induction depth generalizing bs x rest with
  | zero => exact decode_shortest_step (fun d hd => by cases hd) h
  | succ depth ih => exact decode_shortest_step (fun d hd => by cases hd; exact ih) h

end Cbor
