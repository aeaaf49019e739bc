import InferenceGateway.Lib.Cbor

/-!
# Block hashes

The tokens of a prompt are cut into blocks; the digest of a block is taken over the digest of the
block before it and its own tokens, in CBOR or as raw bytes.  The hash functions themselves are
parameters.

* `encodeBlockInput_eq`   the encoder writes the canonical CBOR of `[parent, tokens, null]`, or nothing;
* `blockLoop_eq`          the loop writes one slot for each block and nothing outside the buffer;
* `chain_names_prefix`    equal digests at a place are equal tokens up to it.
-/

open List hiding head
open Option

namespace Kv

open Cbor

/-! ## the encoder -/

/-- `cbor_encode_uint`: the head of an item, where there is room -/
def cborEncodeUint (room : Nat) (major : UInt8) (val : Nat) : Option Bytes :=
  let mt := major <<< 5
  if val ≤ 23 then
    if room < 1 then none else some [mt ||| UInt8.ofNat val]
  else if val ≤ 0xFF then
    if room < 2 then none else some [mt ||| 24, UInt8.ofNat val]
  else if val ≤ 0xFFFF then
    if room < 3 then none else some [mt ||| 25, UInt8.ofNat (val >>> 8), UInt8.ofNat val]
  else if val ≤ 0xFFFFFFFF then
    if room < 5 then none
    else some [mt ||| 26, UInt8.ofNat (val >>> 24), UInt8.ofNat (val >>> 16), UInt8.ofNat (val >>> 8),
      UInt8.ofNat val]
  else
    if room < 9 then none
    else some [mt ||| 27, UInt8.ofNat (val >>> 56), UInt8.ofNat (val >>> 48), UInt8.ofNat (val >>> 40),
      UInt8.ofNat (val >>> 32), UInt8.ofNat (val >>> 24), UInt8.ofNat (val >>> 16),
      UInt8.ofNat (val >>> 8), UInt8.ofNat val]

def put (cap : Nat) (major : UInt8) (val : Nat) (out : Bytes) : Option Bytes :=
  (cborEncodeUint (cap - out.length) major val).map (out ++ ·)

/-- `kv_cbor_encode_block_input` into a buffer of `cap` bytes -/
def kvCborEncodeBlockInput (parent : Bytes) (tokens : List UInt32) (cap : Nat) : Option Bytes := do
  let out ← put cap 4 3 []
  let out ← put cap 2 parent.length out
  if out.length + parent.length > cap then none
  else
    let out ← put cap 4 tokens.length (out ++ parent)
    let out ← tokens.foldlM (fun out t => put cap 0 t.toNat out) out
    if out.length + 1 > cap then none else some (out ++ [0xF6])

def kvCborBufSize : Nat := 32 + 16 + 4096 * 5 + 16

/-! ## the hashes -/

/-- the hash functions: SHA-256, and XXH3 of 128 bits in its canonical form -/
structure Hashes where
  (sha256 xxh128 : Bytes → Bytes)
  sha256_length : ∀ b, (sha256 b).length = 32
  xxh128_length : ∀ b, (xxh128 b).length = 16

inductive HashAlgo where
  | sha256Cbor | xxhashCbor | sha256Sglang
  deriving DecidableEq

def HashAlgo.ofCode : Nat → Option HashAlgo
  | 0 => some .sha256Cbor
  | 1 => some .xxhashCbor
  | 2 => some .sha256Sglang
  | _ => none

def HashAlgo.digestLen : HashAlgo → Nat
  | .xxhashCbor => 16
  | _ => 32

/-- `kv_compute_none_hash`: the parent of the first block, from the seed of the environment -/
def kvComputeNoneHash (h : Hashes) (seed : Option Bytes) (algo : HashAlgo) : Bytes :=
  let digestLen := if algo = .sha256Cbor then 32 else 16
  match seed with
  | none => replicate digestLen 0
  | some s =>
    if s.isEmpty || decide (s.length > 23) then replicate digestLen 0
    else
      let cbor := (0x60 ||| UInt8.ofNat s.length) :: s
      match algo with
      | .sha256Cbor => h.sha256 cbor
      | .xxhashCbor => h.xxh128 cbor
      | .sha256Sglang => replicate digestLen 0

def le4 (t : UInt32) : Bytes :=
  [(t &&& 0xFF).toUInt8, (t >>> 8 &&& 0xFF).toUInt8, (t >>> 16 &&& 0xFF).toUInt8, (t >>> 24 &&& 0xFF).toUInt8]

def kvHashSglangBlock (h : Hashes) (parent : Option Bytes) (tokens : List UInt32) : Bytes :=
  h.sha256 (parent.getD [] ++ tokens.flatMap le4)

/-- the full digest of a block; none where its CBOR does not fit -/
def blockDigest (h : Hashes) (algo : HashAlgo) (parent : Option Bytes) (tokens : List UInt32) :
    Option Bytes :=
  match algo with
  | .sha256Cbor => (kvCborEncodeBlockInput (parent.getD []) tokens kvCborBufSize).map h.sha256
  | .xxhashCbor => (kvCborEncodeBlockInput (parent.getD []) tokens kvCborBufSize).map h.xxh128
  | .sha256Sglang => some (kvHashSglangBlock h parent tokens)

def firstParent (h : Hashes) (seed : Option Bytes) (algo : HashAlgo) : Option Bytes :=
  match algo with
  | .sha256Sglang => none
  | _ => some (kvComputeNoneHash h seed algo)

/-- the eight bytes that are published: the last of the digest, the first with SGLang -/
def published (algo : HashAlgo) (digest : Bytes) : Bytes :=
  match algo with
  | .sha256Sglang => digest.take 8
  | _ => (digest.drop (algo.digestLen - 8)).take 8

/-- bytes written into a buffer; none outside of it -/
def writeAt (buf : Bytes) (off : Nat) (bs : Bytes) : Option Bytes :=
  if off + bs.length ≤ buf.length then some (buf.take off ++ bs ++ buf.drop (off + bs.length)) else none

/-- a slot: the published bytes and zeros -/
def writeSlot (algo : HashAlgo) (stride n : Nat) (digest out : Bytes) : Option Bytes :=
  (writeAt out (n * stride) (published algo digest)).bind fun out =>
    if stride > 8 then writeAt out (n * stride + 8) (replicate (stride - 8) 0) else some out

/-- the loop over the blocks, from the tokens that are left; none where it writes outside the buffer -/
def blockLoop (h : Hashes) (algo : HashAlgo) (blockSize stride maxBlocks : Nat) :
    Nat → List UInt32 → Nat → Option Bytes → Bytes → Option (Int × Bytes)
  | 0, _, n, _, out => some (n, out)
  | fuel + 1, tokens, n, parent, out =>
    if tokens = [] ∨ ¬ n < maxBlocks then some (n, out)
    else
      match blockDigest h algo parent (tokens.take blockSize) with
      | none => some (-1, out)
      | some digest =>
        match writeSlot algo stride n digest out with
        | none => none
        | some out =>
          blockLoop h algo blockSize stride maxBlocks fuel (tokens.drop blockSize) (n + 1) (some digest) out

def kvMaxTokens : Nat := 4096

/-- `kv_compute_block_hashes` into the buffer `out` -/
def kvComputeBlockHashes (h : Hashes) (seed : Option Bytes) (hashAlgo : Nat) (tokens : List UInt32)
    (blockSize : Nat) (out : Bytes) (stride maxBlocks : Nat) : Option (Int × Bytes) :=
  if tokens = [] ∨ blockSize = 0 ∨ blockSize > kvMaxTokens then some (-1, out)
  else
    match HashAlgo.ofCode hashAlgo with
    | none => some (-1, out)
    | some algo =>
      blockLoop h algo blockSize stride maxBlocks tokens.length tokens 0 (firstParent h seed algo) out

/-! ## what the encoder writes -/

/-- a text that fits -/
def limit (cap : Nat) (b : Bytes) : Option Bytes := if b.length ≤ cap then some b else none

variable {cap major blockSize stride : Nat} {b out parent bs digest : Bytes}
  {tokens ts us : List UInt32} {h : Hashes} {seed : Option Bytes} {algo : HashAlgo}

theorem limit_some {r : Bytes} (h : limit cap b = some r) : r = b ∧ b.length ≤ cap := by
  unfold limit at h
  split at h
  · exact ⟨(Option.some.inj h).symm, ‹_›⟩
  · cases h

theorem limit_bind (cap : Nat) (a e : Bytes) (f : Bytes → Option Bytes)
    (hf : ∀ out, out.length ≤ cap → f out = limit cap (out ++ e)) :
    (limit cap a).bind f = limit cap (a ++ e) := by
  by_cases h : a.length ≤ cap
  · rw [limit, if_pos h, bind_some, hf a h]
  · have h' : ¬ (a ++ e).length ≤ cap := by
      rw [length_append]
      omega
    rw [limit, if_neg h, limit, if_neg h', bind_none]

theorem first_or : ∀ m : Fin 8, ∀ k : Fin 32,
    UInt8.ofNat m <<< 5 ||| UInt8.ofNat k = UInt8.ofNat (m * 32 + k) := by
  decide +kernel

theorem byte_or (hm : major < 8) {k : Nat} (hk : k < 32) :
    UInt8.ofNat major <<< 5 ||| UInt8.ofNat k = UInt8.ofNat (major * 32 + k) :=
  first_or ⟨major, hm⟩ ⟨k, hk⟩

theorem cborEncodeUint_eq (room : Nat) {val : Nat} (hm : major < 8) :
    cborEncodeUint room (UInt8.ofNat major) val =
      if room < (head major val).length then none else some (head major val) := by
  have hwide : ∀ {w : Width}, shortest val = some w →
      head major val = (UInt8.ofNat major <<< 5 ||| UInt8.ofNat w.info) :: be w.size val := fun {w} hw => by
    rw [byte_or hm (info_range w).2, head, hw]
    rfl
  have hshift : ∀ k, UInt8.ofNat (val >>> k) = UInt8.ofNat (val / 2 ^ k) := fun k => by
    rw [Nat.shiftRight_eq_div_pow]
  have hlast : UInt8.ofNat val = UInt8.ofNat (val / 2 ^ 0) := by rw [pow_zero, Nat.div_one]
  unfold cborEncodeUint
  by_cases h1 : val ≤ 23
  · have hhead : head major val = [UInt8.ofNat major <<< 5 ||| UInt8.ofNat val] := by
      rw [byte_or hm (show val < 32 by omega), head, shortest, if_pos h1]
      rfl
    rw [if_pos h1, hhead]
    rfl
  rw [if_neg h1]
  by_cases h2 : val ≤ 0xFF
  · rw [if_pos h2, hlast, hwide (by rw [shortest, if_neg h1, if_pos (show val < 256 by omega)])]
    rfl
  rw [if_neg h2]
  by_cases h3 : val ≤ 0xFFFF
  · rw [if_pos h3, hlast, hshift, hwide (by
      rw [shortest, if_neg h1, if_neg (by omega), if_pos (show val < 256 ^ 2 by omega)])]
    rfl
  rw [if_neg h3]
  by_cases h4 : val ≤ 0xFFFFFFFF
  · rw [if_pos h4, hlast, hshift, hshift, hshift, hwide (by
      rw [shortest, if_neg h1, if_neg (by omega), if_neg (by omega), if_pos (show val < 256 ^ 4 by omega)])]
    rfl
  · rw [if_neg h4, hlast, hshift, hshift, hshift, hshift, hshift, hshift, hshift, hwide (by
      rw [shortest, if_neg h1, if_neg (by omega), if_neg (by omega), if_neg (by omega)])]
    rfl

theorem put_eq {cap : Nat} {major val : Nat} (hm : major < 8) {out : Bytes} (hout : out.length ≤ cap) :
    put cap (UInt8.ofNat major) val out = limit cap (out ++ head major val) := by
  rw [put, cborEncodeUint_eq _ hm, limit, length_append]
  by_cases h : out.length + (head major val).length ≤ cap
  · rw [if_neg (by omega), if_pos h]
    rfl
  · rw [if_pos (by omega), if_neg h]
    rfl

def blockItem (parent : Bytes) (tokens : List UInt32) : Item :=
  .arr [.bytes parent, .arr (tokens.map fun t => .uint t.toNat), .null]

theorem foldl_put (tokens : List UInt32) (hout : out.length ≤ cap) :
    tokens.foldlM (fun out t => put cap 0 t.toNat out) out =
      limit cap (out ++ encodeAll (tokens.map fun t => .uint t.toNat)) := by
  induction tokens generalizing out with
  | nil =>
    rw [map_nil, encodeAll, append_nil, limit, if_pos hout]
    rfl
  | cons t tokens ih =>
    have hput : put cap 0 t.toNat out = limit cap (out ++ head 0 t.toNat) :=
      @put_eq cap 0 t.toNat (by decide) out hout
    rw [foldlM_cons, hput, map_cons, encodeAll, ← append_assoc]
    exact limit_bind cap _ _ _ fun out' hout' => ih hout'

theorem encodeBlockInput_eq (parent : Bytes) (tokens : List UInt32) (cap : Nat) :
    kvCborEncodeBlockInput parent tokens cap = limit cap (blockItem parent tokens).encode := by
  have hencode : (blockItem parent tokens).encode =
      ([] ++ head 4 3) ++ (head 2 parent.length ++ (parent ++ (head 4 tokens.length ++
        (encodeAll (tokens.map fun t => .uint t.toNat) ++ [0xF6])))) := by
    simp only [blockItem, Item.encode, encodeAll, length_map, length_cons, length_nil,
      append_assoc, nil_append, append_nil]
    rfl
  have hfirst : put cap 4 3 [] = limit cap ([] ++ head 4 3) :=
    @put_eq cap 4 3 (by decide) [] (Nat.zero_le _)
  rw [hencode, kvCborEncodeBlockInput, hfirst]
  refine limit_bind cap _ _ _ fun out hout => ?_
  -- the steps after the first, each from what fits so far
  have hlen : put cap 2 parent.length out = limit cap (out ++ head 2 parent.length) :=
    @put_eq cap 2 _ (by decide) out hout
  rw [hlen, ← append_assoc]
  refine limit_bind cap _ _ _ fun out hout => ?_
  by_cases hparent : out.length + parent.length > cap
  · rw [if_pos hparent, limit, if_neg (by simp only [length_append]; omega)]
  rw [if_neg hparent, ← append_assoc]
  have hout' : (out ++ parent).length ≤ cap := by
    rw [length_append]
    omega
  have hcount : put cap 4 tokens.length (out ++ parent) = limit cap ((out ++ parent) ++ head 4 tokens.length) :=
    @put_eq cap 4 _ (by decide) _ hout'
  rw [hcount, ← append_assoc (out ++ parent)]
  refine limit_bind cap _ _ _ fun out hout => ?_
  rw [foldl_put tokens hout, ← append_assoc]
  refine limit_bind cap _ _ _ fun out hout => ?_
  rw [limit, length_append, length_singleton]
  by_cases h : out.length + 1 > cap
  · rw [if_pos h, if_neg (by omega)]
  · rw [if_neg h, if_pos (by omega)]

theorem fits_tokens (tokens : List UInt32) : FitsAll (tokens.map fun t => .uint t.toNat) := by
  induction tokens with
  | nil => exact trivial
  | cons t tokens ih =>
    have ht : t.toNat < 2 ^ 32 := t.toNat_lt
    exact ⟨lt_trans ht (by decide), ih⟩

theorem blockItem_fits (hp : parent.length < 2 ^ 64)
    (ht : tokens.length < 2 ^ 64) : (blockItem parent tokens).Fits := by
  refine ⟨show 3 < 2 ^ 64 by decide, hp, ⟨?_, fits_tokens tokens⟩, trivial, trivial⟩
  rw [length_map]
  exact ht

theorem blockItem_inj {parent' : Bytes} {tokens' : List UInt32}
    (h : blockItem parent tokens = blockItem parent' tokens') :
    parent = parent' ∧ tokens = tokens' := by
  simp only [blockItem, Item.arr.injEq, List.cons.injEq, Item.bytes.injEq] at h
  refine ⟨h.1, map_injective_iff.mpr (fun t t' ht => ?_) h.2.1⟩
  exact UInt32.toNat_inj.mp (Item.uint.inj ht)

theorem encodeAll_length_le (tokens : List UInt32) :
    tokens.length ≤ (encodeAll (tokens.map fun t => .uint t.toNat)).length ∧
      (encodeAll (tokens.map fun t => .uint t.toNat)).length ≤ 5 * tokens.length := by
  induction tokens with
  | nil => exact ⟨le_refl _, le_refl _⟩
  | cons t tokens ih =>
    have hpos : 1 ≤ (head 0 t.toNat).length := by
      rw [head_length]
      exact Nat.le_add_right 1 _
    have hle : (head 0 t.toNat).length ≤ 5 := @head_length_le 0 t.toNat .four t.toNat_lt
    rw [map_cons, encodeAll, Item.encode, length_append, length_cons]
    omega

theorem blockItem_length (parent : Bytes) (tokens : List UInt32) :
    (blockItem parent tokens).encode.length = 1 + (head 2 parent.length).length + parent.length +
      (head 4 tokens.length).length + (encodeAll (tokens.map fun t => .uint t.toNat)).length + 1 := by
  have h4 : (head 4 3).length = 1 := rfl
  have h7 : (head 7 22).length = 1 := rfl
  simp only [blockItem, Item.encode, encodeAll, length_append, length_map, length_cons,
    length_nil, h4, h7]
  omega

theorem encodeBlockInput_fits (hp : parent.length ≤ 32) (ht : tokens.length ≤ kvMaxTokens) :
    kvCborEncodeBlockInput parent tokens kvCborBufSize = some (blockItem parent tokens).encode := by
  have h2 : (head 2 parent.length).length ≤ 2 :=
    @head_length_le 2 parent.length .one (show parent.length < 256 ^ 1 by omega)
  unfold kvMaxTokens at ht
  have h4 : (head 4 tokens.length).length ≤ 3 :=
    @head_length_le 4 tokens.length .two (show tokens.length < 256 ^ 2 by omega)
  have htok := (encodeAll_length_le tokens).2
  rw [encodeBlockInput_eq, limit, if_pos]
  rw [blockItem_length]
  unfold kvCborBufSize
  omega

theorem encodeBlockInput_some (hcap : cap < 2 ^ 64)
    (h : kvCborEncodeBlockInput parent tokens cap = some bs) :
    bs = (blockItem parent tokens).encode ∧ (blockItem parent tokens).Fits := by
  rw [encodeBlockInput_eq] at h
  obtain ⟨hbs, hlen⟩ := limit_some h
  rw [blockItem_length] at hlen
  have htok := (encodeAll_length_le tokens).1
  exact ⟨hbs, blockItem_fits (by omega) (by omega)⟩

/-! ## the chain of digests -/

def blockInput (algo : HashAlgo) (parent : Option Bytes) (tokens : List UInt32) : Bytes :=
  match algo with
  | .sha256Sglang => parent.getD [] ++ tokens.flatMap le4
  | _ => (blockItem (parent.getD []) tokens).encode

def Hashes.fn (h : Hashes) : HashAlgo → Bytes → Bytes
  | .xxhashCbor => h.xxh128
  | _ => h.sha256

theorem Hashes.fn_length (h : Hashes) (algo : HashAlgo) (b : Bytes) : (h.fn algo b).length = algo.digestLen := by
  cases algo with
  | xxhashCbor => exact h.xxh128_length b
  | sha256Cbor | sha256Sglang => exact h.sha256_length b

/-- a parent as the loop has it: a digest, or with SGLang none -/
def IsParent (algo : HashAlgo) (parent : Option Bytes) : Prop :=
  ∀ p ∈ parent, p.length = algo.digestLen

theorem noneHash_length (h : Hashes) (seed : Option Bytes) (ha : algo ≠ .sha256Sglang) :
    (kvComputeNoneHash h seed algo).length = algo.digestLen := by
  unfold kvComputeNoneHash
  cases algo with
  | sha256Sglang => exact absurd rfl ha
  | sha256Cbor | xxhashCbor =>
    cases seed with
    | none => rfl
    | some s =>
      dsimp only
      split
      · rfl
      · first | exact h.sha256_length _ | exact h.xxh128_length _

theorem firstParent_isParent (h : Hashes) (seed : Option Bytes) (algo : HashAlgo) :
    IsParent algo (firstParent h seed algo) := by
  intro p hp
  cases algo with
  | sha256Sglang => cases hp
  | sha256Cbor | xxhashCbor =>
    exact mem_some_iff.mp hp ▸ noneHash_length h seed nofun

theorem IsParent.getD_length {parent : Option Bytes} (hp : IsParent algo parent) :
    (parent.getD []).length ≤ 32 := by
  cases parent with
  | none => exact Nat.zero_le _
  | some p =>
    have := hp p rfl
    rw [getD_some, this]
    cases algo <;> decide

theorem blockDigest_eq (h : Hashes) {parent : Option Bytes} (hp : IsParent algo parent)
    (ht : tokens.length ≤ kvMaxTokens) :
    blockDigest h algo parent tokens = some (h.fn algo (blockInput algo parent tokens)) := by
  have hfit := encodeBlockInput_fits hp.getD_length ht
  cases algo with
  | sha256Sglang => rfl
  | sha256Cbor | xxhashCbor => rw [blockDigest, hfit]; rfl

theorem byte_toNat (t : UInt32) (k : UInt32) :
    ((t >>> k &&& 0xFF).toUInt8).toNat = t.toNat / 2 ^ (k.toNat % 32) % 256 := by
  have hand : (t >>> k &&& 0xFF).toNat = (t >>> k).toNat % 2 ^ 8 := by
    exact Nat.and_two_pow_sub_one_eq_mod _ 8
  rw [UInt32.toNat_toUInt8, hand, UInt32.toNat_shiftRight, Nat.shiftRight_eq_div_pow]
  exact Nat.mod_mod _ _

theorem le4_inj {t u : UInt32} (h : le4 t = le4 u) : t = u := by
  have bytes : ∀ k, (t >>> k &&& 0xFF).toUInt8 = (u >>> k &&& 0xFF).toUInt8 →
      t.toNat / 2 ^ (k.toNat % 32) % 256 = u.toNat / 2 ^ (k.toNat % 32) % 256 := fun k hk => by
    rw [← byte_toNat, ← byte_toNat, hk]
  simp only [le4, List.cons.injEq, and_true] at h
  obtain ⟨h0, h1, h2, h3⟩ := h
  have e0 : t.toNat / 2 ^ 0 % 256 = u.toNat / 2 ^ 0 % 256 := bytes 0 h0
  have e1 : t.toNat / 2 ^ 8 % 256 = u.toNat / 2 ^ 8 % 256 := bytes 8 h1
  have e2 : t.toNat / 2 ^ 16 % 256 = u.toNat / 2 ^ 16 % 256 := bytes 16 h2
  have e3 : t.toNat / 2 ^ 24 % 256 = u.toNat / 2 ^ 24 % 256 := bytes 24 h3
  have ht : t.toNat < 2 ^ 32 := t.toNat_lt
  have hu : u.toNat < 2 ^ 32 := u.toNat_lt
  exact UInt32.toNat_inj.mp (by omega)

theorem flatMap_le4_inj (h : ts.flatMap le4 = us.flatMap le4) : ts = us := by
  induction ts generalizing us with
  | nil =>
    cases us with
    | nil => rfl
    | cons u us => cases h
  | cons t ts ih =>
    cases us with
    | nil => cases h
    | cons u us =>
      obtain ⟨hhead, htail⟩ := append_inj h rfl
      rw [le4_inj hhead, ih htail]

theorem blockInput_inj {p q : Option Bytes} (hp : IsParent algo p) (hq : IsParent algo q)
    (hpq : p.isSome = q.isSome) (ht : ts.length ≤ kvMaxTokens) (hu : us.length ≤ kvMaxTokens)
    (h : blockInput algo p ts = blockInput algo q us) : p = q ∧ ts = us := by
  obtain ⟨hlen, hparent⟩ : (p.getD []).length = (q.getD []).length ∧ (p.getD [] = q.getD [] → p = q) := by
    cases p with
    | none =>
      cases q with
      | none => exact ⟨rfl, fun _ => rfl⟩
      | some q => cases hpq
    | some p =>
      cases q with
      | none => cases hpq
      | some q => exact ⟨(hp p rfl).trans (hq q rfl).symm, congrArg some⟩
  have hcbor : (blockItem (p.getD []) ts).encode = (blockItem (q.getD []) us).encode → p = q ∧ ts = us := by
    intro he
    unfold kvMaxTokens at ht hu
    have h1 := hp.getD_length
    have h2 := hq.getD_length
    obtain ⟨hitem, -⟩ := @encode_inj _ _ (@blockItem_fits (p.getD []) ts (by omega) (by omega))
      (@blockItem_fits (q.getD []) us (by omega) (by omega)) [] [] (by rw [he])
    obtain ⟨h1, h2⟩ := blockItem_inj hitem
    exact ⟨hparent h1, h2⟩
  cases algo with
  | sha256Cbor | xxhashCbor => exact hcbor h
  | sha256Sglang =>
    obtain ⟨h1, h2⟩ := append_inj h hlen
    exact ⟨hparent h1, flatMap_le4_inj h2⟩

def block (blockSize : Nat) (tokens : List UInt32) (i : Nat) : List UInt32 :=
  (tokens.drop (i * blockSize)).take blockSize

def blocks (blockSize : Nat) (tokens : List UInt32) : Nat := (tokens.length + blockSize - 1) / blockSize

section chain
variable (h : Hashes) (seed : Option Bytes) (algo : HashAlgo) (blockSize : Nat)
  (tokens : List UInt32)

/-- the parent of a block: the digest of the one before it -/
def parentAt : Nat → Option Bytes
  | 0 => firstParent h seed algo
  | i + 1 => blockDigest h algo (parentAt i) (block blockSize tokens i)

def chainDigest (i : Nat) : Option Bytes := parentAt h seed algo blockSize tokens (i + 1)

def chainInput (i : Nat) : Bytes :=
  blockInput algo (parentAt h seed algo blockSize tokens i) (block blockSize tokens i)

def chainInputs : Set Bytes :=
  { b | ∃ i < blocks blockSize tokens, b = chainInput h seed algo blockSize tokens i }

variable {h seed algo blockSize}

theorem block_take (i : Nat) :
    block blockSize tokens i = (tokens.take ((i + 1) * blockSize)).drop (i * blockSize) := by
  rw [block, drop_take, Nat.add_mul, Nat.one_mul, Nat.add_sub_cancel_left]

theorem take_succ_block (i : Nat) :
    tokens.take ((i + 1) * blockSize) = tokens.take (i * blockSize) ++ block blockSize tokens i := by
  rw [block, add_mul, one_mul, take_add]

theorem parentAt_congr {i : Nat} (ht : ts.take (i * blockSize) = us.take (i * blockSize)) :
    parentAt h seed algo blockSize ts i = parentAt h seed algo blockSize us i := by
  induction i with
  | zero => rfl
  | succ i ih =>
    have hbefore : ts.take (i * blockSize) = us.take (i * blockSize) := by
      have hle : i * blockSize ≤ (i + 1) * blockSize := Nat.mul_le_mul_right _ (Nat.le_succ i)
      have := congrArg (take (i * blockSize)) ht
      rwa [take_take, take_take, min_eq_left hle] at this
    rw [parentAt, parentAt, ih hbefore, block_take, block_take, ht]

variable (hmax : blockSize ≤ kvMaxTokens)
include hmax

theorem block_length (i : Nat) : (block blockSize tokens i).length ≤ kvMaxTokens :=
  le_trans (length_take_le _ _) hmax

theorem parentAt_isParent (i : Nat) : IsParent algo (parentAt h seed algo blockSize tokens i) := by
  induction i with
  | zero => exact firstParent_isParent h seed algo
  | succ i ih =>
    intro p hp
    rw [parentAt, blockDigest_eq h ih (block_length tokens hmax i)] at hp
    exact mem_some_iff.mp hp ▸ h.fn_length algo _

theorem chainDigest_eq (i : Nat) : chainDigest h seed algo blockSize tokens i =
      some (h.fn algo (chainInput h seed algo blockSize tokens i)) :=
  blockDigest_eq h (parentAt_isParent tokens hmax i) (block_length tokens hmax i)

theorem parentAt_isSome (ts us : List UInt32) (i : Nat) :
    (parentAt h seed algo blockSize ts i).isSome = (parentAt h seed algo blockSize us i).isSome := by
  cases i with
  | zero => rfl
  | succ i =>
    change (chainDigest h seed algo blockSize ts i).isSome = (chainDigest h seed algo blockSize us i).isSome
    rw [chainDigest_eq ts hmax, chainDigest_eq us hmax]
    rfl

theorem chain_tokens
    (hinj : (chainInputs h seed algo blockSize ts ∪ chainInputs h seed algo blockSize us).InjOn (h.fn algo))
    {i : Nat} (hi : i ≤ blocks blockSize ts) (hi' : i ≤ blocks blockSize us)
    (heq : parentAt h seed algo blockSize ts i = parentAt h seed algo blockSize us i) :
    ts.take (i * blockSize) = us.take (i * blockSize) := by
  induction i with
  | zero => rw [zero_mul, take_zero, take_zero]
  | succ i ih =>
    change chainDigest h seed algo blockSize ts i = chainDigest h seed algo blockSize us i at heq
    rw [chainDigest_eq ts hmax, chainDigest_eq us hmax] at heq
    -- no two inputs of the chains have one digest, so the inputs are equal, and with them their parts
    have hinput := hinj (.inl ⟨i, hi, rfl⟩) (.inr ⟨i, hi', rfl⟩) (Option.some.inj heq)
    obtain ⟨hparent, hblock⟩ := blockInput_inj (parentAt_isParent ts hmax i) (parentAt_isParent us hmax i)
      (parentAt_isSome hmax ts us i) (block_length ts hmax i) (block_length us hmax i) hinput
    rw [take_succ_block, take_succ_block, hblock, ih (Nat.le_of_succ_le hi) (Nat.le_of_succ_le hi') hparent]

end chain

/-! ## the slots -/

def slot (algo : HashAlgo) (stride : Nat) (digest : Bytes) : Bytes :=
  published algo digest ++ replicate (stride - 8) 0

theorem published_length (h : digest.length = algo.digestLen) :
    (published algo digest).length = 8 := by
  cases algo with
  | sha256Sglang => rw [published, length_take, h]; rfl
  | sha256Cbor | xxhashCbor =>
    unfold published
    rw [length_take, length_drop, h]
    rfl

theorem slot_length (hs : 8 ≤ stride) (h : digest.length = algo.digestLen) :
    (slot algo stride digest).length = stride := by
  rw [slot, length_append, published_length h, length_replicate]
  omega

theorem writeAt_append (a b : Bytes) (h : bs.length ≤ b.length) :
    writeAt (a ++ b) a.length bs = some (a ++ (bs ++ b.drop bs.length)) := by
  rw [writeAt, if_pos (by rw [length_append]; omega), take_left, drop_append, drop_eq_nil_of_le
    (Nat.le_add_right _ _), nil_append, Nat.add_sub_cancel_left, append_assoc]

theorem writeSlot_append {n : Nat} (hs : 8 ≤ stride) (h : digest.length = algo.digestLen)
    {a : Bytes} (ha : a.length = n * stride) (hb : stride ≤ b.length) :
    writeSlot algo stride n digest (a ++ b) = some ((a ++ slot algo stride digest) ++ b.drop stride) := by
  have hpub := published_length h
  have hfirst : writeAt (a ++ b) (n * stride) (published algo digest) =
      some (a ++ (published algo digest ++ b.drop 8)) := by
    rw [← ha, writeAt_append a b (by omega), hpub]
  rw [writeSlot, hfirst, bind_some]
  by_cases h8 : stride > 8
  · have hlen : (a ++ published algo digest).length = n * stride + 8 := by
      rw [length_append, ha, hpub]
    have hzeros : (replicate (stride - 8) (0 : UInt8)).length ≤ (b.drop 8).length := by
      rw [length_replicate, length_drop]
      omega
    rw [if_pos h8, ← append_assoc, ← hlen, writeAt_append _ _ hzeros, length_replicate,
      drop_drop, slot, show 8 + (stride - 8) = stride by omega]
    simp only [append_assoc]
  · have heq : stride = 8 := by omega
    subst heq
    rw [if_neg h8, slot, replicate_zero, append_nil, append_assoc]

theorem lt_blocks (hbs : 0 < blockSize) (tokens : List UInt32) (n : Nat) :
    n < blocks blockSize tokens ↔ n * blockSize < tokens.length := by
  rw [blocks, ← Nat.succ_le_iff, Nat.le_div_iff_mul_le hbs, Nat.succ_mul]
  omega

section loop
variable (h : Hashes) (seed : Option Bytes) (algo : HashAlgo) (blockSize stride : Nat)
  (tokens : List UInt32)

def slots : Nat → Bytes
  | 0 => []
  | n + 1 => slots n ++ slot algo stride ((chainDigest h seed algo blockSize tokens n).getD [])

variable {h seed algo blockSize stride tokens} (hmax : blockSize ≤ kvMaxTokens) (hs : 8 ≤ stride)
include hmax

theorem digest_length (n : Nat) :
    ((chainDigest h seed algo blockSize tokens n).getD []).length = algo.digestLen := by
  rw [chainDigest_eq tokens hmax]
  exact h.fn_length algo _

include hs

theorem slots_length (n : Nat) : (slots h seed algo blockSize stride tokens n).length = n * stride := by
  induction n with
  | zero => rw [slots, length_nil, zero_mul]
  | succ n ih => rw [slots, length_append, ih, slot_length hs (digest_length hmax n), Nat.succ_mul]

theorem blockLoop_eq (hbs : 0 < blockSize) {maxBlocks : Nat} {out : Bytes}
    (hout : maxBlocks * stride ≤ out.length) {last fuel n : Nat}
    (hlast : last = min maxBlocks (blocks blockSize tokens))
    (hfuel : (tokens.drop (n * blockSize)).length ≤ fuel) (hn : n ≤ last) :
    blockLoop h algo blockSize stride maxBlocks fuel (tokens.drop (n * blockSize)) n
        (parentAt h seed algo blockSize tokens n)
        (slots h seed algo blockSize stride tokens n ++ out.drop (n * stride)) =
      some ((last : Int), slots h seed algo blockSize stride tokens last ++ out.drop (last * stride)) := by
  -- where no token is left, or no slot, all blocks are done
  have hstop : ∀ {n}, n ≤ last → (tokens.drop (n * blockSize) = [] ∨ ¬ n < maxBlocks) → last = n := by
    intro n hn hend
    rw [drop_eq_nil_iff, ← not_lt, ← lt_blocks hbs] at hend
    omega
  induction fuel generalizing n with
  | zero =>
    have hnil : tokens.drop (n * blockSize) = [] := eq_nil_of_length_eq_zero (Nat.le_zero.mp hfuel)
    rw [hstop hn (.inl hnil), blockLoop]
  | succ fuel ih =>
    rw [blockLoop]
    by_cases hend : tokens.drop (n * blockSize) = [] ∨ ¬ n < maxBlocks
    · rw [if_pos hend, hstop hn hend]
    rw [if_neg hend]
    rw [not_or, not_not, drop_eq_nil_iff, not_le] at hend
    obtain ⟨hleft, hroom⟩ := hend
    have hparent : parentAt h seed algo blockSize tokens (n + 1) =
        some ((chainDigest h seed algo blockSize tokens n).getD []) := by
      change chainDigest h seed algo blockSize tokens n = _
      rw [chainDigest_eq tokens hmax]
      rfl
    have hdigest : blockDigest h algo (parentAt h seed algo blockSize tokens n)
        ((tokens.drop (n * blockSize)).take blockSize) = _ := hparent
    have hspace : stride ≤ (out.drop (n * stride)).length := by
      have := Nat.mul_le_mul_right stride (Nat.succ_le_of_lt hroom)
      rw [Nat.succ_mul] at this
      rw [length_drop]
      omega
    have hwrite := writeSlot_append hs (@digest_length h seed algo blockSize tokens hmax n)
      (@slots_length h seed algo blockSize stride tokens hmax hs n) hspace
    have hnext : n + 1 ≤ last := by
      have := (lt_blocks hbs tokens n).mpr hleft
      omega
    rw [hdigest]
    dsimp only
    rw [hwrite]
    rw [drop_drop, drop_drop, ← Nat.succ_mul, ← Nat.succ_mul, ← hparent]
    refine ih ?_ hnext
    rw [length_drop] at hfuel ⊢
    rw [Nat.succ_mul]
    omega

end loop

/-! ## the chain names prefixes -/

/-- the encoder of a block's input is canonical CBOR -/
structure CanonicalEncoder : Prop where
  /-- a block of at most 4096 tokens fits the buffer -/
  fits : ∀ parent tokens, parent.length ≤ 32 → tokens.length ≤ kvMaxTokens →
    kvCborEncodeBlockInput parent tokens kvCborBufSize = some (blockItem parent tokens).encode
  decodable : ∀ parent tokens cap bs, cap < 2 ^ 31 → kvCborEncodeBlockInput parent tokens cap = some bs →
    decode 2 bs = some (blockItem parent tokens, [])
  injective : ∀ parent parent' tokens tokens' cap cap' bs, cap < 2 ^ 31 → cap' < 2 ^ 31 →
    kvCborEncodeBlockInput parent tokens cap = some bs →
    kvCborEncodeBlockInput parent' tokens' cap' = some bs → parent = parent' ∧ tokens = tokens'
  /-- no text that is read as the same item is shorter -/
  shortest : ∀ parent tokens cap bs, kvCborEncodeBlockInput parent tokens cap = some bs →
    ∀ depth bs', decode depth bs' = some (blockItem parent tokens, []) → bs.length ≤ bs'.length

theorem blockItem_depth (parent : Bytes) (tokens : List UInt32) : (blockItem parent tokens).depth ≤ 2 := by
  have htokens : depthAll (tokens.map fun t => .uint t.toNat) = 0 := by
    induction tokens with
    | nil => rfl
    | cons t tokens ih => rw [map_cons, depthAll, ih]; rfl
  simp only [blockItem, Item.depth, depthAll, htokens]
  decide

theorem canonicalEncoder : CanonicalEncoder := by
  refine ⟨fun _ _ hp ht => encodeBlockInput_fits hp ht, fun parent tokens cap bs hcap h => ?_,
    fun parent parent' tokens tokens' cap cap' bs hcap hcap' h h' => ?_,
    fun parent tokens cap bs h depth bs' hdec => ?_⟩
  · obtain ⟨rfl, hfits⟩ := encodeBlockInput_some (lt_trans hcap (by decide)) h
    have := decode_encode _ hfits (blockItem_depth parent tokens) []
    rwa [append_nil] at this
  · obtain ⟨rfl, hfits⟩ := encodeBlockInput_some (lt_trans hcap (by decide)) h
    obtain ⟨heq, hfits'⟩ := encodeBlockInput_some (lt_trans hcap' (by decide)) h'
    exact blockItem_inj (@encode_inj _ _ hfits hfits' [] [] (by rw [heq])).1
  · rw [encodeBlockInput_eq] at h
    rw [(limit_some h).1]
    exact decode_shortest hdec

/-- the chain of an algorithm and a block size -/
structure ChainExact (h : Hashes) (seed : Option Bytes) (code : Nat) (algo : HashAlgo) (blockSize : Nat) :
    Prop where
  /-- equal digests of a block are equal tokens up to its end, where no two of the hashed inputs collide -/
  names : ∀ ts us i, i < blocks blockSize ts → i < blocks blockSize us →
    (chainInputs h seed algo blockSize ts ∪ chainInputs h seed algo blockSize us).InjOn (h.fn algo) →
    (chainDigest h seed algo blockSize ts i = chainDigest h seed algo blockSize us i ↔
      ts.take ((i + 1) * blockSize) = us.take ((i + 1) * blockSize))
  encoder : CanonicalEncoder
  /-- one slot is written for each block there is room for, in a buffer of `maxBlocks * stride` bytes -/
  slots : ∀ tokens stride maxBlocks out, 8 ≤ stride → out.length = maxBlocks * stride →
    kvComputeBlockHashes h seed code tokens blockSize out stride maxBlocks =
      some (if tokens = [] then -1 else ((min maxBlocks (blocks blockSize tokens) : Nat) : Int),
        slots h seed algo blockSize stride tokens (min maxBlocks (blocks blockSize tokens)) ++
          out.drop (min maxBlocks (blocks blockSize tokens) * stride))

/-- **the digest of a block names the tokens up to its end** -/
theorem chain_names_prefix (h : Hashes) (seed : Option Bytes) (code : Nat) (algo : HashAlgo)
    (hcode : HashAlgo.ofCode code = some algo) (blockSize : Nat) (hbs : 0 < blockSize)
    (hmax : blockSize ≤ kvMaxTokens) : ChainExact h seed code algo blockSize := by
  refine ⟨fun ts us i hi hi' hinj => ⟨fun heq => chain_tokens hmax hinj hi hi' heq, fun heq => ?_⟩,
    canonicalEncoder, fun tokens stride maxBlocks out hs hout => ?_⟩
  · exact parentAt_congr heq
  · by_cases hne : tokens = []
    · subst hne
      have hzero : blocks blockSize [] = 0 :=
        Nat.le_zero.mp (Nat.le_of_not_lt fun h => by
          have := (lt_blocks hbs [] 0).mp h
          rw [zero_mul] at this
          exact lt_irrefl _ this)
      rw [hzero, min_zero, zero_mul]
      rfl
    · have hargs : ¬ (tokens = [] ∨ blockSize = 0 ∨ blockSize > kvMaxTokens) := by
        rintro (h | h | h)
        · exact hne h
        · omega
        · omega
      have hloop := @blockLoop_eq h seed algo blockSize stride tokens hmax hs hbs maxBlocks out hout.ge
        _ tokens.length 0 rfl (by rw [Nat.zero_mul, drop_zero]) (Nat.zero_le _)
      rw [zero_mul, zero_mul] at hloop
      rw [kvComputeBlockHashes, if_neg hne, if_neg hargs, hcode]
      exact hloop

def plainHashes : Hashes where
  sha256 b := (b.reverse ++ replicate 32 0).take 32
  xxh128 b := (b.reverse ++ replicate 16 0).take 16
  sha256_length b := by
    rw [length_take, length_append, length_replicate]
    omega
  xxh128_length b := by
    rw [length_take, length_append, length_replicate]
    omega

/-- two prompts of a whole block and one token, and no collision -/
theorem chain_names_prefix_pair :
    let digest := chainDigest plainHashes none .sha256Cbor 2
    ChainExact plainHashes none 0 .sha256Cbor 2 ∧ digest [1, 2, 3] 0 = digest [1, 2, 4] 0 ∧
      digest [1, 2, 3] 1 ≠ digest [1, 2, 4] 1 := by
  have hexact := chain_names_prefix plainHashes none 0 .sha256Cbor rfl 2 (by decide) (by decide)
  let inputs : List Bytes := (range 2).flatMap fun i =>
    [chainInput plainHashes none .sha256Cbor 2 [1, 2, 3] i,
      chainInput plainHashes none .sha256Cbor 2 [1, 2, 4] i]
  have hinj : (chainInputs plainHashes none .sha256Cbor 2 [1, 2, 3] ∪
      chainInputs plainHashes none .sha256Cbor 2 [1, 2, 4]).InjOn (plainHashes.fn .sha256Cbor) := by
    have hmem : ∀ b ∈ chainInputs plainHashes none .sha256Cbor 2 [1, 2, 3] ∪
        chainInputs plainHashes none .sha256Cbor 2 [1, 2, 4], b ∈ inputs := by
      rintro b (⟨i, hi, rfl⟩ | ⟨i, hi, rfl⟩)
      · exact mem_flatMap.mpr ⟨i, mem_range.mpr hi, mem_cons_self⟩
      · exact mem_flatMap.mpr ⟨i, mem_range.mpr hi, mem_cons_of_mem _ mem_cons_self⟩
    have hone : ∀ b ∈ inputs, ∀ c ∈ inputs,
        plainHashes.fn .sha256Cbor b = plainHashes.fn .sha256Cbor c → b = c := by decide +kernel
    exact fun b hb c hc => hone b (hmem b hb) c (hmem c hc)
  have hnames := hexact.names [1, 2, 3] [1, 2, 4]
  exact ⟨hexact, (hnames 0 (by decide) (by decide) hinj).mpr rfl,
    fun heq => absurd ((hnames 1 (by decide) (by decide) hinj).mp heq) (by decide)⟩

/-- a block size above the bound writes nothing, and a stride below the eight published bytes writes
past the buffer -/
theorem block_size_refused :
    kvComputeBlockHashes plainHashes none 2 [1] 5000 (replicate 32 0) 32 1 =
        some (-1, replicate 32 0) ∧ min 1 (blocks 5000 [1]) = 1 ∧
      kvComputeBlockHashes plainHashes none 2 [1] 1 (replicate 4 0) 4 1 = none := by
  decide

end Kv
