import Mathlib.Data.List.DropRight
import Mathlib.Data.List.TakeDrop
import InferenceGateway.Lib.Json

/-!
# Attributing a request to the address it came from

The hop list of an inbound `X-Forwarded-For` chain and the walk over it from the right, past the
hops that lie in the listener's trusted ranges.  Texts are bytes; a hop is kept as the C string its
buffer holds.  The results hold for any `inet_pton`; `inetPton4` reads dotted addresses.

* `hops_build`                  the list holds the last 16 hops of all lines, in order;
* `walk_past`                   the walk passes the trusted hops at the right;
* `client_keeps_attribution`    what a client writes in front of our hops does not count.
-/

open List

namespace L7

open Json (ascii)

def maxTrustedRanges : Nat := 16
def maxHops : Nat := 16
def hopTextMax : Nat := 46

/-! ## addresses -/

/-- one number of a dotted address: digits, no leading zero, at most 255 -/
def octet (digits : List UInt8) : Option UInt32 :=
  if digits = [] ∨ 3 < digits.length ∨ (digits.head? = some 0x30 ∧ digits.length ≠ 1) then none
  else if digits.all fun b => 0x30 ≤ b && b ≤ 0x39 then
    let v := digits.foldl (fun v b => v * 10 + (b - 0x30).toUInt32) 0
    if v ≤ 255 then some v else none
  else none

/-- `inet_pton(AF_INET, ..)`, in host byte order -/
def inetPton4 (text : List UInt8) : Option UInt32 :=
  match (text.splitOnP (· == 0x2E)).map octet with
  | [some a, some b, some c, some d] => some (a <<< 24 ||| b <<< 16 ||| c <<< 8 ||| d)
  | _ => none

/-! ## trusted ranges -/

structure TrustedRange where
  addr : UInt32
  prefixLen : UInt8

def l7TrustMask (prefixLen : UInt8) : UInt32 :=
  if prefixLen = 0 then 0
  else if 32 ≤ prefixLen then 0xFFFFFFFF
  else 0xFFFFFFFF <<< (32 - prefixLen.toUInt32)

/-- the text is an IPv4 address inside one of the ranges -/
def l7TrustContains (inetPton : List UInt8 → Option UInt32) (ranges : List TrustedRange)
    (text : List UInt8) : Bool :=
  if ranges.isEmpty || text.isEmpty then false
  else match inetPton text with
    | none => false
    | some addr => (ranges.take maxTrustedRanges).any fun r =>
        addr &&& l7TrustMask r.prefixLen == r.addr &&& l7TrustMask r.prefixLen

/-! ## the hop list -/

def isBlank (b : UInt8) : Bool := b == 0x20 || b == 0x09

/-- one element of a chain without surrounding blanks, brackets and port; the C string left in
the buffer, empty for an element that does not fit -/
def l7HopNormalise (element : List UInt8) : List UInt8 :=
  let text := (element.dropWhile isBlank).rdropWhile isBlank
  -- '[' at the start and a ']' after it
  let bracketed := decide (2 ≤ text.length) && text.head? == some 0x5B && text.contains 0x5D
  let body := if bracketed then text.tail.takeWhile (· != 0x5D) else text
  if body = [] ∨ hopTextMax ≤ body.length then []
  else
    let str := body.takeWhile (· != 0)
    -- exactly one ':' outside of brackets starts a port
    if !bracketed && str.count 0x3A == 1 then str.takeWhile (· != 0x3A) else str

/-- `l7_hop_list_t` -/
structure HopList where
  hops : List (List UInt8)
  truncated : Bool
  hops_le : hops.length ≤ maxHops

/-- a full list loses its left-most hop -/
def HopList.push (l : HopList) (hop : List UInt8) : HopList :=
  if h : l.hops.length = maxHops then
    { hops := l.hops.tail ++ [hop], truncated := true, hops_le := by simp [h, maxHops] }
  else
    { hops := l.hops ++ [hop], truncated := l.truncated, hops_le := by
        have := l.hops_le
        simp only [length_append, length_singleton]
        omega }

def isComma (b : UInt8) : Bool := b == 0x2C

/-- `l7_hop_list_append_n`; the empty element after a last comma is not looked at, and would not
be kept -/
def l7HopListAppendN (text : List UInt8) (out : HopList) : HopList :=
  if text = [] then out
  else (text.splitOnP isComma).foldl (fun out element =>
      let hop := l7HopNormalise element
      if hop = [] then out else out.push hop) out

/-- the hop list of a request, from its chain lines in the order they arrived -/
def build (lines : List (List UInt8)) : HopList :=
  lines.foldl (fun out line => l7HopListAppendN line out)
    { hops := [], truncated := false, hops_le := by decide }

/-! ## attribution -/

/-- the walk from the right: the first hop that is not trusted, and the hops stepped past -/
def walk (trusted : List UInt8 → Bool) : List (List UInt8) → Nat → Option (List UInt8) × Nat
  | [], walked => (none, walked)
  | hop :: left, walked =>
    if trusted hop then walk trusted left (walked + 1) else (some hop, walked)

structure Origin where
  fromChain : Bool
  address : List UInt8
  skipped : Nat
  deriving DecidableEq, Repr

/-- the peer's address, where it fits -/
def peerText (peer : Option (List UInt8)) (outlen : Nat) : List UInt8 :=
  match peer with
  | some ip => if 0 < ip.length ∧ ip.length < outlen then ip else []
  | none => []

def l7AttributeOrigin (inetPton : List UInt8 → Option UInt32) (hops : HopList)
    (ranges : List TrustedRange) (peer : Option (List UInt8)) (outlen : Nat) : Origin :=
  match walk (l7TrustContains inetPton ranges) hops.hops.reverse 0 with
  | (some hop, walked) =>
    if hop.length = 0 ∨ outlen ≤ hop.length then ⟨false, peerText peer outlen, walked⟩
    else ⟨true, hop, walked⟩
  | (none, walked) => ⟨false, peerText peer outlen, walked⟩

def l7OriginForListener (inetPton : List UInt8 → Option UInt32) (hops : HopList)
    (ranges : List TrustedRange) (peer : Option (List UInt8)) (outlen : Nat) : Origin :=
  if ranges = [] then ⟨false, peerText peer outlen, 0⟩
  else l7AttributeOrigin inetPton hops ranges peer outlen

/-! ## what the list holds -/

def hopsOf (line : List UInt8) : List (List UInt8) :=
  ((line.splitOnP isComma).map l7HopNormalise).filter (· ≠ [])

theorem rtake_rtake_append {α : Type*} (n : Nat) (a b : List α) :
    (a.rtake n ++ b).rtake n = (a ++ b).rtake n := by
  unfold rtake
  rw [length_append, length_append, drop_append, drop_append, drop_drop, length_drop]
  congr 2 <;> omega

theorem hops_push (l : HopList) (hop : List UInt8) :
    (l.push hop).hops = (l.hops ++ [hop]).rtake maxHops := by
  have hle := l.hops_le
  unfold HopList.push rtake
  split
  · next h =>
    have hne : l.hops ≠ [] := by
      intro hnil
      rw [hnil] at h
      cases h
    rw [length_append, length_singleton, h, Nat.add_sub_cancel_left, drop_one,
      tail_append_of_ne_nil hne]
  · next h =>
    have hzero : (l.hops ++ [hop]).length - maxHops = 0 := by
      rw [length_append, length_singleton]
      omega
    rw [hzero, drop_zero]

theorem hops_rtake (l : HopList) : l.hops.rtake maxHops = l.hops := by
  have hle := l.hops_le
  unfold rtake
  rw [Nat.sub_eq_zero_of_le hle, drop_zero]

theorem hops_append (text : List UInt8) (out : HopList) :
    (l7HopListAppendN text out).hops = (out.hops ++ hopsOf text).rtake maxHops := by
  unfold l7HopListAppendN hopsOf
  split
  · next h =>
    subst h
    change out.hops = (out.hops ++ []).rtake maxHops
    rw [append_nil, hops_rtake]
  · generalize text.splitOnP isComma = elements
    induction elements generalizing out with
    | nil =>
      change out.hops = (out.hops ++ []).rtake maxHops
      rw [append_nil, hops_rtake]
    | cons element elements ih =>
      rw [foldl_cons, ih, map_cons]
      by_cases hnil : l7HopNormalise element = []
      · rw [if_pos hnil, filter_cons_of_neg (by simpa using hnil)]
      · rw [if_neg hnil, filter_cons_of_pos (by simpa using hnil), hops_push,
          rtake_rtake_append, append_assoc, singleton_append]

theorem hops_foldl (lines : List (List UInt8)) (out : HopList) :
    (lines.foldl (fun out line => l7HopListAppendN line out) out).hops =
      (out.hops ++ lines.flatMap hopsOf).rtake maxHops := by
  induction lines generalizing out with
  | nil =>
    rw [foldl_nil, flatMap_nil, append_nil, hops_rtake]
  | cons line lines ih =>
    rw [foldl_cons, ih, hops_append, rtake_rtake_append, flatMap_cons, append_assoc]

theorem hops_build (lines : List (List UInt8)) :
    (build lines).hops = (lines.flatMap hopsOf).rtake maxHops := by
  rw [build, hops_foldl, nil_append]

theorem hopsOf_comma (f s : List UInt8) : hopsOf (f ++ 0x2C :: s) = hopsOf f ++ hopsOf s := by
  unfold hopsOf
  rw [splitOnP_append_cons f s (by decide), map_append, filter_append]

/-! ## the walk -/

theorem walk_append (trusted : List UInt8 → Bool) (right left : List (List UInt8)) (walked : Nat)
    (h : ∀ hop ∈ right, trusted hop = true) :
    walk trusted (right ++ left) walked = walk trusted left (walked + right.length) := by
  induction right generalizing walked with
  | nil => rfl
  | cons hop right ih =>
    rw [cons_append, walk, if_pos (h hop mem_cons_self),
      ih (walked + 1) fun x hx => h x (mem_cons_of_mem _ hx), length_cons]
    congr 1
    omega

theorem reverse_rtake_append {α : Type*} (n : Nat) (a b : List α) :
    ((a ++ b).rtake n).reverse = b.reverse.take n ++ a.reverse.take (n - b.length) := by
  rw [rtake_eq_reverse_take_reverse, reverse_reverse, reverse_append, take_append, length_reverse]

/-- past the trusted hops at the right end, as far as the list holds what is left of them -/
theorem walk_past (trusted : List UInt8 → Bool) (left right : List (List UInt8))
    (h : ∀ hop ∈ right, trusted hop = true) :
    walk trusted ((left ++ right).rtake maxHops).reverse 0 =
      walk trusted (left.reverse.take (maxHops - right.length)) (min maxHops right.length) := by
  have htake : ∀ hop ∈ right.reverse.take maxHops, trusted hop = true :=
    fun hop hhop => h hop (mem_reverse.mp (mem_of_mem_take hhop))
  rw [reverse_rtake_append, walk_append trusted _ _ 0 htake, length_take, length_reverse, Nat.zero_add]

/-- lines `S` written by our hops after the client's lines `F`: as later lines, or after a comma on
the client's last line -/
inductive Appended (F S : List (List UInt8)) : List (List UInt8) → Prop
  | lines : Appended F S (F ++ S)
  | comma (F' : List (List UInt8)) (f s : List UInt8) (S' : List (List UInt8))
      (hF : F = F' ++ [f]) (hS : S = s :: S') : Appended F S (F' ++ (f ++ 0x2C :: s) :: S')

theorem Appended.hops {F S lines : List (List UInt8)} (h : Appended F S lines) :
    lines.flatMap hopsOf = F.flatMap hopsOf ++ S.flatMap hopsOf := by
  cases h with
  | lines => exact flatMap_append
  | comma F' f s S' hF hS =>
    subst hF hS
    simp [flatMap_append, flatMap_cons, hopsOf_comma]

/-- **a client cannot move its attribution**, if our hops' part of the chain ends in at most 15
trusted addresses after an untrusted one -/
theorem client_keeps_attribution (inetPton : List UInt8 → Option UInt32)
    (ranges : List TrustedRange) (hranges : ranges ≠ []) (peer : Option (List UInt8)) (outlen : Nat)
    (F S lines : List (List UInt8)) (happ : Appended F S lines)
    (left : List (List UInt8)) (u : List UInt8) (right : List (List UInt8))
    (hS : S.flatMap hopsOf = left ++ u :: right) (hlen : right.length ≤ 15)
    (hright : ∀ hop ∈ right, l7TrustContains inetPton ranges hop = true)
    (hu : l7TrustContains inetPton ranges u = false) :
    l7OriginForListener inetPton (build lines) ranges peer outlen =
      l7OriginForListener inetPton (build S) ranges peer outlen := by
  have hlt : right.length < maxHops := Nat.lt_succ_of_le hlen
  obtain ⟨k, hk⟩ : ∃ k, maxHops - right.length = k + 1 := ⟨maxHops - right.length - 1, by omega⟩
  -- whatever stands before `u`, the walk ends there
  have hwalk : ∀ before, walk (l7TrustContains inetPton ranges)
      ((before ++ u :: right).rtake maxHops).reverse 0 = (some u, right.length) := by
    intro before
    rw [← singleton_append, ← append_assoc, walk_past _ _ _ hright, hk, reverse_append,
      reverse_singleton, singleton_append, take_succ_cons, walk, hu, Nat.min_eq_right hlt.le]
    rfl
  unfold l7OriginForListener l7AttributeOrigin
  rw [if_neg hranges, if_neg hranges, hops_build, hops_build, happ.hops, hS, ← append_assoc, hwalk,
    hwalk]

def tenNet : TrustedRange := { addr := 0x0A000000, prefixLen := 8 }

/-- the client wrote the first part, our hops appended the second -/
theorem attribution_of_forged_chain : l7OriginForListener inetPton4
        (build [ascii "9.9.9.9,10.0.0.9" ++ 0x2C :: ascii " 8.8.8.8:80,10.0.0.1"]) [tenNet] none 46 =
      l7OriginForListener inetPton4 (build [ascii " 8.8.8.8:80,10.0.0.1"]) [tenNet] none 46 :=
  client_keeps_attribution inetPton4 [tenNet] (by simp) none 46 _ _ _
    (.comma [] _ _ [] rfl rfl) [] (ascii "8.8.8.8") [ascii "10.0.0.1"] (by decide +kernel)
    (by decide +kernel) (by decide +kernel) (by decide +kernel)

/-! ## elements that cannot be kept -/

/-- the hops kept of the elements of a line -/
def keptOf (elements : List (List UInt8)) : List (List UInt8) :=
  (elements.map l7HopNormalise).filter (· ≠ [])

/-- the origin is the element `u`, with `walked` trusted ones to its right, or the peer; the peer
if the element could not be kept -/
def StopsOn (u : List UInt8) (walked : Nat) (peer : List UInt8) (o : Origin) : Prop :=
  if o.fromChain then l7HopNormalise u ≠ [] ∧ o.address = l7HopNormalise u ∧ o.skipped = walked
  else o.address = peer

theorem walk_fst (trusted : List UInt8 → Bool) (hops : List (List UInt8)) (walked : Nat) :
    (walk trusted hops walked).1 = hops.find? fun hop => !trusted hop := by
  induction hops generalizing walked with
  | nil => rfl
  | cons hop hops ih =>
    cases h : trusted hop with
    | true => simp [walk, h, ih]
    | false => simp [walk, h]

/-- **the walk stops on the right-most element that is not trusted**, exactly if that element can be
kept, or no untrusted hop that fits `out` comes next among the hops kept to its left -/
theorem stops_on_iff (inetPton : List UInt8 → Option UInt32) (ranges : List TrustedRange)
    (hranges : ranges ≠ []) (peer : Option (List UInt8)) (outlen : Nat) (text : List UInt8)
    (left : List (List UInt8)) (u : List UInt8) (right : List (List UInt8))
    (htext : text.splitOnP isComma = left ++ u :: right)
    (hu : l7TrustContains inetPton ranges (l7HopNormalise u) = false)
    (hright : ∀ e ∈ right, l7TrustContains inetPton ranges (l7HopNormalise e) = true) :
    StopsOn u right.length (peerText peer outlen)
        (l7OriginForListener inetPton (build [text]) ranges peer outlen) ↔
      l7HopNormalise u ≠ [] ∨ ∀ v, ((keptOf left).reverse.take (maxHops - right.length)).find?
          (fun hop => !l7TrustContains inetPton ranges hop) = some v → outlen ≤ v.length := by
  have hkept : keptOf right = right.map l7HopNormalise := by
    refine filter_eq_self.mpr fun hop hhop => ?_
    obtain ⟨e, he, rfl⟩ := mem_map.mp hhop
    have hne : l7HopNormalise e ≠ [] := fun hnil => by
      simpa [hnil, l7TrustContains] using hright e he
    simpa using hne
  have hhops : (build [text]).hops =
      ((keptOf left ++ keptOf [u]) ++ right.map l7HopNormalise).rtake maxHops := by
    have hsplit : keptOf (left ++ u :: right) = keptOf left ++ (keptOf [u] ++ keptOf right) := by
      simp only [keptOf, ← filter_append, ← map_append, singleton_append]
    rw [hops_build, flatMap_cons, flatMap_nil, append_nil, append_assoc, ← hkept, ← hsplit, ← htext]
    rfl
  have hwalk := walk_past (l7TrustContains inetPton ranges) (keptOf left ++ keptOf [u])
    (right.map l7HopNormalise) (by simpa using hright)
  unfold l7OriginForListener l7AttributeOrigin
  rw [if_neg hranges, hhops, hwalk, length_map]
  by_cases hnorm : l7HopNormalise u = []
  · -- the element was dropped: the walk goes on among the hops to its left
    have hnone : keptOf [u] = [] := by simp [keptOf, hnorm]
    have hleft : ∀ v ∈ (keptOf left).reverse.take (maxHops - right.length), v.length ≠ 0 := by
      intro v hv
      have := (mem_filter.mp (mem_reverse.mp (mem_of_mem_take hv))).2
      simpa using this
    rw [hnone, append_nil, ← walk_fst _ _ (min maxHops right.length)]
    cases hw : walk (l7TrustContains inetPton ranges)
        ((keptOf left).reverse.take (maxHops - right.length)) (min maxHops right.length) with
    | mk hop walked =>
      cases hop with
      | none => simp [StopsOn]
      | some v =>
        have hfind := walk_fst (l7TrustContains inetPton ranges)
          ((keptOf left).reverse.take (maxHops - right.length)) (min maxHops right.length)
        rw [hw] at hfind
        have hlen := hleft v (mem_of_find?_eq_some hfind.symm)
        by_cases hfits : outlen ≤ v.length
        · simp [StopsOn, hfits]
        · simp [StopsOn, hfits, hlen, hnorm]
  · have hone : keptOf [u] = [l7HopNormalise u] := by simp [keptOf, hnorm]
    rw [hone, reverse_append, reverse_singleton, singleton_append]
    refine iff_of_true ?_ (.inl hnorm)
    cases hroom : maxHops - right.length with
    | zero => simp [walk, StopsOn]
    | succ k =>
      rw [take_succ_cons, walk, hu, Nat.min_eq_right (by omega)]
      simp only [Bool.false_eq_true, if_false]
      split
      · simp [StopsOn]
      · exact ⟨hnorm, rfl, rfl⟩

/-- `1.2.3.4` stands past one hop of ours -/
theorem stops_on_readable : StopsOn (ascii "1.2.3.4") 1 []
      (l7OriginForListener inetPton4 (build [ascii "1.2.3.4,10.0.0.1"]) [tenNet] none 46) :=
  (stops_on_iff inetPton4 [tenNet] (by simp) none 46 _ [] _ [ascii "10.0.0.1"] (by decide +kernel)
    (by decide +kernel) (by decide +kernel)).mpr (.inl (by decide +kernel))

/-- the empty element is stepped over, and what stands to its left believed -/
theorem empty_element_stepped_over :
    l7OriginForListener inetPton4 (build [ascii "1.2.3.4,,10.0.0.1"]) [tenNet] none 46 =
      ⟨true, ascii "1.2.3.4", 1⟩ := by
  decide +kernel

end L7
