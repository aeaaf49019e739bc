import InferenceGateway.L7.Trust

/-!
# Passing the chain on

`l7_chain_append_peer` writes the hops of a request and its peer on one line; the next gateway reads
the line with `l7_hop_list_from_xff`.

* `Kept.normalise_self_iff`   which of the kept hops are read as they stand;
* `chain_kept_iff`            the next gateway reads the same hops exactly where all of them are.
-/

open List

namespace L7

open Json (ascii)

/-! ## the line -/

/-- one more text of the chain, where there is room -/
def chainPut (outlen : Nat) (out text : List UInt8) : Option (List UInt8) :=
  if outlen ≤ out.length + (text.length + if out = [] then 0 else 2) then none
  else some (if out = [] then text else out ++ 0x2C :: 0x20 :: text)

/-- `l7_chain_append_peer`; none where nothing is written -/
def l7ChainAppendPeer (hops : HopList) (peer : List UInt8) (outlen : Nat) : Option (List UInt8) :=
  if outlen = 0 ∨ peer = [] then none else (hops.hops ++ [peer]).foldlM (chainPut outlen) []

def l7HopListFromXff (text : List UInt8) : HopList := build [text.takeWhile (· != 0)]

/-! ## normal forms -/

def trim (text : List UInt8) : List UInt8 := (text.dropWhile isBlank).rdropWhile isBlank

def bracketed (text : List UInt8) : Bool :=
  decide (2 ≤ text.length) && text.head? == some 0x5B && text.contains 0x5D

/-- no blank at either end, and no single colon -/
def Plain (hop : List UInt8) : Prop := trim hop = hop ∧ hop.count 0x3A ≠ 1

variable {e hop : List UInt8}

theorem trim_sublist (e : List UInt8) : trim e <+ e :=
  ( rdropWhile_prefix _ _).sublist.trans (dropWhile_sublist _)

theorem bracketed_of_prefix {a b : List UInt8} (h : a <+: b) (ha : bracketed a = true) :
    bracketed b = true := by
  obtain ⟨t, rfl⟩ := h
  simp only [bracketed, Bool.and_eq_true, decide_eq_true_eq, beq_iff_eq, contains_iff_mem] at ha ⊢
  obtain ⟨⟨hlen, hhead⟩, hmem⟩ := ha
  refine ⟨⟨?_, ?_⟩, mem_append_left t hmem⟩
  · rw [length_append]
    omega
  · rw [head?_append, hhead]
    rfl

theorem normalise_bracketed (h : bracketed (trim e) = true) : l7HopNormalise e =
    if (trim e).tail.takeWhile (· != 0x5D) = [] ∨
        hopTextMax ≤ ((trim e).tail.takeWhile (· != 0x5D)).length then []
    else ((trim e).tail.takeWhile (· != 0x5D)).takeWhile (· != 0) := by
  unfold bracketed trim at h
  simp only [l7HopNormalise, h]
  rfl

theorem normalise_unbracketed (h : bracketed (trim e) = false) : l7HopNormalise e =
    if trim e = [] ∨ hopTextMax ≤ (trim e).length then []
    else if ((trim e).takeWhile (· != 0)).count 0x3A = 1 then
      ((trim e).takeWhile (· != 0)).takeWhile (· != 0x3A)
    else (trim e).takeWhile (· != 0) := by
  unfold bracketed trim at h
  simp only [l7HopNormalise, h, Bool.not_false, Bool.true_and, beq_iff_eq]
  rfl

/-- a text that can stand in a chain -/
structure Kept (hop : List UInt8) : Prop where
  ne : hop ≠ []
  comma : 0x2C ∉ hop
  zero : 0 ∉ hop
  short : hop.length < hopTextMax
  unbracketed : bracketed (trim hop) = false

theorem zero_takeWhile (s : List UInt8) : 0 ∉ s.takeWhile (· != 0) := fun hs => by
  simpa using mem_takeWhile_imp hs

theorem normalise_prefix (hb : bracketed (trim e) = false) : l7HopNormalise e <+: trim e := by
  rw [normalise_unbracketed hb]
  split
  · exact nil_prefix
  · split
    · exact ( takeWhile_prefix _).trans ( takeWhile_prefix _)
    · exact takeWhile_prefix _

theorem trim_of_prefix (h : hop <+: trim e) : trim hop <+: hop := by
  have hfront : hop.dropWhile isBlank = hop := by
    obtain ⟨t, ht⟩ := h.trans ( rdropWhile_prefix _ _)
    cases hop with
    | nil => rfl
    | cons b s =>
      have hnot := head?_dropWhile_not isBlank e
      rw [← ht] at hnot
      exact dropWhile_cons_of_neg (by simpa using hnot)
  rw [trim, hfront]
  exact rdropWhile_prefix _ _

theorem kept_normalise (hcomma : 0x2C ∉ e) (h : l7HopNormalise e ≠ []) :
    Kept (l7HopNormalise e) := by
  cases hb : bracketed (trim e) with
  | true =>
    rw [normalise_bracketed hb] at h ⊢
    split at h
    · exact absurd rfl h
    · next hlen =>
      rw [if_neg hlen]
      rw [not_or, not_le] at hlen
      have hsub := takeWhile_sublist (l := (trim e).tail.takeWhile (· != 0x5D)) (· != 0)
      have htrim := (takeWhile_sublist (l := (trim e).tail) (· != 0x5D)).trans (tail_sublist _)
      refine ⟨h, fun hm => hcomma ?_, zero_takeWhile _, hsub.length_le.trans_lt hlen.2, ?_⟩
      · exact ((hsub.trans htrim).trans (trim_sublist e)).mem hm
      -- what stood in brackets holds no closing one
      · have hclose : (0x5D : UInt8) ∉
            trim (((trim e).tail.takeWhile (· != 0x5D)).takeWhile (· != 0)) :=
          fun hm => by simpa using mem_takeWhile_imp (hsub.mem ((trim_sublist _).mem hm))
        simp [bracketed, hclose]
  | false =>
    have hpre := normalise_prefix hb
    refine ⟨h, fun hm => hcomma ((hpre.sublist.trans (trim_sublist e)).mem hm), ?_, ?_, ?_⟩
    · rw [normalise_unbracketed hb]
      split
      · exact not_mem_nil
      · split
        · exact fun hm => zero_takeWhile _ ((takeWhile_sublist _).mem hm)
        · exact zero_takeWhile _
    · by_contra hlen
      refine h ?_
      rw [normalise_unbracketed hb, if_pos (.inr ((not_lt.mp hlen).trans hpre.length_le))]
    · rw [← Bool.not_eq_true]
      intro htrue
      rw [ bracketed_of_prefix (( trim_of_prefix hpre).trans hpre) htrue] at hb
      cases hb

/-- read again, a kept text stays itself exactly where it is plain -/
theorem Kept.normalise_self_iff (h : Kept hop) : l7HopNormalise hop = hop ↔ Plain hop := by
  have hzero : (trim hop).takeWhile (· != 0) = trim hop := by
    rw [takeWhile_eq_self_iff]
    intro b hb
    rw [bne_iff_ne]
    rintro rfl
    exact h.zero ((trim_sublist hop).mem hb)
  rw [normalise_unbracketed h.unbracketed, hzero]
  constructor
  · intro hself
    split at hself
    · exact absurd hself.symm h.ne
    · split at hself
      · next hone =>
        -- a port cut off leaves less than there was
        have hback := takeWhile_sublist (l := trim hop) (· != 0x3A)
        rw [hself] at hback
        have htrim := (trim_sublist hop).antisymm hback
        rw [htrim] at hself hone
        have hmem : (0x3A : UInt8) ∈ hop := count_pos_iff.mp (by omega)
        rw [← hself] at hmem
        simpa using mem_takeWhile_imp hmem
      · next hone => exact ⟨hself, hself ▸ hone⟩
  · rintro ⟨htrim, hone⟩
    rw [htrim, if_neg (not_or.mpr ⟨h.ne, not_le.mpr h.short⟩), if_neg hone]

/-! ## the texts of a chain -/

theorem piece_clean (p : UInt8 → Bool) (text : List UInt8) :
    ∀ piece ∈ text.splitOnP p, ∀ b ∈ piece, p b = false := by
  induction text with
  | nil => simp
  | cons b text ih =>
    rw [splitOnP_cons_eq_if_modifyHead]
    split
    · simpa using ih
    · next hb =>
      obtain ⟨first, rest, hsplit⟩ := exists_cons_of_ne_nil (splitOnP_ne_nil p text)
      rw [hsplit, forall_mem_cons] at ih
      rw [hsplit, modifyHead, forall_mem_cons, forall_mem_cons]
      exact ⟨⟨eq_false_of_ne_true hb, ih.1⟩, ih.2⟩

theorem kept_of_hopsOf {line : List UInt8} (h : hop ∈ hopsOf line) : Kept hop := by
  obtain ⟨hmap, hne⟩ := mem_filter.mp h
  obtain ⟨e, he, rfl⟩ := mem_map.mp hmap
  exact kept_normalise (fun hm => by simpa [isComma] using piece_clean isComma line e he _ hm)
    (of_decide_eq_true hne)

theorem kept_of_build {lines : List (List UInt8)} (h : hop ∈ (build lines).hops) : Kept hop := by
  rw [hops_build] at h
  obtain ⟨line, _, hline⟩ := mem_flatMap.mp (mem_of_mem_drop h)
  exact kept_of_hopsOf hline

theorem Kept.hopsOf (h : Kept hop) : hopsOf hop = keptOf [hop] := by
  have hsplit : hop.splitOnP isComma = [hop] :=
    splitOnP_eq_singleton fun b hb => beq_eq_false_iff_ne.mpr (ne_of_mem_of_not_mem hb h.comma)
  unfold L7.hopsOf
  rw [hsplit]
  rfl

theorem octet_digits {digits : List UInt8} {v : UInt32} (h : octet digits = some v) :
    digits ≠ [] ∧ digits.length ≤ 3 ∧ ∀ b ∈ digits, 0x2E ≤ b ∧ b ≤ 0x39 := by
  unfold octet at h
  split at h
  · cases h
  · split at h
    · next hform hall =>
      rw [not_or, not_or, not_lt] at hform
      refine ⟨hform.1, hform.2.1, fun b hb => ?_⟩
      have hdigit := all_eq_true.mp hall b hb
      rw [Bool.and_eq_true, decide_eq_true_eq, decide_eq_true_eq] at hdigit
      exact ⟨UInt8.le_trans (by decide) hdigit.1, hdigit.2⟩
    · cases h

theorem address_bytes {addr : UInt32} (h : inetPton4 hop = some addr) :
    hop ≠ [] ∧ hop.length ≤ 15 ∧ ∀ b ∈ hop, 0x2E ≤ b ∧ b ≤ 0x39 := by
  unfold inetPton4 at h
  split at h
  · next a b c d hfour =>
    obtain ⟨w, _, hsplit, hw, hrest⟩ := map_eq_cons_iff.mp hfour
    obtain ⟨x, _, rfl, hx, hrest⟩ := map_eq_cons_iff.mp hrest
    obtain ⟨y, _, rfl, hy, hrest⟩ := map_eq_cons_iff.mp hrest
    obtain ⟨z, _, rfl, hz, hrest⟩ := map_eq_cons_iff.mp hrest
    obtain rfl := map_eq_nil_iff.mp hrest
    have hjoin : [0x2E].intercalate (hop.splitOn 0x2E) = hop := intercalate_splitOn 0x2E
    rw [splitOn, hsplit] at hjoin
    obtain rfl : w ++ (0x2E :: (x ++ (0x2E :: (y ++ (0x2E :: (z ++ [])))))) = hop := hjoin
    obtain ⟨hne, hwl, hwd⟩ := octet_digits hw
    obtain ⟨-, hxl, hxd⟩ := octet_digits hx
    obtain ⟨-, hyl, hyd⟩ := octet_digits hy
    obtain ⟨-, hzl, hzd⟩ := octet_digits hz
    have hdot : (0x2E : UInt8) ≤ 0x2E ∧ (0x2E : UInt8) ≤ 0x39 := by decide
    refine ⟨append_ne_nil_of_left_ne_nil hne _, ?_, ?_⟩
    · simp only [length_append, length_cons, length_nil]
      omega
    · simp only [forall_mem_append, forall_mem_cons]
      exact ⟨hwd, hdot, hxd, hdot, hyd, hdot, hzd, by simp⟩
  · cases h

theorem address_plain {addr : UInt32} (h : inetPton4 hop = some addr) : Kept hop ∧ Plain hop := by
  obtain ⟨hne, hlen, hbytes⟩ := address_bytes h
  have hno : ∀ b, b < 0x2E ∨ 0x39 < b → b ∉ hop := by
    rintro b (hlt | hlt) hm
    · exact absurd (hbytes b hm).1 (UInt8.not_le.mpr hlt)
    · exact absurd (hbytes b hm).2 (UInt8.not_le.mpr hlt)
  have hblank : ∀ b ∈ hop, ¬ isBlank b = true := by
    intro b hb hblank
    rcases Bool.or_eq_true _ _ ▸ hblank with h | h
    · exact hno 0x20 (by decide) (beq_iff_eq.mp h ▸ hb)
    · exact hno 0x09 (by decide) (beq_iff_eq.mp h ▸ hb)
  have htrim : trim hop = hop := by
    rw [trim, dropWhile_eq_self_iff.mpr fun hl => hblank _ (getElem_mem hl),
      rdropWhile_eq_self_iff.mpr fun hl => hblank _ (getLast_mem hl)]
  refine ⟨⟨hne, hno _ (by decide), hno _ (by decide), Nat.lt_of_le_of_lt hlen (by decide), ?_⟩,
    htrim, ?_⟩
  · rw [htrim, bracketed, contains_eq_mem, decide_eq_false (hno 0x5D (by decide)), Bool.and_false]
  · rw [count_eq_zero.mpr (hno 0x3A (by decide))]
    decide

/-! ## reading the line again -/

theorem hopsOf_blank (text : List UInt8) : hopsOf (0x20 :: text) = hopsOf text := by
  obtain ⟨first, rest, hsplit⟩ := exists_cons_of_ne_nil (splitOnP_ne_nil isComma text)
  unfold hopsOf
  rw [splitOnP_cons_eq_if_modifyHead, hsplit]
  rfl

theorem chainPut_hops {outlen : Nat} {out text out' : List UInt8}
    (h : chainPut outlen out text = some out') :
    hopsOf out' = hopsOf out ++ hopsOf text ∧ (0 ∉ out → 0 ∉ text → 0 ∉ out') := by
  obtain ⟨-, h⟩ := Option.ite_none_left_eq_some.mp h
  obtain rfl := Option.some.inj h
  split
  · next hnil =>
    subst hnil
    exact ⟨rfl, fun _ htext => htext⟩
  · exact ⟨by rw [hopsOf_comma, hopsOf_blank], fun hout htext => by simp [hout, htext]⟩

theorem chain_hops {outlen : Nat} (texts : List (List UInt8)) {out out' : List UInt8}
    (h : texts.foldlM (chainPut outlen) out = some out') (hout : 0 ∉ out)
    (hkept : ∀ text ∈ texts, Kept text) :
    hopsOf out' = hopsOf out ++ keptOf texts ∧ 0 ∉ out' := by
  induction texts generalizing out with
  | nil =>
    obtain rfl := Option.some.inj h
    exact ⟨(append_nil _).symm, hout⟩
  | cons text texts ih =>
    obtain ⟨mid, hput, hrest⟩ := Option.bind_eq_some_iff.mp h
    obtain ⟨htext, htexts⟩ := forall_mem_cons.mp hkept
    obtain ⟨hhops, hzero⟩ := chainPut_hops hput
    obtain ⟨hih, hz⟩ := ih hrest (hzero hout htext.zero) htexts
    refine ⟨?_, hz⟩
    rw [hih, hhops, htext.hopsOf, append_assoc, keptOf, keptOf, ← filter_append]
    rfl

/-- **a chain passed on**: the next gateway reads the hops as they were, in normal form, with the
peer behind them, exactly where every hop kept is plain -/
theorem chain_kept_iff (lines : List (List UInt8)) (peer : List UInt8) (addr : UInt32) (outlen : Nat)
    (out : List UInt8) (hlen : (build lines).hops.length ≤ 15) (hpeer : inetPton4 peer = some addr)
    (hout : l7ChainAppendPeer (build lines) peer outlen = some out) :
    ((l7HopListFromXff out).hops = (build lines).hops ++ [peer] ∧
      (∀ inetPton ranges p n, l7AttributeOrigin inetPton (l7HopListFromXff out) ranges p n =
        l7AttributeOrigin inetPton ((build lines).push peer) ranges p n) ∧
      ∀ hop ∈ (build lines).hops, l7HopNormalise hop = hop) ↔
    ∀ hop ∈ (build lines).hops, Plain hop := by
  have hself : ∀ hop ∈ (build lines).hops, (l7HopNormalise hop = hop ↔ Plain hop) :=
    fun hop hhop => (kept_of_build hhop).normalise_self_iff
  refine ⟨fun h hop hhop => (hself hop hhop).mp (h.2.2 hop hhop), fun hplain => ?_⟩
  obtain ⟨hkept, hpeer⟩ := address_plain hpeer
  have htexts : ∀ text ∈ (build lines).hops ++ [peer], Kept text ∧ l7HopNormalise text = text := by
    rw [forall_mem_append, forall_mem_singleton]
    exact ⟨fun hop hhop => ⟨kept_of_build hhop, (hself hop hhop).mpr (hplain hop hhop)⟩, hkept,
      hkept.normalise_self_iff.mpr hpeer⟩
  have hsame : keptOf ((build lines).hops ++ [peer]) = (build lines).hops ++ [peer] := by
    rw [keptOf, map_congr_left (g := id) fun text htext => (htexts text htext).2, map_id,
      filter_eq_self.mpr fun text htext => decide_eq_true (htexts text htext).1.ne]
  obtain ⟨hhops, hzero⟩ := chain_hops _ (Option.ite_none_left_eq_some.mp hout).2 not_mem_nil
    fun text htext => (htexts text htext).1
  have hread : out.takeWhile (· != 0) = out := by
    rw [takeWhile_eq_self_iff]
    exact fun b hb => bne_iff_ne.mpr (ne_of_mem_of_not_mem hb hzero)
  have hpush : (l7HopListFromXff out).hops = ((build lines).push peer).hops := by
    rw [l7HopListFromXff, hread, hops_build, flatMap_singleton, hhops, hsame, hops_push]
    rfl
  refine ⟨?_, fun inetPton ranges p n => ?_, fun hop hhop => (hself hop hhop).mpr (hplain hop hhop)⟩
  · have hroom : (build lines).hops.length ≠ maxHops := Nat.ne_of_lt (Nat.lt_succ_of_le hlen)
    rw [hpush, HopList.push, dif_neg hroom]
  · rw [l7AttributeOrigin, hpush]
    rfl

theorem address_passed_on :
    (l7HopListFromXff (ascii "1.2.3.4, 5.6.7.8")).hops = [ascii "1.2.3.4", ascii "5.6.7.8"] :=
  ((chain_kept_iff [ascii "1.2.3.4"] (ascii "5.6.7.8") 0x05060708 128 _ (by decide +kernel)
    (by decide +kernel) (by decide +kernel)).mpr (by unfold Plain; decide +kernel)).1

/-- an address in brackets is kept with its port and read again without it -/
theorem bracketed_port_lost :
    (build [ascii "[1.2.3.4:80]"]).hops = [ascii "1.2.3.4:80"] ∧
    ((l7ChainAppendPeer (build [ascii "[1.2.3.4:80]"]) (ascii "5.6.7.8") 128).map fun out =>
      (l7HopListFromXff out).hops) = some [ascii "1.2.3.4", ascii "5.6.7.8"] := by
  decide +kernel

end L7
