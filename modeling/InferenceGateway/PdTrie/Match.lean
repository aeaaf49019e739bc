import InferenceGateway.PdTrie.Shape

/-!
# Matching a text

The walk of `pd_trie_match` follows the only path that spells a beginning of the text, so the last
endpoint it sees is that of the longest stored one.

* `matchLoop_spec`    what the loop finds from any node on;
* `pdTrieMatch_spec`  the hit is the longest stored prefix, and only times change.
-/

open Function List Option Nat

namespace PdTrie

open Spell (Leads)

/-! ## the shared prefix of two texts -/

section
variable (a b : List UInt8)

theorem sharedPrefixLen_spec : sharedPrefixLen a b ≤ a.length ∧
    a.take (sharedPrefixLen a b) = b.take (sharedPrefixLen a b) := by
  induction a, b using sharedPrefixLen.induct with
  | case1 a as bs ih => simpa [sharedPrefixLen] using ih
  | case2 a as b bs hne => simp [sharedPrefixLen, hne]
  | case3 a b h =>
    rw [sharedPrefixLen]
    · exact ⟨zero_le _, rfl⟩
    · exact h

theorem head_after_shared (x y : UInt8) (hx : (a.drop (sharedPrefixLen a b)).head? = some x)
    (hy : (b.drop (sharedPrefixLen a b)).head? = some y) : x ≠ y := by
  induction a, b using sharedPrefixLen.induct with
  | case1 a as bs ih =>
    simp only [sharedPrefixLen, if_true, drop_succ_cons] at hx hy
    exact ih hx hy
  | case2 a as b bs hne =>
    simp only [sharedPrefixLen, if_neg hne, drop_zero, head?_cons, Option.some.injEq] at hx hy
    rw [← hx, ← hy]
    exact hne
  | case3 a b h =>
    cases a with
    | nil => simp at hx
    | cons a as =>
      cases b with
      | nil => simp at hy
      | cons b bs => exact absurd rfl (h a as b bs rfl)

theorem sharedPrefixLen_eq_iff : sharedPrefixLen a b = a.length ↔ a <+: b := by
  constructor
  · intro h
    have htake := (sharedPrefixLen_spec a b).2
    rw [h, take_length] at htake
    rw [htake]
    exact take_prefix _ _
  · rintro ⟨c, rfl⟩
    induction a with
    | nil => rw [sharedPrefixLen]; rfl; simp
    | cons a as ih => simpa [sharedPrefixLen] using ih

end

/-! ## the children of a node -/

variable {t : Trie} {path : Addr → List UInt8} {a c cur : Addr} {n : Node} {b : UInt8}
  {text : List UInt8} {k : Nat} {e : Int}

theorem Shape.edge_of_findChild (hs : Shape t path) (hn : t.heap a = some n)
    (h : n.findChild b = some c) :
    (b, c) ∈ n.children ∧ ∃ m, t.heap c = some m ∧ Edge t a m.label c ∧ m.label.head? = some b := by
  obtain ⟨⟨k, c'⟩, hfind, rfl⟩ := map_eq_some_iff.mp h
  have hk := find?_some hfind
  have hmem := mem_of_find?_eq_some hfind
  rw [beq_iff_eq] at hk
  rw [← hk]
  obtain ⟨g, hg, -, -, hhead, -⟩ := hs.down (frame_of_heap hn) hmem
  obtain ⟨m, hm, rfl⟩ := frame_eq_some.mp hg
  exact ⟨hmem, m, hm, ⟨n.toFrame, k, m.toFrame, frame_of_heap hn, hmem, hg, rfl⟩, hhead⟩

theorem Shape.no_edge_of_findChild (hs : Shape t path) {l : List UInt8} (hn : t.heap a = some n)
    (h : n.findChild b = none) (he : Edge t a l c) : l.head? ≠ some b := by
  intro hhead
  obtain ⟨f, k, hf, hmem, hk⟩ := hs.edge_head he
  rw [frame_of_heap hn] at hf
  cases hf
  rw [hhead] at hk
  cases hk
  rw [Node.findChild, map_eq_none_iff, find?_eq_none] at h
  exact h (b, c) hmem (beq_self_eq_true b)

/-! ## what is seen from a node -/

/-- `k` bytes of the text, at least one, lead from the node to one with the endpoint -/
def Seen (t : Trie) (cur : Addr) (text : List UInt8) (k : Nat) (e : Int) : Prop :=
  1 ≤ k ∧ k ≤ text.length ∧ ∃ a n, Leads (Edge t) cur (text.take k) a ∧ t.heap a = some n ∧ n.epIdx = e ∧ 0 ≤ e

/-- the trie has the same nodes with the same endpoints: only times may have changed -/
structure Retimed (t t' : Trie) : Prop where
  same : SameFrame t t'
  eps : ∀ a, (t'.heap a).map Node.epIdx = (t.heap a).map Node.epIdx

namespace Retimed

variable {t t' t'' : Trie}

theorem refl (t : Trie) : Retimed t t := ⟨.refl t, fun _ => rfl⟩

theorem trans (h : Retimed t t') (h' : Retimed t' t'') : Retimed t t'' :=
  ⟨h.same.trans h'.same, fun a => (h'.eps a).trans (h.eps a)⟩

theorem symm (h : Retimed t t') : Retimed t' t :=
  ⟨⟨h.same.frame.symm, h.same.next.symm, h.same.root.symm, h.same.nodeCount.symm⟩, fun a => (h.eps a).symm⟩

variable {a : Addr} {e : Int} {x : List UInt8}

theorem of_modify {f : Node → Node} (h : t.modify a f = some t')
    (hf : ∀ n, (f n).toFrame = n.toFrame ∧ (f n).epIdx = n.epIdx) : Retimed t t' := by
  refine ⟨.of_modify h fun n => (hf n).1, ?_⟩
  intro b
  obtain ⟨n, hn, rfl⟩ := map_eq_some_iff.mp h
  by_cases hb : b = a
  · rw [hb, Trie.put_heap, update_self, hn, map_some, map_some, (hf n).2]
  · rw [Trie.put_heap, update_of_ne hb]

variable (h : Retimed t t')
include h

theorem ep {n : Node} (hn : t.heap a = some n) : ∃ m, t'.heap a = some m ∧ m.epIdx = n.epIdx := by
  have he := h.eps a
  rw [hn] at he
  obtain ⟨m, hm, hem⟩ := map_eq_some_iff.mp he
  exact ⟨m, hm, hem⟩

theorem seen {cur : Addr} {text : List UInt8} {k : Nat} (hseen : Seen t cur text k e) :
    Seen t' cur text k e := by
  obtain ⟨h1, hk, a, n, hlead, hn, rfl, he⟩ := hseen
  obtain ⟨m, hm, hem⟩ := h.ep hn
  rw [← edge_congr h.same.frame] at hlead
  exact ⟨h1, hk, a, m, hlead, hm, hem, he⟩

theorem stored (hst : Stored t x e) : Stored t' x e := by
  obtain ⟨a, n, hlead, hn, rfl, he⟩ := hst
  obtain ⟨m, hm, hem⟩ := h.ep hn
  rw [← edge_congr h.same.frame, ← h.same.root] at hlead
  exact ⟨a, m, hlead, hm, hem, he⟩

theorem stored_iff : Stored t' x e ↔ Stored t x e := ⟨h.symm.stored, h.stored⟩

end Retimed

theorem not_seen (h : ∀ {c l}, Edge t cur l c → ¬ l <+: text) : ¬ Seen t cur text k e := by
  rintro ⟨h1, hk, a, n, hlead, -⟩
  rcases Spell.leads_iff.mp hlead with ⟨hnil, -⟩ | ⟨c, l, y, he, hx, -⟩
  · have hlen := congrArg length hnil
    rw [length_take, length_nil] at hlen
    omega
  · exact h he (IsPrefix.trans ⟨y, hx.symm⟩ ( take_prefix k text))

namespace Shape

variable {t : Trie} {path : Addr → List UInt8} (hs : Shape t path) {cur c : Addr} {text rest l : List UInt8}
  {k : Nat} {e : Int}
include hs

theorem seen_iff (he : Edge t cur l c) {n : Node} (hn : t.heap c = some n) (htext : text = l ++ rest) :
    Seen t cur text k e ↔ (k = l.length ∧ n.epIdx = e ∧ 0 ≤ e) ∨
      (l.length < k ∧ Seen t c rest (k - l.length) e) := by
  have hpos := length_pos_of_ne_nil (hs.tree.edge_ne he)
  subst htext
  constructor
  · rintro ⟨h1, hk, a, m, hlead, hm, hem⟩
    rcases Spell.leads_iff.mp hlead with ⟨hnil, -⟩ | ⟨c', l', y, he', hx, hrest⟩
    · have hlen := congrArg length hnil
      rw [length_take, length_nil] at hlen
      omega
    · -- the walk can only leave by the same edge
      have hhead : l.head? = l'.head? := by
        rw [← hs.tree.head_append he', ← hx, head?_take, if_neg (by omega), hs.tree.head_append he]
      obtain ⟨rfl, rfl⟩ := hs.tree.edge_unique he he' hhead
      have hlk : l.length ≤ k := by
        have hlen := congrArg length hx
        rw [length_take, length_append, length_append] at hlen
        omega
      rw [take_append, take_of_length_le hlk] at hx
      have hy := append_cancel_left hx
      rw [← hy] at hrest
      rw [length_append] at hk
      rcases lt_or_eq_of_le hlk with hlt | heq
      · exact .inr ⟨hlt, by omega, by omega, a, m, hrest, hm, hem⟩
      · left
        rw [← heq, Nat.sub_self] at hrest
        have hac : c = a := hs.tree.leads_det (.refl c) hrest
        rw [← hac, hn] at hm
        cases hm
        exact ⟨heq.symm, hem⟩
  · rintro (⟨rfl, hem⟩ | ⟨hlt, h1, hk, a, m, hlead, hm, hem⟩)
    · refine ⟨hpos, by rw [length_append]; omega, c, n, ?_, hn, hem⟩
      rw [take_left]
      exact .of_edge he
    · refine ⟨by omega, by rw [length_append]; omega, a, m, ?_, hm, hem⟩
      rw [take_append, take_of_length_le (le_of_lt hlt)]
      exact .step he hlead

end Shape

/-- what the loop ends with: the last endpoint seen on the way, or what it came with -/
def Found (t : Trie) (cur : Addr) (text : List UInt8) (pos : Nat) (lastEp : Int) (lastEpPos : Nat) (ep : Int)
    (epPos : Nat) : Prop :=
  (ep = lastEp ∧ epPos = lastEpPos ∧ ∀ k e, ¬ Seen t cur text k e) ∨
    ∃ k, Seen t cur text k ep ∧ epPos = pos + k ∧ ∀ k' e, Seen t cur text k' e → k' ≤ k

theorem Retimed.found {t' : Trie} (h : Retimed t t') {pos lastEpPos epPos : Nat} {lastEp ep : Int}
    (hf : Found t cur text pos lastEp lastEpPos ep epPos) :
    Found t' cur text pos lastEp lastEpPos ep epPos := by
  rcases hf with ⟨hep, hpos, hno⟩ | ⟨k, hseen, hpos, hmax⟩
  · exact .inl ⟨hep, hpos, fun k e hseen => hno k e (h.symm.seen hseen)⟩
  · exact .inr ⟨k, h.seen hseen, hpos, fun k' e hseen' => hmax k' e (h.symm.seen hseen')⟩

section
variable {t : Trie} {path : Addr → List UInt8} (hs : Shape t path) {cur c : Addr} {text rest l : List UInt8}
  {n : Node} {pos lastEpPos epPos : Nat} {lastEp ep : Int}
include hs

section
variable (he : Edge t cur l c) (hn : t.heap c = some n) (htext : text = l ++ rest)
include he hn htext

theorem Shape.found_past {k : Nat}
    (hseen : Seen t c rest k ep) (hmax : ∀ k' e, Seen t c rest k' e → k' ≤ k) :
    Found t cur text pos lastEp lastEpPos ep (pos + l.length + k) := by
  have hiff := fun k e => hs.seen_iff (k := k) (e := e) he hn htext
  refine .inr ⟨l.length + k, (hiff _ _).mpr (.inr ⟨Nat.lt_add_of_pos_right hseen.1, ?_⟩), by omega, ?_⟩
  · rw [Nat.add_sub_cancel_left]
    exact hseen
  · intro k' e hk'
    rcases (hiff k' e).mp hk' with ⟨rfl, -⟩ | ⟨hlt, hseen'⟩
    · exact le_add_right _ _
    · have hle := hmax _ _ hseen'
      omega

theorem Shape.found_at_endpoint
    (hep : 0 ≤ n.epIdx) (hf : Found t c rest (pos + l.length) n.epIdx (pos + l.length) ep epPos) :
    Found t cur text pos lastEp lastEpPos ep epPos := by
  rcases hf with ⟨rfl, rfl, hno⟩ | ⟨k, hseen, rfl, hmax⟩
  · have hiff := fun k e => hs.seen_iff (k := k) (e := e) he hn htext
    refine .inr ⟨l.length, (hiff _ _).mpr (.inl ⟨rfl, rfl, hep⟩), rfl, ?_⟩
    intro k' e hk'
    rcases (hiff k' e).mp hk' with ⟨rfl, -⟩ | ⟨-, hseen'⟩
    · exact le_refl _
    · exact absurd hseen' (hno _ _)
  · exact hs.found_past he hn htext hseen hmax

theorem Shape.found_at_free
    (hep : ¬ 0 ≤ n.epIdx) (hf : Found t c rest (pos + l.length) lastEp lastEpPos ep epPos) :
    Found t cur text pos lastEp lastEpPos ep epPos := by
  rcases hf with ⟨rfl, rfl, hno⟩ | ⟨k, hseen, rfl, hmax⟩
  · refine .inl ⟨rfl, rfl, ?_⟩
    intro k' e hk'
    rcases (hs.seen_iff he hn htext).mp hk' with ⟨-, rfl, hpos⟩ | ⟨-, hseen'⟩
    · exact hep hpos
    · exact hno _ _ hseen'
  · exact hs.found_past he hn htext hseen hmax

end

end

/-- **the loop ends with the longest beginning of the text that has an endpoint** -/
theorem matchLoop_spec (clock : Nat → Nat) {path : Addr → List UInt8} {fuel : Nat} {t : Trie} {cur : Addr}
    {text : List UInt8} (hs : Shape t path) (hcur : (t.heap cur).isSome) (hfuel : text.length ≤ fuel) (pos : Nat)
    (lastEp : Int) (lastEpPos : Nat) : ∃ t' ep epPos,
      matchLoop clock fuel t cur pos text lastEp lastEpPos = some (t', ep, epPos) ∧ Retimed t t' ∧
        Found t cur text pos lastEp lastEpPos ep epPos := by
  induction fuel generalizing t cur text pos lastEp lastEpPos with
  | zero =>
    obtain rfl := length_eq_zero_iff.mp (le_zero.mp hfuel)
    refine ⟨t, lastEp, lastEpPos, rfl, .refl t, .inl ⟨rfl, rfl, ?_⟩⟩
    rintro k e ⟨h1, hk, -⟩
    exact absurd (h1.trans hk) (by decide)
  | succ fuel ih =>
    obtain ⟨n, hn⟩ := isSome_iff_exists.mp hcur
    -- the walk stops here when nothing can be seen past the node
    have hstop : (∀ {c l}, Edge t cur l c → ¬ l <+: text) →
        Found t cur text pos lastEp lastEpPos lastEp lastEpPos :=
      fun h => .inl ⟨rfl, rfl, fun k e => not_seen h⟩
    cases text with
    | nil =>
      refine ⟨t, lastEp, lastEpPos, rfl, .refl t, hstop ?_⟩
      intro c l he hp
      exact hs.tree.edge_ne he (prefix_nil.mp hp)
    | cons b rest =>
      rw [matchLoop, hn, bind_eq_bind, bind_some]
      cases hfind : n.findChild b with
      | none =>
        refine ⟨t, lastEp, lastEpPos, rfl, .refl t, hstop ?_⟩
        intro c l he hp
        apply hs.no_edge_of_findChild hn hfind he
        obtain ⟨y, hy⟩ := hp
        rw [← hs.tree.head_append he, hy]
        rfl
      | some c =>
        obtain ⟨-, m, hm, he, hhead⟩ := hs.edge_of_findChild hn hfind
        have hpos := length_pos_of_ne_nil (hs.tree.edge_ne he)
        dsimp only
        rw [hm, bind_some]
        by_cases hfull : sharedPrefixLen m.label (b :: rest) = m.label.length
        · obtain ⟨rest', hrest⟩ := (sharedPrefixLen_eq_iff _ _).mp hfull
          have hdrop : (b :: rest).drop m.label.length = rest' := by
            rw [← hrest]
            exact drop_left
          have hlen : rest'.length ≤ fuel := by
            have hlen := congrArg length hrest
            rw [length_append, length_cons] at hlen
            rw [length_cons] at hfuel
            omega
          rw [hfull, if_neg (by omega), if_pos rfl, hdrop]
          by_cases hep : m.epIdx ≥ 0
          · rw [if_pos hep]
            have hmod := Trie.modify_eq hm fun n => { n with accessTs := clock (pos + m.label.length) }
            have hre := Retimed.of_modify hmod fun _ => ⟨rfl, rfl⟩
            rw [hmod]
            obtain ⟨t', ep, epPos, hloop, hre', hfound⟩ := @ih _ c _ (hre.same.shape hs)
              (by rw [Trie.put_heap, update_self]; rfl) hlen (pos + m.label.length) m.epIdx
              (pos + m.label.length)
            exact ⟨t', ep, epPos, hloop, hre.trans hre',
              hs.found_at_endpoint he hm hrest.symm hep (hre.symm.found hfound)⟩
          · rw [if_neg hep]
            obtain ⟨t', ep, epPos, hloop, hre, hfound⟩ := ih hs (by rw [hm]; rfl) hlen
              (pos + m.label.length) lastEp lastEpPos
            exact ⟨t', ep, epPos, hloop, hre, hs.found_at_free he hm hrest.symm hep hfound⟩
        · -- the text leaves the edge before its end
          have hfound : Found t cur (b :: rest) pos lastEp lastEpPos lastEp lastEpPos := by
            apply hstop
            intro c' l' he' hp
            have hhead' : m.label.head? = l'.head? := by
              obtain ⟨y, hy⟩ := hp
              rw [hhead, ← hs.tree.head_append he', hy]
              rfl
            obtain ⟨-, rfl⟩ := hs.tree.edge_unique he he' hhead'
            exact hfull ((sharedPrefixLen_eq_iff _ _).mpr hp)
          refine ⟨t, lastEp, lastEpPos, ?_, .refl t, hfound⟩
          by_cases hzero : sharedPrefixLen m.label (b :: rest) = 0
          · rw [if_pos hzero]
          · rw [if_neg hzero, if_neg hfull]

/-- no endpoint is learned for the empty text -/
def RootFree (t : Trie) : Prop := ∀ e, ¬ Stored t [] e

theorem RootFree.epIdx_neg (h : RootFree t) (hn : t.heap t.root = some n) : n.epIdx < 0 := by
  by_contra hge
  exact h n.epIdx ⟨t.root, n, .refl _, hn, rfl, Int.not_lt.mp hge⟩

theorem seen_root (hfree : RootFree t) (hk : k ≤ text.length) :
    Seen t t.root text k e ↔ Stored t (text.take k) e := by
  constructor
  · rintro ⟨-, -, hseen⟩
    exact hseen
  · intro hst
    refine ⟨?_, hk, hst⟩
    rw [one_le_iff_ne_zero]
    rintro rfl
    exact hfree e hst

/-- **a match gives the longest stored prefix** and changes nothing but times -/
theorem pdTrieMatch_spec (hs : Shape t path) (hfree : RootFree t) (text : List UInt8)
    (clock : Nat → Nat) : ∃ t' hit, pdTrieMatch t text clock = some (t', hit) ∧ Retimed t t' ∧
      (∀ h, hit = some h → h.matched ≤ text.length ∧ h.len = text.length ∧
        Stored t (text.take h.matched) h.epIdx ∧
          ∀ k e, k ≤ text.length → Stored t (text.take k) e → k ≤ h.matched) ∧
      (hit = none → ∀ k e, k ≤ text.length → ¬ Stored t (text.take k) e) := by
  obtain ⟨f, hf, -⟩ := hs.root
  obtain ⟨r, hr, -⟩ := frame_eq_some.mp hf
  have hneg := hfree.epIdx_neg hr
  by_cases hnil : text = []
  · refine ⟨t, none, by rw [pdTrieMatch, if_pos hnil], .refl t, fun h hh => (by cases hh), ?_⟩
    intro _ k e hk hst
    have h1 := ((seen_root hfree hk).mpr hst).1
    rw [hnil] at hk
    exact absurd (h1.trans hk) (by decide)
  · obtain ⟨t', ep, epPos, hloop, hre, hfound⟩ := @matchLoop_spec clock path text.length t t.root
      text hs (by rw [hr]; rfl) (le_refl _) 0 (-1) 0
    refine ⟨t', if ep ≥ 0 then some ⟨ep, epPos, text.length⟩ else none, ?_, hre, ?_⟩
    · rw [pdTrieMatch, if_neg hnil, hr, bind_eq_bind, bind_some, if_neg (by omega), hloop]
      rfl
    · rcases hfound with ⟨rfl, rfl, hno⟩ | ⟨k, hseen, rfl, hmax⟩
      · refine ⟨fun h hh => (by cases hh), ?_⟩
        intro _ k e hk hst
        exact hno k e ((seen_root hfree hk).mpr hst)
      · have hpos : ep ≥ 0 := by
          obtain ⟨-, -, a, n, -, -, -, he⟩ := hseen
          exact he
        rw [if_pos hpos, Nat.zero_add]
        refine ⟨?_, fun h => (by cases h)⟩
        rintro h ⟨⟩
        refine ⟨hseen.2.1, rfl, (seen_root hfree hseen.2.1).mp hseen, ?_⟩
        intro k' e hk' hst
        exact hmax k' e ((seen_root hfree hk').mpr hst)

end PdTrie
