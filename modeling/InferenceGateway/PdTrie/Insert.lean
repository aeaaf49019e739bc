import InferenceGateway.PdTrie.Edits
import InferenceGateway.PdTrie.Match

/-!
# Learning an endpoint

`pd_trie_insert` walks down while whole labels match.  It ends in one of four ways: at a node that
spells the text, at a node without an entry for the next byte (a leaf is hung there), or inside an edge,
which it splits; the split point is the text itself, or it gets the old child's endpoint and a leaf.

* `Inserted`         what an insertion does to the stored texts;
* `insertLoop_spec`  the loop, from any node that spells a beginning of the text.
-/

open Function List Option Nat

namespace PdTrie

open Spell (Leads)
open Function (update)

/-! ## what the helpers leave -/

def withLeaf (t : Trie) (p : Addr) (n : Node) (k : UInt8) (text : List UInt8) (epIdx : Int) (now : Nat) : Trie :=
  { (t.put p (some { n with children := (k, t.next) :: n.children })).put t.next
      (some { label := text, children := [], parent := some p, parentKey := k, epIdx := epIdx, accessTs := now })
    with next := t.next + 1, nodeCount := t.nodeCount + 1 }

variable {t : Trie} {p c cur : Addr} {n m : Node} {text : List UInt8} {k k' : UInt8}
  {pre post : List (UInt8 × Addr)} {j : Nat} {path : Addr → List UInt8}

theorem newLeaf_eq (hp : t.heap p = some n) (hpn : p ≠ t.next) (hk : text.head? = some k)
    (epIdx : Int) (now : Nat) :
    newLeaf t p text epIdx now = some (withLeaf t p n k text epIdx now) := by
  have hkey : text.headD 0 = k := by
    rw [headD_eq_head?_getD, hk]
    rfl
  simp only [newLeaf, allocNode, addChild, Trie.modify, Trie.put, update_self,
    update_of_ne hpn, update_of_ne hpn.symm, map_some, hp, hkey, withLeaf,
    bind_eq_bind, bind_some, Option.some.injEq, Trie.mk.injEq, and_true]
  funext b
  grind

theorem withLeaf_heap (t : Trie) (p : Addr) (n : Node) (k : UInt8) (text : List UInt8) (epIdx : Int) (now : Nat)
    (a : Addr) : (withLeaf t p n k text epIdx now).heap a = if a = t.next then
      some { label := text, children := [], parent := some p, parentKey := k, epIdx := epIdx, accessTs := now }
      else if a = p then some { n with children := (k, t.next) :: n.children } else t.heap a := by
  rw [withLeaf, Trie.put_heap, Trie.put_heap, update_apply, update_apply]

def withSplit (t : Trie) (p c : Addr) (n m : Node) (k k' : UInt8) (pre post : List (UInt8 × Addr))
    (l l' : List UInt8) : Trie :=
  { ((t.put p (some { n with children := pre ++ (k, t.next) :: post })).put t.next
      (some { label := l, children := [(k', c)], parent := some p, parentKey := k, epIdx := -1, accessTs := 0 })).put c
      (some { m with label := l', parent := some t.next, parentKey := k' })
    with next := t.next + 1, nodeCount := t.nodeCount + 1 }

theorem splitEdge_eq (hp : t.heap p = some n) (hc : t.heap c = some m) (hpn : p ≠ t.next)
    (hcn : c ≠ t.next) (hpc : p ≠ c) (hch : n.children = pre ++ (k, c) :: post)
    (hpre : ∀ d ∈ pre, d.1 ≠ k) (hk' : (m.label.drop j).head? = some k') :
    splitEdge t p k c m.label j =
      some (withSplit t p c n m k k' pre post (m.label.take j) (m.label.drop j), t.next) := by
  have hkey : (m.label.drop j).headD 0 = k' := by
    rw [headD_eq_head?_getD, hk']
    rfl
  have hred : redirect (·.1 == k) (k, t.next) n.children = pre ++ (k, t.next) :: post := by
    rw [hch]
    exact redirect_eq Prod.fst hpre rfl
  simp only [splitEdge, allocNode, addChild, Trie.modify, Trie.put, update_self,
    update_of_ne hpn, update_of_ne hpn.symm, update_of_ne hcn,
    update_of_ne hcn.symm, update_of_ne hpc.symm,
    map_some, hp, hc, hkey, hred, withSplit,
    bind_eq_bind, bind_some, Option.some.injEq, Prod.mk.injEq, Trie.mk.injEq, and_true]
  funext b
  grind

theorem withSplit_heap (t : Trie) (p c : Addr) (n m : Node) (k k' : UInt8) (pre post : List (UInt8 × Addr))
    (l l' : List UInt8) (a : Addr) : (withSplit t p c n m k k' pre post l l').heap a =
      if a = c then some { m with label := l', parent := some t.next, parentKey := k' }
      else if a = t.next then
        some { label := l, children := [(k', c)], parent := some p, parentKey := k, epIdx := -1, accessTs := 0 }
      else if a = p then some { n with children := pre ++ (k, t.next) :: post } else t.heap a := by
  rw [withSplit, Trie.put_heap, Trie.put_heap, Trie.put_heap, update_apply, update_apply,
    update_apply]

theorem Shape.withLeaf (hs : Shape t path) (hp : t.heap p = some n)
    (hk : k ∉ n.children.map Prod.fst) (hhead : text.head? = some k) (epIdx : Int) (now : Nat) :
    Shape (withLeaf t p n k text epIdx now) (update path t.next (path p ++ text)) := by
  refine hs.addLeaf (frame_of_heap hp) rfl rfl rfl hk hhead fun b => ?_
  change ((t.put _ _).put _ _).frame b = _
  rw [frame_put, frame_put, update_apply, update_apply]
  rfl

/-! ## what an insertion does to the stored texts -/

/-- the text is where an insertion of `x` splits an edge: the longest common prefix of `x` with the path
of a node, and the endpoint is that of the first node past it -/
structure SplitPoint (t : Trie) (x y : List UInt8) (e : Int) : Prop where
  inside : y ≠ [] ∧ y <+: x ∧ y ≠ x
  child : ∃ z a n, Leads (Edge t) t.root z a ∧ t.heap a = some n ∧ n.epIdx = e ∧ y <+: z ∧ y ≠ z ∧
    ∀ z' a', Leads (Edge t) t.root z' a' → y <+: z' → z <+: z'
  longest : ∀ z a w, Leads (Edge t) t.root z a → w <+: x → w <+: z → w.length ≤ y.length

/-- the text is stored with the endpoint, at most the split point is added, and the rest is as it was -/
def Inserted (t t' : Trie) (x : List UInt8) (epIdx : Int) : Prop :=
  ∃ added : Option (List UInt8 × Int), (∀ y e, added = some (y, e) → SplitPoint t x y e) ∧
    ∀ y e, Stored t' y e ↔ (y = x ∧ e = epIdx ∧ 0 ≤ e) ∨ (y ≠ x ∧ Stored t y e) ∨ (added = some (y, e) ∧ 0 ≤ e)

section
variable {t t' : Trie} {path path' : Addr → List UInt8} {target : Addr} {x : List UInt8} {epIdx : Int}

theorem stored_of_nodes (hs : Shape t path) (hs' : Shape t' path') (added : Option (List UInt8 × Int))
    (htarget : ∃ n, t'.heap target = some n ∧ n.epIdx = epIdx ∧ path' target = x)
    (hold : ∀ a n, t.heap a = some n → a ≠ target →
      ∃ n', t'.heap a = some n' ∧ n'.epIdx = n.epIdx ∧ path' a = path a)
    (hnew : ∀ a n', t'.heap a = some n' → a ≠ target →
      (∃ n, t.heap a = some n ∧ n'.epIdx = n.epIdx ∧ path' a = path a) ∨ added = some (path' a, n'.epIdx))
    (hadded : ∀ y e, added = some (y, e) → ∃ a n', t'.heap a = some n' ∧ path' a = y ∧ n'.epIdx = e)
    (hsame : t.heap target = none ∨ path target = x) (y : List UInt8) (e : Int) :
    Stored t' y e ↔ (y = x ∧ e = epIdx ∧ 0 ≤ e) ∨ (y ≠ x ∧ Stored t y e) ∨ (added = some (y, e) ∧ 0 ≤ e) := by
  obtain ⟨m, hm, hem, hpath⟩ := htarget
  rw [hs'.stored_iff, hs.stored_iff]
  constructor
  · rintro ⟨a, n', hn', rfl, rfl, hpos⟩
    by_cases ha : a = target
    · rw [ha, hm] at hn'
      cases hn'
      exact .inl ⟨ha ▸ hpath, hem, hpos⟩
    · rcases hnew a n' hn' ha with ⟨n, hn, hen, hpa⟩ | hadd
      · refine .inr (.inl ⟨?_, a, n, hn, hpa.symm, hen.symm, hpos⟩)
        rw [← hpath]
        exact fun heq => ha (hs'.path_inj hn' hm heq)
      · exact .inr (.inr ⟨hadd, hpos⟩)
  · rintro (⟨rfl, rfl, hpos⟩ | ⟨hne, a, n, hn, rfl, rfl, hpos⟩ | ⟨hadd, hpos⟩)
    · exact ⟨target, m, hm, hpath, hem, hpos⟩
    · have ha : a ≠ target := by
        rintro rfl
        exact hne (hsame.resolve_left (by rw [hn]; exact nofun))
      obtain ⟨n', hn', hen, hpa⟩ := hold a n hn ha
      exact ⟨a, n', hn', hpa, hen, hpos⟩
    · obtain ⟨a, n', hn', hpa, hen⟩ := hadded y e hadd
      exact ⟨a, n', hn', hpa, hen, hpos⟩

end

/-! ## where the loop ends -/

/-- an insertion that came out well -/
def Outcome (t : Trie) (x : List UInt8) (epIdx : Int) (r : Option Trie) : Prop :=
  ∃ t' path', r = some t' ∧ Shape t' path' ∧ Inserted t t' x epIdx

variable (epIdx : Int) (now : Nat)

section
variable {t : Trie} {path : Addr → List UInt8} (hs : Shape t path) {cur : Addr} {n : Node}
  {text x : List UInt8} (hcur : t.heap cur = some n) (hx : path cur ++ text = x)
include hs hcur hx

theorem insert_here (htext : text = []) :
    Outcome t x epIdx (t.modify cur fun n => { n with epIdx := epIdx, accessTs := now }) := by
  subst htext
  rw [append_nil] at hx
  have hmod := Trie.modify_eq hcur fun n => { n with epIdx := epIdx, accessTs := now }
  have hsame := SameFrame.of_modify hmod fun _ => rfl
  refine ⟨_, path, hmod, hsame.shape hs, none, nofun, ?_⟩
  apply stored_of_nodes hs (hsame.shape hs) none ⟨_, update_self _ _ _, rfl, hx⟩
  · intro a m hm ha
    exact ⟨m, by rw [Trie.put_heap, update_of_ne ha, hm], rfl, rfl⟩
  · intro a m' hm' ha
    rw [Trie.put_heap, update_of_ne ha] at hm'
    exact .inl ⟨m', hm', rfl, rfl⟩
  · exact nofun
  · exact .inr hx

theorem insert_leaf {b : UInt8} {rest : List UInt8} (htext : text = b :: rest) (hfind : n.findChild b = none) :
    Outcome t x epIdx (newLeaf t cur text epIdx now) := by
  have hpn := hs.ne_next (frame_of_heap hcur)
  have hhead : text.head? = some b := by
    rw [htext]
    rfl
  have hfresh := hs.fresh (le_refl t.next)
  have hkey : b ∉ n.children.map Prod.fst := by
    intro hmem
    obtain ⟨⟨k, c⟩, hin, rfl⟩ := List.mem_map.mp hmem
    rw [Node.findChild, map_eq_none_iff, find?_eq_none] at hfind
    exact hfind (k, c) hin (beq_self_eq_true k)
  have hshape := hs.withLeaf hcur hkey hhead epIdx now
  have hheap := withLeaf_heap t cur n b text epIdx now
  refine ⟨_, _, newLeaf_eq hcur hpn hhead epIdx now, hshape, none, by simp, ?_⟩
  have htarget : ∃ m, (withLeaf t cur n b text epIdx now).heap t.next = some m ∧ m.epIdx = epIdx ∧
      update path t.next (path cur ++ text) t.next = x :=
    ⟨_, by rw [hheap, if_pos rfl], rfl, by rw [update_self, hx]⟩
  apply stored_of_nodes hs hshape none htarget
  · intro a m hm ha
    grind
  · intro a m' hm' ha
    grind
  · simp
  · exact .inl hfresh

omit hs hcur hx in
theorem take_ne_nil {l : List UInt8} {j : Nat} (hpos : 0 < j) (hlabel : j < l.length) : l.take j ≠ [] := by
  intro hnil
  have hzero := congrArg length hnil
  rw [length_take, length_nil] at hzero
  omega

theorem splitPoint {c : Addr} {m : Node} (hc : t.heap c = some m) (he : Edge t cur m.label c) {j : Nat}
    (hj : j = sharedPrefixLen m.label text) (hpos : 0 < j) (hlabel : j < m.label.length) (hlen : j < text.length) :
    SplitPoint t x (path cur ++ m.label.take j) m.epIdx := by
  have htake : m.label.take j = text.take j := by
    rw [hj]
    exact (sharedPrefixLen_spec _ _).2
  have hroot := hs.tree.leads_root (by rw [hcur]; rfl)
  have hroot' := hs.tree.leads_root (by rw [hc]; rfl)
  have hpath := hs.tree.edge_path he
  -- every node past the cut lies below the child
  have hpast : ∀ z a, Leads (Edge t) t.root z a → path cur ++ m.label.take j <+: z → path c <+: z := by
    rintro z a hlead ⟨r, rfl⟩
    rw [append_assoc] at hlead
    have hbelow := hs.tree.leads_through hroot hlead
    rcases Spell.leads_iff.mp hbelow with ⟨hnil, -⟩ | ⟨c', l', y, he', hy, -⟩
    · exact absurd (append_eq_nil_iff.mp hnil).1 (take_ne_nil hpos hlabel)
    · have hhead : m.label.head? = l'.head? := by
        rw [← hs.tree.head_append he', ← hy]
        cases hml : m.label with
        | nil =>
          rw [hml] at hlabel
          exact absurd hlabel (not_lt_zero _)
        | cons b l =>
          obtain ⟨i, rfl⟩ := Nat.exists_eq_add_of_le' hpos
          rfl
      obtain ⟨-, rfl⟩ := hs.tree.edge_unique he he' hhead
      refine ⟨y, ?_⟩
      rw [hpath, append_assoc, append_assoc, hy]
  have hinside : path cur ++ m.label.take j <+: x := by
    rw [← hx, htake]
    exact (prefix_append_right_inj _).mpr ( take_prefix _ _)
  have hcut : ∀ l, j < l.length → path cur ++ m.label.take j ≠ path cur ++ l := by
    intro l hl heq
    have hlen := congrArg length (append_cancel_left heq)
    rw [length_take] at hlen
    omega
  refine ⟨⟨?_, hinside, hx ▸ hcut text hlen⟩, ?_, ?_⟩
  · exact fun hnil => take_ne_nil hpos hlabel (append_eq_nil_iff.mp hnil).2
  · refine ⟨path c, c, m, hroot', hc, rfl, ?_, ?_, hpast⟩
    · rw [hpath]
      exact (prefix_append_right_inj _).mpr ( take_prefix _ _)
    · rw [hpath]
      exact hcut m.label hlabel
  · -- one byte more and the text would go on along the edge
    intro z a w hlead hwx hwz
    by_contra hlong
    have hcw : path cur ++ m.label.take j <+: w := prefix_of_prefix_length_le hinside hwx (by omega)
    obtain ⟨r, hr⟩ := hpast z a hlead (hcw.trans hwz)
    obtain ⟨u, hu⟩ := hwx
    obtain ⟨u', hu'⟩ := hwz
    have hat : (path cur).length + j < w.length := by
      rw [length_append, length_take] at hlong
      omega
    have hxw : x[(path cur).length + j]? = w[(path cur).length + j]? := by
      rw [← hu, getElem?_append_left hat]
    have hzw : z[(path cur).length + j]? = w[(path cur).length + j]? := by
      rw [← hu', getElem?_append_left hat]
    rw [← hx, getElem?_append_right (by omega), Nat.add_sub_cancel_left] at hxw
    rw [← hr, hpath, append_assoc, getElem?_append_right (by omega), Nat.add_sub_cancel_left,
      getElem?_append_left hlabel] at hzw
    have hsame := hzw.trans hxw.symm
    rw [getElem?_eq_getElem hlabel, getElem?_eq_getElem hlen, Option.some.injEq] at hsame
    refine head_after_shared m.label text _ _ ?_ ?_ hsame
    · rw [← hj, head?_drop, getElem?_eq_getElem hlabel]
    · rw [← hj, head?_drop, getElem?_eq_getElem hlen]

end

theorem sharedPrefixLen_pos {l rest : List UInt8} {b : UInt8} (h : l.head? = some b) :
    0 < sharedPrefixLen l (b :: rest) := by
  cases l with
  | nil => cases h
  | cons a l =>
    cases h
    rw [sharedPrefixLen, if_pos rfl]
    exact succ_pos _

theorem Shape.withSplit (hs : Shape t path) (hcur : t.heap cur = some n) (hc : t.heap c = some m)
    (hch : n.children = pre ++ (k, c) :: post) (hpos : 0 < j) (hlabel : j < m.label.length)
    (hk' : (m.label.drop j).head? = some k') :
    Shape (withSplit t cur c n m k k' pre post (m.label.take j) (m.label.drop j))
      (update path t.next (path cur ++ m.label.take j)) := by
  refine hs.splitEdge (frame_of_heap hcur) rfl rfl rfl hch (frame_of_heap hc)
    (take_append_drop j m.label).symm (take_ne_nil hpos hlabel) hk' fun b => ?_
  change (((t.put _ _).put _ _).put _ _).frame b = _
  rw [frame_put, frame_put, frame_put, update_apply, update_apply, update_apply]
  rfl

section
variable {t : Trie} {path : Addr → List UInt8} (hs : Shape t path) {cur c : Addr} {n m : Node}
  {text rest x : List UInt8} {b k' : UInt8} {pre post : List (UInt8 × Addr)} {j : Nat}
  (hcur : t.heap cur = some n) (hx : path cur ++ text = x) (hc : t.heap c = some m)
  (hch : n.children = pre ++ (b, c) :: post)
  (hj : j = sharedPrefixLen m.label text) (hpos : 0 < j) (hlabel : j < m.label.length)
  (hk' : (m.label.drop j).head? = some k')
include hs hcur hx hc hch hj hpos hlabel hk'

theorem insert_split_here (hlen : ¬ j < text.length) :
    Outcome t x epIdx ((withSplit t cur c n m b k' pre post (m.label.take j) (m.label.drop j)).modify t.next
      fun n => { n with epIdx := epIdx, accessTs := now }) := by
  have hcn := hs.ne_next (frame_of_heap hc)
  have hshape := hs.withSplit hcur hc hch hpos hlabel hk'
  have htake : m.label.take j = text := by
    rw [hj, (sharedPrefixLen_spec _ _).2, ← hj]
    exact take_of_length_le (not_lt.mp hlen)
  have hheap := withSplit_heap t cur c n m b k' pre post (m.label.take j) (m.label.drop j)
  have hq := hheap t.next
  rw [if_neg hcn.symm, if_pos rfl] at hq
  have hmod := Trie.modify_eq hq fun n => { n with epIdx := epIdx, accessTs := now }
  have hsame := SameFrame.of_modify hmod fun _ => rfl
  refine ⟨_, _, hmod, hsame.shape hshape, none, nofun, ?_⟩
  have hfresh := hs.fresh (le_refl t.next)
  apply stored_of_nodes hs (hsame.shape hshape) none
    ⟨_, update_self _ _ _, rfl, by rw [update_self, htake, hx]⟩
  · intro a r hr ha
    rw [Trie.put_heap]
    grind
  · intro a r hr ha
    rw [Trie.put_heap] at hr
    grind
  · exact nofun
  · exact .inl hfresh

theorem insert_split_leaf (he : Edge t cur m.label c) (hlen : j < text.length) :
    Outcome t x epIdx (do
      let t' ← newLeaf (withSplit t cur c n m b k' pre post (m.label.take j) (m.label.drop j)) t.next
        (text.drop j) epIdx now
      t'.modify t.next fun n => if n.epIdx < 0 then { n with epIdx := m.epIdx } else n) := by
  have hcn := hs.ne_next (frame_of_heap hc)
  have hshape := hs.withSplit hcur hc hch hpos hlabel hk'
  have hheap := withSplit_heap t cur c n m b k' pre post (m.label.take j) (m.label.drop j)
  have hnext : (withSplit t cur c n m b k' pre post (m.label.take j) (m.label.drop j)).next = t.next + 1 := rfl
  generalize withSplit t cur c n m b k' pre post (m.label.take j) (m.label.drop j) = s at hshape hheap hnext
  obtain ⟨q, hq, hqc, hqe⟩ : ∃ q, s.heap t.next = some q ∧ q.children = [(k', c)] ∧ q.epIdx = -1 :=
    ⟨_, by rw [hheap, if_neg hcn.symm, if_pos rfl], rfl, rfl⟩
  -- the leaf hangs under the byte with which the text leaves the edge
  obtain ⟨k'', hk''⟩ : ∃ k'', (text.drop j).head? = some k'' := by
    rw [head?_drop, getElem?_eq_getElem hlen]
    exact ⟨_, rfl⟩
  have hkey : k'' ∉ q.children.map Prod.fst := by
    rw [hj] at hk' hk''
    rw [hqc, map_singleton, mem_singleton]
    exact (head_after_shared _ _ _ _ hk' hk'').symm
  have hnn : t.next ≠ s.next := hnext ▸ Nat.ne_of_lt (Nat.lt_succ_self _)
  have hshape' := hshape.withLeaf hq hkey hk'' epIdx now
  have hheap' := withLeaf_heap s t.next q k'' (text.drop j) epIdx now
  rw [newLeaf_eq hq hnn hk'' epIdx now]
  generalize withLeaf s t.next q k'' (text.drop j) epIdx now = s' at hshape' hheap'
  have hq' := hheap' t.next
  rw [if_neg hnn, if_pos rfl] at hq'
  have hmod := Trie.modify_eq hq' fun n => if n.epIdx < 0 then { n with epIdx := m.epIdx } else n
  have hsame := SameFrame.of_modify hmod fun n => (by split <;> rfl)
  rw [if_pos (by rw [hqe]; decide)] at hmod hsame
  have hpathx : path cur ++ m.label.take j ++ text.drop j = x := by
    rw [hj, (sharedPrefixLen_spec _ _).2, append_assoc, take_append_drop, hx]
  have hfresh := hs.fresh (le_refl t.next)
  have hfresh' : t.heap s.next = none := hs.fresh (hnext ▸ le_succ _)
  refine ⟨_, _, hmod, hsame.shape hshape', some (path cur ++ m.label.take j, m.epIdx), ?_, ?_⟩
  · rintro y e ⟨⟩
    exact splitPoint hs hcur hx hc he hj hpos hlabel hlen
  have htarget : ∃ r, (s'.put t.next
      (some { q with children := (k'', s.next) :: q.children, epIdx := m.epIdx })).heap
      s.next = some r ∧ r.epIdx = epIdx ∧ update (update path t.next (path cur ++ m.label.take j)) s.next
        (update path t.next (path cur ++ m.label.take j) t.next ++ text.drop j) s.next = x := by
    refine ⟨_, by rw [Trie.put_heap, update_of_ne hnn.symm, hheap', if_pos rfl], rfl, ?_⟩
    rw [update_self, update_self, hpathx]
  apply stored_of_nodes hs (hsame.shape hshape') _ htarget
  · intro a r hr ha
    have han : a ≠ t.next := by
      rintro rfl
      rw [hfresh] at hr
      cases hr
    rw [Trie.put_heap]
    grind
  · intro a r hr ha
    by_cases han : a = t.next
    · right
      rw [han, Trie.put_heap, update_self] at hr
      cases hr
      rw [han, update_of_ne hnn, update_self]
    · rw [Trie.put_heap] at hr
      grind
  · rintro y e ⟨⟩
    refine ⟨t.next, _, update_self _ _ _, ?_, rfl⟩
    rw [update_of_ne hnn, update_self]
  · exact .inl hfresh'

end

/-! ## the loop -/

/-- **an insertion from a node that spells a beginning of the text** -/
theorem insertLoop_spec (hs : Shape t path) {fuel : Nat} {x : List UInt8}
    (hcur : (t.heap cur).isSome) (hx : path cur ++ text = x) (hfuel : text.length ≤ fuel) :
    Outcome t x epIdx (insertLoop epIdx now fuel t cur text) := by
  induction fuel generalizing cur text with
  | zero =>
    obtain ⟨n, hn⟩ := isSome_iff_exists.mp hcur
    obtain rfl := length_eq_zero_iff.mp (le_zero.mp hfuel)
    exact insert_here epIdx now hs hn hx rfl
  | succ fuel ih =>
    obtain ⟨n, hn⟩ := isSome_iff_exists.mp hcur
    cases text with
    | nil => exact insert_here epIdx now hs hn hx rfl
    | cons b rest =>
      rw [insertLoop, hn, bind_eq_bind, bind_some]
      cases hfind : n.findChild b with
      | none => exact insert_leaf epIdx now hs hn hx rfl hfind
      | some c =>
        obtain ⟨hmem, m, hm, he, hhead⟩ := hs.edge_of_findChild hn hfind
        have hpos := @sharedPrefixLen_pos m.label rest b hhead
        have hle := (sharedPrefixLen_spec m.label (b :: rest)).1
        dsimp only
        rw [hm, bind_some]
        generalize hj : sharedPrefixLen m.label (b :: rest) = j at hpos hle
        by_cases hfull : j = m.label.length
        · rw [if_pos hfull]
          obtain ⟨rest', hrest⟩ := (sharedPrefixLen_eq_iff _ _).mp (hj.trans hfull)
          have hdrop : (b :: rest).drop j = rest' := by
            rw [← hrest, hfull]
            exact drop_left
          rw [hdrop]
          apply ih (by rw [hm]; rfl)
          · rw [hs.tree.edge_path he, append_assoc, hrest, hx]
          · have hlen := congrArg length hrest
            rw [length_append, length_cons] at hlen
            rw [length_cons] at hfuel
            omega
        · rw [if_neg hfull]
          obtain ⟨pre, post, hch, hpre⟩ := children_split hmem (hs.keys (frame_of_heap hn))
          obtain ⟨lc, hhang⟩ := (hs.entry_iff cur b c).mp ⟨n.toFrame, frame_of_heap hn, hmem⟩
          have hlabel : j < m.label.length := lt_of_le_of_ne hle hfull
          obtain ⟨k', hk'⟩ : ∃ k', (m.label.drop j).head? = some k' := by
            rw [head?_drop, getElem?_eq_getElem hlabel]
            exact ⟨_, rfl⟩
          rw [splitEdge_eq hn hm (hs.ne_next (frame_of_heap hn)) (hs.ne_next (frame_of_heap hm))
            (hs.hangs_ne hhang) hch hpre hk', bind_eq_bind, bind_some]
          by_cases hlen : j < (b :: rest).length
          · rw [if_pos hlen]
            exact insert_split_leaf epIdx now hs hn hx hm hch hj.symm hpos hlabel hk' he hlen
          · rw [if_neg hlen]
            exact insert_split_here epIdx now hs hn hx hm hch hj.symm hpos hlabel hk' hlen

end PdTrie
