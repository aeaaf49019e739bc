import InferenceGateway.PdTrie.Prune

/-!
# Walks over the whole trie

`remove_ep_clear_dfs` and `find_oldest_leaf` visit every node once, below a node one child after the
other.  What lies below different children is disjoint, so the walk over the children composes, and fewer
nodes lie below a child than below its parent, so the fuel of the node count is enough.

* `removeEpClearDfs_spec`  every endpoint asked for is cleared and the leaves among them are collected;
* `findOldestLeaf_spec`    the leaf found is one used longest ago.
-/

open Function List Option

namespace PdTrie

open Spell (Leads)

/-- the node lies below another, or is it -/
def Below (t : Trie) (a b : Addr) : Prop := ∃ y, Leads (Edge t) a y b

variable {t t' : Trie} {path : Addr → List UInt8} {fuel : Nat} {a : Addr} {n : Node}
  {es : List (UInt8 × Addr)}

theorem below_congr (h : SameFrame t t') : Below t' = Below t := by
  funext a b
  rw [Below, Below, edge_congr h.frame]

/-- the fuel a walk from the node needs -/
noncomputable def need (t : Trie) (a : Addr) : Nat := Spell.Tree.size (Edge t) t.nodes a

theorem need_congr (h : SameFrame t t') (a : Addr) : need t' a = need t a := by
  rw [need, need, edge_congr h.frame, nodes_eq, nodes_eq, h.frame, h.next]

namespace Shape

variable {t : Trie} {path : Addr → List UInt8} (hs : Shape t path) {a : Addr} {n : Node} (ha : t.heap a = some n)
include hs ha

variable {e : UInt8 × Addr}

variable (he : e ∈ n.children)
include he

theorem edge_of_mem : ∃ m, t.heap e.2 = some m ∧ Edge t a m.label e.2 := by
  obtain ⟨g, hg, -⟩ := hs.down (frame_of_heap ha) he
  obtain ⟨m, hm, rfl⟩ := frame_eq_some.mp hg
  exact ⟨m, hm, n.toFrame, e.1, m.toFrame, frame_of_heap ha, he, hg, rfl⟩

theorem need_child : need t e.2 < need t a := by
  obtain ⟨m, -, hedge⟩ := hs.edge_of_mem ha he
  exact hs.tree.size_lt (hs.mem_nodes.mpr (by rw [ha]; rfl)) hedge

omit he in
theorem below_iff (b : Addr) : Below t a b ↔ b = a ∨ ∃ e ∈ n.children, Below t e.2 b := by
  constructor
  · rintro ⟨y, hy⟩
    rcases Spell.leads_iff.mp hy with ⟨-, rfl⟩ | ⟨c, l, z, ⟨f, k, g, hf, hmem, -⟩, -, hz⟩
    · exact .inl rfl
    · rw [frame_of_heap ha] at hf
      cases hf
      exact .inr ⟨(k, c), hmem, z, hz⟩
  · rintro (rfl | ⟨e, he, z, hz⟩)
    · exact ⟨[], .refl b⟩
    · obtain ⟨m, -, hedge⟩ := hs.edge_of_mem ha he
      exact ⟨_, .step hedge hz⟩

theorem below_apart {e' : UInt8 × Addr} (he' : e' ∈ n.children) {b : Addr} (hb : Below t e.2 b)
    (hb' : Below t e'.2 b) : e = e' := by
  obtain ⟨m, -, hedge⟩ := hs.edge_of_mem ha he
  obtain ⟨m', -, hedge'⟩ := hs.edge_of_mem ha he'
  obtain ⟨y, hy⟩ := hb
  obtain ⟨y', hy'⟩ := hb'
  have hc := hs.tree.apart hedge hedge' hy hy'
  have hf := frame_of_heap ha
  have hentry : Entry t a e'.1 e.2 := ⟨_, hf, by rw [hc]; exact he'⟩
  exact Prod.ext (hs.entry_unique ⟨_, hf, he⟩ hentry).2 hc

theorem not_below_child : ¬ Below t e.2 a := by
  rintro ⟨y, hy⟩
  obtain ⟨m, -, hedge⟩ := hs.edge_of_mem ha he
  exact hs.tree.not_above hedge hy

end Shape

/-! ## clearing an endpoint -/

def cleared (epIdx : Int) (n : Node) : Node := if n.epIdx = epIdx then { n with epIdx := -1 } else n

/-- the endpoint is cleared where the walk has been, and leaves that had it are collected -/
structure Swept (epIdx : Int) (t t' : Trie) (been : Addr → Prop) (added : List Addr) : Prop where
  same : SameFrame t t'
  inside : ∀ b n, t.heap b = some n → been b → t'.heap b = some (cleared epIdx n)
  outside : ∀ b, ¬ been b → t'.heap b = t.heap b
  nodup : added.Nodup
  victims : ∀ v ∈ added, been v ∧ ∃ n, t.heap v = some n ∧ n.children = [] ∧ n.epIdx = epIdx

namespace Swept

variable {epIdx : Int} {t t' t'' : Trie} {been been' : Addr → Prop} {added added' : List Addr}

theorem nil (epIdx : Int) (t : Trie) : Swept epIdx t t (fun _ => False) [] :=
  ⟨.refl t, fun _ _ _ h => h.elim, fun _ _ => rfl, nodup_nil, fun _ h => absurd h not_mem_nil⟩

theorem trans (h : Swept epIdx t t' been added) (h' : Swept epIdx t' t'' been' added')
    (hdis : ∀ b, been b → ¬ been' b) : Swept epIdx t t'' (fun b => been b ∨ been' b) (added ++ added') where
  same := h.same.trans h'.same
  inside := by
    rintro b n hn (hb | hb)
    · rw [h'.outside b (hdis b hb)]
      exact h.inside b n hn hb
    · rw [← h.outside b fun hb' => hdis b hb' hb] at hn
      exact h'.inside b n hn hb
  outside := by
    intro b hb
    rw [not_or] at hb
    rw [h'.outside b hb.2, h.outside b hb.1]
  nodup := by
    rw [nodup_append]
    refine ⟨h.nodup, h'.nodup, ?_⟩
    rintro v hv w hw rfl
    exact hdis v (h.victims v hv).1 (h'.victims v hw).1
  victims := by
    intro v hv
    rcases mem_append.mp hv with hv | hv
    · obtain ⟨hb, hrest⟩ := h.victims v hv
      exact ⟨.inl hb, hrest⟩
    · obtain ⟨hb, n, hn, hrest⟩ := h'.victims v hv
      rw [h.outside v fun hb' => hdis v hb' hb] at hn
      exact ⟨.inr hb, n, hn, hrest⟩

theorem congr (h : Swept epIdx t t' been added) (hb : ∀ b, been b ↔ been' b) : Swept epIdx t t' been' added := by
  have heq : been = been' := funext fun b => propext (hb b)
  exact heq ▸ h

end Swept

theorem clear_children (epIdx : Int) (hs : Shape t path) (ha : t.heap a = some n)
    (ih : ∀ {t c} (prune : List Addr), Shape t path → (t.heap c).isSome → need t c ≤ fuel →
      ∃ t' added, removeEpClearDfs epIdx fuel t c prune = some (t', prune ++ added) ∧
        Swept epIdx t t' (Below t c) added) (hneed : need t a ≤ fuel + 1) (hsub : es ⊆ n.children)
    (hnd : es.Nodup) {s : Trie} (hsame : SameFrame t s) (prune : List Addr) :
    ∃ s' added, es.foldlM (fun s e => removeEpClearDfs epIdx fuel s.1 e.2 s.2) (s, prune) =
        some (s', prune ++ added) ∧ Swept epIdx s s' (fun b => ∃ e ∈ es, Below t e.2 b) added := by
  induction es generalizing s prune with
  | nil =>
    refine ⟨s, [], by rw [append_nil]; rfl, (Swept.nil epIdx s).congr ?_⟩
    simp
  | cons e es ihes =>
    have hmem := hsub mem_cons_self
    rw [nodup_cons] at hnd
    obtain ⟨m, hm, -⟩ := hs.edge_of_mem ha hmem
    have hlive : (s.heap e.2).isSome := by
      have hf := congrFun hsame.frame e.2
      rw [frame_of_heap hm] at hf
      obtain ⟨m', hm', -⟩ := frame_eq_some.mp hf
      rw [hm']
      rfl
    have hlt := hs.need_child ha hmem
    obtain ⟨s1, added1, hrun1, hswept1⟩ := ih prune (hsame.shape hs) hlive (by rw [need_congr hsame]; omega)
    obtain ⟨s2, added2, hrun2, hswept2⟩ := ihes (fun d hd => hsub (mem_cons_of_mem _ hd)) hnd.2
      (hsame.trans hswept1.same) (prune ++ added1)
    refine ⟨s2, added1 ++ added2, ?_, ?_⟩
    · rw [foldlM_cons, hrun1, bind_eq_bind, bind_some, hrun2, append_assoc]
    · rw [below_congr hsame] at hswept1
      apply (hswept1.trans hswept2 _).congr
      · simp
      · rintro b hb ⟨d, hd, hbd⟩
        have hed := hs.below_apart ha hmem (hsub (mem_cons_of_mem _ hd)) hb hbd
        exact hnd.1 (hed ▸ hd)

theorem clear_self (epIdx : Int) (ha : t.heap a = some n) (prune : List Addr) :
    ∃ t' added, (if n.epIdx = epIdx then do
        let t ← t.modify a fun n => { n with epIdx := -1 }
        some (t, if n.children = [] ∧ prune.length < maxPruneBatch then prune ++ [a] else prune)
      else some (t, prune)) = some (t', prune ++ added) ∧ Swept epIdx t t' (· = a) added := by
  by_cases hep : n.epIdx = epIdx
  · have hmod := Trie.modify_eq ha fun n => { n with epIdx := -1 }
    have hswept : ∀ added, (added = [] ∨ added = [a] ∧ n.children = []) →
        Swept epIdx t (t.put a (some { n with epIdx := -1 })) (· = a) added := by
      intro added hadded
      refine ⟨.of_modify hmod fun _ => rfl, ?_, ?_, ?_, ?_⟩
      · rintro b m hm rfl
        rw [ha] at hm
        cases hm
        rw [Trie.put_heap, update_self, cleared, if_pos hep]
      · intro b hb
        rw [Trie.put_heap, update_of_ne hb]
      · rcases hadded with rfl | ⟨rfl, -⟩
        · exact nodup_nil
        · exact nodup_singleton a
      · intro v hv
        rcases hadded with rfl | ⟨rfl, hleaf⟩
        · exact absurd hv not_mem_nil
        · rw [mem_singleton] at hv
          exact ⟨hv, n, by rw [hv, ha], hleaf, hep⟩
    rw [if_pos hep, hmod]
    by_cases hleaf : n.children = [] ∧ prune.length < maxPruneBatch
    · exact ⟨_, [a], by simp [hleaf], hswept _ (.inr ⟨rfl, hleaf.1⟩)⟩
    · exact ⟨_, [], by simp [hleaf], hswept _ (.inl rfl)⟩
  · rw [if_neg hep]
    refine ⟨t, [], by rw [append_nil], .refl t, ?_, fun _ _ => rfl, nodup_nil,
      fun _ h => absurd h not_mem_nil⟩
    rintro b m hm rfl
    rw [ha] at hm
    cases hm
    rw [ha, cleared, if_neg hep]

/-- **the walk clears the endpoint below a node** and collects leaves that had it -/
theorem removeEpClearDfs_spec (epIdx : Int) (prune : List Addr) (hs : Shape t path)
    (ha : (t.heap a).isSome) (hneed : need t a ≤ fuel) :
    ∃ t' added, removeEpClearDfs epIdx fuel t a prune = some (t', prune ++ added) ∧
      Swept epIdx t t' (Below t a) added := by
  induction fuel generalizing t a prune with
  | zero => exact absurd hneed (Nat.not_le.mpr (Spell.Tree.size_pos (hs.mem_nodes.mpr ha)))
  | succ fuel ih =>
    obtain ⟨n, hn⟩ := isSome_iff_exists.mp ha
    have hnd := (hs.keys (frame_of_heap hn)).of_map
    obtain ⟨s, added, hrun, hswept⟩ := clear_children epIdx hs hn (fun prune => ih prune) hneed
      (List.Subset.refl _) hnd (.refl t) prune
    have hnot : ¬ ∃ e ∈ n.children, Below t e.2 a := fun ⟨e, he, hb⟩ => hs.not_below_child hn he hb
    have hout := (hswept.outside a hnot).trans hn
    obtain ⟨s', added', hself, hswept'⟩ := clear_self epIdx hout (prune ++ added)
    refine ⟨s', added ++ added', ?_, ?_⟩
    · rw [removeEpClearDfs, hn, bind_eq_bind, bind_some, hrun, bind_eq_bind, bind_some]
      dsimp only
      rw [hout, bind_some, hself, append_assoc]
    · apply (hswept.trans hswept' _).congr
      · intro b
        rw [hs.below_iff hn, or_comm]
      · rintro b hb rfl
        exact hnot hb

/-! ## the oldest leaf -/

def Evictable (n : Node) : Prop := 0 ≤ n.epIdx ∧ n.children = []

/-- the oldest leaf after a walk, from the oldest before it -/
structure Oldest (t : Trie) (been : Addr → Prop) (before after : Option (Addr × Nat)) : Prop where
  least : ∀ b n, t.heap b = some n → been b → Evictable n → ∃ o, after = some o ∧ o.2 ≤ n.accessTs
  notLater : ∀ o, before = some o → ∃ o', after = some o' ∧ o'.2 ≤ o.2
  found : ∀ o, after = some o → before = some o ∨
    ∃ n, been o.1 ∧ t.heap o.1 = some n ∧ Evictable n ∧ n.accessTs = o.2

namespace Oldest

variable {t : Trie} {been been' : Addr → Prop} {before mid after : Option (Addr × Nat)}

theorem nil (t : Trie) (before : Option (Addr × Nat)) : Oldest t (fun _ => False) before before :=
  ⟨fun _ _ _ h => h.elim, fun o h => ⟨o, h, le_refl _⟩, fun _ h => .inl h⟩

theorem trans (h : Oldest t been before mid) (h' : Oldest t been' mid after) :
    Oldest t (fun b => been b ∨ been' b) before after where
  least := by
    rintro b n hn (hb | hb) hleaf
    · obtain ⟨o, ho, hle⟩ := h.least b n hn hb hleaf
      obtain ⟨o', ho', hle'⟩ := h'.notLater o ho
      exact ⟨o', ho', hle'.trans hle⟩
    · exact h'.least b n hn hb hleaf
  notLater := by
    intro o ho
    obtain ⟨o', ho', hle⟩ := h.notLater o ho
    obtain ⟨o'', ho'', hle'⟩ := h'.notLater o' ho'
    exact ⟨o'', ho'', hle'.trans hle⟩
  found := by
    intro o ho
    rcases h'.found o ho with hmid | ⟨n, hb, hrest⟩
    · rcases h.found o hmid with hbefore | ⟨n, hb, hrest⟩
      · exact .inl hbefore
      · exact .inr ⟨n, .inl hb, hrest⟩
    · exact .inr ⟨n, .inr hb, hrest⟩

theorem congr (h : Oldest t been before after) (hb : ∀ b, been b ↔ been' b) : Oldest t been' before after := by
  have heq : been = been' := funext fun b => propext (hb b)
  exact heq ▸ h

end Oldest

theorem oldest_self (ha : t.heap a = some n) (before : Option (Addr × Nat)) :
    Oldest t (· = a) before (if n.epIdx ≥ 0 ∧ n.children = [] ∧ before.all (fun o => n.accessTs < o.2) then
      some (a, n.accessTs) else before) := by
  by_cases h : n.epIdx ≥ 0 ∧ n.children = [] ∧ before.all (fun o => n.accessTs < o.2)
  · rw [if_pos h]
    obtain ⟨hep, hleaf, hless⟩ := h
    refine ⟨?_, ?_, ?_⟩
    · rintro b m hm rfl -
      rw [ha] at hm
      cases hm
      exact ⟨_, rfl, le_refl _⟩
    · rintro o rfl
      exact ⟨_, rfl, Nat.le_of_lt (of_decide_eq_true hless)⟩
    · rintro o ⟨⟩
      exact .inr ⟨n, rfl, ha, ⟨hep, hleaf⟩, rfl⟩
  · rw [if_neg h]
    refine ⟨?_, fun o ho => ⟨o, ho, le_refl _⟩, fun _ ho => .inl ho⟩
    rintro b m hm rfl hleaf
    rw [ha] at hm
    cases hm
    cases before with
    | none => exact absurd ⟨hleaf.1, hleaf.2, rfl⟩ h
    | some o =>
      refine ⟨o, rfl, Nat.not_lt.mp fun hlt => h ⟨hleaf.1, hleaf.2, ?_⟩⟩
      exact decide_eq_true hlt

variable (hs : Shape t path)
include hs

theorem oldest_children (ha : t.heap a = some n)
    (ih : ∀ {c} (before : Option (Addr × Nat)), (t.heap c).isSome → need t c ≤ fuel →
      ∃ after, findOldestLeaf t fuel c before = some after ∧ Oldest t (Below t c) before after)
    (hneed : need t a ≤ fuel + 1) (hsub : es ⊆ n.children) (before : Option (Addr × Nat)) :
    ∃ after, es.foldlM (fun oldest e => findOldestLeaf t fuel e.2 oldest) before = some after ∧
      Oldest t (fun b => ∃ e ∈ es, Below t e.2 b) before after := by
  induction es generalizing before with
  | nil => exact ⟨before, rfl, (Oldest.nil t before).congr (by simp)⟩
  | cons e es ihes =>
    have hmem := hsub mem_cons_self
    obtain ⟨m, hm, -⟩ := hs.edge_of_mem ha hmem
    have hlt := hs.need_child ha hmem
    obtain ⟨mid, hrun, hold⟩ := ih before (by rw [hm]; rfl) (by omega : need t e.2 ≤ fuel)
    obtain ⟨after, hrun', hold'⟩ := ihes (fun d hd => hsub (mem_cons_of_mem _ hd)) mid
    refine ⟨after, ?_, (hold.trans hold').congr (by simp)⟩
    rw [foldlM_cons, hrun, bind_eq_bind, bind_some, hrun']

/-- **the leaf found below a node is one used longest ago** -/
theorem findOldestLeaf_spec (before : Option (Addr × Nat))
    (ha : (t.heap a).isSome) (hneed : need t a ≤ fuel) :
    ∃ after, findOldestLeaf t fuel a before = some after ∧ Oldest t (Below t a) before after := by
  induction fuel generalizing a before with
  | zero => exact absurd hneed (Nat.not_le.mpr (Spell.Tree.size_pos (hs.mem_nodes.mpr ha)))
  | succ fuel ih =>
    obtain ⟨n, hn⟩ := isSome_iff_exists.mp ha
    have hself := oldest_self hn before
    obtain ⟨after, hrun, hold⟩ := oldest_children hs hn (fun before => ih before) hneed (List.Subset.refl _)
      (if n.epIdx ≥ 0 ∧ n.children = [] ∧ before.all (fun o => n.accessTs < o.2) then some (a, n.accessTs) else before)
    refine ⟨after, ?_, (hself.trans hold).congr ?_⟩
    · rw [findOldestLeaf, hn, bind_eq_bind, bind_some, hrun]
    · intro b
      rw [hs.below_iff hn]

/-! ## from the root -/

theorem need_root_le : need t t.root ≤ t.nodeCount := by
  rw [hs.count]
  exact Spell.Tree.size_le _ _

theorem Shape.root_live : (t.heap t.root).isSome := by
  obtain ⟨f, hf, -⟩ := hs.root
  obtain ⟨n, hn, -⟩ := frame_eq_some.mp hf
  rw [hn]
  rfl

theorem Shape.below_root {b : Addr} (hb : t.heap b = some n) : Below t t.root b :=
  ⟨_, hs.tree.leads_root (by rw [hb]; rfl)⟩

/-- **forgetting an endpoint removes exactly what is stored with it** -/
theorem pdTrieRemoveEp_spec (epIdx : Int) :
    ∃ t', pdTrieRemoveEp t epIdx = some t' ∧ Shape t' path ∧ ∀ y e, Stored t' y e ↔ Stored t y e ∧ e ≠ epIdx := by
  obtain ⟨s, added, hrun, hswept⟩ := removeEpClearDfs_spec epIdx [] hs hs.root_live (need_root_le hs)
  have hshape := hswept.same.shape hs
  have hcleared : ∀ b n, t.heap b = some n → s.heap b = some (cleared epIdx n) :=
    fun b n hn => hswept.inside b n hn (hs.below_root hn)
  have hstored : ∀ y e, Stored s y e ↔ Stored t y e ∧ e ≠ epIdx := by
    intro y e
    rw [hs.stored_iff, hshape.stored_iff]
    constructor
    · rintro ⟨a, m, hm, rfl, rfl, hpos⟩
      obtain ⟨n, hn⟩ : ∃ n, t.heap a = some n := by
        have hf := congrFun hswept.same.frame a
        rw [frame_of_heap hm] at hf
        obtain ⟨n, hn, -⟩ := frame_eq_some.mp hf.symm
        exact ⟨n, hn⟩
      rw [hcleared a n hn] at hm
      cases hm
      rw [cleared] at hpos ⊢
      grind
    · rintro ⟨⟨a, n, hn, rfl, rfl, hpos⟩, hne⟩
      exact ⟨a, _, hcleared a n hn, rfl, by rw [cleared, if_neg hne], hpos⟩
  obtain ⟨t', hprune, hshape', hstored'⟩ := pruneLoop_spec hshape hswept.nodup (by
    intro v hv
    obtain ⟨-, n, hn, hleaf, hep⟩ := hswept.victims v hv
    refine ⟨_, hcleared v n hn, ?_, ?_⟩
    · rw [cleared, if_pos hep]
      exact hleaf
    · rw [cleared, if_pos hep]
      exact Int.negSucc_lt_zero 0)
  refine ⟨t', ?_, hshape', ?_⟩
  · rw [pdTrieRemoveEp, hrun]
    exact hprune
  · intro y e
    rw [hstored', hstored]

/-- **a round of eviction drops a leaf with the least access time** -/
theorem evictStep_spec (hfree : RootFree t) :
    (evictStep t = some none ∧ ∀ v n, t.heap v = some n → ¬ Evictable n) ∨
      ∃ t' v n, evictStep t = some (some t') ∧ Shape t' path ∧ t'.nodeCount < t.nodeCount ∧
        t.heap v = some n ∧ Evictable n ∧ (∀ w m, t.heap w = some m → Evictable m → n.accessTs ≤ m.accessTs) ∧
          ∀ y e, Stored t' y e ↔ Stored t y e ∧ y ≠ path v := by
  obtain ⟨after, hrun, hold⟩ := findOldestLeaf_spec hs none hs.root_live (need_root_le hs)
  cases after with
  | none =>
    left
    refine ⟨by rw [evictStep, hrun]; rfl, ?_⟩
    intro v n hn hleaf
    obtain ⟨o, ho, -⟩ := hold.least v n hn (hs.below_root hn) hleaf
    cases ho
  | some o =>
    right
    rcases hold.found o rfl with h | ⟨n, -, hn, hleaf, hts⟩
    · cases h
    have hroot : o.1 ≠ t.root := by
      intro heq
      rw [heq] at hn
      exact absurd (hfree.epIdx_neg hn) (Int.not_lt.mpr hleaf.1)
    obtain ⟨t', hdrop, hshape, hcount, hstored, -⟩ := dropLeaf_spec hs hn hleaf.2 hroot
    refine ⟨t', o.1, n, ?_, hshape, hcount, hn, hleaf, ?_, hstored⟩
    · rw [evictStep, hrun, bind_eq_bind, bind_some]
      dsimp only
      rw [hdrop, map_some]
    · intro w m hm hleaf'
      obtain ⟨o', ho', hle⟩ := hold.least w m hm (hs.below_root hm) hleaf'
      cases ho'
      rw [hts]
      exact hle

end PdTrie
