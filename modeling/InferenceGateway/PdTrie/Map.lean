import InferenceGateway.PdTrie.Insert
import InferenceGateway.PdTrie.Sweep
import Mathlib.Data.Set.Finite.Lattice

/-!
# The trie as a longest-prefix map

What a trie is for: a finite map from texts to endpoints, asked for the longest key that begins a text.
The map is read off the nodes that have an endpoint; every operation on the linked nodes is the expected
operation on the map, over all runs from an empty trie.

* `radix_trie`      the invariant and the operations on the map, in every state of every run;
* `insert_empty`    learning the empty text does nothing.
-/

open Function List Option

namespace PdTrie

open Spell (Leads)

open Classical in
noncomputable def Trie.map (t : Trie) (x : List UInt8) : Option Int :=
  if h : ∃ e, Stored t x e then some h.choose else none

section
variable {t t' : Trie} {path path' : Addr → List UInt8} {x y : List UInt8} {e : Int}

variable (hs : Shape t path)
include hs

theorem Shape.map_eq_some : t.map x = some e ↔ Stored t x e := by
  unfold Trie.map
  by_cases h : ∃ e, Stored t x e
  · rw [dif_pos h, Option.some.injEq]
    constructor
    · rintro rfl
      exact h.choose_spec
    · exact hs.stored_unique h.choose_spec
  · rw [dif_neg h]
    constructor
    · intro hnone
      cases hnone
    · intro hst
      exact absurd ⟨e, hst⟩ h

theorem Shape.map_eq_none : t.map x = none ↔ ∀ e, ¬ Stored t x e := by
  rw [eq_none_iff_forall_ne_some]
  exact forall_congr' fun e => not_congr hs.map_eq_some

theorem Shape.map_congr (hs' : Shape t' path') (h : ∀ e, Stored t' y e ↔ Stored t x e) :
    t'.map y = t.map x := by
  apply ext
  intro e
  rw [hs'.map_eq_some, hs.map_eq_some, h]

theorem Shape.map_finite : {x | (t.map x).isSome}.Finite := by
  apply (Set.Finite.image path (Finset.finite_toSet t.nodes)).subset
  intro x hx
  obtain ⟨e, he⟩ := isSome_iff_exists.mp hx
  obtain ⟨a, n, hn, hpath, -⟩ := hs.stored_iff.mp (hs.map_eq_some.mp he)
  exact ⟨a, Finset.mem_coe.mpr (hs.mem_nodes.mpr (by rw [hn]; rfl)), hpath⟩

end

/-! ## matching -/

/-- the hit is that of the longest key that begins the text, and there is none when no key does -/
def LongestHit (M : List UInt8 → Option Int) (x : List UInt8) (hit : Option Hit) : Prop :=
  (∀ h, hit = some h → h.len = x.length ∧ ∃ k, k <+: x ∧ M k = some h.epIdx ∧ h.matched = k.length ∧
    ∀ k', k' <+: x → (M k').isSome → k'.length ≤ k.length) ∧
  (hit = none ↔ ∀ k, k <+: x → M k = none)

variable {t t' : Trie} {path : Addr → List UInt8} {x : List UInt8} {e e' : Int}

theorem longestHit_of_spec (hs : Shape t path) {hit : Option Hit}
    (hsome : ∀ h, hit = some h → h.matched ≤ x.length ∧ h.len = x.length ∧
      Stored t (x.take h.matched) h.epIdx ∧ ∀ k e, k ≤ x.length → Stored t (x.take k) e → k ≤ h.matched)
    (hnone : hit = none → ∀ k e, k ≤ x.length → ¬ Stored t (x.take k) e) :
    LongestHit t.map x hit := by
  refine ⟨?_, ?_, ?_⟩
  · intro h hh
    obtain ⟨hle, hlen, hst, hmax⟩ := hsome h hh
    refine ⟨hlen, x.take h.matched, take_prefix _ _, hs.map_eq_some.mpr hst, ?_, ?_⟩
    · rw [length_take, Nat.min_eq_left hle]
    · intro k' hk' hk
      obtain ⟨e, he⟩ := isSome_iff_exists.mp hk
      rw [prefix_iff_eq_take] at hk'
      rw [hk'] at he
      rw [length_take, Nat.min_eq_left hle]
      by_cases hlong : k'.length ≤ x.length
      · exact hmax _ e hlong (hs.map_eq_some.mp he)
      · have hl := congrArg length hk'
        rw [length_take] at hl
        omega
  · intro hh k hk
    rw [prefix_iff_eq_take] at hk
    rw [hs.map_eq_none]
    intro e hst
    rw [hk] at hst
    have hl := congrArg length hk
    rw [length_take] at hl
    exact hnone hh k.length e (by omega) hst
  · intro h
    cases hit with
    | none => rfl
    | some hh =>
      obtain ⟨hle, -, hst, -⟩ := hsome hh rfl
      have hnone' := h _ ( take_prefix hh.matched x)
      rw [hs.map_eq_some.mpr hst] at hnone'
      cases hnone'

/-! ## learning -/

/-- an endpoint as the map has it: a negative one is none -/
def asKey (e : Int) : Option Int := if 0 ≤ e then some e else none

theorem asKey_eq_some : asKey e = some e' ↔ e' = e ∧ 0 ≤ e' := by
  unfold asKey
  grind

theorem SplitPoint.free {y : List UInt8} (h : SplitPoint t x y e) : ¬ Stored t y e' := by
  rintro ⟨a, -, hlead, -⟩
  obtain ⟨z, c, n, -, -, -, hyz, hne, hfirst⟩ := h.child
  exact hne (IsPrefix.eq_of_length_le hyz (hfirst y a hlead (prefix_refl y)).length_le)

/-- the map after an insertion: the text has its endpoint, and at most the split point is new -/
def Learned (t t' : Trie) (x : List UInt8) (e : Int) : Prop :=
  t'.map x = asKey e ∧ ((∀ y, y ≠ x → t'.map y = t.map y) ∨
      ∃ s e', SplitPoint t x s e' ∧ t.map s = none ∧ t'.map s = asKey e' ∧
        ∀ y, y ≠ x → y ≠ s → t'.map y = t.map y)

theorem learned_of_inserted {path' : Addr → List UInt8} (hs : Shape t path) (hs' : Shape t' path')
    (h : Inserted t t' x e) : Learned t t' x e := by
  obtain ⟨added, hsplit, hiff⟩ := h
  refine ⟨?_, ?_⟩
  · apply ext
    intro e'
    rw [hs'.map_eq_some, hiff, asKey_eq_some]
    constructor
    · rintro (⟨-, h⟩ | ⟨h, -⟩ | ⟨h, -⟩)
      · exact h
      · exact absurd rfl h
      · exact absurd rfl (hsplit x e' h).inside.2.2
    · exact fun h => .inl ⟨rfl, h⟩
  · cases added with
    | none =>
      left
      intro y hy
      apply hs.map_congr hs'
      intro e'
      rw [hiff]
      simp [hy]
    | some p =>
      obtain ⟨s, es⟩ := p
      have hpoint := hsplit s es rfl
      refine .inr ⟨s, es, hpoint, hs.map_eq_none.mpr fun e' => hpoint.free, ?_, ?_⟩
      · apply ext
        intro e'
        have hfree : ¬ Stored t s e' := hpoint.free
        rw [hs'.map_eq_some, asKey_eq_some]
        have hsx := hpoint.inside.2.2
        grind
      · intro y hy hys
        apply hs.map_congr hs'
        intro e'
        grind

theorem rootFree_of_inserted (hx : x ≠ []) (hfree : RootFree t) (h : Inserted t t' x e) :
    RootFree t' := by
  obtain ⟨added, hsplit, hiff⟩ := h
  intro e' hst
  rcases (hiff [] e').mp hst with ⟨h, -⟩ | ⟨-, h⟩ | ⟨h, -⟩
  · exact hx h.symm
  · exact hfree e' h
  · exact (hsplit [] e' h).inside.1 rfl

/-! ## evicting -/

/-- a round of eviction: a leaf with the least access time goes, and its key with it -/
def EvictedOne (t t' : Trie) : Prop :=
  ∃ v n x, Leads (Edge t) t.root x v ∧ t.heap v = some n ∧ Evictable n ∧
    (∀ w m, t.heap w = some m → Evictable m → n.accessTs ≤ m.accessTs) ∧
    t.map x = some n.epIdx ∧ t'.map x = none ∧ ∀ y, y ≠ x → t'.map y = t.map y

/-- **eviction is a sequence of rounds**, until few enough nodes or no evictable leaf is left -/
theorem evictLoop_spec (maxNodes : Nat) {fuel : Nat} (hs : Shape t path) (hfree : RootFree t)
    (hfuel : t.nodeCount ≤ fuel) :
    ∃ t', evictLoop maxNodes fuel t = some t' ∧ Shape t' path ∧ RootFree t' ∧
      Relation.ReflTransGen EvictedOne t t' ∧
      (t'.nodeCount ≤ maxNodes ∨ ∀ v n, t'.heap v = some n → ¬ Evictable n) := by
  induction fuel generalizing t with
  | zero =>
    have hsmall : ¬ t.nodeCount > maxNodes := by omega
    exact ⟨t, by rw [evictLoop, if_neg hsmall], hs, hfree, .refl, .inl (Nat.not_lt.mp hsmall)⟩
  | succ fuel ih =>
    by_cases hmany : t.nodeCount > maxNodes
    · rcases evictStep_spec hs hfree with ⟨hstep, hno⟩ |
        ⟨t1, v, n, hstep, hshape, hless, hn, hleaf, hleast, hstored⟩
      · refine ⟨t, ?_, hs, hfree, .refl, .inr hno⟩
        rw [evictLoop, if_pos hmany, hstep]
        rfl
      · have hfree' : RootFree t1 := fun e hst => hfree e ((hstored [] e).mp hst).1
        obtain ⟨t', hloop, hshape', hfree'', hrun, hend⟩ := ih hshape hfree' (by omega)
        refine ⟨t', ?_, hshape', hfree'', .head ?_ hrun, hend⟩
        · rw [evictLoop, if_pos hmany, hstep]
          exact hloop
        · refine ⟨v, n, path v, hs.tree.leads_root (by rw [hn]; rfl), hn, hleaf, hleast, ?_, ?_, ?_⟩
          · exact hs.map_eq_some.mpr (hs.stored_iff.mpr ⟨v, n, hn, rfl, rfl, hleaf.1⟩)
          · rw [hshape.map_eq_none]
            exact fun e hst => ((hstored _ e).mp hst).2 rfl
          · intro y hy
            apply hs.map_congr hshape
            intro e
            rw [hstored, and_iff_left hy]
    · exact ⟨t, by rw [evictLoop, if_neg hmany], hs, hfree, .refl, .inl (Nat.not_lt.mp hmany)⟩

/-! ## runs -/

/-- a call of one of the operations, with the times it reads -/
inductive Op where
  | insert (text : List UInt8) (epIdx : Int) (now : Nat)
  | removeEp (epIdx : Int)
  | find (text : List UInt8) (clock : Nat → Nat)
  | evictLru (maxNodes : Nat)

def Op.apply (t : Trie) : Op → Option Trie
  | .insert text epIdx now => pdTrieInsert t text epIdx now
  | .removeEp epIdx => pdTrieRemoveEp t epIdx
  | .find text clock => (pdTrieMatch t text clock).map Prod.fst
  | .evictLru maxNodes => pdTrieEvictLru t maxNodes

def run (ops : List Op) : Option Trie := ops.foldlM Op.apply pdTrieCreate

theorem create_shape : Shape pdTrieCreate fun _ => [] := by
  have hframe : ∀ a, pdTrieCreate.frame a = if a = 0 then
      some { label := [], children := [], parent := none, parentKey := 0 } else none := by
    intro a
    change (update (fun _ => none) 0 _ a).map _ = _
    rw [update_apply]
    split
    · rfl
    · rfl
  apply Shape.of_links
  · exact ⟨_, by rw [hframe]; rfl, rfl, rfl⟩
  · rfl
  · intro a ha
    have hpos : a ≠ 0 := Nat.ne_of_gt ha
    rw [hframe, if_neg hpos]
  · intro a k c
    simp only [Entry, Hangs, hframe]
    grind
  · rintro a k c l ⟨g, hg, hparent, -⟩
    grind
  · intro c f hf hne
    have hroot : pdTrieCreate.root = 0 := rfl
    grind
  · intro a f hf
    grind
  · rw [nodes_eq]
    rfl

theorem create_rootFree : RootFree pdTrieCreate := by
  intro e hst
  obtain ⟨a, n, hn, -, rfl, hpos⟩ := create_shape.stored_iff.mp hst
  change update (fun _ => none) 0 _ a = some n at hn
  rw [update_apply] at hn
  split at hn
  · cases hn
    exact absurd hpos (by decide)
  · cases hn

theorem apply_keeps (hs : Shape t path) (hfree : RootFree t) (op : Op) :
    ∃ t' path', op.apply t = some t' ∧ Shape t' path' ∧ RootFree t' := by
  cases op with
  | insert text epIdx now =>
    by_cases hnil : text = []
    · exact ⟨t, path, by rw [Op.apply, pdTrieInsert, if_pos hnil], hs, hfree⟩
    · obtain ⟨t', path', hrun, hshape, hins⟩ := insertLoop_spec epIdx now hs hs.root_live
        (by rw [hs.path_root, nil_append]) (le_refl text.length)
      exact ⟨t', path', by rw [Op.apply, pdTrieInsert, if_neg hnil, hrun], hshape,
        rootFree_of_inserted hnil hfree hins⟩
  | removeEp epIdx =>
    obtain ⟨t', hrun, hshape, hstored⟩ := pdTrieRemoveEp_spec hs epIdx
    exact ⟨t', path, hrun, hshape, fun e hst => hfree e ((hstored [] e).mp hst).1⟩
  | find text clock =>
    obtain ⟨t', hit, hrun, hre, -⟩ := pdTrieMatch_spec hs hfree text clock
    exact ⟨t', path, by rw [Op.apply, hrun, map_some], hre.same.shape hs,
      fun e hst => hfree e (hre.stored_iff.mp hst)⟩
  | evictLru maxNodes =>
    obtain ⟨t', hrun, hshape, hfree', -⟩ := evictLoop_spec maxNodes hs hfree (le_refl _)
    exact ⟨t', path, hrun, hshape, hfree'⟩

theorem run_keeps (ops : List Op) : ∃ t path, run ops = some t ∧ Shape t path ∧ RootFree t := by
  induction ops using reverseRecOn with
  | nil => exact ⟨_, _, rfl, create_shape, create_rootFree⟩
  | append_singleton ops op ih =>
    obtain ⟨t, path, hrun, hs, hfree⟩ := ih
    obtain ⟨t', path', happly, hs', hfree'⟩ := apply_keeps hs hfree op
    refine ⟨t', path', ?_, hs', hfree'⟩
    unfold run at hrun ⊢
    rw [foldlM_append, hrun, bind_eq_bind, bind_some, foldlM_cons, happly]
    rfl

/-- what a trie does as a map -/
structure LongestPrefixMap (t : Trie) : Prop where
  shape : ∃ path, Shape t path
  labels : ∀ a n, t.heap a = some n → a ≠ t.root → n.label ≠ []
  finite : {x | (t.map x).isSome}.Finite
  find : ∀ x clock, ∃ t' hit, pdTrieMatch t x clock = some (t', hit) ∧ t'.map = t.map ∧ LongestHit t.map x hit
  insert : ∀ x e now, x ≠ [] → ∃ t', pdTrieInsert t x e now = some t' ∧ Learned t t' x e
  insertEmpty : ∀ e now, pdTrieInsert t [] e now = some t
  removeEp : ∀ e, ∃ t', pdTrieRemoveEp t e = some t' ∧
    ∀ y, t'.map y = if t.map y = some e then none else t.map y
  evictLru : ∀ maxNodes, ∃ t', pdTrieEvictLru t maxNodes = some t' ∧ Relation.ReflTransGen EvictedOne t t' ∧
    (t'.nodeCount ≤ maxNodes ∨ ∀ v n, t'.heap v = some n → ¬ Evictable n)

theorem longestPrefixMap_of_shape (hs : Shape t path) (hfree : RootFree t) :
    LongestPrefixMap t where
  shape := ⟨path, hs⟩
  labels := by
    intro a n hn hne hnil
    obtain ⟨p, g, hparent, hg, hmem⟩ := hs.up (frame_of_heap hn) hne
    obtain ⟨f, hf, -, -, hhead, -⟩ := hs.down hg hmem
    rw [frame_of_heap hn] at hf
    cases hf
    rw [hnil] at hhead
    cases hhead
  finite := hs.map_finite
  find := by
    intro x clock
    obtain ⟨t', hit, hrun, hre, hsome, hnone⟩ := pdTrieMatch_spec hs hfree x clock
    refine ⟨t', hit, hrun, ?_, longestHit_of_spec hs hsome hnone⟩
    funext y
    exact hs.map_congr (hre.same.shape hs) fun e => hre.stored_iff
  insert := by
    intro x e now hx
    obtain ⟨t', path', hrun, hshape, hins⟩ := insertLoop_spec e now hs hs.root_live
      (by rw [hs.path_root, nil_append]) (le_refl x.length)
    exact ⟨t', by rw [pdTrieInsert, if_neg hx, hrun], learned_of_inserted hs hshape hins⟩
  insertEmpty := fun e now => if_pos rfl
  removeEp := by
    intro e
    obtain ⟨t', hrun, hshape, hstored⟩ := pdTrieRemoveEp_spec hs e
    refine ⟨t', hrun, ?_⟩
    intro y
    apply ext
    intro e'
    rw [hshape.map_eq_some, hstored, ← hs.map_eq_some]
    grind
  evictLru := by
    intro maxNodes
    obtain ⟨t', hrun, -, -, hrounds, hend⟩ := evictLoop_spec maxNodes hs hfree (le_refl _)
    exact ⟨t', hrun, hrounds, hend⟩

/-- **the trie is a longest-prefix map** in every state of every run, and a merge does not change the map
of any well formed trie -/
theorem radix_trie : (∀ ops, ∃ t, run ops = some t ∧ LongestPrefixMap t) ∧
    ∀ t path p n, Shape t path → t.heap p = some n →
      ∃ t', mergeWithSingleChild t p = some t' ∧ t'.map = t.map := by
  constructor
  · intro ops
    obtain ⟨t, path, hrun, hs, hfree⟩ := run_keeps ops
    exact ⟨t, hrun, longestPrefixMap_of_shape hs hfree⟩
  · intro t path p n hs hp
    obtain ⟨t', hmerge, hshape, -, hstored, -⟩ := mergeWithSingleChild_spec hs hp
    refine ⟨t', hmerge, ?_⟩
    funext y
    exact hs.map_congr hshape fun e => hstored y e

/-- learning an endpoint for the empty text leaves it without one -/
theorem insert_empty : ∃ t, pdTrieInsert pdTrieCreate [] 0 0 = some t ∧ t.map [] = none := by
  refine ⟨pdTrieCreate, rfl, ?_⟩
  rw [create_shape.map_eq_none]
  exact create_rootFree

end PdTrie
