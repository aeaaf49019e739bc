import InferenceGateway.PdTrie.Edits
import InferenceGateway.PdTrie.Match

/-!
# Forgetting endpoints

A leaf is taken out and its parent merged with an only child left; a merge moves no stored text.  The
nodes collected to be pruned stay what they were, whatever the prunings before them merged: a merge frees
a node that has a child and changes the place and label of another, but gives no node a child.

* `dropLeaf_spec`        one leaf goes, with what was stored there;
* `pruneLoop_spec`       a batch of leaves without an endpoint goes, and nothing stored changes.
-/

open Function List Option

namespace PdTrie

open Spell (Leads)
open Function (update)

/-- the childless nodes other than those that are gone are childless nodes still, with their endpoints
and times -/
def LeavesKept (t t' : Trie) (gone : Addr → Prop) : Prop :=
  ∀ a m, t.heap a = some m → m.children = [] → ¬ gone a →
    ∃ m', t'.heap a = some m' ∧ m'.children = [] ∧ m'.epIdx = m.epIdx ∧ m'.accessTs = m.accessTs

variable {t : Trie} {path : Addr → List UInt8} {p v : Addr} {n m : Node}
  {pre post : List (UInt8 × Addr)}

theorem stored_of_gone {t' : Trie} (hs : Shape t path) (hs' : Shape t' path)
    (gone : List UInt8 → Prop)
    (hback : ∀ a m', t'.heap a = some m' → ¬ gone (path a) ∧ ∃ m, t.heap a = some m ∧ m'.epIdx = m.epIdx)
    (hforth : ∀ a m, t.heap a = some m → 0 ≤ m.epIdx → ¬ gone (path a) →
      ∃ m', t'.heap a = some m' ∧ m'.epIdx = m.epIdx) (y : List UInt8) (e : Int) :
    Stored t' y e ↔ Stored t y e ∧ ¬ gone y := by
  rw [hs.stored_iff, hs'.stored_iff]
  constructor
  · rintro ⟨a, m', hm', rfl, rfl, hpos⟩
    obtain ⟨hkept, m, hm, he⟩ := hback a m' hm'
    exact ⟨⟨a, m, hm, rfl, he.symm, hpos⟩, hkept⟩
  · rintro ⟨⟨a, m, hm, rfl, rfl, hpos⟩, hkept⟩
    obtain ⟨m', hm', he⟩ := hforth a m hm hpos hkept
    exact ⟨a, m', hm', rfl, he, hpos⟩

/-! ## merging -/

/-- the trie in which a node has given its place to its only child -/
def withMerge (t : Trie) (g p c : Addr) (gn n m : Node) (pre post : List (UInt8 × Addr)) : Trie :=
  { ((t.put c (some { m with label := n.label ++ m.label, parentKey := n.parentKey, parent := some g })).put g
      (some { gn with children := pre ++ (n.parentKey, c) :: post })).put p none
    with nodeCount := t.nodeCount - 1 }

theorem withMerge_heap (t : Trie) (g p c : Addr) (gn n m : Node) (pre post : List (UInt8 × Addr)) (a : Addr) :
    (withMerge t g p c gn n m pre post).heap a = if a = p then none
      else if a = g then some { gn with children := pre ++ (n.parentKey, c) :: post }
      else if a = c then some { m with label := n.label ++ m.label, parentKey := n.parentKey, parent := some g }
      else t.heap a := by
  rw [withMerge, Trie.put_heap, Trie.put_heap, Trie.put_heap, update_apply, update_apply,
    update_apply]

theorem mergeWithSingleChild_eq {g c : Addr} {gn : Node} {k' : UInt8} (hroot : p ≠ t.root)
    (hp : t.heap p = some n) (hep : ¬ n.epIdx ≥ 0) (hone : n.children = [(k', c)])
    (hparent : n.parent = some g) (hg : t.heap g = some gn) (hc : t.heap c = some m) (hgp : g ≠ p)
    (hpc : p ≠ c) (hgc : g ≠ c) (hch : gn.children = pre ++ (n.parentKey, p) :: post)
    (hpre : ∀ d ∈ pre, d.2 ≠ p) :
    mergeWithSingleChild t p = some (withMerge t g p c gn n m pre post) := by
  have hred : redirect (·.2 == p) (n.parentKey, c) gn.children = pre ++ (n.parentKey, c) :: post := by
    rw [hch]
    exact redirect_eq Prod.snd hpre rfl
  simp only [mergeWithSingleChild, if_neg hroot, hp, if_neg hep, hone, hparent, hred, Trie.modify, Trie.free,
    Trie.put, hc, hg, update_self, update_of_ne hgp.symm,
    update_of_ne hpc, update_of_ne hgc, map_some, withMerge, bind_eq_bind,
    bind_some, Option.some.injEq, Trie.mk.injEq, and_true]
  funext b
  grind

theorem mergeWithSingleChild_stays (hp : t.heap p = some n)
    (h : ¬ (p ≠ t.root ∧ ¬ n.epIdx ≥ 0 ∧ ∃ k' c, n.children = [(k', c)])) :
    mergeWithSingleChild t p = some t := by
  rw [mergeWithSingleChild]
  by_cases hroot : p = t.root
  · rw [if_pos hroot]
  rw [if_neg hroot, hp, bind_eq_bind, bind_some]
  by_cases hep : n.epIdx ≥ 0
  · rw [if_pos hep]
  rw [if_neg hep]
  split
  · exact absurd ⟨hroot, hep, _, _, ‹_›⟩ h
  · rfl

/-- **a merge changes no stored text** -/
theorem mergeWithSingleChild_spec (hs : Shape t path) (hp : t.heap p = some n) :
    ∃ t', mergeWithSingleChild t p = some t' ∧ Shape t' path ∧
      t'.nodeCount ≤ t.nodeCount ∧ (∀ y e, Stored t' y e ↔ Stored t y e) ∧ LeavesKept t t' fun _ => False := by
  by_cases hcase : p ≠ t.root ∧ ¬ n.epIdx ≥ 0 ∧ ∃ k' c, n.children = [(k', c)]
  case neg =>
    exact ⟨t, mergeWithSingleChild_stays hp hcase, hs, le_refl _, fun _ _ => Iff.rfl,
      fun a m hm hc _ => ⟨m, hm, hc, rfl, rfl⟩⟩
  obtain ⟨hroot, hep, k', c, hone⟩ := hcase
  obtain ⟨g, f, hparent, hg, hmem⟩ := hs.up (frame_of_heap hp) hroot
  obtain ⟨gn, hgn, rfl⟩ := frame_eq_some.mp hg
  have hthere : Entry t g n.parentKey p := ⟨gn.toFrame, hg, hmem⟩
  have hbelow : Entry t p k' c := ⟨n.toFrame, frame_of_heap hp, by simp [hone]⟩
  obtain ⟨lp, hhang⟩ := (hs.entry_iff _ _ _).mp hthere
  obtain ⟨lc, hhang'⟩ := (hs.entry_iff _ _ _).mp hbelow
  obtain ⟨m, hc⟩ : ∃ m, t.heap c = some m := by
    obtain ⟨cf, hcf, -⟩ := hhang'
    obtain ⟨m, hm, -⟩ := frame_eq_some.mp hcf
    exact ⟨m, hm⟩
  have hgp := hs.hangs_ne hhang
  have hpc := hs.hangs_ne hhang'
  have hgc : g ≠ c := by
    rintro rfl
    exact hs.tree.not_above (hs.edge_of_hangs hhang) (.of_edge (hs.edge_of_hangs hhang'))
  obtain ⟨pre, post, hch, -⟩ := children_split hmem (hs.keys hg)
  have haround := hs.around hg hch
  have hheap := withMerge_heap t g p c gn n m pre post
  have hshape : Shape (withMerge t g p c gn n m pre post) path := by
    refine hs.mergeNode hg hch (frame_of_heap hp) rfl rfl rfl hone (frame_of_heap hc) fun b => ?_
    change (((t.put _ _).put _ _).put _ _).frame b = _
    rw [frame_put, frame_put, frame_put, update_apply, update_apply, update_apply]
    rfl
  refine ⟨_, mergeWithSingleChild_eq hroot hp hep hone hparent hgn hc hgp hpc hgc hch
    (fun d hd => (haround d.1 d.2 (.inl hd)).2), hshape, Nat.sub_le _ _, ?_, ?_⟩
  · have hiff := stored_of_gone hs hshape (fun _ => False) (by
        intro a m' hm'
        grind)
      (by
        intro a m' hm' hpos _
        grind)
    intro y e
    rw [hiff, not_false_eq_true, and_true]
  · intro a m' hm' hleaf _
    grind

/-! ## taking a leaf out -/

def withoutLeaf (t : Trie) (p v : Addr) (n : Node) (pre post : List (UInt8 × Addr)) : Trie :=
  { (t.put p (some { n with children := pre ++ post })).put v none with nodeCount := t.nodeCount - 1 }

theorem withoutLeaf_heap (t : Trie) (p v : Addr) (n : Node) (pre post : List (UInt8 × Addr)) (a : Addr) :
    (withoutLeaf t p v n pre post).heap a = if a = v then none
      else if a = p then some { n with children := pre ++ post } else t.heap a := by
  rw [withoutLeaf, Trie.put_heap, Trie.put_heap, update_apply, update_apply]

theorem dropLeaf_eq (hp : t.heap p = some n) (hv : t.heap v = some m) (hparent : m.parent = some p)
    (hpv : p ≠ v) (hch : n.children = pre ++ (m.parentKey, v) :: post)
    (hpre : ∀ d ∈ pre, d.1 ≠ m.parentKey) :
    dropLeaf t v = if p = t.root then some (withoutLeaf t p v n pre post)
      else mergeWithSingleChild (withoutLeaf t p v n pre post) p := by
  have hera : n.children.eraseP (·.1 == m.parentKey) = pre ++ post := by
    rw [hch, eraseP_append_right _ (fun d hd => by rw [beq_iff_eq]; exact hpre d hd),
      eraseP_cons_of_pos (p := fun d : UInt8 × Addr => d.1 == m.parentKey) (beq_self_eq_true m.parentKey)]
  simp only [dropLeaf, hv, hparent, removeChild, Trie.modify, Trie.free, Trie.put, hp, hera, map_some,
    update_of_ne hpv.symm, withoutLeaf, bind_eq_bind, bind_some]

theorem dropLeaf_spec (hs : Shape t path) (hv : t.heap v = some m) (hleaf : m.children = [])
    (hroot : v ≠ t.root) :
    ∃ t', dropLeaf t v = some t' ∧ Shape t' path ∧ t'.nodeCount < t.nodeCount ∧
      (∀ y e, Stored t' y e ↔ Stored t y e ∧ y ≠ path v) ∧ LeavesKept t t' (· = v) := by
  obtain ⟨p, f, hparent, hf, hmem⟩ := hs.up (frame_of_heap hv) hroot
  obtain ⟨n, hn, rfl⟩ := frame_eq_some.mp hf
  obtain ⟨lv, hhang⟩ := (hs.entry_iff p m.parentKey v).mp ⟨n.toFrame, hf, hmem⟩
  have hpv := hs.hangs_ne hhang
  obtain ⟨pre, post, hch, hpre⟩ := children_split hmem (hs.keys hf)
  have hheap := withoutLeaf_heap t p v n pre post
  have hshape : Shape (withoutLeaf t p v n pre post) path := by
    refine hs.eraseLeaf hf hch (frame_of_heap hv) rfl rfl rfl hleaf fun b => ?_
    change ((t.put _ _).put _ _).frame b = _
    rw [frame_put, frame_put, update_apply, update_apply]
    rfl
  have hcount : (withoutLeaf t p v n pre post).nodeCount < t.nodeCount := by
    have hpos : 0 < t.nodeCount := by
      rw [hs.count, Finset.card_pos]
      exact ⟨v, hs.mem_nodes.mpr (by rw [hv]; rfl)⟩
    exact Nat.sub_lt hpos Nat.one_pos
  have hback : ∀ a m', (withoutLeaf t p v n pre post).heap a = some m' →
      ¬ path a = path v ∧ ∃ m, t.heap a = some m ∧ m'.epIdx = m.epIdx := by
    intro a m' hm'
    rw [hheap] at hm'
    have hav : a ≠ v := by
      rintro rfl
      rw [if_pos rfl] at hm'
      cases hm'
    obtain ⟨ma, hma, hep⟩ : ∃ m, t.heap a = some m ∧ m'.epIdx = m.epIdx := by grind
    exact ⟨fun heq => hav (hs.path_inj hma hv heq), ma, hma, hep⟩
  have hstored := stored_of_gone hs hshape (· = path v) hback (by
      intro a m' hm' hpos hne
      grind)
  have hleaves : LeavesKept t (withoutLeaf t p v n pre post) (· = v) := by
    intro a m' hm' hnil hav
    grind
  rw [dropLeaf_eq hn hv hparent hpv hch hpre]
  by_cases hpr : p = t.root
  · rw [if_pos hpr]
    exact ⟨_, rfl, hshape, hcount, hstored, hleaves⟩
  · rw [if_neg hpr]
    have hp' := hheap p
    rw [if_neg hpv, if_pos rfl] at hp'
    obtain ⟨t', hmerge, hshape', hcount', hstored', hleaves'⟩ := mergeWithSingleChild_spec hshape hp'
    refine ⟨t', hmerge, hshape', Nat.lt_of_le_of_lt hcount' hcount, ?_, ?_⟩
    · intro y e
      rw [hstored', hstored]
    · intro a m' hm' hnil hav
      obtain ⟨m1, hm1, hnil1, hep1, hts1⟩ := hleaves a m' hm' hnil hav
      obtain ⟨m2, hm2, hnil2, hep2, hts2⟩ := hleaves' a m1 hm1 hnil1 not_false
      exact ⟨m2, hm2, hnil2, hep2.trans hep1, hts2.trans hts1⟩

/-! ## pruning a batch -/

/-- **a batch of leaves without an endpoint goes**, and nothing stored changes -/
theorem pruneLoop_spec (hs : Shape t path) {prune : List Addr} (hnd : prune.Nodup)
    (hvictims : ∀ v ∈ prune, ∃ m, t.heap v = some m ∧ m.children = [] ∧ m.epIdx < 0) :
    ∃ t', pruneLoop t prune = some t' ∧ Shape t' path ∧ ∀ y e, Stored t' y e ↔ Stored t y e := by
  induction prune generalizing t with
  | nil => exact ⟨t, rfl, hs, fun _ _ => Iff.rfl⟩
  | cons v prune ih =>
    rw [nodup_cons] at hnd
    obtain ⟨m, hv, hleaf, hep⟩ := hvictims v mem_cons_self
    rw [pruneLoop, hv, bind_eq_bind, bind_some]
    by_cases hroot : v = t.root
    · rw [if_pos (.inr hroot)]
      exact ih hs hnd.2 fun w hw => hvictims w (mem_cons_of_mem _ hw)
    · rw [if_neg (by rw [not_or]; exact ⟨not_not.mpr hleaf, hroot⟩)]
      obtain ⟨t1, hdrop, hshape, -, hstored, hleaves⟩ := dropLeaf_spec hs hv hleaf hroot
      rw [hdrop]
      -- the victims that are left are untouched leaves
      have hleft : ∀ w ∈ prune, ∃ m, t1.heap w = some m ∧ m.children = [] ∧ m.epIdx < 0 := by
        intro w hw
        obtain ⟨mw, hmw, hnil, hepw⟩ := hvictims w (mem_cons_of_mem _ hw)
        obtain ⟨m', hm', hnil', hep', -⟩ := hleaves w mw hmw hnil fun heq => hnd.1 (heq ▸ hw)
        exact ⟨m', hm', hnil', hep' ▸ hepw⟩
      obtain ⟨t', hloop, hshape', hstored'⟩ := ih hshape hnd.2 hleft
      refine ⟨t', hloop, hshape', ?_⟩
      intro y e
      rw [hstored', hstored, and_iff_left_iff_imp]
      rintro hst rfl
      -- nothing was stored at a node without an endpoint
      obtain ⟨a, n, hn, hpath, rfl, hpos⟩ := hs.stored_iff.mp hst
      rw [hs.path_inj hn hv hpath, hv] at hn
      cases hn
      exact absurd hep (Int.not_lt.mpr hpos)

end PdTrie
