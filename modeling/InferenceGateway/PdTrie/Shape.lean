import InferenceGateway.Lib.Spell
import InferenceGateway.PdTrie.Trie

/-!
# What a well formed trie is

`Shape` is the representation invariant: the entries and the parent links agree, an entry's key is the
first byte of the label of the node it points to, the keys of siblings differ and the node count is
right.  It names every node by the bytes that lead to it from the root; the names make the trie one of
the trees of `Spell`, and a node keeps its name for life, whatever is split or merged around it.

* `Shape.tree`       the trie is a tree;
* `stored_iff`       what is stored is what the nodes of the heap hold under their names.
-/

open Function Option Finset

namespace PdTrie

/-- the frame of the node at an address -/
def Trie.frame (t : Trie) (a : Addr) : Option Frame := (t.heap a).map Node.toFrame
def Trie.nodes (t : Trie) : Finset Addr := (range t.next).filter fun a => (t.heap a).isSome

/-- the representation invariant, for the names `path` -/
structure Shape (t : Trie) (path : Addr → List UInt8) : Prop where
  root : ∃ f, t.frame t.root = some f ∧ f.parent = none ∧ f.label = []
  path_root : path t.root = []
  fresh : ∀ {a}, t.next ≤ a → t.heap a = none
  /-- an entry points to a node that hangs here, under the first byte of its label -/
  down : ∀ {a f k c}, t.frame a = some f → (k, c) ∈ f.children →
    ∃ g, t.frame c = some g ∧ g.parent = some a ∧ g.parentKey = k ∧ g.label.head? = some k ∧
      path c = path a ++ g.label
  /-- a parent link points to a node with an entry for this one -/
  up : ∀ {a f}, t.frame a = some f → a ≠ t.root →
    ∃ p g, f.parent = some p ∧ t.frame p = some g ∧ (f.parentKey, a) ∈ g.children
  keys : ∀ {a f}, t.frame a = some f → (f.children.map Prod.fst).Nodup
  count : t.nodeCount = t.nodes.card

/-- the trie hangs together as before: only endpoints and times may have changed -/
structure SameFrame (t t' : Trie) : Prop where
  frame : t'.frame = t.frame
  next : t'.next = t.next
  root : t'.root = t.root
  nodeCount : t'.nodeCount = t.nodeCount

variable {t : Trie} {a : Addr}

theorem frame_eq_some {f : Frame} :
    t.frame a = some f ↔ ∃ n, t.heap a = some n ∧ n.toFrame = f := by
  rw [Trie.frame, map_eq_some_iff]

theorem frame_of_heap {n : Node} (h : t.heap a = some n) : t.frame a = some n.toFrame := by
  rw [Trie.frame, h, map_some]

theorem frame_eq_none : t.frame a = none ↔ t.heap a = none := by
  rw [Trie.frame, map_eq_none_iff]

theorem frame_put (t : Trie) (a : Addr) (n : Option Node) :
    (t.put a n).frame = update t.frame a (n.map Node.toFrame) := by
  funext b
  rw [Trie.frame, Trie.put_heap, update_apply, update_apply]
  split
  · rfl
  · rfl

theorem nodes_eq (t : Trie) : t.nodes = (range t.next).filter fun a => (t.frame a).isSome := by
  simp only [Trie.nodes, Trie.frame, isSome_map]

namespace SameFrame

variable {t t' : Trie} {path : Addr → List UInt8}

theorem refl (t : Trie) : SameFrame t t := ⟨rfl, rfl, rfl, rfl⟩

theorem trans {t'' : Trie} (h : SameFrame t t') (h' : SameFrame t' t'') : SameFrame t t'' :=
  ⟨h'.frame.trans h.frame, h'.next.trans h.next, h'.root.trans h.root, h'.nodeCount.trans h.nodeCount⟩

theorem shape (h : SameFrame t t') (hs : Shape t path) : Shape t' path where
  root := by rw [h.frame, h.root]; exact hs.root
  path_root := by rw [h.root]; exact hs.path_root
  fresh := by
    intro a ha
    rw [h.next] at ha
    rw [← frame_eq_none, h.frame, frame_eq_none]
    exact hs.fresh ha
  down := by rw [h.frame]; exact hs.down
  up := by rw [h.frame, h.root]; exact hs.up
  keys := by rw [h.frame]; exact hs.keys
  count := by rw [h.nodeCount, nodes_eq, h.frame, h.next, ← nodes_eq]; exact hs.count

theorem of_modify {a : Addr} {f : Node → Node} (h : t.modify a f = some t')
    (hf : ∀ n, (f n).toFrame = n.toFrame) : SameFrame t t' := by
  obtain ⟨n, hn, rfl⟩ := map_eq_some_iff.mp h
  refine ⟨?_, rfl, rfl, rfl⟩
  rw [frame_put, map_some, hf, ← frame_of_heap hn, update_eq_self]

end SameFrame

/-! ## the tree -/

/-- there is an entry from a node to one with the label -/
def Edge (t : Trie) (a : Addr) (l : List UInt8) (c : Addr) : Prop :=
  ∃ f k g, t.frame a = some f ∧ (k, c) ∈ f.children ∧ t.frame c = some g ∧ g.label = l

theorem edge_congr {t' : Trie} (h : t'.frame = t.frame) : Edge t' = Edge t := by
  funext a l c
  rw [Edge, Edge, h]

/-- the text is stored with the endpoint: it leads from the root to a node that has it -/
def Stored (t : Trie) (x : List UInt8) (e : Int) : Prop :=
  ∃ a n, Spell.Leads (Edge t) t.root x a ∧ t.heap a = some n ∧ n.epIdx = e ∧ 0 ≤ e

namespace Shape

variable {t : Trie} {path : Addr → List UInt8} (hs : Shape t path)
include hs

variable {a : Addr} {x : List UInt8} {e : Int}

theorem edge_head {c : Addr} {l : List UInt8} (h : Edge t a l c) :
    ∃ f k, t.frame a = some f ∧ (k, c) ∈ f.children ∧ l.head? = some k := by
  obtain ⟨f, k, g, hf, hmem, hg, rfl⟩ := h
  obtain ⟨g', hg', -, -, hhead, -⟩ := hs.down hf hmem
  rw [hg] at hg'
  cases hg'
  exact ⟨f, k, hf, hmem, hhead⟩

/-- **a well formed trie is a tree** whose nodes are named by their paths -/
theorem tree : Spell.Tree (fun a => (t.heap a).isSome) (Edge t) t.root path where
  path_root := hs.path_root
  edge_live := by
    rintro a c l ⟨f, -, -, hf, -⟩
    obtain ⟨n, hn, -⟩ := frame_eq_some.mp hf
    rw [hn]
    rfl
  edge_path := by
    rintro a c l ⟨f, k, g, hf, hmem, hg, rfl⟩
    obtain ⟨g', hg', -, -, -, hpath⟩ := hs.down hf hmem
    rw [hg] at hg'
    cases hg'
    exact hpath
  edge_ne := by
    intro a c l h hl
    obtain ⟨_, _, _, _, hhead⟩ := hs.edge_head h
    rw [hl] at hhead
    cases hhead
  det := by
    intro a c c' k l l' h h'
    obtain ⟨f, k1, hf, hmem, hk⟩ := hs.edge_head h
    obtain ⟨f', k2, hf', hmem', hk'⟩ := hs.edge_head h'
    cases hk
    cases hk'
    rw [hf] at hf'
    cases hf'
    have hc : c = c' := congrArg Prod.snd (List.inj_on_of_nodup_map (hs.keys hf) hmem hmem' rfl)
    obtain ⟨-, -, g, -, -, hg, hgl⟩ := h
    obtain ⟨-, -, g', -, -, hg', hgl'⟩ := h'
    rw [← hc, hg] at hg'
    cases hg'
    rw [hgl] at hgl'
    cases hgl'
    exact ⟨hc, rfl⟩
  up := by
    intro a ha hne
    obtain ⟨n, hn⟩ := isSome_iff_exists.mp ha
    obtain ⟨p, g, -, hg, hmem⟩ := hs.up (frame_of_heap hn) hne
    exact ⟨p, n.label, g, n.parentKey, n.toFrame, hg, hmem, frame_of_heap hn, rfl⟩

theorem mem_nodes : a ∈ t.nodes ↔ (t.heap a).isSome := by
  rw [Trie.nodes, mem_filter, mem_range]
  constructor
  · exact fun h => h.2
  · intro h
    refine ⟨?_, h⟩
    by_contra hge
    rw [hs.fresh (Nat.not_lt.mp hge)] at h
    cases h

theorem ne_next {f : Frame} (h : t.frame a = some f) : a ≠ t.next := by
  rintro rfl
  rw [frame_eq_none.mpr (hs.fresh (le_refl _))] at h
  cases h

theorem path_inj {b : Addr} {n m : Node} (ha : t.heap a = some n) (hb : t.heap b = some m)
    (h : path a = path b) : a = b :=
  hs.tree.path_inj (by rw [ha]; rfl) (by rw [hb]; rfl) h

/-- **what is stored is what the nodes hold under their names** -/
theorem stored_iff : Stored t x e ↔
    ∃ a n, t.heap a = some n ∧ path a = x ∧ n.epIdx = e ∧ 0 ≤ e := by
  constructor
  · rintro ⟨a, n, hlead, hn, he⟩
    have hpath := hs.tree.leads_path hlead
    rw [hs.path_root] at hpath
    exact ⟨a, n, hn, hpath, he⟩
  · rintro ⟨a, n, hn, rfl, he⟩
    exact ⟨a, n, hs.tree.leads_root (by rw [hn]; rfl), hn, he⟩

theorem stored_unique {e' : Int} (h : Stored t x e) (h' : Stored t x e') : e = e' := by
  obtain ⟨a, n, ha, hx, rfl, -⟩ := hs.stored_iff.mp h
  obtain ⟨b, m, hb, hx', rfl, -⟩ := hs.stored_iff.mp h'
  have hab := hs.path_inj ha hb (hx.trans hx'.symm)
  rw [hab, hb] at ha
  cases ha
  rfl

end Shape

end PdTrie
