import InferenceGateway.PdTrie.Shape

/-!
# The edits of a trie

A trie changes its form by four edits: a leaf is hung below a node, an edge is split by a node in the
middle, a leaf is taken away and a node with one child is merged into it.  Each is stated by the frames
it leaves; the names of the nodes that stay do not change.

The form is kept because the child entries and the parent links are two records of one relation
(`Shape.entry_iff`), and an edit takes the same links out of both and puts the same links in.
-/

open Function List

namespace PdTrie

open Function (update)

/-- there is an entry for the node, under the key -/
def Entry (t : Trie) (a : Addr) (k : UInt8) (c : Addr) : Prop :=
  ∃ f, t.frame a = some f ∧ (k, c) ∈ f.children

/-- the node's links say that it hangs there under the key, with the label -/
def Hangs (t : Trie) (a : Addr) (k : UInt8) (c : Addr) (l : List UInt8) : Prop :=
  ∃ g, t.frame c = some g ∧ g.parent = some a ∧ g.parentKey = k ∧ g.label = l

/-! ## lists of entries -/

theorem redirect_eq {α : Type} [BEq α] [LawfulBEq α] (key : UInt8 × Addr → α) {k : α} {entry e : UInt8 × Addr}
    {pre post : List (UInt8 × Addr)} (hpre : ∀ d ∈ pre, key d ≠ k) (he : key e = k) :
    redirect (key · == k) entry (pre ++ e :: post) = pre ++ entry :: post := by
  induction pre with
  | nil => rw [nil_append, redirect, if_pos (beq_iff_eq.mpr he), nil_append]
  | cons d pre ih =>
    rw [cons_append, redirect, if_neg (by simpa using hpre d mem_cons_self),
      ih fun d hd => hpre d (mem_cons_of_mem _ hd), cons_append]

theorem children_split {es : List (UInt8 × Addr)} {k : UInt8} {c : Addr} (hmem : (k, c) ∈ es)
    (hnd : (es.map Prod.fst).Nodup) : ∃ pre post, es = pre ++ (k, c) :: post ∧ ∀ d ∈ pre, d.1 ≠ k := by
  obtain ⟨pre, post, rfl⟩ := append_of_mem hmem
  refine ⟨pre, post, rfl, ?_⟩
  intro d hd hdk
  rw [map_append, map_cons, nodup_middle, nodup_cons] at hnd
  exact hnd.1 (mem_append_left _ (mem_map.mpr ⟨d, hd, hdk⟩))

/-! ## entries and links -/

namespace Shape

variable {t t' : Trie} {path : Addr → List UInt8}

theorem of_links (hroot : ∃ f, t.frame t.root = some f ∧ f.parent = none ∧ f.label = [])
    (hpath : path t.root = []) (hfresh : ∀ {a}, t.next ≤ a → t.frame a = none)
    (hentry : ∀ a k c, Entry t a k c ↔ ∃ l, Hangs t a k c l)
    (hlabel : ∀ {a k c l}, Hangs t a k c l → l.head? = some k ∧ path c = path a ++ l)
    (hup : ∀ {c f}, t.frame c = some f → c ≠ t.root → ∃ p, f.parent = some p)
    (hkeys : ∀ {a f}, t.frame a = some f → (f.children.map Prod.fst).Nodup)
    (hcount : t.nodeCount = t.nodes.card) : Shape t path where
  root := hroot
  path_root := hpath
  fresh := fun ha => frame_eq_none.mp (hfresh ha)
  down := by
    intro a f k c hf hmem
    obtain ⟨l, hhang⟩ := (hentry a k c).mp ⟨f, hf, hmem⟩
    obtain ⟨hhead, hp⟩ := hlabel hhang
    obtain ⟨g, hg, hparent, hkey, rfl⟩ := hhang
    exact ⟨g, hg, hparent, hkey, hhead, hp⟩
  up := by
    intro c f hf hne
    obtain ⟨p, hparent⟩ := hup hf hne
    obtain ⟨g, hg, hmem⟩ := (hentry p f.parentKey c).mpr ⟨f.label, f, hf, hparent, rfl, rfl⟩
    exact ⟨p, g, hparent, hg, hmem⟩
  keys := hkeys
  count := hcount

section
variable (hs : Shape t path)
include hs

variable {a c : Addr} {k : UInt8} {l : List UInt8}

section
variable (h : Hangs t a k c l)
include h

theorem hangs_ne_root : c ≠ t.root := by
  rintro rfl
  obtain ⟨g, hg, hparent, -⟩ := h
  obtain ⟨f, hf, hnone, -⟩ := hs.root
  rw [hg] at hf
  cases hf
  rw [hparent] at hnone
  cases hnone

omit h in
/-- **the entries and the parent links record one relation** -/
theorem entry_iff (a : Addr) (k : UInt8) (c : Addr) : Entry t a k c ↔ ∃ l, Hangs t a k c l := by
  constructor
  · rintro ⟨f, hf, hmem⟩
    obtain ⟨g, hg, hparent, hkey, -⟩ := hs.down hf hmem
    exact ⟨g.label, g, hg, hparent, hkey, rfl⟩
  · rintro ⟨l, hhang⟩
    have hne := hs.hangs_ne_root hhang
    obtain ⟨g, hg, hparent, hkey, rfl⟩ := hhang
    obtain ⟨p, f, hp, hf, hmem⟩ := hs.up hg hne
    rw [hparent] at hp
    cases hp
    rw [hkey] at hmem
    exact ⟨f, hf, hmem⟩

theorem hangs_label : l.head? = some k ∧ path c = path a ++ l := by
  obtain ⟨f, hf, hmem⟩ := (hs.entry_iff a k c).mpr ⟨l, h⟩
  obtain ⟨g, hg, -, -, hhead, hpath⟩ := hs.down hf hmem
  obtain ⟨g', hg', -, -, rfl⟩ := h
  rw [hg] at hg'
  cases hg'
  exact ⟨hhead, hpath⟩

theorem hangs_ne : a ≠ c := by
  rintro rfl
  obtain ⟨hhead, hpath⟩ := hs.hangs_label h
  rw [self_eq_append_right] at hpath
  rw [hpath] at hhead
  cases hhead

theorem hangs_live : ∃ f, t.frame a = some f ∧ (k, c) ∈ f.children :=
  (hs.entry_iff a k c).mpr ⟨l, h⟩

theorem edge_of_hangs : Edge t a l c := by
  obtain ⟨f, hf, hmem⟩ := hs.hangs_live h
  obtain ⟨g, hg, -, -, hl⟩ := h
  exact ⟨f, k, g, hf, hmem, hg, hl⟩

end

theorem entry_unique {a' : Addr} {k' : UInt8} (h : Entry t a k c) (h' : Entry t a' k' c) :
    a = a' ∧ k = k' := by
  obtain ⟨l, g, hg, hparent, hkey, -⟩ := (hs.entry_iff a k c).mp h
  obtain ⟨l', g', hg', hparent', hkey', -⟩ := (hs.entry_iff a' k' c).mp h'
  rw [hg] at hg'
  cases hg'
  rw [hparent] at hparent'
  cases hparent'
  exact ⟨rfl, hkey.symm.trans hkey'⟩

theorem around {f : Frame} {pre post : List (UInt8 × Addr)} (hf : t.frame a = some f)
    (hch : f.children = pre ++ (k, c) :: post) (j : UInt8) (d : Addr)
    (he : (j, d) ∈ pre ∨ (j, d) ∈ post) :
    j ≠ k ∧ d ≠ c := by
  have hmem : (j, d) ∈ f.children := by
    rw [hch, mem_append]
    tauto
  have hmem' : (k, c) ∈ f.children := by
    rw [hch]
    exact mem_append_right _ mem_cons_self
  have hkey : j ≠ k := by
    intro hjk
    have hnd := hs.keys hf
    rw [hch, map_append, map_cons, nodup_middle, nodup_cons, ← map_append] at hnd
    exact hnd.1 (mem_map.mpr ⟨(j, d), mem_append.mpr he, hjk⟩)
  refine ⟨hkey, ?_⟩
  rintro rfl
  exact hkey (hs.entry_unique ⟨f, hf, hmem⟩ ⟨f, hf, hmem'⟩).2

theorem frame_next : t.frame t.next = none := frame_eq_none.mpr (hs.fresh (le_refl _))

theorem hangs_label_update (h : Hangs t a k c l) (w : List UInt8) :
    l.head? = some k ∧ update path t.next w c = update path t.next w a ++ l := by
  obtain ⟨f, hf, -⟩ := hs.hangs_live h
  obtain ⟨g, hg, -⟩ := id h
  rw [update_of_ne (hs.ne_next hg), update_of_ne (hs.ne_next hf)]
  exact hs.hangs_label h

end

theorem nodes_insert (hs : Shape t path) (hnext : t'.next = t.next + 1)
    (h : ∀ b, (t'.frame b).isSome = ((t.frame b).isSome || b == t.next)) : t'.nodes.card = t.nodes.card + 1 := by
  have hins : t'.nodes = insert t.next t.nodes := by
    ext b
    rw [nodes_eq, nodes_eq, Finset.mem_insert, Finset.mem_filter, Finset.mem_filter, Finset.mem_range,
      Finset.mem_range, h, hnext, Bool.or_eq_true, beq_iff_eq]
    constructor
    · rintro ⟨hlt, hlive | rfl⟩
      · right
        refine ⟨?_, hlive⟩
        by_contra hge
        rw [frame_eq_none.mpr (hs.fresh (Nat.not_lt.mp hge))] at hlive
        cases hlive
      · exact .inl rfl
    · rintro (rfl | ⟨hlt, hlive⟩)
      · exact ⟨Nat.lt_succ_self _, .inr rfl⟩
      · exact ⟨Nat.lt_succ_of_lt hlt, .inl hlive⟩
  rw [hins, Finset.card_insert_of_notMem]
  rw [hs.mem_nodes, hs.fresh (le_refl _)]
  exact Bool.false_ne_true

theorem nodes_erase (hs : Shape t path) {v : Addr} {f : Frame} (hv : t.frame v = some f) (hnext : t'.next = t.next)
    (h : ∀ b, (t'.frame b).isSome = ((t.frame b).isSome && b != v)) : t'.nodes.card = t.nodes.card - 1 := by
  have hers : t'.nodes = t.nodes.erase v := by
    ext b
    rw [nodes_eq, nodes_eq, Finset.mem_erase, Finset.mem_filter, Finset.mem_filter, h, hnext, Bool.and_eq_true,
      bne_iff_ne]
    tauto
  rw [hers, Finset.card_erase_of_mem]
  obtain ⟨n, hn, -⟩ := frame_eq_some.mp hv
  rw [hs.mem_nodes, hn]
  rfl

/-! ## the four edits -/

variable (hs : Shape t path)
include hs

variable {p c v : Addr} {f g : Frame} {k k' : UInt8} {l : List UInt8}
  {pre post : List (UInt8 × Addr)}

section
variable (hp : t.frame p = some f) (hroot : t'.root = t.root) (hnext : t'.next = t.next + 1)
  (hcount : t'.nodeCount = t.nodeCount + 1)
include hp hroot hnext hcount

/-- **a leaf is hung below a node**, under a key that was free -/
theorem addLeaf (hk : k ∉ f.children.map Prod.fst) (hl : l.head? = some k) (hfr : ∀ b, t'.frame b =
      if b = t.next then some { label := l, children := [], parent := some p, parentKey := k }
      else if b = p then some { f with children := (k, t.next) :: f.children } else t.frame b) :
    Shape t' (update path t.next (path p ++ l)) := by
  have hpn := hs.ne_next hp
  have hnone := hs.frame_next

  have hentry : ∀ a k' c, Entry t' a k' c ↔ Entry t a k' c ∨ (a = p ∧ k' = k ∧ c = t.next) := by
    intro a k' c
    simp only [Entry, hfr]
    grind
  have hhangs : ∀ a k' c l', Hangs t' a k' c l' ↔
      Hangs t a k' c l' ∨ (a = p ∧ k' = k ∧ c = t.next ∧ l' = l) := by
    intro a k' c l'
    simp only [Hangs, hfr]
    grind
  obtain ⟨r, hr, hr1, hr2⟩ := hs.root
  have hrn := hs.ne_next hr
  apply of_links
  · grind
  · rw [hroot, update_of_ne hrn, hs.path_root]
  · intro a ha
    rw [hnext] at ha
    have hnone := frame_eq_none.mpr (hs.fresh (Nat.le_of_succ_le ha))
    grind
  · intro a k' c
    rw [hentry, hs.entry_iff]
    simp only [hhangs]
    grind
  · intro a k' c l' h
    rcases (hhangs a k' c l').mp h with hold | ⟨rfl, rfl, rfl, rfl⟩
    · exact hs.hangs_label_update hold _
    · rw [update_self, update_of_ne hpn]
      exact ⟨hl, rfl⟩
  · intro c g hg hne
    have := @hs.up
    grind
  · intro a g hg
    have := @hs.keys
    grind
  · rw [hcount, nodes_insert hs hnext, hs.count]
    intro b
    grind

/-- **an edge is split** by a node in the middle, which takes the place of the child in the entry -/
theorem splitEdge {l' : List UInt8} (hch : f.children = pre ++ (k, c) :: post)
    (hc : t.frame c = some g) (hlabel : g.label = l ++ l') (hl : l ≠ []) (hl' : l'.head? = some k')
    (hfr : ∀ b, t'.frame b =
      if b = c then some { g with label := l', parent := some t.next, parentKey := k' }
      else if b = t.next then some { label := l, children := [(k', c)], parent := some p, parentKey := k }
      else if b = p then some { f with children := pre ++ (k, t.next) :: post } else t.frame b) :
    Shape t' (update path t.next (path p ++ l)) := by
  have hpn := hs.ne_next hp
  have hcn := hs.ne_next hc
  have hnone := hs.frame_next
  have hthere : Entry t p k c := ⟨f, hp, by simp [hch]⟩
  have haround := hs.around hp hch
  obtain ⟨lc, hhang⟩ := (hs.entry_iff p k c).mp hthere
  have hpc := hs.hangs_ne hhang
  have hpath := hs.hangs_label hhang
  have hlc : lc = l ++ l' := by
    obtain ⟨g', hg', -, -, rfl⟩ := hhang
    grind

  have hentry : ∀ a j d, Entry t' a j d ↔ (Entry t a j d ∧ d ≠ c) ∨ (a = p ∧ j = k ∧ d = t.next) ∨
      (a = t.next ∧ j = k' ∧ d = c) := by
    intro a j d
    have honly : Entry t a j c → p = a ∧ k = j := hs.entry_unique hthere
    simp only [Entry, hfr] at honly ⊢
    grind
  have hhangs : ∀ a j d m, Hangs t' a j d m ↔ (Hangs t a j d m ∧ d ≠ c) ∨
      (a = p ∧ j = k ∧ d = t.next ∧ m = l) ∨ (a = t.next ∧ j = k' ∧ d = c ∧ m = l') := by
    intro a j d m
    simp only [Hangs, hfr]
    grind
  obtain ⟨r, hr, hr1, hr2⟩ := hs.root
  have hrn := hs.ne_next hr
  apply of_links
  · grind
  · rw [hroot, update_of_ne hrn, hs.path_root]
  · intro a ha
    rw [hnext] at ha
    have hnone := frame_eq_none.mpr (hs.fresh (Nat.le_of_succ_le ha))
    grind
  · intro a j d
    rw [hentry, hs.entry_iff]
    simp only [hhangs]
    grind
  · intro a j d m h
    rcases (hhangs a j d m).mp h with ⟨hold, -⟩ | ⟨rfl, rfl, rfl, rfl⟩ | ⟨rfl, rfl, rfl, rfl⟩
    · exact hs.hangs_label_update hold _
    · rw [update_self, update_of_ne hpn]
      refine ⟨?_, rfl⟩
      rw [← hpath.1, hlc]
      cases m with
      | nil => exact absurd rfl hl
      | cons b m => rfl
    · rw [update_self, update_of_ne hcn, hpath.2, hlc, append_assoc]
      exact ⟨hl', rfl⟩
  · intro d g' hg' hne
    have hup := @hs.up
    grind
  · intro a g' hg'
    have hkeys := @hs.keys
    grind
  · rw [hcount, nodes_insert hs hnext, hs.count]
    intro b
    grind

end

section
variable (hp : t.frame p = some f) (hch : f.children = pre ++ (k, v) :: post)
  (hv : t.frame v = some g) (hroot : t'.root = t.root) (hnext : t'.next = t.next)
  (hcount : t'.nodeCount = t.nodeCount - 1)
include hp hch hv hroot hnext hcount

/-- **a leaf is taken away** from its parent -/
theorem eraseLeaf (hleaf : g.children = []) (hfr : ∀ b, t'.frame b = if b = v then none
      else if b = p then some { f with children := pre ++ post } else t.frame b) :
    Shape t' path := by
  have hthere : Entry t p k v := ⟨f, hp, by simp [hch]⟩
  have haround := hs.around hp hch
  obtain ⟨lv, hhang⟩ := (hs.entry_iff p k v).mp hthere

  have hentry : ∀ a j d, Entry t' a j d ↔ Entry t a j d ∧ d ≠ v := by
    intro a j d
    have honly : Entry t a j v → p = a ∧ k = j := hs.entry_unique hthere
    simp only [Entry, hfr] at honly ⊢
    grind
  have hhangs : ∀ a j d m, Hangs t' a j d m ↔ Hangs t a j d m ∧ d ≠ v := by
    intro a j d m
    simp only [Hangs, hfr]
    grind
  obtain ⟨r, hr, hr1, hr2⟩ := hs.root
  have hrv := hs.hangs_ne_root hhang
  apply of_links
  · grind
  · rw [hroot]
    exact hs.path_root
  · intro a ha
    rw [hnext] at ha
    have hnone := frame_eq_none.mpr (hs.fresh ha)
    grind [hs.ne_next hp]
  · intro a j d
    rw [hentry, hs.entry_iff]
    grind
  · intro a j d m h
    exact hs.hangs_label ((hhangs a j d m).mp h).1
  · intro d g' hg' hne
    have hup := @hs.up
    grind
  · intro a g' hg'
    have hkeys := @hs.keys
    grind
  · rw [hcount, nodes_erase hs hv hnext, hs.count]
    intro b
    grind

/-- **a node with one child is merged into it**: the child takes its place with the joined label -/
theorem mergeNode {h : Frame} (hone : g.children = [(k', c)]) (hc : t.frame c = some h)
    (hfr : ∀ b, t'.frame b = if b = v then none
      else if b = p then some { f with children := pre ++ (k, c) :: post }
      else if b = c then some { h with label := g.label ++ h.label, parentKey := k, parent := some p }
      else t.frame b) :
    Shape t' path := by
  have hthere : Entry t p k v := ⟨f, hp, by simp [hch]⟩
  have hbelow : Entry t v k' c := ⟨g, hv, by simp [hone]⟩
  have haround := hs.around hp hch
  obtain ⟨lv, hhang⟩ := (hs.entry_iff p k v).mp hthere
  obtain ⟨lc, hhang'⟩ := (hs.entry_iff v k' c).mp hbelow
  have hpv := hs.hangs_ne hhang
  have hvc := hs.hangs_ne hhang'
  have hpath := hs.hangs_label hhang
  have hpath' := hs.hangs_label hhang'
  have hlv : lv = g.label := by
    obtain ⟨g', hg', -, -, rfl⟩ := hhang
    grind
  have hlc : lc = h.label := by
    obtain ⟨g', hg', -, -, rfl⟩ := hhang'
    grind
  have hpc : p ≠ c := by
    rintro rfl
    exact hs.tree.not_above (hs.edge_of_hangs hhang) (.of_edge (hs.edge_of_hangs hhang'))

  have hentry : ∀ a j d, Entry t' a j d ↔ (Entry t a j d ∧ d ≠ v ∧ d ≠ c) ∨ (a = p ∧ j = k ∧ d = c) := by
    intro a j d
    have honly : Entry t a j v → p = a ∧ k = j := hs.entry_unique hthere
    have honly' : Entry t a j c → v = a ∧ k' = j := hs.entry_unique hbelow
    simp only [Entry, hfr] at honly honly' ⊢
    grind
  have hhangs : ∀ a j d m, Hangs t' a j d m ↔ (Hangs t a j d m ∧ d ≠ v ∧ d ≠ c) ∨
      (a = p ∧ j = k ∧ d = c ∧ m = g.label ++ h.label) := by
    intro a j d m
    simp only [Hangs, hfr]
    grind
  obtain ⟨r, hr, hr1, hr2⟩ := hs.root
  apply of_links
  · grind
  · rw [hroot]
    exact hs.path_root
  · intro a ha
    rw [hnext] at ha
    have hnone := frame_eq_none.mpr (hs.fresh ha)
    grind
  · intro a j d
    rw [hentry, hs.entry_iff]
    simp only [hhangs]
    grind
  · intro a j d m hnew
    rcases (hhangs a j d m).mp hnew with ⟨hold, -⟩ | ⟨rfl, rfl, rfl, rfl⟩
    · exact hs.hangs_label hold
    · rw [hpath'.2, hpath.2, hlv, hlc, append_assoc]
      refine ⟨?_, rfl⟩
      rw [← hpath.1, hlv]
      cases hgl : g.label with
      | nil =>
        rw [hlv, hgl] at hpath
        cases hpath.1
      | cons b m => rfl
  · intro d g' hg' hne
    have hup := @hs.up
    grind
  · intro a g' hg'
    have hkeys := @hs.keys
    grind
  · rw [hcount, nodes_erase hs hv hnext, hs.count]
    intro b
    grind

end

end Shape

end PdTrie
