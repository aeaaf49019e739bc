import Mathlib.Data.Finset.Card

/-!
# Trees whose edges carry words

A rooted tree with a non-empty word on every edge, the edges out of one vertex starting with different
letters.  Every vertex is named by the word that leads to it from the root.

* `Leads`            a word leads from a vertex to another along the edges;
* `Leads.det`        a word leads from a vertex to at most one other;
* `Tree.leads_through`  a longer word leads through where a beginning of it leads;
* `Tree.path_inj`    two vertices of one name are the same;
* `Tree.apart`       what lies below one child does not lie below another;
* `Tree.size_lt`     fewer vertices lie below a child than below its parent.
-/

open List Finset

namespace Spell

variable {V α : Type*}

/-- a word leads from a vertex to another -/
inductive Leads (edge : V → List α → V → Prop) : V → List α → V → Prop
  | refl (u : V) : Leads edge u [] u
  | step {u v w : V} {l x : List α} (h : edge u l v) (rest : Leads edge v x w) : Leads edge u (l ++ x) w

/-- a tree with the names of its vertices -/
structure Tree (live : V → Prop) (edge : V → List α → V → Prop) (root : V) (path : V → List α) : Prop where
  path_root : path root = []
  edge_live : ∀ {u v l}, edge u l v → live u
  edge_path : ∀ {u v l}, edge u l v → path v = path u ++ l
  edge_ne : ∀ {u v l}, edge u l v → l ≠ []
  det : ∀ {u v v' k l l'}, edge u (k :: l) v → edge u (k :: l') v' → v = v' ∧ l = l'
  up : ∀ {v}, live v → v ≠ root → ∃ u l, edge u l v

section
variable {edge edge' : V → List α → V → Prop} {u v w : V} {x y l : List α}

theorem Leads.trans (h : Leads edge u x v) (h' : Leads edge v y w) : Leads edge u (x ++ y) w := by
  induction h with
  | refl => exact h'
  | step he _ ih =>
    rw [append_assoc]
    exact .step he (ih h')

theorem Leads.of_edge (h : edge u l v) : Leads edge u l v := by
  rw [← append_nil l]
  exact .step h (.refl v)

/-- where a word leads is itself or below a child -/
theorem leads_iff : Leads edge u x w ↔
    (x = [] ∧ w = u) ∨ ∃ v l y, edge u l v ∧ x = l ++ y ∧ Leads edge v y w := by
  constructor
  · intro h
    cases h with
    | refl => exact .inl ⟨rfl, rfl⟩
    | step he hrest => exact .inr ⟨_, _, _, he, rfl, hrest⟩
  · rintro (⟨rfl, rfl⟩ | ⟨v, l, y, he, rfl, hrest⟩)
    · exact .refl w
    · exact .step he hrest

end

namespace Tree

variable {live : V → Prop} {edge : V → List α → V → Prop} {root : V} {path : V → List α}
  (T : Tree live edge root path) {u v v' w : V} {x x' l l' : List α}
include T

theorem leads_path (h : Leads edge u x w) : path w = path u ++ x := by
  induction h with
  | refl => rw [append_nil]
  | step he _ ih => rw [ih, T.edge_path he, append_assoc]

theorem leads_root (hv : live v) : Leads edge root (path v) v := by
  -- up the tree the names get shorter
  generalize hn : (path v).length = n
  induction n using Nat.strong_induction_on generalizing v with
  | _ n ih =>
    by_cases hr : v = root
    · rw [hr, T.path_root]
      exact .refl root
    · obtain ⟨u, l, he⟩ := T.up hv hr
      have hpath := T.edge_path he
      have hpos := length_pos_of_ne_nil (T.edge_ne he)
      have hlen := congrArg length hpath
      rw [length_append] at hlen
      rw [hpath]
      exact (ih _ (by omega) (T.edge_live he) rfl).trans (.of_edge he)

theorem edge_unique (he : edge u l v) (he' : edge u l' v') (h : l.head? = l'.head?) : v = v' ∧ l = l' := by
  cases l with
  | nil => exact absurd rfl (T.edge_ne he)
  | cons k l =>
    cases l' with
    | nil => exact absurd rfl (T.edge_ne he')
    | cons k' l' =>
      cases h
      obtain ⟨hv, hl⟩ := T.det he he'
      exact ⟨hv, by rw [hl]⟩

theorem head_append (he : edge u l v) : (l ++ x).head? = l.head? := by
  cases l with
  | nil => exact absurd rfl (T.edge_ne he)
  | cons k l => rfl

theorem edge_of_append (he : edge u l v) (he' : edge u l' v') (h : l ++ x = l' ++ x') :
    v = v' ∧ l = l' ∧ x = x' := by
  have hhead : l.head? = l'.head? := by
    rw [← T.head_append he, h, T.head_append he']
  obtain ⟨hv, hl⟩ := T.edge_unique he he' hhead
  rw [hl] at h
  exact ⟨hv, hl, append_cancel_left h⟩

/-- a longer word leads through where a beginning of it leads -/
theorem leads_through (h : Leads edge u x v) (h' : Leads edge u (x ++ x') w) : Leads edge v x' w := by
  induction h with
  | refl => exact h'
  | step he _ ih =>
    rw [append_assoc] at h'
    rcases leads_iff.mp h' with ⟨hx, _⟩ | ⟨v', l', y, he', hx, hrest⟩
    · exact absurd (append_eq_nil_iff.mp hx).1 (T.edge_ne he)
    · obtain ⟨rfl, -, rfl⟩ := T.edge_of_append he he' hx
      exact ih hrest

theorem leads_det (h : Leads edge u x w) (h' : Leads edge u x v) : w = v := by
  have hnil : Leads edge w [] v := T.leads_through h (by rwa [append_nil])
  rcases leads_iff.mp hnil with ⟨_, hv⟩ | ⟨_, l, y, he, hx, _⟩
  · exact hv.symm
  · exact absurd (append_eq_nil_iff.mp hx.symm).1 (T.edge_ne he)

/-- **two vertices of one name are the same** -/
theorem path_inj (hv : live v) (hw : live w) (h : path v = path w) : v = w := by
  have hlead := T.leads_root hw
  rw [← h] at hlead
  exact T.leads_det (T.leads_root hv) hlead

theorem apart (he : edge u l v) (he' : edge u l' v') (h : Leads edge v x w)
    (h' : Leads edge v' x' w) : v = v' := by
  have hx := (T.leads_path (.step he h)).symm.trans (T.leads_path (.step he' h'))
  exact (T.edge_of_append he he' (append_cancel_left hx)).1

theorem not_above (he : edge u l v) : ¬ Leads edge v x u := by
  intro h
  have hx := T.leads_path (.step he h)
  rw [self_eq_append_right, append_eq_nil_iff] at hx
  exact T.edge_ne he hx.1

open Classical in
omit T in
/-- how many of the vertices lie below -/
noncomputable def size (edge : V → List α → V → Prop) (S : Finset V) (u : V) : Nat :=
  (S.filter fun w => ∃ x, Leads edge u x w).card

omit T in
theorem size_le (S : Finset V) (u : V) : size edge S u ≤ S.card := by
  classical exact card_filter_le S _

omit T in
theorem size_pos {S : Finset V} (hu : u ∈ S) : 0 < size edge S u := by
  classical exact card_pos.mpr ⟨u, mem_filter.mpr ⟨hu, [], .refl u⟩⟩

/-- **fewer vertices lie below a child than below its parent** -/
theorem size_lt {S : Finset V} (hu : u ∈ S) (he : edge u l v) : size edge S v < size edge S u := by
  classical
  apply card_lt_card
  rw [ssubset_iff_of_subset]
  · refine ⟨u, ?_, ?_⟩
    · exact mem_filter.mpr ⟨hu, [], .refl u⟩
    · intro h
      obtain ⟨x, hx⟩ := (mem_filter.mp h).2
      exact T.not_above he hx
  · intro w hw
    obtain ⟨hS, x, hx⟩ := mem_filter.mp hw
    exact mem_filter.mpr ⟨hS, _, .step he hx⟩

end Tree

end Spell
