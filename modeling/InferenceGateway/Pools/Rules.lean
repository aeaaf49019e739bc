import InferenceGateway.Pools.Invariant

/-!
# The operations on a rule

What `sp_pool_link`, `sp_pool_unlink` and `sp_pool_index_publish` do to the invariant.  All of them
take pools and the old index from what the rule keeps and hand exactly these over.

* `Gives`          a rule's thread hands over what the rule no longer keeps;
* `Inv.publish`    the new index holds the pools of the table;
* `Inv.step`       every step of every thread keeps the invariant.
-/

set_option linter.unusedSectionVars false

open Function List

namespace Pools

variable {n : Nat} {R : Type} [DecidableEq R] {key : Nat → List Nat} {s : State n R} {r : R}

theorem setRule_field {α : Type} (g : Rule → α) {t : Rule} (ht : g t = g (s.rule r)) (r' : R) :
    g ((s.setRule r t).rule r') = g (s.rule r') :=
  Run.update_keeps g ht r'

theorem Inv.hashAdd (h : Inv key s) (r : R) : Inv key (s.hashAdd r) := by
  have hnew : s.flow.place (.tableDrop s.nextPool) = .nowhere :=
    (h.tables.kept _).mpr fun hlt => absurd hlt (lt_irrefl _)
  have hfinal : s.flow.place (.finalFree s.nextPool) = .nowhere :=
    (h.counts.last _).mpr fun hlt => absurd hlt (lt_irrefl _)
  have hout : ∀ r', s.nextPool ∉ (s.rule r').keeps := fun r' hm =>
    absurd (h.tables.below r' _ hm) (lt_irrefl _)
  have hpools : ∀ r', ((s.hashAdd r).rule r').pools = (s.rule r').pools :=
    setRule_field Rule.pools rfl
  have hlast : ∀ r', ((s.hashAdd r).rule r').published = (s.rule r').published :=
    setRule_field Rule.published rfl
  have hkeeps : ∀ r' q, q ∈ ((s.hashAdd r).rule r').keeps ↔
      q ∈ (s.rule r').keeps ∨ (r' = r ∧ q = s.nextPool) := by
    intro r' q
    show q ∈ (update s.rule r _ r').keeps ↔ _
    by_cases hr : r' = r
    · subst hr
      simp only [update_self, Rule.keeps, mem_append, mem_singleton, true_and]
      exact or_right_comm
    · simp [hr]
  have hpool : ∀ q, (s.hashAdd r).pool q = if q = s.nextPool then ⟨1, 0⟩ else s.pool q :=
    fun q => update_apply ..
  have hbelow : ∀ {q}, q ≠ s.nextPool → (q < s.nextPool + 1 ↔ q < s.nextPool) := by
    intro q hq
    omega
  refine ⟨⟨h.flow, ?_, ?_, ?_, ?_⟩, ?_⟩
  · refine ⟨?_, ?_, ?_, ?_, ?_, ?_, h.tables.ahead⟩
    · refine Run.update_all (fun _ (t : Rule) => t.keeps.Nodup) ?_ h.tables.nodup
      show (((s.rule r).ephash ++ [s.nextPool]) ++ (s.rule r).waiting).Nodup
      rw [append_assoc, singleton_append, nodup_middle, nodup_cons]
      exact ⟨hout r, h.tables.nodup r⟩
    · intro r1 r2 q h1 h2
      rcases (hkeeps r1 q).mp h1 with h1 | ⟨h1, hq⟩
      · rcases (hkeeps r2 q).mp h2 with h2 | ⟨h2, hq⟩
        · exact h.tables.apart r1 r2 q h1 h2
        · exact absurd (hq ▸ h1) (hout r1)
      · rcases (hkeeps r2 q).mp h2 with h2 | ⟨h2, hq⟩
        · exact absurd (hq ▸ h2) (hout r2)
        · rw [h1, h2]
    · intro r' q hq
      rcases (hkeeps r' q).mp hq with hq | ⟨-, rfl⟩
      · exact Nat.lt_succ_of_lt (h.tables.below r' q hq)
      · exact Nat.lt_succ_self _
    · intro q
      simp only [hkeeps]
      by_cases hq : q = s.nextPool
      · subst hq
        exact ⟨fun _ _ => ⟨r, .inr ⟨rfl, rfl⟩⟩, fun _ => hnew⟩
      · refine (h.tables.kept q).trans ?_
        show _ ↔ (q < s.nextPool + 1 → _)
        simp only [hbelow hq, hq, and_false, or_false]
    · intro r' x hx
      rw [hpools] at hx
      obtain ⟨h1, h2, h3⟩ := h.tables.current r' x hx
      exact ⟨h1, h2, fun q hq => (hkeeps r' q).mpr (.inl (h3 q hq))⟩
    · intro r1 r2 x h1 h2
      rw [hpools] at h1 h2
      exact h.tables.own r1 r2 x h1 h2
  · exact { h.seen with
      orders := fun x q hq => Nat.lt_succ_of_lt (h.seen.orders x q hq)
      found := fun i q hq => Nat.lt_succ_of_lt (h.seen.found i q hq) }
  · refine ⟨Run.update_all (fun q (v : Pool) =>
      v.freed = if s.flow.place (.finalFree q) = .done then 1 else 0) ?_ h.frees.pool, h.frees.index⟩
    rw [hfinal]
    rfl
  · exact h.published.congr hpools hlast rfl rfl
  · refine ⟨?_, ?_, ?_⟩
    · intro q
      rw [hpool]
      show _ = _ + s.holders q + 0
      have hrefs := h.counts.refs q
      by_cases hq : q = s.nextPool
      · subst hq
        have htab : (s.hashAdd r).tableRef s.nextPool = 1 := by
          refine if_pos ⟨Nat.lt_succ_self _, ?_⟩
          show s.flow.place _ ≠ _
          rw [hnew]
          exact nofun
        have hzero := h.counts.ahead _ le_rfl
        rw [if_pos rfl]
        show 1 = _
        omega
      · have htab : (s.hashAdd r).tableRef q = s.tableRef q := by
          show (if q < s.nextPool + 1 ∧ _ then 1 else 0) = _
          simp only [hbelow hq]
          rfl
        rw [if_neg hq, htab]
        exact hrefs
    · intro q
      rw [hpool]
      by_cases hq : q = s.nextPool
      · subst hq
        exact ⟨fun _ _ => by simp, fun _ => hfinal⟩
      · rw [if_neg hq]
        refine (h.counts.last q).trans ?_
        show _ ↔ (q < s.nextPool + 1 → _)
        rw [hbelow hq]
    · intro q hge
      have hge' : s.nextPool + 1 ≤ q := hge
      rw [hpool, if_neg (by omega)]
      exact h.counts.ahead q (by omega)

/-! ## handing over -/

/-- the rule `r` becomes `t` over the indexes `index`, and its thread hands over `works`: exactly the
pools that the rule kept and keeps no more, and perhaps the old index -/
structure Gives (s : State n R) (r : R) (t : Rule) (index : Nat → Index) (next : Nat)
    (works : List Work) : Prop where
  nodup : works.Nodup
  final : ∀ p, .finalFree p ∉ works
  keeps_nodup : t.keeps.Nodup
  keeps : ∀ p, p ∈ (s.rule r).keeps ↔ p ∈ t.keeps ∨ .tableDrop p ∈ works
  apart : ∀ p ∈ t.keeps, .tableDrop p ∉ works
  old : ∀ x, .indexFree x ∈ works → (s.rule r).pools = some x
  pools : ∀ x, t.pools = some x → x < next ∧ (∀ p ∈ (index x).order, p ∈ t.keeps) ∧
    (x = s.nextIndex ∨ (s.rule r).pools = some x ∧ .indexFree x ∉ works)
  grows : s.nextIndex ≤ next
  same : ∀ x, x < s.nextIndex → index x = s.index x
  orders : ∀ x, ∀ p ∈ (index x).order, p < s.nextPool

/-- the state after that -/
def State.given (s : State n R) (r : R) (t : Rule) (index : Nat → Index) (next : Nat)
    (works : List Work) : State n R :=
  { s with index, nextIndex := next, rule := update s.rule r t,
           flow := s.flow.start (.rule r) works }

namespace Gives
variable {t : Rule} {index : Nat → Index} {next : Nat} {works : List Work}

theorem rule_self : (s.given r t index next works).rule r = t := update_self ..

theorem rule_of_ne {r' : R} (hr : r' ≠ r) : (s.given r t index next works).rule r' = s.rule r' :=
  update_of_ne hr ..

variable (g : Gives s r t index next works)
include g

theorem kept {r' : R} {p : Nat}
    (hp : p ∈ ((s.given r t index next works).rule r').keeps) : p ∈ (s.rule r').keeps := by
  exact Run.update_all (fun r' (t' : Rule) => p ∈ t'.keeps → p ∈ (s.rule r').keeps)
    (fun hp => (g.keeps p).mpr (.inl hp)) (fun _ hp => hp) r' hp

theorem nowhere (h : Tables s) : ∀ k ∈ works, s.flow.place k = .nowhere := by
  intro k hk
  cases k with
  | tableDrop p => exact (h.kept p).mpr fun _ => ⟨r, (g.keeps p).mpr (.inr hk)⟩
  | finalFree p => exact absurd hk (g.final p)
  | indexFree x => exact (h.current r x (g.old x hk)).2.1

theorem flow (h : Inv key s) (hτ : s.flow.todo (.rule r) = []) :
    (s.given r t index next works).flow.Inv := by
  refine h.flow.start hτ g.nodup (g.nowhere h.tables) ?_
  intro k hk k' hpool hnone hk'
  cases k with
  | tableDrop p =>
    cases k' with
    | tableDrop q => exact congrArg Work.tableDrop (Option.some.inj hpool).symm
    | finalFree q =>
      -- a pool with the table's reference is not on its way to be freed
      obtain rfl : q = p := Option.some.inj hpool
      have hkeep := (g.keeps q).mpr (.inr hk)
      have href : s.tableRef q = 1 := by
        refine if_pos ⟨h.tables.below r q hkeep, ?_⟩
        rw [g.nowhere h.tables _ hk]
        exact nofun
      have hrefs := h.counts.refs q
      have hnow := (h.counts.last q).mpr fun _ => by omega
      rcases hk' with hk' | hk'
      · exact absurd hk' (g.final q)
      · rw [hnow] at hk'
        cases hk'
    | indexFree x => cases hpool
  | finalFree p => exact absurd hk (g.final p)
  | indexFree x => exact absurd rfl hnone

theorem tables (h : Tables s) : Tables (s.given r t index next works) := by
  refine ⟨Run.update_all (fun _ (t' : Rule) => t'.keeps.Nodup) g.keeps_nodup h.nodup, ?_,
    fun r' q hq => h.below r' q (g.kept hq), ?_, ?_, ?_, ?_⟩
  · exact fun r1 r2 q h1 h2 => h.apart r1 r2 q (g.kept h1) (g.kept h2)
  · intro q
    show (s.flow.start (.rule r) works).place _ = _ ↔ _
    rw [start_nowhere, h.kept q]
    constructor
    · rintro ⟨hq, hk⟩ hlt
      obtain ⟨r', hr'⟩ := hk hlt
      refine ⟨r', ?_⟩
      by_cases hr : r' = r
      · subst hr
        rw [rule_self]
        exact ((g.keeps q).mp hr').resolve_right hq
      · rwa [rule_of_ne hr]
    · intro hk
      refine ⟨fun hq => ?_, fun hlt => (hk hlt).imp fun r' hr' => g.kept hr'⟩
      have hkeep := (g.keeps q).mpr (.inr hq)
      obtain ⟨r', hr'⟩ := hk (h.below r q hkeep)
      obtain rfl := h.apart r' r q (g.kept hr') hkeep
      rw [rule_self] at hr'
      exact g.apart q hr' hq
  · intro r' x hx
    have hfree : ∀ y, (s.rule r').pools = some y → .indexFree y ∈ works → r' = r :=
      fun y hy hm => h.own r' r y hy (g.old y hm)
    show x < next ∧ (s.flow.start (.rule r) works).place _ = _ ∧ ∀ p ∈ (index x).order, _
    rw [start_nowhere]
    by_cases hr : r' = r
    · subst hr
      rw [rule_self] at hx ⊢
      obtain ⟨hlt, hord, hx'⟩ := g.pools x hx
      refine ⟨hlt, ?_, hord⟩
      rcases hx' with rfl | ⟨hx', hm⟩
      · refine ⟨fun hm => ?_, h.ahead _ le_rfl⟩
        exact absurd (h.current r' _ (g.old _ hm)).1 (lt_irrefl _)
      · exact ⟨hm, (h.current r' x hx').2.1⟩
    · rw [rule_of_ne hr] at hx ⊢
      obtain ⟨hlt, hnow, hord⟩ := h.current r' x hx
      rw [g.same x hlt]
      exact ⟨lt_of_lt_of_le hlt g.grows, ⟨fun hm => hr (hfree x hx hm), hnow⟩, hord⟩
  · intro r1 r2 x h1 h2
    have hother : ∀ {r'}, r' ≠ r → (s.rule r').pools = some x → t.pools ≠ some x := by
      intro r' hr hx ht
      rcases (g.pools x ht).2.2 with rfl | ⟨hx', -⟩
      · exact absurd (h.current r' _ hx).1 (lt_irrefl _)
      · exact hr (h.own r' r x hx hx')
    by_cases hr1 : r1 = r <;> by_cases hr2 : r2 = r
    · rw [hr1, hr2]
    · rw [hr1, rule_self] at h1
      rw [rule_of_ne hr2] at h2
      exact absurd h1 (hother hr2 h2)
    · rw [rule_of_ne hr1] at h1
      rw [hr2, rule_self] at h2
      exact absurd h2 (hother hr1 h1)
    · rw [rule_of_ne hr1] at h1
      rw [rule_of_ne hr2] at h2
      exact h.own r1 r2 x h1 h2
  · intro x hx
    show (s.flow.start (.rule r) works).place _ = _
    have hge : s.nextIndex ≤ x := le_trans g.grows hx
    rw [start_nowhere]
    refine ⟨fun hm => ?_, h.ahead x hge⟩
    have := (h.current r x (g.old x hm)).1
    omega

theorem seen (h : Inv key s) : Seen (s.given r t index next works) := by
  have hsees : ∀ i k, (s.given r t index next works).Sees i k ↔ s.Sees i k := by
    intro i k
    cases k with
    | tableDrop p =>
      refine or_congr_right (exists_congr fun x => and_congr_right fun hx => ?_)
      show p ∈ (index x).order ↔ _
      rw [g.same x (h.seen.indexes i x hx)]
    | finalFree | indexFree => exact Iff.rfl
  refine ⟨h.seen.quiet.change fun i k hk => .inl ((hsees i k).mp hk), ?_, ?_, g.orders, h.seen.found⟩
  · intro i k hk hd
    exact h.seen.alive i k ((hsees i k).mp hk) ((start_done (g.nowhere h.tables) k).mp hd)
  · exact fun i x hx => lt_of_lt_of_le (h.seen.indexes i x hx) g.grows

/-- **A rule's thread hands over what the rule no longer keeps.** -/
theorem inv (h : Inv key s) (hτ : s.flow.todo (.rule r) = [])
    (hpub : Published key (s.given r t index next works)) :
    Inv key (s.given r t index next works) := by
  have hdone := start_done (τ := .rule r) (g.nowhere h.tables)
  refine ⟨⟨g.flow h hτ, g.tables h.tables, g.seen h, h.frees.congr (fun _ => rfl) rfl hdone, hpub⟩,
    h.counts.congr rfl (fun _ => rfl) (fun _ => rfl) hdone fun p => ?_⟩
  show (s.flow.start (.rule r) works).place _ = _ ↔ _
  rw [start_nowhere]
  exact ⟨fun hp => hp.2, fun hp => ⟨g.final p, hp⟩⟩

end Gives

/-! ## the operations -/

theorem keeps_renewed (l : List Nat) (x : Nat) : (Rule.renewed l x).keeps = l := by
  rw [Rule.keeps, Rule.renewed, append_nil]

variable {l : List Nat} {x p : Nat}

theorem pools_renewed {y : Nat} (h : (Rule.renewed l x).pools = some y) : y = x := by
  unfold Rule.renewed at h
  split at h
  · cases h
  · exact (Option.some.inj h).symm

theorem renewed_none (h : (Rule.renewed l x).pools = none) : l = [] := by
  unfold Rule.renewed at h
  split at h
  · assumption
  · cases h

theorem tableDrop_mem_handsOver (t : Rule) (gone : List Nat) (p : Nat) :
    .tableDrop p ∈ t.handsOver gone ↔ p ∈ t.waiting ++ gone := by
  simp [Rule.handsOver]

theorem Inv.gives_publish (h : Inv key s) {gone : List Nat}
    (hperm : (l ++ ((s.rule r).waiting ++ gone)).Perm (s.rule r).keeps) :
    Gives s r (.renewed l s.nextIndex) (update s.index s.nextIndex (.build key l)) (s.nextIndex + 1)
      ((s.rule r).handsOver gone) := by
  have hnodup := hperm.nodup_iff.mpr (h.tables.nodup r)
  obtain ⟨hl, hg, hdisj⟩ := nodup_append'.mp hnodup
  have hbelow : ∀ p ∈ l, p < s.nextPool := fun p hp =>
    h.tables.below r p (hperm.mem_iff.mp (mem_append_left _ hp))
  have hmem := fun p => tableDrop_mem_handsOver (s.rule r) gone p
  have horder : ∀ x, (update s.index s.nextIndex (Index.build key l) x).order =
      if x = s.nextIndex then l else (s.index x).order := by
    intro x
    rw [update_apply]
    split <;> rfl
  refine ⟨?_, ?_, ?_, ?_, ?_, ?_, ?_, Nat.le_succ _, ?_, ?_⟩
  · refine nodup_append'.mpr ⟨?_, ?_, ?_⟩
    · cases (s.rule r).pools <;> simp
    · exact hg.map fun a b hab => Work.tableDrop.inj hab
    · intro k h1 h2
      obtain ⟨x, -, rfl⟩ := mem_map.mp h1
      obtain ⟨p, -, hp⟩ := mem_map.mp h2
      cases hp
  · intro p hp
    simp [Rule.handsOver] at hp
  · rw [keeps_renewed]
    exact hl
  · intro p
    rw [keeps_renewed, hmem, ← hperm.mem_iff, mem_append]
  · intro p hp hw
    rw [keeps_renewed] at hp
    exact hdisj hp ((hmem p).mp hw)
  · intro x hx
    simpa [Rule.handsOver] using hx
  · intro x hx
    obtain rfl := pools_renewed hx
    refine ⟨Nat.lt_succ_self _, ?_, .inl rfl⟩
    rw [horder, if_pos rfl, keeps_renewed]
    exact fun p hp => hp
  · intro x hx
    rw [update_of_ne (by omega)]
  · intro x p hp
    rw [horder] at hp
    split at hp
    · exact hbelow p hp
    · exact h.seen.orders x p hp

theorem Published.publish (h : Published key s) (ht : Tables s) (hl : l.Nodup) (works : List Work) :
    Published key (s.given r (.renewed l s.nextIndex)
        (update s.index s.nextIndex (.build key l)) (s.nextIndex + 1) works) := by
  have hindex : ∀ x, x < s.nextIndex →
      update s.index s.nextIndex (Index.build key l) x = s.index x :=
    fun x hx => update_of_ne (by omega) ..
  have hself : update s.index s.nextIndex (Index.build key l) s.nextIndex = .build key l :=
    update_self ..
  refine ⟨?_, Run.update_all (fun _ (t : Rule) => t.published.Nodup) hl h.nodup, ?_,
    Run.update_all (fun _ (t : Rule) => t.pools = Option.none → t.published = []) renewed_none h.none⟩
  · intro x hx
    show ∃ l', l'.Nodup ∧ update s.index s.nextIndex (Index.build key l) x = .build key l'
    by_cases hxn : x = s.nextIndex
    · rw [hxn, hself]
      exact ⟨l, hl, rfl⟩
    · have hlt : x < s.nextIndex + 1 := hx
      rw [hindex x (by omega)]
      exact h.built x (by omega)
  · refine Run.update_all (fun _ (t : Rule) => ∀ x, t.pools = some x →
      update s.index s.nextIndex (Index.build key l) x = .build key t.published) ?_ ?_
    · intro x hx
      rw [pools_renewed hx, hself]
      rfl
    · intro r' x hx
      rw [hindex x (ht.current r' x hx).1]
      exact h.index r' x hx

theorem publish_given (s : State n R) (r : R) (l gone : List Nat) :
    (s.setRule r { s.rule r with ephash := l }).publish key r gone =
      s.given r (.renewed l s.nextIndex) (update s.index s.nextIndex (.build key l))
        (s.nextIndex + 1) ((s.rule r).handsOver gone) := by
  have hself : (s.setRule r { s.rule r with ephash := l }).rule r = { s.rule r with ephash := l } :=
    update_self ..
  unfold State.publish
  simp only [hself, Rule.handsOver]
  simp only [State.given, State.setRule, update_idem]

theorem Inv.publish (h : Inv key s) (hτ : s.flow.todo (.rule r) = []) (l gone : List Nat)
    (hperm : (l ++ ((s.rule r).waiting ++ gone)).Perm (s.rule r).keeps) :
    Inv key ((s.setRule r { s.rule r with ephash := l }).publish key r gone) := by
  have hl : l.Nodup := (hperm.nodup_iff.mpr (h.tables.nodup r)).of_append_left
  rw [publish_given]
  exact (h.gives_publish hperm).inv h hτ (h.published.publish h.tables hl _)

theorem keeps_perm (t : Rule) : (t.ephash ++ (t.waiting ++ [])).Perm t.keeps := by
  rw [append_nil]
  exact .rfl

theorem setRule_self (s : State n R) (r : R) : s.setRule r (s.rule r) = s := by
  unfold State.setRule
  rw [update_eq_self]

section
variable (h : Inv key s) (hτ : s.flow.todo (.rule r) = [])
include h hτ

theorem Inv.indexPublish (ok : Bool) : Inv key (s.indexPublish key r ok) := by
  unfold State.indexPublish
  split
  case isTrue =>
    have hpub := h.publish hτ _ _ (keeps_perm (s.rule r))
    rwa [setRule_self] at hpub
  case isFalse => exact h

/-- pools leave the rule, and the index it has holds none of them -/
theorem Inv.drop {t : Rule} (gone : List Nat) (hperm : (s.rule r).keeps.Perm (t.keeps ++ gone))
    (hp : t.pools = (s.rule r).pools) (hl : t.published = (s.rule r).published)
    (hout : ∀ x, (s.rule r).pools = some x → ∀ p ∈ gone, p ∉ (s.index x).order) :
    Inv key (s.given r t s.index s.nextIndex (gone.map .tableDrop)) := by
  obtain ⟨hkeep, hgone, hdisj⟩ := nodup_append'.mp (hperm.nodup_iff.mp (h.tables.nodup r))
  have hg : Gives s r t s.index s.nextIndex (gone.map .tableDrop) := by
    refine ⟨hgone.map fun a b hab => Work.tableDrop.inj hab, by simp, hkeep, ?_, ?_, by simp, ?_, le_rfl,
      fun _ _ => rfl, h.seen.orders⟩
    · intro q
      rw [hperm.mem_iff, mem_append]
      simp
    · exact fun q hq hw => hdisj hq (by simpa using hw)
    · intro x hx
      rw [hp] at hx
      obtain ⟨h1, -, h3⟩ := h.tables.current r x hx
      refine ⟨h1, fun q hq => ?_, .inr ⟨hx, by simp⟩⟩
      exact (mem_append.mp (hperm.mem_iff.mp (h3 q hq))).resolve_right fun hm => hout x hx q hm hq
  exact hg.inv h hτ (h.published.congr (setRule_field Rule.pools hp)
    (setRule_field Rule.published hl) rfl rfl)

theorem Inv.link (ok : Bool) : Inv key (s.link key r ok) := by
  have hadd := h.hashAdd r
  unfold State.link
  dsimp only
  split
  case isTrue =>
    have hpub := hadd.publish hτ _ _ (keeps_perm ((s.hashAdd r).rule r))
    rwa [setRule_self] at hpub
  case isFalse =>
    have hrule : (s.hashAdd r).rule r =
        { s.rule r with ephash := (s.rule r).ephash ++ [s.nextPool] } := update_self ..
    have hmem : s.nextPool ∈ ((s.hashAdd r).rule r).ephash := by simp [hrule]
    refine hadd.drop hτ [s.nextPool] ?_ rfl rfl fun x _ p hp hm => ?_
    · exact ((perm_cons_erase hmem).append_right _).trans (perm_append_singleton _ _).symm
    · rw [mem_singleton.mp hp] at hm
      exact absurd (h.seen.orders x _ hm) (lt_irrefl _)

end

theorem unlink_perm (hp : p ∈ (s.rule r).ephash) :
    ((s.rule r).ephash.erase p ++ ((s.rule r).waiting ++ [p])).Perm (s.rule r).keeps := by
  rw [← append_assoc]
  exact perm_append_comm.trans ((perm_cons_erase hp).symm.append_right _)

theorem start_nil {f : Flow n (Thread n R)} {τ : Thread n R} (h : f.todo τ = []) : f.start τ [] = f := by
  unfold Flow.start
  rw [map_nil, ← h, update_eq_self]
  simp

theorem Inv.unlink (h : Inv key s) (hτ : s.flow.todo (.rule r) = []) (hp : p ∈ (s.rule r).ephash)
    (ok : Bool) : Inv key (s.unlink key r p ok) := by
  have herase := perm_cons_erase hp
  have hself : (s.hashDel r p).rule r =
      { s.rule r with ephash := (s.rule r).ephash.erase p } := update_self ..
  unfold State.unlink
  dsimp only
  split
  case isTrue => exact h.publish hτ _ [p] (unlink_perm hp)
  case isFalse =>
    rw [hself]
    have hdrop := h.drop hτ []
      (t := { s.rule r with ephash := (s.rule r).ephash.erase p, waiting := p :: (s.rule r).waiting })
      ?_ rfl rfl (by simp)
    · rwa [State.given, map_nil, start_nil hτ, ← update_idem] at hdrop
    · rw [append_nil]
      exact (herase.append_right _).trans perm_middle.symm

/-! ## every step -/

theorem State.free_iff {τ : Thread n R} : s.free τ = true ↔ s.flow.todo τ = [] := List.isEmpty_iff

/-- **Every step of every thread keeps the invariant.** -/
theorem Inv.step (h : Inv key s) (a : Act n R) : Inv key (s.step key a) := by
  unfold State.step
  split
  case isFalse => exact h
  case isTrue he =>
    cases a with
    | link r ok => exact h.link (State.free_iff.mp he) ok
    | unlink r p ok =>
      simp only [State.enabled, Bool.and_eq_true, contains_iff_mem] at he
      exact h.unlink (State.free_iff.mp he.1) he.2 ok
    | publish r ok => exact h.indexPublish (State.free_iff.mp he) ok
    | load i => exact h.load i
    | store i => exact h.store i
    | offline i => exact h.offline i
    | index i r =>
      simp only [State.enabled, Bool.and_eq_true, bne_iff_ne] at he
      exact h.index he.2 r
    | find i x k =>
      simp only [State.enabled, Bool.and_eq_true, contains_iff_mem] at he
      exact h.find he.2 k
    | get i p =>
      simp only [State.enabled, Bool.and_eq_true] at he
      exact h.get he.2
    | put i p =>
      simp only [State.enabled, Bool.and_eq_true, decide_eq_true_eq] at he
      exact h.put (State.free_iff.mp he.1) he.2
    | hold i old new =>
      simp only [State.enabled, Bool.and_eq_true] at he
      refine h.hold (State.free_iff.mp he.1.1) ?_ ?_
      · intro p hp
        obtain rfl : old = some p := hp
        simpa using he.1.2
      · intro p hp
        obtain rfl : new = some p := hp
        simpa using he.2
    | advance τ => exact h.advance τ
    | reclaim => exact h.reclaim (State.free_iff.mp he)

end Pools
