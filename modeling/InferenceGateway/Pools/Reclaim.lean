import InferenceGateway.Pools.Rules

/-!
# No pool is freed under a reader and none is kept for ever

Every run of the threads, from the start, over any number of workers and rules.

* `Safe`          in every state a pool is freed at most once, with no reference, and no worker may use
  it or find it any more; the same for an index;
* `Fair`          the threads go on, the workers keep going offline, a failed publish is made good;
* `Fair.freed`    a pool out of its table is freed once its holders have put their references.
-/

set_option linter.unusedSectionVars false

open Function List Option Nat

namespace Pools

variable {n : Nat} {R : Type} [DecidableEq R] {key : Nat → List Nat} {s : State n R}

/-! ## what a step does to the deferred work -/

/-- the effect of a step of the program on the deferred work -/
structure Effect (s : State n R) (a : Act n R) (s' : State n R) (op : Flow.Op n (Thread n R)) :
    Prop where
  flow : s'.flow = s.flow.apply op
  begins : ∀ τ works, op = .start τ works ∨ op = .reclaim τ works →
    s.flow.todo τ = [] ∧ ∀ k ∈ works, s.flow.place k = .nowhere
  advance : ∀ τ, a = .advance τ → op = .advance τ
  reclaim : a = .reclaim → s.free .reclaimer = true → ∃ τ works, op = .reclaim τ works
  other : a ≠ .reclaim → ∀ works, op ≠ .start .reclaimer works ∧ ∀ τ, op ≠ .reclaim τ works

namespace Effect
variable {s' : State n R} {a : Act n R}

theorem plain {op : Flow.Op n (Thread n R)} (hf : s'.flow = s.flow.apply op)
    (ho : ∀ τ works, op ≠ .start τ works ∧ op ≠ .reclaim τ works) (ha : ∀ τ, a ≠ .advance τ)
    (hr : a = .reclaim → s.free .reclaimer = false) : Effect s a s' op where
  flow := hf
  begins := fun τ works h => by
    rcases h with h | h
    · exact absurd h (ho τ works).1
    · exact absurd h (ho τ works).2
  advance := fun τ h => absurd h (ha τ)
  reclaim := fun h hfree => by
    rw [hr h] at hfree
    cases hfree
  other := fun _ works => ⟨(ho _ works).1, fun τ => (ho τ works).2⟩

theorem skip (hf : s'.flow = s.flow) (ha : ∀ τ, a ≠ .advance τ)
    (hr : a = .reclaim → s.free .reclaimer = false) : Effect s a s' .skip :=
  plain hf (fun _ _ => ⟨nofun, nofun⟩) ha hr

theorem start {τ : Thread n R} {works : List Work} (hf : s'.flow = s.flow.start τ works)
    (hτ : s.flow.todo τ = []) (hw : ∀ k ∈ works, s.flow.place k = .nowhere) (hne : τ ≠ .reclaimer)
    (ha : ∀ τ, a ≠ .advance τ) (hr : a ≠ .reclaim) : Effect s a s' (.start τ works) where
  flow := hf
  begins := fun σ works' h => by
    rcases h with h | h
    · cases h
      exact ⟨hτ, hw⟩
    · cases h
  advance := fun τ h => absurd h (ha τ)
  reclaim := fun h => absurd h hr
  other := fun _ works' => ⟨(fun h => hne (by cases h; rfl)), nofun⟩

end Effect

variable {r : R} {p : Nat} {a : Act n R} {i j : Fin n} {new : Option Nat}

section
variable (h : Inv key s) (hτ : s.flow.todo (.rule r) = [])
include h hτ

theorem Inv.effect_link (ok : Bool) : ∃ op, Effect s (.link r ok) (s.link key r ok) op := by
  have hadd := h.hashAdd r
  unfold State.link
  dsimp only
  split
  case isTrue =>
    have hnow := (hadd.gives_publish (keeps_perm ((s.hashAdd r).rule r))).nowhere hadd.tables
    exact ⟨_, .start rfl hτ hnow nofun nofun nofun⟩
  case isFalse =>
    refine ⟨_, .start rfl hτ ?_ nofun nofun nofun⟩
    intro k hk
    rw [mem_singleton.mp hk]
    exact (h.tables.kept _).mpr fun hlt => absurd hlt (lt_irrefl _)

theorem Inv.effect_unlink (hp : p ∈ (s.rule r).ephash) (ok : Bool) :
    ∃ op, Effect s (.unlink r p ok) (s.unlink key r p ok) op := by
  unfold State.unlink
  dsimp only
  split
  case isTrue =>
    have hperm := unlink_perm hp
    have hflow : ((s.hashDel r p).publish key r [p]).flow =
        s.flow.start (.rule r) ((s.rule r).handsOver [p]) := by
      rw [State.hashDel, publish_given]
      rfl
    exact ⟨_, .start hflow hτ ((h.gives_publish hperm).nowhere h.tables) nofun nofun nofun⟩
  case isFalse => exact ⟨_, .skip rfl nofun nofun⟩

theorem Inv.effect_publish (ok : Bool) :
    ∃ op, Effect s (.publish r ok) (s.indexPublish key r ok) op := by
  unfold State.indexPublish
  split
  case isTrue =>
    have hnow := (h.gives_publish (keeps_perm (s.rule r))).nowhere h.tables
    exact ⟨_, .start rfl hτ hnow nofun nofun nofun⟩
  case isFalse => exact ⟨_, .skip rfl nofun nofun⟩

end

theorem release_flow (s : State n R) (τ : Thread n R) (p : Nat) : (s.release τ p).flow = s.flow ∨
      ((s.pool p).refs = 1 ∧ (s.release τ p).flow = s.flow.start τ [.finalFree p]) := by
  unfold State.release
  split
  case h_1 => exact .inl rfl
  case h_2 hone => exact .inr ⟨hone, rfl⟩
  case h_3 => exact .inl rfl

section
variable (h : Inv key s)
include h

theorem Inv.finalFree_nowhere (hone : (s.pool p).refs = 1) :
    ∀ k ∈ [Work.finalFree p], s.flow.place k = .nowhere := by
  intro k hk
  rw [mem_singleton.mp hk]
  exact (h.counts.last p).mpr fun _ => by omega

theorem Inv.effect_put (s' : State n R) (hs : s'.flow = s.flow) (hi : s.flow.todo (.worker i) = [])
    (p : Nat) (ha : ∀ τ, a ≠ .advance τ) (hr : a ≠ .reclaim) :
    ∃ op, Effect s' a (s.put i p) op := by
  rcases release_flow (s.setHeld i p ((s.worker i).held p - 1)) (.worker i) p with hf | ⟨hone, hf⟩
  · exact ⟨_, .skip (hf.trans hs.symm) ha fun he => absurd he hr⟩
  · refine ⟨_, .start (hf.trans (congrArg (Flow.start · _ _) hs.symm)) ?_ ?_ nofun ha hr⟩
    · rw [hs]
      exact hi
    · rw [hs]
      exact h.finalFree_nowhere hone

theorem Inv.effect_hold (hi : s.flow.todo (.worker i) = []) {old : Option Nat}
    (hnew : ∀ p ∈ new, s.mayUse i p = true) :
    ∃ op, Effect s (.hold i old new) (s.hold i old new) op := by
  have ha : ∀ τ, (Act.hold i old new : Act n R) ≠ .advance τ := nofun
  have hr : (Act.hold i old new : Act n R) ≠ .reclaim := nofun
  unfold State.hold
  split
  case isTrue => exact ⟨_, .skip rfl ha fun he => absurd he hr⟩
  case isFalse =>
    cases new with
    | none =>
      cases old with
      | none => exact ⟨_, .skip rfl ha fun he => absurd he hr⟩
      | some p => exact h.effect_put s rfl hi p ha hr
    | some q =>
      have hget := h.get (hnew q rfl)
      cases old with
      | none => exact ⟨_, .skip rfl ha fun he => absurd he hr⟩
      | some p => exact hget.effect_put s rfl hi p ha hr

theorem Inv.effect_reclaim (hτ : s.flow.todo .reclaimer = []) :
    ∃ op, Effect s .reclaim s.reclaim op := by
  have heffect : ∀ works, (∀ k ∈ works, s.flow.place k = .nowhere) →
      s.reclaim.flow = s.flow.reclaim.start .reclaimer works →
      ∃ op, Effect s .reclaim s.reclaim op := by
    intro works hw hf
    refine ⟨.reclaim .reclaimer works, hf, ?_, nofun, ?_, fun he => absurd rfl he⟩
    · intro τ works' ho
      rcases ho with ho | ho
      · cases ho
      · cases ho
        exact ⟨hτ, hw⟩
    · exact fun _ _ => ⟨_, _, rfl⟩
  have hnil : s.flow.reclaim = s.flow.reclaim.start .reclaimer [] := by
    rw [start_nil]
    rw [Flow.reclaim_todo]
    exact hτ
  have hskip : s.reclaim.flow = s.flow.reclaim → ∃ op, Effect s .reclaim s.reclaim op := by
    intro hf
    exact heffect [] (fun k hk => absurd hk not_mem_nil) (hf.trans hnil)
  generalize hr : s.reclaim = s' at heffect hskip ⊢
  unfold State.reclaim at hr
  split at hr
  case h_1 | h_4 =>
    apply hskip
    rw [← hr]
    rfl
  case h_2 p hd =>
    rcases release_flow (s.setFlow s.flow.reclaim) .reclaimer p with hf | ⟨hone, hf⟩
    · exact hskip (by rw [← hr, hf]; rfl)
    · exact heffect _ (h.finalFree_nowhere hone) (by rw [← hr, hf]; rfl)
  case h_3 p hd =>
    apply hskip
    rw [← hr]
    split <;> rfl

theorem Inv.effect (a : Act n R) : ∃ op, Effect s a (s.step key a) op := by
  unfold State.step
  split
  case isFalse he =>
    refine ⟨_, .skip rfl ?_ ?_⟩
    · rintro τ rfl
      exact he rfl
    · rintro rfl
      exact Bool.not_eq_true _ ▸ he
  case isTrue he =>
    cases a with
    | link r ok => exact h.effect_link (State.free_iff.mp he) ok
    | unlink r p ok =>
      simp only [State.enabled, Bool.and_eq_true, contains_iff_mem] at he
      exact h.effect_unlink (State.free_iff.mp he.1) he.2 ok
    | publish r ok => exact h.effect_publish (State.free_iff.mp he) ok
    | put i p =>
      simp only [State.enabled, Bool.and_eq_true] at he
      exact h.effect_put s rfl (State.free_iff.mp he.1) p (by simp) (by simp)
    | hold i old new =>
      simp only [State.enabled, Bool.and_eq_true] at he
      refine h.effect_hold (State.free_iff.mp he.1.1) ?_
      intro p hp
      obtain rfl : new = some p := hp
      simpa using he.2
    | reclaim => exact h.effect_reclaim (State.free_iff.mp he)
    | advance τ =>
      refine ⟨.advance τ, rfl, ?_, ?_, by simp, by simp⟩
      · rintro σ works (ho | ho) <;> cases ho
      · rintro σ hσ
        cases hσ
        rfl
    | load i => exact ⟨.load i, .plain rfl (by simp) (by simp) (by simp)⟩
    | store i => exact ⟨.store i, .plain rfl (by simp) (by simp) (by simp)⟩
    | offline i => exact ⟨.offline i, .plain rfl (by simp) (by simp) (by simp)⟩
    | index | find | get => exact ⟨_, .skip rfl (by simp) (by simp)⟩

/-! ## in every state -/

/-- `sp_pool_index_find` on the index of a rule -/
def State.findIn (s : State n R) (key : Nat → List Nat) (r : R) (k : List Nat) : Option Nat :=
  (s.rule r).pools.bind fun x => (s.index x).find key k

/-- nothing is freed twice, with a reference or under a worker -/
structure Safe (key : Nat → List Nat) (s : State n R) : Prop where
  pool_once : ∀ p, (s.pool p).freed ≤ 1
  index_once : ∀ x, s.indexFreed x ≤ 1
  unreferenced : ∀ p, (s.pool p).freed ≠ 0 → (s.pool p).refs = 0
  pool_unused : ∀ i p, s.mayUse i p = true → (s.pool p).freed = 0
  index_unused : ∀ i, ∀ x ∈ (s.worker i).indexes, s.indexFreed x = 0
  unfound : ∀ i, ∀ x ∈ (s.worker i).indexes, ∀ k p, (s.index x).find key k = some p →
    (s.pool p).freed = 0
  index_current : ∀ r x, (s.rule r).pools = some x → s.indexFreed x = 0
  unfound_current : ∀ r k p, s.findIn key r k = some p → (s.pool p).freed = 0
  /-- a lookup finds the pool with that key in the table of the last publish -/
  finds : ∀ r k, s.findIn key r k = (s.rule r).published.find? fun p => key p == k

theorem Inv.freed_iff (p : Nat) : (s.pool p).freed ≠ 0 ↔ s.flow.place (.finalFree p) = .done := by
  rw [h.frees.pool p]
  split <;> simp [*]

theorem Inv.refs_of_freed (hp : (s.pool p).freed ≠ 0) : (s.pool p).refs = 0 := by
  by_contra hne
  have hnow := (h.counts.last p).mpr fun _ => pos_of_ne_zero hne
  rw [(h.freed_iff p).mp hp] at hnow
  cases hnow

theorem Inv.unfreed (hlt : p < s.nextPool) (hd : s.flow.place (.tableDrop p) ≠ .done) :
    (s.pool p).freed = 0 := by
  by_contra hne
  have hone : s.tableRef p = 1 := if_pos ⟨hlt, hd⟩
  have hrefs := h.counts.refs p
  have hzero := h.refs_of_freed hne
  omega

theorem Inv.index_unfreed {x : Nat} (hd : s.flow.place (.indexFree x) ≠ .done) :
    s.indexFreed x = 0 := by
  rw [h.frees.index x, if_neg hd]

theorem Inv.safe : Safe key s where
  pool_once := by
    intro p
    rw [h.frees.pool p]
    split <;> simp
  index_once := by
    intro x
    rw [h.frees.index x]
    split <;> simp
  unreferenced := fun p hp => h.refs_of_freed hp
  pool_unused := by
    intro i p hu
    by_contra hne
    have hpos := (h.refs_pos hu).2
    rw [h.refs_of_freed hne] at hpos
    exact lt_irrefl _ hpos
  index_unused := fun i x hx => h.index_unfreed (h.seen.alive i (.indexFree x) hx)
  unfound := by
    intro i x hx k p hp
    have hm := h.find_mem (h.seen.indexes i x hx) hp
    exact h.unfreed (h.seen.orders x p hm) (h.seen.alive i (.tableDrop p) (.inr ⟨x, hx, hm⟩))
  index_current := by
    intro r x hx
    apply h.index_unfreed
    rw [(h.tables.current r x hx).2.1]
    exact nofun
  unfound_current := by
    intro r k p hp
    obtain ⟨x, hx, hf⟩ := bind_eq_some_iff.mp hp
    obtain ⟨hlt, -, hord⟩ := h.tables.current r x hx
    have hm := h.find_mem hlt hf
    apply h.unfreed (h.seen.orders x p hm)
    rw [(h.tables.kept p).mpr fun _ => ⟨r, hord p hm⟩]
    exact nofun
  finds := by
    intro r k
    unfold State.findIn
    cases hx : (s.rule r).pools with
    | none => rw [h.published.none r hx, bind_none, find?_nil]
    | some x =>
      rw [bind_some, h.published.index r x hx]
      exact Index.find_build key (h.published.nodup r) k

end

/-! ## what becomes of a pool out of its table -/

def State.publishes (s : State n R) (a : Act n R) (r : R) : Bool :=
  s.enabled a && match a with
    | .link r' ok => decide (r' = r) && (s.hashAdd r').allocates r' ok
    | .unlink r' p ok => decide (r' = r) && (s.hashDel r' p).allocates r' ok
    | .publish r' ok => decide (r' = r) && s.allocates r' ok
    | _ => false

/-- an endless run in which the threads go on, the workers keep going offline, and a publish comes
after those that failed -/
structure Fair (s : Nat → State n R) (act : Nat → Act n R) : Prop where
  reclaimer : ∀ t, ∃ t', t ≤ t' ∧ act t' = .reclaim
  threads : ∀ τ t, ∃ t', t ≤ t' ∧ act t' = .advance τ ∧ (s t').flow.q.locked = false
  workers : ∀ i t, ∃ t', t ≤ t' ∧ (s t').flow.q.reader i = .offline
  publishes : ∀ r t, ((s t).rule r).waiting ≠ [] → ∃ t', t ≤ t' ∧ (s t').publishes (act t') r = true

section
variable (s : State n R) (r r' : R)

theorem setRule_waiting {t : Rule} (ht : t.waiting = (s.rule r').waiting) :
    ((s.setRule r' t).rule r).waiting = (s.rule r).waiting :=
  setRule_field Rule.waiting ht r

theorem hashAdd_waiting : ((s.hashAdd r').rule r).waiting = (s.rule r).waiting :=
  setRule_waiting (s.setPool _ _) r r' rfl

theorem hashDel_waiting (p : Nat) : ((s.hashDel r' p).rule r).waiting = (s.rule r).waiting :=
  setRule_waiting s r r' rfl

theorem publish_waiting (gone : List Nat) {p : Nat} (hp : p ∈ (s.rule r).waiting) :
    (s.publish key r' gone).flow.place (.tableDrop p) ≠ .nowhere ∨
      (p ∈ ((s.publish key r' gone).rule r).waiting ∧ r' ≠ r) := by
  by_cases hr : r' = r
  · left
    subst hr
    intro hnow
    have hm : .tableDrop p ∈ (s.rule r').handsOver gone :=
      (tableDrop_mem_handsOver _ gone p).mpr (mem_append_left _ hp)
    exact (start_nowhere (.tableDrop p)).mp hnow |>.1 hm
  · right
    refine ⟨?_, hr⟩
    show p ∈ (update s.rule r' _ r).waiting
    rw [update_of_ne (Ne.symm hr)]
    exact hp

end

section
variable (s : State n R)

theorem release_frame (τ : Thread n R) (p : Nat) :
    (s.release τ p).rule = s.rule ∧ (s.release τ p).worker = s.worker := by
  unfold State.release
  split <;> exact ⟨rfl, rfl⟩

theorem hold_rule (i : Fin n) (old new : Option Nat) : (s.hold i old new).rule = s.rule := by
  unfold State.hold
  split
  · rfl
  · cases old with
    | none => cases new <;> rfl
    | some p =>
      simp only [State.put, (release_frame _ _ _).1]
      cases new <;> rfl

theorem reclaim_frame : s.reclaim.rule = s.rule ∧ s.reclaim.worker = s.worker := by
  unfold State.reclaim
  split
  case h_1 => exact ⟨rfl, rfl⟩
  case h_2 p hd => exact release_frame _ _ _
  case h_3 p hd => split <;> exact ⟨rfl, rfl⟩
  case h_4 => exact ⟨rfl, rfl⟩

theorem waiting_step (key : Nat → List Nat) (hp : p ∈ (s.rule r).waiting) (a : Act n R) :
    (s.step key a).flow.place (.tableDrop p) ≠ .nowhere ∨
      (p ∈ ((s.step key a).rule r).waiting ∧ s.publishes a r = false) := by
  have hsame : ∀ {s' : State n R}, s'.rule = s.rule → p ∈ (s'.rule r).waiting := fun h => by rwa [h]
  unfold State.step State.publishes
  split
  case isFalse he => exact .inr ⟨hp, by simp [he]⟩
  case isTrue he =>
    rw [he]
    cases a with
    | link r' ok =>
      have hadd : p ∈ ((s.hashAdd r').rule r).waiting := hashAdd_waiting s r r' ▸ hp
      simp only [State.act, State.link]
      split
      case isTrue hal =>
        exact (publish_waiting _ r r' [] hadd).imp id fun hw => ⟨hw.1, by simp [hw.2]⟩
      case isFalse hal =>
        refine .inr ⟨?_, by simp [hal]⟩
        show p ∈ (((s.hashAdd r').hashDel r' _).rule r).waiting
        rw [hashDel_waiting]
        exact hadd
    | unlink r' q ok =>
      have hdel : p ∈ ((s.hashDel r' q).rule r).waiting := hashDel_waiting s r r' q ▸ hp
      simp only [State.act, State.unlink]
      split
      case isTrue hal =>
        exact (publish_waiting _ r r' [q] hdel).imp id fun hw => ⟨hw.1, by simp [hw.2]⟩
      case isFalse hal =>
        refine .inr ⟨?_, by simp [hal]⟩
        show p ∈ (update (s.hashDel r' q).rule r' _ r).waiting
        rw [update_apply]
        split
        case isTrue hr => exact mem_cons_of_mem _ (hr ▸ hdel)
        case isFalse => exact hdel
    | publish r' ok =>
      simp only [State.act, State.indexPublish]
      split
      case isTrue hal =>
        exact (publish_waiting _ r r' [] hp).imp id fun hw => ⟨hw.1, by simp [hw.2]⟩
      case isFalse hal => exact .inr ⟨hp, by simp [hal]⟩
    | put i q => exact .inr ⟨hsame (release_frame _ _ _).1, rfl⟩
    | hold i old new => exact .inr ⟨hsame (hold_rule s i old new), rfl⟩
    | reclaim => exact .inr ⟨hsame (reclaim_frame s).1, rfl⟩
    | _ => exact .inr ⟨hp, rfl⟩

theorem get_held {q : Nat} (h : ¬ (i = j ∧ p = q)) :
    ((s.get j q).worker i).held p = (s.worker i).held p := by
  show (((s.setRefs q _).setHeld j q _).worker i).held p = _
  rw [held_setHeld, if_neg h]
  rfl

theorem put_held (i j : Fin n) (p q : Nat) :
    ((s.put j q).worker i).held p ≤ (s.worker i).held p := by
  rw [State.put, (release_frame _ _ _).2, held_setHeld]
  split
  case isTrue h =>
    rw [h.1, h.2]
    exact sub_le _ _
  case isFalse => exact le_rfl

theorem hold_held (old : Option Nat) (h : ¬ (i = j ∧ new = some p)) :
    ((s.hold j old new).worker i).held p ≤ (s.worker i).held p := by
  unfold State.hold
  split
  · exact le_rfl
  · cases new with
    | none =>
      cases old with
      | none => exact le_rfl
      | some q => exact put_held s i j p q
    | some q' =>
      have hget := get_held s fun he : i = j ∧ p = q' => h ⟨he.1, congrArg some he.2.symm⟩
      cases old with
      | none => exact hget.le
      | some q => exact (put_held _ i j p q).trans hget.le

end

theorem Inv.held_step (h : Inv key s) (hd : s.flow.place (.tableDrop p) = .done)
    (hz : (s.worker i).held p = 0) (a : Act n R) :
    ((s.step key a).worker i).held p = 0 := by
  have huse : s.mayUse i p = false := by
    by_contra hu
    rw [State.mayUse, hz] at hu
    have hf : p ∈ (s.worker i).found := by simpa using hu
    exact h.seen.alive i (.tableDrop p) (.inl hf) hd
  unfold State.step
  split
  case isFalse => exact hz
  case isTrue he =>
    cases a with
    | link r ok =>
      simp only [State.act, State.link]
      split <;> exact hz
    | unlink r q ok =>
      simp only [State.act, State.unlink]
      split <;> exact hz
    | publish r ok =>
      simp only [State.act, State.indexPublish]
      split <;> exact hz
    | load | store | advance => exact hz
    | offline | index | find =>
      refine (congrFun (Run.update_keeps Worker.held ?_ i) p).trans hz
      rfl
    | get j q =>
      simp only [State.enabled, Bool.and_eq_true] at he
      refine (get_held s ?_).trans hz
      rintro ⟨rfl, rfl⟩
      rw [huse] at he
      cases he.2
    | put j q => exact le_zero.mp (hz ▸ put_held s i j p q)
    | hold j old new =>
      simp only [State.enabled, Bool.and_eq_true] at he
      refine le_zero.mp (hz ▸ hold_held s old ?_)
      rintro ⟨rfl, rfl⟩
      have hu := he.2
      rw [all_some, huse] at hu
      cases hu
    | reclaim =>
      show (s.reclaim.worker i).held p = 0
      rw [(reclaim_frame s).2]
      exact hz

/-! ## runs -/

def states (key : Nat → List Nat) (act : Nat → Act n R) : Nat → State n R :=
  Run.trace (State.step key) State.init act

section
variable (key) (act : Nat → Act n R)

theorem states_inv (t : Nat) : Inv key (states key act t) :=
  Run.trace_inv (fun _ a h => h.step a) .init act t

theorem states_flow : ∃ op : Nat → Flow.Op n (Thread n R),
    (∀ t, Effect (states key act t) (act t) (states key act (t + 1)) (op t)) ∧
      Flow.Moves (fun t => (states key act t).flow) op := by
  choose op hop using fun t => (states_inv key act t).effect (act t)
  refine ⟨op, hop, ?_, ?_, ?_, ?_⟩
  · exact fun t => (hop t).flow
  · exact fun t => (states_inv key act t).flow
  · exact fun t => (states_inv key act t).seen.quiet.stamped
  · exact fun t => (hop t).begins

end

section
variable {act : Nat → Act n R}

variable (hfair : Fair (states key act) act)
include hfair

theorem Fair.reclaims {op : Nat → Flow.Op n (Thread n R)}
    (heff : ∀ t, Effect (states key act t) (act t) (states key act (t + 1)) (op t))
    (hm : Flow.Moves (fun t => (states key act t).flow) op) (t : Nat) :
    ∃ t', t ≤ t' ∧ ∃ τ works, op t' = .reclaim τ works := by
  have hadv : ∀ t, ∃ t', t ≤ t' ∧ op t' = .advance .reclaimer ∧
      (states key act t').flow.q.locked = false := by
    intro t
    obtain ⟨t', ht, ha, hl⟩ := hfair.threads .reclaimer t
    exact ⟨t', ht, (heff t').advance _ ha, hl⟩
  obtain ⟨t1, ht1, hfree⟩ := hm.todo_drains hadv t
  obtain ⟨t2, ht2, ha, hfree2⟩ := Run.until_tick hfair.reclaimer
    (fun s : State n R => s.flow.todo .reclaimer = []) hfree
    (fun k _ hk he => by
      by_cases hop : op k = .advance .reclaimer
      · rw [(heff k).flow, hop]
        show ((states key act k).flow.advance .reclaimer).todo .reclaimer = []
        unfold Flow.advance
        rw [he]
        exact he
      · have htodo := hm.todo_step k hop fun works =>
          ⟨((heff k).other hk works).1, ((heff k).other hk works).2 _⟩
        exact htodo.trans he)
  exact ⟨t2, le_trans ht1 ht2, (heff t2).reclaim ha (State.free_iff.mpr hfree2)⟩

theorem Fair.handed_over {t : Nat} {p : Nat} {r : R} (hp : p ∈ ((states key act t).rule r).waiting) :
    ∃ t', t ≤ t' ∧ (states key act t').flow.place (.tableDrop p) ≠ .nowhere := by
  by_contra hnever
  have hwaits : ∀ k, t ≤ k → p ∈ ((states key act k).rule r).waiting := by
    intro k hk
    induction k, hk using le_induction with
    | base => exact hp
    | succ k hk ih =>
      rcases waiting_step _ key ih (act k) with hs | hs
      · exact absurd ⟨k + 1, by omega, hs⟩ hnever
      · exact hs.1
  obtain ⟨k, hk, hpub⟩ := hfair.publishes r t (ne_nil_of_mem hp)
  rcases waiting_step _ key (hwaits k hk) (act k) with hs | hs
  · exact hnever ⟨k + 1, by omega, hs⟩
  · rw [hs.2] at hpub
    cases hpub

/-- **A pool out of its table is freed once its holders have put their references.** -/
theorem Fair.freed {t p : Nat} (hlt : p < (states key act t).nextPool)
    (hout : ∀ r, p ∉ ((states key act t).rule r).ephash)
    (hput : ∀ i t, ∃ t', t ≤ t' ∧ ((states key act t').worker i).held p = 0) :
    ∃ t', t ≤ t' ∧ ((states key act t').pool p).freed = 1 := by
  obtain ⟨op, heff, hm⟩ := states_flow key act
  have hinv := states_inv key act
  have hgoes : Flow.Goes (fun t => (states key act t).flow) op := by
    refine ⟨hm, ?_, fun t => hfair.reclaims heff hm t, hfair.workers⟩
    intro τ t
    obtain ⟨t', ht, ha, hl⟩ := hfair.threads τ t
    exact ⟨t', ht, (heff t').advance _ ha, hl⟩
  -- it is handed over
  have hbegun : ∃ t1, t ≤ t1 ∧ (states key act t1).flow.place (.tableDrop p) ≠ .nowhere := by
    by_cases hnow : (states key act t).flow.place (.tableDrop p) = .nowhere
    · obtain ⟨r, hr⟩ := ((hinv t).tables.kept p).mp hnow hlt
      rcases mem_append.mp hr with hr | hr
      · exact absurd hr (hout r)
      · exact hfair.handed_over hr
    · exact ⟨t, le_rfl, hnow⟩
  obtain ⟨t1, ht1, hne⟩ := hbegun
  -- the table's reference is given back
  obtain ⟨t2, ht2, hdone⟩ := hgoes.done hne
  have hgone : ∀ k, t2 ≤ k → (states key act k).flow.place (.tableDrop p) = .done :=
    fun k hk => hm.done_stays hk hdone
  -- each worker puts its references and gets no more
  have hzero : ∀ i, ∃ m, ∀ k, m ≤ k → ((states key act k).worker i).held p = 0 := by
    intro i
    obtain ⟨m, hm2, hz⟩ := hput i t2
    refine ⟨m, fun k hk => ?_⟩
    induction k, hk using le_induction with
    | base => exact hz
    | succ k hk ih => exact (hinv k).held_step (hgone k (le_trans hm2 hk)) ih (act k)
  choose f hf using hzero
  obtain ⟨k, hk⟩ := Finite.exists_le f
  obtain ⟨m, hm2, hkm⟩ : ∃ m, t2 ≤ m ∧ k ≤ m := ⟨max t2 k, le_max_left _ _, le_max_right _ _⟩
  -- no reference is left
  have hrefs : ((states key act m).pool p).refs = 0 := by
    have htab : (states key act m).tableRef p = 0 := if_neg fun hd => hd.2 (hgone m hm2)
    have hheld : (states key act m).holders p = 0 :=
      Finset.sum_eq_zero fun i _ => hf i m (le_trans (hk i) hkm)
    rw [(hinv m).counts.refs p, htab, hheld]
  have hmade : p < (states key act m).nextPool := by
    by_contra hge
    have hnow := ((hinv m).tables.kept p).mpr fun hlt => absurd hlt hge
    rw [hgone m hm2] at hnow
    cases hnow
  have hfinal : (states key act m).flow.place (.finalFree p) ≠ .nowhere := by
    intro hnow
    have hpos := ((hinv m).counts.last p).mp hnow hmade
    rw [hrefs] at hpos
    exact lt_irrefl _ hpos
  obtain ⟨t3, ht3, hfree⟩ := hgoes.done hfinal
  refine ⟨t3, by omega, ?_⟩
  rw [(hinv t3).frees.pool p, if_pos hfree]

end

/-- **No pool is freed under a reader and none is kept for ever**: nothing is freed twice, with a
reference or under a worker, a lookup finds the last published pool, and in a fair run a pool that
left its table is freed if each worker puts its references. -/
theorem pools_freed_in_time (key : Nat → List Nat) (act : Nat → Act n R) :
    (∀ t, Safe key (states key act t)) ∧
    (Fair (states key act) act → ∀ t p, p < (states key act t).nextPool →
      (∀ r, p ∉ ((states key act t).rule r).ephash) →
      (∀ i t, ∃ t', t ≤ t' ∧ ((states key act t').worker i).held p = 0) →
      ∃ t', t ≤ t' ∧ ((states key act t').pool p).freed = 1) :=
  ⟨fun t => (states_inv key act t).safe, fun hfair _ _ hlt hout hput => hfair.freed hlt hout hput⟩

/-! ### a fair run -/

def thenRound (first : List (Act n R)) (round : Nat → Act n R) (t : Nat) : Act n R :=
  first.getD t (round (t - first.length))

/-- a worker holds a pool that leaves the table while no index can be made -/
def slowLeave : List (Act 1 Unit) :=
  [.link () true, .link () true, .advance (.rule ()), .load 0, .store 0, .index 0 (), .find 0 1 [1],
    .get 0 0, .unlink () 0 false, .publish () true] ++
  replicate 3 (.advance (.rule ())) ++ [.offline 0] ++ replicate 12 .reclaim ++
  [.put 0 0, .advance (.worker 0), .advance (.worker 0)] ++ replicate 6 .reclaim

def turns (t : Nat) : Act 1 Unit :=
  match t % 4 with
  | 0 => .advance (.rule ())
  | 1 => .advance (.worker 0)
  | 2 => .advance .reclaimer
  | _ => .reclaim

structure Resting (s : State n R) : Prop where
  phase : s.flow.q.phase = .idle
  queue : s.flow.q.queue = []
  todo : ∀ τ, s.flow.todo τ = []

theorem Resting.step (h : Resting s) (ha : a = .reclaim ∨ ∃ τ, a = .advance τ) :
    s.step key a = s := by
  rcases ha with rfl | ⟨τ, rfl⟩
  · have hreclaim : s.flow.reclaim = s.flow := by
      have hhand : s.flow.q.handed = none := by rw [Qsbr.State.handed, h.phase]
      have hq : s.flow.q.reclaim = s.flow.q := by
        unfold Qsbr.State.reclaim
        rw [h.phase, h.queue]
        rfl
      unfold Flow.reclaim
      rw [hhand, hq]
      rfl
    unfold State.step
    split
    · show s.reclaim = s
      unfold State.reclaim
      rw [Qsbr.State.handed, h.phase, hreclaim]
      rfl
    · rfl
  · have hadvance : s.flow.advance τ = s.flow := by
      unfold Flow.advance
      rw [h.todo τ]
    show s.setFlow (s.flow.advance τ) = s
    rw [hadvance]
    rfl

section
variable {first : List (Act n R)} {round : Nat → Act n R}

theorem thenRound_after (k : Nat) : thenRound first round (first.length + k) = round k := by
  unfold thenRound
  rw [getD_eq_getElem?_getD, getElem?_eq_none (Nat.le_add_right _ _), Nat.add_sub_cancel_left]
  rfl

theorem Resting.stays (h : Resting (states key (thenRound first round) first.length))
    (hround : ∀ k, round k = .reclaim ∨ ∃ τ, round k = .advance τ) (k : Nat) :
    states key (thenRound first round) (first.length + k) =
      states key (thenRound first round) first.length := by
  induction k with
  | zero => rfl
  | succ k ih =>
    show (states key (thenRound first round) (first.length + k)).step key
      (thenRound first round (first.length + k)) = _
    rw [ih, thenRound_after]
    exact h.step (hround k)

end

theorem turns_round (k : Nat) : turns k = .reclaim ∨ ∃ τ, turns k = .advance τ := by
  unfold turns
  split
  · exact .inr ⟨_, rfl⟩
  · exact .inr ⟨_, rfl⟩
  · exact .inr ⟨_, rfl⟩
  · exact .inl rfl

def numbered (p : Nat) : List Nat := [p + 1]

def rests (s : State 1 Unit) : Bool :=
  (match s.flow.q.phase with
    | .idle => true
    | _ => false) &&
  s.flow.q.queue.isEmpty && (s.flow.todo (.rule ())).isEmpty && (s.flow.todo (.worker 0)).isEmpty &&
  (s.flow.todo .reclaimer).isEmpty

theorem Resting.of_rests {s : State 1 Unit} (h : rests s = true) : Resting s := by
  simp only [rests, Bool.and_eq_true, List.isEmpty_iff] at h
  obtain ⟨⟨⟨⟨h1, h2⟩, h3⟩, h4⟩, h5⟩ := h
  refine ⟨?_, h2, ?_⟩
  · cases hp : s.flow.q.phase with
    | idle => rfl
    | collecting | running =>
      rw [hp] at h1
      cases h1
  · intro τ
    cases τ with
    | rule r => exact h3
    | worker i => exact Fin.fin_one_eq_zero i ▸ h4
    | reclaimer => exact h5

variable {t : Nat}

theorem slowLeave_after (ht : 35 ≤ t) : states numbered (thenRound slowLeave turns) t =
    states numbered (thenRound slowLeave turns) 35 := by
  have hrest : Resting (states numbered (thenRound slowLeave turns) slowLeave.length) :=
    .of_rests (by decide +kernel)
  obtain ⟨k, rfl⟩ := Nat.exists_eq_add_of_le ht
  exact hrest.stays turns_round k

theorem slowLeave_turn (t : Nat) {a : Act 1 Unit} {j : Nat} (hj : j < 4) (ha : turns j = a) :
    ∃ t', t ≤ t' ∧ 35 ≤ t' ∧ thenRound slowLeave turns t' = a := by
  refine ⟨slowLeave.length + (4 * t + j), by omega, le_add_right _ _, ?_⟩
  have hmod : (4 * t + j) % 4 = j % 4 := by omega
  rw [thenRound_after, turns, hmod]
  exact ha

theorem slowLeave_fair :
    Fair (states numbered (thenRound slowLeave turns)) (thenRound slowLeave turns) where
  reclaimer := fun t => by
    obtain ⟨t', ht, -, ha⟩ := slowLeave_turn t (j := 3) (by decide) rfl
    exact ⟨t', ht, ha⟩
  threads := fun τ t => by
    have hturn : ∃ j, j < 4 ∧ turns j = .advance τ := by
      cases τ with
      | rule r => exact ⟨0, by decide, rfl⟩
      | worker i => exact ⟨1, by decide, by rw [Fin.fin_one_eq_zero i]; rfl⟩
      | reclaimer => exact ⟨2, by decide, rfl⟩
    obtain ⟨j, hj, ha⟩ := hturn
    obtain ⟨t', ht, hlast, ha⟩ := slowLeave_turn t hj ha
    refine ⟨t', ht, ha, ?_⟩
    rw [slowLeave_after hlast]
    decide +kernel
  workers := fun i t => by
    refine ⟨max t 35, le_max_left _ _, ?_⟩
    rw [slowLeave_after (le_max_right _ _), Fin.fin_one_eq_zero i]
    decide +kernel
  publishes := fun r t hw => by
    by_cases ht : t ≤ 9
    · have hpub : ∀ r, (states numbered (thenRound slowLeave turns) 9).publishes
          (thenRound slowLeave turns 9) r = true := by
        decide +kernel
      exact ⟨9, ht, hpub r⟩
    · -- nothing waits any more
      have hnone : ∀ k ≤ 35, 9 < k → ∀ r,
          ((states numbered (thenRound slowLeave turns) k).rule r).waiting = [] := by
        decide +kernel
      exfalso
      by_cases hlast : t ≤ 35
      · exact hw (hnone t hlast (by omega) r)
      · rw [slowLeave_after (by omega)] at hw
        exact hw (hnone 35 le_rfl (by decide) r)

/-- the pool that left the table in step 9 is freed -/
theorem slow_leave_freed :
    Fair (states numbered (thenRound slowLeave turns)) (thenRound slowLeave turns) ∧
      ∃ t, 9 ≤ t ∧ ((states numbered (thenRound slowLeave turns) t).pool 0).freed = 1 := by
  refine ⟨slowLeave_fair, ?_⟩
  refine (pools_freed_in_time numbered (thenRound slowLeave turns)).2 slowLeave_fair 9 0
    (by decide +kernel) (by decide +kernel) ?_
  intro i t
  refine ⟨max t 35, le_max_left _ _, ?_⟩
  rw [slowLeave_after (le_max_right _ _), Fin.fin_one_eq_zero i]
  decide +kernel

end Pools
