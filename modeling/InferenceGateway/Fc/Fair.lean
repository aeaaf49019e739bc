import InferenceGateway.Fc.Waiters

/-!
# Fairness of the wake

Under the weighted policy the credits of a round bound how often the bands are served; inside a band
the tenants take turns.

* `drrPick_cases`, `weighted_wake_fair`   one weighted pick, and any sequence of picks;
* `wakeHead_rr`, `rr_wake_fair`           one wake with the tenants in turn, and any sequence of moves.
-/

open Function List Nat

namespace Fc

/-! ## the weighted rounds -/

section
variable (c : Cfg) (cand : Nat → Band → Bool)

/-- the credits before the pick `n`, where the pick `i` is among the bands `cand i` -/
def drrCredit : Nat → Band → Nat
  | 0 => fun _ => 0
  | n + 1 => (drrPick c (drrCredit n) (cand n)).1

def drrServes (n : Nat) : Option Band := (drrPick c (drrCredit c cand n) (cand n)).2
def drrRefills (n : Nat) : Bool := (drrSpend (drrCredit c cand n) (cand n)).2.isNone

def drrTurns (b : Band) : Nat → Nat
  | 0 => 0
  | n + 1 => drrTurns b n + if drrServes c cand n = some b then 1 else 0

end

def total (f : Band → Nat) : Nat := f .critical + f .standard + f .sheddable

/-- the most picks that can pass over the band: what the other bands may spend before its next
credit, and what they may spend beside that one -/
def passes (c : Cfg) (credit : Band → Nat) (b : Band) : Nat :=
  total credit - credit b + if credit b = 0 then total c.bandWeight - c.bandWeight b else 0

section
variable {c : Cfg} {cand : Nat → Band → Bool} {f g : Band → Nat} {b x : Band} {n : Nat}

theorem total_update_pred (hx : 0 < f x) (hne : b ≠ x) :
    total (update f x (f x - 1)) - update f x (f x - 1) b + 1 = total f - f b := by
  unfold total
  cases b <;> cases x <;> first | exact absurd rfl hne | (simp [update]; omega)

theorem others_le (h : ∀ b, f b ≤ g b) (b : Band) : total f - f b ≤ total g - g b := by
  have h1 := h .critical
  have h2 := h .standard
  have h3 := h .sheddable
  unfold total
  cases b <;> omega

theorem drrSpend_cases (f : Band → Nat) (ok : Band → Bool) :
    (drrSpend f ok = (f, none) ∧ ∀ b, ok b = true → f b = 0) ∨
      ∃ x, ok x = true ∧ 0 < f x ∧ drrSpend f ok = (update f x (f x - 1), some x) := by
  unfold drrSpend
  cases hf : bandsByRank.find? (fun b => ok b && decide (f b > 0)) with
  | none =>
    refine .inl ⟨rfl, fun b hb => ?_⟩
    have hno := find?_eq_none.mp hf b (by cases b <;> decide)
    rw [hb, Bool.true_and, decide_eq_true_iff] at hno
    omega
  | some x =>
    have hx := find?_some hf
    rw [Bool.and_eq_true, decide_eq_true_iff] at hx
    exact .inr ⟨x, hx.1, hx.2, rfl⟩

theorem drrSpend_le (h : ∀ b, f b ≤ g b) (ok : Band → Bool) : ∀ b, (drrSpend f ok).1 b ≤ g b := by
  obtain ⟨he, -⟩ | ⟨x, -, -, he⟩ := drrSpend_cases f ok
  · rw [he]; exact h
  · rw [he]
    exact update_le_iff.mpr ⟨(sub_le ..).trans (h x), fun b _ => h b⟩

section
variable (hw : ∀ b, 1 ≤ c.bandWeight b)
include hw

theorem drrRound_of_cand {ok : Band → Bool} (hb : ok b = true) : drrRound c ok b = c.bandWeight b := by
  rw [drrRound, if_pos hb, if_pos (ne_of_gt (hw b))]

theorem drrRound_le (ok : Band → Bool) (b : Band) : drrRound c ok b ≤ c.bandWeight b := by
  cases hb : ok b with
  | true => exact (drrRound_of_cand hw hb).le
  | false => rw [drrRound, hb]; exact zero_le _

theorem drrPick_cases (hb : cand n b = true) :
    ∃ x f, 0 < f x ∧ drrServes c cand n = some x ∧ drrCredit c cand (n + 1) = update f x (f x - 1) ∧
      (drrRefills c cand n = false ∧ f = drrCredit c cand n ∨
        drrRefills c cand n = true ∧ drrCredit c cand n b = 0 ∧ f = drrRound c (cand n)) := by
  unfold drrServes drrRefills
  rw [drrCredit, drrPick]
  obtain ⟨he, h0⟩ | ⟨x, -, hp, he⟩ := drrSpend_cases (drrCredit c cand n) (cand n)
  · rw [he]
    obtain ⟨-, hno⟩ | ⟨x, -, hp, hr⟩ := drrSpend_cases (drrRound c (cand n)) (cand n)
    · have := hno b hb
      rw [drrRound_of_cand hw hb] at this
      exact absurd (hw b) (by omega)
    · exact ⟨x, _, hp, congrArg Prod.snd hr, congrArg Prod.fst hr, .inr ⟨rfl, h0 b hb, rfl⟩⟩
  · rw [he]
    exact ⟨x, _, hp, rfl, rfl, .inl ⟨rfl, rfl⟩⟩

theorem drrCredit_le : ∀ n b, drrCredit c cand n b ≤ c.bandWeight b
  | 0 => fun _ => zero_le _
  | n + 1 => by
    unfold drrCredit drrPick
    dsimp only
    split
    · exact drrSpend_le (drrCredit_le n) _
    · exact drrSpend_le (drrRound_le hw _) _

theorem passes_falls (hb : cand n b = true) (hs : drrServes c cand n ≠ some b) :
    passes c (drrCredit c cand (n + 1)) b < passes c (drrCredit c cand n) b := by
  obtain ⟨x, f, hp, hx, he, hf⟩ := drrPick_cases hw hb
  have hne : b ≠ x := fun h => hs (h ▸ hx)
  have hspent := total_update_pred hp hne
  have hkept : update f x (f x - 1) b = f b := update_of_ne hne ..
  simp only [passes, he, hkept]
  obtain ⟨-, rfl⟩ | ⟨-, h0, rfl⟩ := hf
  · omega
  · have hle := others_le (drrRound_le hw (cand n)) b
    rw [if_pos h0, if_neg (by rw [drrRound_of_cand hw hb]; exact ne_of_gt (hw b))]
    omega

theorem passes_run {k : Nat}
    (h : ∀ i, n ≤ i → i < n + k → cand i b = true ∧ drrServes c cand i ≠ some b) :
    passes c (drrCredit c cand (n + k)) b + k ≤ passes c (drrCredit c cand n) b := by
  induction k with
  | zero => exact le_rfl
  | succ k ih =>
    have hk := h (n + k) (by omega) (by omega)
    have hstep := passes_falls hw hk.1 hk.2
    have hrest := ih fun i h1 h2 => h i h1 (by omega)
    rw [← add_assoc n k 1]
    omega

theorem drrTurns_step (hb : cand n b = true) :
    drrCredit c cand (n + 1) b + drrTurns c cand b (n + 1) = drrTurns c cand b n +
      if drrRefills c cand n then c.bandWeight b else drrCredit c cand n b := by
  obtain ⟨x, f, hp, hx, he, hf⟩ := drrPick_cases hw hb
  have hturn : update f x (f x - 1) b + (if some x = some b then 1 else 0) = f b := by
    by_cases hbx : b = x
    · subst hbx
      rw [update_self, if_pos rfl]
      omega
    · rw [update_of_ne hbx, if_neg fun h => hbx (Option.some.inj h).symm]
      rfl
  rw [drrTurns, hx, he, add_left_comm, hturn]
  obtain ⟨hr, rfl⟩ | ⟨hr, -, rfl⟩ := hf
  · rw [hr]; rfl
  · rw [hr, drrRound_of_cand hw hb]; rfl

theorem drrTurns_round {k : Nat} (hb : ∀ i, n ≤ i → i ≤ n + k → cand i b = true)
    (hn : drrRefills c cand n = true)
    (hr : ∀ i, n < i → i ≤ n + k → drrRefills c cand i = false) :
    drrCredit c cand (n + k + 1) b + drrTurns c cand b (n + k + 1) =
      drrTurns c cand b n + c.bandWeight b := by
  induction k with
  | zero => rw [add_zero, drrTurns_step hw (hb n le_rfl (by omega)), hn]; rfl
  | succ k ih =>
    rw [drrTurns_step hw (hb _ (by omega) le_rfl), hr _ (by omega) le_rfl, add_comm]
    exact ih (fun i h1 h2 => hb i h1 (by omega)) fun i h1 h2 => hr i h1 (by omega)

end

end

/-- The weighted policy over any picks: a credit stays within its weight, a pick with a candidate
serves one, and a band that stays a candidate is passed over at most twice by the other bands'
weights. -/
theorem weighted_wake_fair (c : Cfg) (hw : ∀ b, 1 ≤ c.bandWeight b) (cand : Nat → Band → Bool)
    (b : Band) :
    (∀ n, drrCredit c cand n b ≤ c.bandWeight b) ∧
    (∀ n, (∃ x, cand n x = true) → drrServes c cand n ≠ none) ∧
    (∀ n k, (∀ i, n ≤ i → i < n + k → cand i b = true ∧ drrServes c cand i ≠ some b) →
      k ≤ 2 * (total c.bandWeight - c.bandWeight b)) ∧
    ∀ n m, n < m → (∀ i, n ≤ i → i ≤ m → cand i b = true) →
      drrRefills c cand n = true → drrRefills c cand m = true →
      (∀ i, n < i → i < m → drrRefills c cand i = false) →
      drrTurns c cand b m = drrTurns c cand b n + c.bandWeight b := by
  refine ⟨fun n => drrCredit_le hw n b, fun n ⟨x, hx⟩ => ?_, fun n k h => ?_,
    fun n m hnm hb hn hm hr => ?_⟩
  · obtain ⟨y, -, -, hy, -⟩ := drrPick_cases hw hx
    rw [hy]
    nofun
  · have hrun := passes_run hw h
    have hothers := others_le (fun b => drrCredit_le hw n b) b (f := drrCredit c cand n)
    have hfirst : passes c (drrCredit c cand n) b ≤ 2 * (total c.bandWeight - c.bandWeight b) := by
      unfold passes
      split <;> omega
    omega
  · obtain ⟨k, rfl⟩ := Nat.exists_eq_add_of_lt hnm
    have hround := drrTurns_round hw (k := k) (fun i h1 h2 => hb i h1 (by omega)) hn
      fun i h1 h2 => hr i h1 (by omega)
    obtain ⟨-, -, -, -, -, ⟨hno, -⟩ | ⟨-, h0, -⟩⟩ := drrPick_cases hw (hb _ hnm.le le_rfl)
    · rw [hm] at hno; cases hno
    · rwa [h0, zero_add] at hround

def unevenCfg : Cfg :=
  { Cfg.zero with bandWeight := fun b => if b = .critical then 3 else if b = .standard then 2 else 1 }

/-- the critical band has a candidate for three picks only -/
def leaving (n : Nat) (b : Band) : Bool := b ≠ .critical || n < 3

-- critical three times, standard twice, sheddable, and then the next round
theorem weighted_wake_fair_uneven :
    (∀ i < 5, leaving i .sheddable = true ∧ drrServes unevenCfg leaving i ≠ some .sheddable) ∧
      5 ≤ 2 * (total unevenCfg.bandWeight - unevenCfg.bandWeight .sheddable) ∧
      drrTurns unevenCfg leaving .standard 6 = drrTurns unevenCfg leaving .standard 0 + 2 := by
  have hw : ∀ b, 1 ≤ unevenCfg.bandWeight b := by
    rintro (_ | _ | _) <;> decide
  have hpassed : ∀ i < 5, leaving i .sheddable = true ∧
      drrServes unevenCfg leaving i ≠ some .sheddable := by decide +kernel
  have hround : ∀ i < 6, 0 < i → drrRefills unevenCfg leaving i = false := by decide +kernel
  obtain ⟨-, -, hpass, -⟩ := weighted_wake_fair unevenCfg hw leaving .sheddable
  obtain ⟨-, -, -, hturns⟩ := weighted_wake_fair unevenCfg hw leaving .standard
  exact ⟨hpassed, hpass 0 5 fun i _ hi => hpassed i (by omega), hturns 0 6 (by decide)
    (fun _ _ _ => rfl) (by decide +kernel) (by decide +kernel) fun i h1 h2 => hround i h2 h1⟩

/-! ## the tenants in turn -/

/-- a move of the pool, with the waiter a wake took -/
inductive Moves : State → Option QueueEnt → State → Prop
  | wake (s : State) (m : Mem) (pend : Band → Nat) :
      Moves s (wakeHead m s pend fun _ => true).2 (wakeHead m s pend fun _ => true).1
  | push (s : State) (m : Mem) (e : QueueEnt) (front ordered : Bool) :
      Moves s none { s with queue := (ringInsert m s.queue e front ordered).1 }
  | gone (s : State) (slot : Nat) : Moves s none { s with queue := ringRemove s.queue slot }
  | other {s s' : State} (hq : s'.queue = s.queue) (hc : s'.cfg = s.cfg) : Moves s none s'

/-- the waiters of the band whose tenants could take a unit, in ring order -/
def State.runnable (s : State) (b : Band) : List Nat := candidates s b (tenantSvcBound s)

/-- the wake serves the first waiter of the tenant in turn, and moves the turn past it -/
structure InTurn (s s' : State) (x : QueueEnt) : Prop where
  first : ∃ i, s.queue.ring i = x ∧ (s.runnable x.band).find? (s.keyAt · == rrKey x) = some i
  next : s'.queue.rrNext = update s.queue.rrNext x.band (rrKey x + 1)
  /-- the lowest key from the cursor on, or of all if there is none -/
  key : ∀ j ∈ s.runnable x.band,
    (s.queue.rrNext x.band ≤ s.keyAt j → s.queue.rrNext x.band ≤ rrKey x ∧ rrKey x ≤ s.keyAt j) ∧
    (s.queue.rrNext x.band ≤ rrKey x ∨ rrKey x ≤ s.keyAt j)

def Turned (s s' : State) : Option QueueEnt → Prop
  | none => s'.queue.rrNext = s.queue.rrNext
  | some x => InTurn s s' x

theorem wakeHead_rr {s : State} (m : Mem) (pend : Band → Nat) (hrr : s.cfg.tenantWake = .rr) :
    let r := wakeHead m s pend fun _ => true
    r.1.cfg = s.cfg ∧ Turned s r.1 r.2 := by
  have hplain : plainWake s = false := by simp [plainWake, hrr]
  unfold wakeHead wakePop
  rw [ringPopRunnable_banded _ hplain, ringPopBanded]
  generalize pickBand s pend (floorsApply s (svcCap s)) = pick
  cases pick.band with
  | none => exact ⟨rfl, rfl⟩
  | some b =>
    have h := rrPick_spec (s := pickCharged s pick) hrr b (tenantSvcBound s)
    dsimp only
    cases hi : ringPickInBand (pickCharged s pick) b (tenantSvcBound (pickCharged s pick)) with
    | none => exact ⟨rfl, rfl⟩
    | some i =>
      rw [show ringPickInBand (pickCharged s pick) b (tenantSvcBound s) = some i from hi] at h
      have hb : (s.queue.ring i).band = b := by
        have hcand := (mem_filter.mp (mem_of_find?_eq_some h.1)).2
        exact of_decide_eq_true (Bool.and_eq_true_iff.mp (Bool.and_eq_true_iff.mp hcand).1).2
      subst hb
      refine ⟨rfl, ⟨i, rfl, h.1⟩, ?_, h.2⟩
      show (if decide (s.cfg.tenantWake = .rr) = true then _ else _) = _
      rw [if_pos (decide_eq_true hrr)]
      rfl

theorem Moves.turn {s s' : State} {e : Option QueueEnt} (h : Moves s e s')
    (hrr : s.cfg.tenantWake = .rr) : s'.cfg = s.cfg ∧ Turned s s' e := by
  cases h with
  | wake m pend => exact wakeHead_rr m pend hrr
  | push m x front ordered => exact ⟨rfl, (ringInsert_frame m s.queue x front ordered).rrNext⟩
  | gone => exact ⟨rfl, rfl⟩
  | other hq hc => exact ⟨hc, congrArg Queue.rrNext hq⟩

section
variable {σ : Nat → State} {e : Nat → Option QueueEnt} {n m k : Nat} {x : QueueEnt}
  (hσ : ∀ n, Moves (σ n) (e n) (σ (n + 1))) (hrr : (σ 0).cfg.tenantWake = .rr)
include hσ hrr

theorem rr_throughout : ∀ n, (σ n).cfg.tenantWake = .rr
  | 0 => hrr
  | n + 1 => by
    have hn := rr_throughout n
    rw [((hσ n).turn hn).1, hn]

theorem rr_turn (hx : e n = some x) : InTurn (σ n) (σ (n + 1)) x := by
  have h := ((hσ n).turn (rr_throughout hσ hrr n)).2
  rw [hx] at h
  exact h

/-- until the tenant `k` is served, the turn stays past the tenant served and not past `k` -/
theorem rr_between (hx : e n = some x) (hk : k ≠ rrKey x) (hnm : n < m)
    (hc : ∀ i, n < i → i < m → k ∈ ((σ i).runnable x.band).map (σ i).keyAt)
    (hno : ∀ i z, n < i → i < m → e i = some z → z.band = x.band → rrKey z ≠ k) :
    (rrKey x < (σ m).queue.rrNext x.band ∧ (rrKey x < k → (σ m).queue.rrNext x.band ≤ k)) ∨
      (k < rrKey x ∧ (σ m).queue.rrNext x.band ≤ k) := by
  induction m, hnm using le_induction with
  | base =>
    rw [(rr_turn hσ hrr hx).next, update_self]
    omega
  | succ m hm ih =>
    have hcur := ih (fun i h1 h2 => hc i h1 (by omega)) fun i z h1 h2 => hno i z h1 (by omega)
    cases he : e m with
    | none =>
      have h := ((hσ m).turn (rr_throughout hσ hrr m)).2
      rw [he] at h
      rw [show (σ (m + 1)).queue.rrNext = _ from h]
      exact hcur
    | some z =>
      have hz := rr_turn hσ hrr he
      rw [hz.next]
      by_cases hb : z.band = x.band
      · have hne := hno m z hm (by omega) he hb
        obtain ⟨j, hj, rfl⟩ := mem_map.mp (hc m hm (by omega))
        have hkey := hz.key j (hb ▸ hj)
        rw [hb] at hkey ⊢
        rw [update_self]
        omega
      · rwa [update_of_ne (Ne.symm hb)]

end

/-- Wakes with the tenants in turn: between two wakes of one tenant, every tenant that has a
runnable waiter in the band all the while is served, its first in the ring. -/
theorem rr_wake_fair (σ : Nat → State) (e : Nat → Option QueueEnt)
    (hσ : ∀ n, Moves (σ n) (e n) (σ (n + 1))) (hrr : (σ 0).cfg.tenantWake = .rr) :
    (∀ n m x y k, n < m → e n = some x → e m = some y → y.band = x.band → rrKey y = rrKey x →
      k ≠ rrKey x → (∀ i, n < i → i ≤ m → k ∈ ((σ i).runnable x.band).map (σ i).keyAt) →
      ∃ i z, n < i ∧ i < m ∧ e i = some z ∧ z.band = x.band ∧ rrKey z = k) ∧
    ∀ n x, e n = some x → ∃ i, (σ n).queue.ring i = x ∧
      ((σ n).runnable x.band).find? ((σ n).keyAt · == rrKey x) = some i := by
  refine ⟨fun n m x y k hnm hx hy hb hkey hk hc => ?_, fun n x hx => (rr_turn hσ hrr hx).first⟩
  by_contra hno
  have hbetween := rr_between hσ hrr hx hk hnm (fun i h1 h2 => hc i h1 h2.le)
    fun i z h1 h2 hz hzb hzk => hno ⟨i, z, h1, h2, hz, hzb, hzk⟩
  obtain ⟨j, hj, rfl⟩ := mem_map.mp (hc m hnm le_rfl)
  have hturn := (rr_turn hσ hrr hy).key j (hb ▸ hj)
  rw [hb] at hturn
  omega

def rrWaiter (fd : Int) (tslot : Nat) : QueueEnt :=
  { QueueEnt.zero with fd := fd, tslot := some tslot, live := true }

/-- two waiters of each of two tenants -/
def rrPool : State :=
  { State.zero 64 with
    cfg := { Cfg.zero with tenantWake := .rr }
    queue := { Queue.zero with
      cap := 4, used := 4, count := 4
      ring := fun i => rrWaiter i (i / 2) } }

/-- wakes, with one newcomer after the first of them -/
def rrMove (s : State) : Nat → State × Option QueueEnt
  | 1 => ({ s with queue := (ringInsert Mem.ok s.queue (rrWaiter 4 0) false false).1 }, none)
  | _ => wakeHead Mem.ok s noPend fun _ => true

def rrRun : Nat → State
  | 0 => rrPool
  | n + 1 => (rrMove (rrRun n) n).1

theorem rr_wake_fair_two :
    (rrMove (rrRun 0) 0).2 = some (rrWaiter 0 0) ∧ (rrMove (rrRun 3) 3).2 = some (rrWaiter 1 0) ∧
      ∃ i z, 0 < i ∧ i < 3 ∧ (rrMove (rrRun i) i).2 = some z ∧ z.band = .standard ∧ rrKey z = 1 := by
  have hmoves : ∀ n, Moves (rrRun n) (rrMove (rrRun n) n).2 (rrRun (n + 1)) := by
    intro n
    show Moves _ _ (rrMove (rrRun n) n).1
    unfold rrMove
    split
    · exact .push ..
    · exact .wake ..
  refine ⟨by decide +kernel, by decide +kernel, (rr_wake_fair rrRun _ hmoves rfl).1 0 3
    (rrWaiter 0 0) (rrWaiter 1 0) 1 (by decide) (by decide +kernel) (by decide +kernel) rfl rfl
    (by decide) fun i h1 h2 => ?_⟩
  -- the other tenant's second waiter stays
  obtain rfl | rfl | rfl : i = 1 ∨ i = 2 ∨ i = 3 := by omega
  all_goals decide +kernel

end Fc
