import InferenceGateway.Fc.Fifo
import InferenceGateway.Fc.Reserve

/-!
# The wake and the gate

A freed unit is given away twice: the wake chooses a waiter by the slots the entries carry, and the
gate decides again when the waiter comes back for its unit, by its tenant's key.  Both go by the
same floors: what the other bands hold back from a band depends on the waiters of the others only,
so a unit the wake saw is there when its waiter asks (`bandLimit_after`).

* `pop_takes`             the wake leaves no unit idle that a waiter could take;
* `wake_gate_agree`       that, and when the gate admits the waiter the unit was given to;
* `woken_refused`         a waiter that is woken and refused.
-/

open List Option Run Bool Nat

namespace Fc

/-! ## what is held back -/

variable {s t : State} {bound : Nat} {b band : Band} {v : FloorView} {e : QueueEnt}

theorem any_live_iff {f g : QueueEnt → Bool} :
    (s.queue.span.any fun i => (s.queue.ring i).live && f (s.queue.ring i) && g (s.queue.ring i)) = true ↔
      ∃ e ∈ s.queue.live, f e = true ∧ g e = true := by
  rw [List.any_eq_true]
  constructor
  · rintro ⟨i, hi, h⟩
    simp only [and_eq_true] at h
    exact ⟨s.queue.ring i, mem_live_iff.mpr ⟨i, hi, rfl, h.1.1⟩, h.1.2, h.2⟩
  · rintro ⟨e, he, ht, hc⟩
    obtain ⟨i, hi, rfl, hl⟩ := mem_live_iff.mp he
    exact ⟨i, hi, by simp [hl, ht, hc]⟩

theorem runnableWaiter_iff {test : QueueEnt → Bool} : runnableWaiter s bound test = true ↔
      ∃ e ∈ s.queue.live, test e = true ∧ tenantCanRun s.ten e.tslot bound = true :=
  any_live_iff (g := fun e => tenantCanRun s.ten e.tslot bound)

theorem waitingRunnable_iff : floorWaitingRunnable s bound b = true ↔
      ∃ e ∈ s.queue.live, e.band = b ∧ tenantCanRun s.ten e.tslot bound = true := by
  unfold floorWaitingRunnable
  rw [runnableWaiter_iff]
  simp only [decide_eq_true_eq]

theorem mayTake_iff : floorMayTake v band = true ↔ v.total + floorHeldBack v band < v.cap := by
  unfold floorMayTake
  rw [and_eq_true, decide_eq_true_iff, decide_eq_true_iff]
  omega

theorem heldBy_le {y : Band}
    (h : ¬ v.held band < v.claim band → v.wait y = true → v.floor y ≤ v.held y) :
    v.heldBy band y ≤ v.reserveShort y := by
  by_cases hy : y = band
  · rw [hy, heldBy_self]
    exact zero_le _
  have hf : v.floorShort band y = 0 := by
    unfold FloorView.floorShort
    split
    · rename_i hc
      have := h hc.1 hc.2
      omega
    · rfl
  rw [heldBy_other v hy]
  omega

theorem heldBack_le (v : FloorView) (band : Band)
    (h : ∀ y, ¬ v.held band < v.claim band → v.wait y = true → v.floor y ≤ v.held y) :
    floorHeldBack v band ≤ v.reserve - v.held .critical ∧
      (band = .critical → floorHeldBack v band = 0) := by
  have h1 : v.heldBy band .standard ≤ 0 := heldBy_le (h .standard)
  have h2 : v.heldBy band .critical ≤ v.reserve - v.held .critical := heldBy_le (h .critical)
  have h3 : v.heldBy band .sheddable ≤ 0 := heldBy_le (h .sheddable)
  rw [heldBack_eq]
  refine ⟨by omega, fun hb => ?_⟩
  subst hb
  have h4 := heldBy_self v .critical
  omega

theorem heldBack_mono {w : FloorView} (hr : w.reserve = v.reserve) (hf : w.floor = v.floor)
    (hc : w.claim = v.claim) (hh : w.held = v.held)
    (hw : ∀ y, y ≠ band → w.wait y = true → v.wait y = true) :
    floorHeldBack w band ≤ floorHeldBack v band := by
  have hone : ∀ y, w.heldBy band y ≤ v.heldBy band y := by
    intro y
    by_cases hy : y = band
    · rw [hy, heldBy_self, heldBy_self]
    have h1 : w.reserveShort y = v.reserveShort y := by
      unfold FloorView.reserveShort
      rw [hr, hh]
    have h2 : w.floorShort band y ≤ v.floorShort band y := by
      unfold FloorView.floorShort
      rw [hf, hc, hh]
      split
      · rename_i hcond
        rw [if_pos ⟨hcond.1, hw y hy hcond.2⟩]
      · exact zero_le _
    rw [heldBy_other w hy, heldBy_other v hy]
    omega
  rw [heldBack_eq, heldBack_eq]
  have h1 := hone .standard
  have h2 := hone .critical
  have h3 := hone .sheddable
  omega

def wakeView (s : State) (pend : Band → Nat) : FloorView :=
  floorViewLoad s (svcCap s) pend (some (floorWaitingRunnable s (tenantSvcBound s)))

theorem load_claim (s : State) (cap : Nat) (pend : Band → Nat) (wait : Option (Band → Bool)) (b : Band) :
    (floorViewLoad s cap pend wait).claim b =
      if b = .critical ∧ floorReserve s.cfg cap > floorClaims s.cfg cap .critical
      then floorReserve s.cfg cap else floorClaims s.cfg cap b := rfl

theorem wakeView_claim (s : State) (pend : Band → Nat) :
    (∀ b, (wakeView s pend).floor b ≤ (wakeView s pend).claim b) ∧
      (wakeView s pend).reserve ≤ (wakeView s pend).claim .critical := by
  unfold wakeView
  constructor
  · intro b
    rw [load_claim]
    split
    · rename_i hc
      rw [hc.1]
      exact hc.2.le
    · exact le_refl _
  · rw [load_claim]
    split
    · exact le_refl _
    · rename_i hc
      exact Nat.le_of_not_lt fun h => hc ⟨rfl, h⟩

theorem some_mayTake (hf : ∀ b, v.floor b ≤ v.claim b) (hr : v.reserve ≤ v.claim .critical)
    (hw : v.wait b = true)
    (h : v.total + (v.reserve - v.held .critical) < v.cap ∨ b = .critical ∧ v.total < v.cap) :
    ∃ y, v.wait y = true ∧ floorMayTake v y = true := by
  by_cases hbelow : ∃ y, v.wait y = true ∧ v.held y < v.claim y ∧
      (v.total + (v.reserve - v.held .critical) < v.cap ∨ y = .critical ∧ v.total < v.cap)
  · -- a band below its claim yields the reserve and nothing else
    obtain ⟨y, hy, hlt, hroom⟩ := hbelow
    refine ⟨y, hy, mayTake_iff.mpr ?_⟩
    obtain ⟨h1, h2⟩ := heldBack_le v y fun _ hn => absurd hlt hn
    rcases hroom with hroom | ⟨hc, hroom⟩
    · omega
    · rw [h2 hc]
      exact hroom
  · -- otherwise no band that waits is short of its floor
    have hroom : v.total + (v.reserve - v.held .critical) < v.cap := by
      rcases h with h | ⟨rfl, h⟩
      · exact h
      · have hnot : ¬ v.held .critical < v.claim .critical :=
          fun hlt => hbelow ⟨.critical, hw, hlt, .inr ⟨rfl, h⟩⟩
        omega
    refine ⟨b, hw, mayTake_iff.mpr ?_⟩
    obtain ⟨h1, _⟩ := heldBack_le v b fun y _ hy => by
      have hnot : ¬ v.held y < v.claim y := fun hlt => hbelow ⟨y, hy, hlt, .inl hroom⟩
      have := hf y
      omega
    omega

/-! ## the band a wake serves -/

theorem drrSpend_spec (credit : Band → Nat) (cand : Band → Bool) :
    (∀ b, (drrSpend credit cand).2 = some b → cand b = true) ∧
      ((drrSpend credit cand).2 = none → ∀ b, cand b = true → credit b = 0) := by
  unfold drrSpend
  cases hf : bandsByRank.find? (fun b => cand b && decide (credit b > 0)) with
  | some y =>
    refine ⟨fun b hb => ?_, fun hc => (by cases hc)⟩
    cases hb
    exact (Bool.and_eq_true_iff.mp (find?_some (p := fun b => cand b && decide (credit b > 0)) hf)).1
  | none =>
    refine ⟨fun b hb => (by cases hb), fun _ b hb => ?_⟩
    have hnot := find?_eq_none.mp hf b (mem_bandsByRank b)
    simp only [hb, Bool.true_and, decide_eq_true_eq, gt_iff_lt, not_lt, le_zero] at hnot
    exact hnot

theorem drrPick_spec (c : Cfg) (credit : Band → Nat) (cand : Band → Bool) :
    (∀ b, (drrPick c credit cand).2 = some b → cand b = true) ∧
      ((drrPick c credit cand).2 = none → ∀ b, cand b = false) := by
  obtain ⟨h1, _⟩ := drrSpend_spec credit cand
  obtain ⟨h3, h4⟩ := drrSpend_spec (drrRound c cand) cand
  unfold drrPick
  dsimp only
  cases hr : (drrSpend credit cand).2 with
  | some y => exact ⟨fun b hb => h1 b (hr.trans hb), fun hc => by cases hc⟩
  | none =>
    refine ⟨h3, fun hn b => ?_⟩
    -- a new round gives every band that waits at least one
    by_contra hc
    rw [not_eq_false] at hc
    have h0 := h4 hn b hc
    unfold drrRound at h0
    rw [if_pos hc] at h0
    split at h0
    · rename_i hne
      exact hne h0
    · cases h0

def wakeCand (s : State) (pend : Band → Nat) (floors : Bool) (b : Band) : Bool :=
  (wakeView s pend).wait b && (!floors || floorMayTake (wakeView s pend) b)

def belowClaim (v : FloorView) (b : Band) : Bool :=
  v.wait b && decide (v.held b < v.claim b) && floorMayTake v b

section
variable (s : State) (pend : Band → Nat) (floors : Bool)

theorem pickBand_eq : pickBand s pend floors =
      match if floors then bandsByRank.find? (belowClaim (wakeView s pend)) else none with
      | some b => ⟨some b, s.queue.drrCredit, false⟩
      | none =>
        if wakeStrict s then ⟨bandsByRank.find? (wakeCand s pend floors), s.queue.drrCredit, false⟩
        else
          let r := drrPick s.cfg s.queue.drrCredit (wakeCand s pend floors)
          ⟨r.2, r.1, r.2.isSome⟩ := rfl

/-- **the band served may take the unit, one is served if any may, and one below its claim before
the others** -/
theorem pickBand_spec :
    (∀ b, (pickBand s pend floors).band = some b → wakeCand s pend floors b = true) ∧
      ((pickBand s pend floors).band = none → ∀ b, wakeCand s pend floors b = false) ∧
      (floors = true → ∀ b, belowClaim (wakeView s pend) b = true →
        ∃ y, (pickBand s pend floors).band = some y ∧ belowClaim (wakeView s pend) y = true) := by
  rw [pickBand_eq]
  cases hb : (if floors then bandsByRank.find? (belowClaim (wakeView s pend)) else none) with
  | some y =>
    have hfl : floors = true := by
      cases floors with
      | true => rfl
      | false => cases hb
    rw [hfl] at hb
    have hy : belowClaim (wakeView s pend) y = true := find?_some hb
    refine ⟨fun b he => ?_, fun hc => (by cases hc), fun _ _ _ => ⟨y, rfl, hy⟩⟩
    cases he
    unfold belowClaim at hy
    simp only [and_eq_true] at hy
    unfold wakeCand
    rw [hy.1.1, hy.2]
    simp
  | none =>
    have hbelow : floors = true → ∀ b, belowClaim (wakeView s pend) b = true → False := by
      intro hfl b hc
      rw [hfl] at hb
      exact find?_eq_none.mp hb b (mem_bandsByRank b) hc
    refine ⟨fun b he => ?_, fun hn b => ?_, fun hfl b hc => (hbelow hfl b hc).elim⟩
    · dsimp only at he
      split at he
      · exact find?_some he
      · exact (drrPick_spec _ _ _).1 b he
    · dsimp only at hn
      split at hn
      · simpa using find?_eq_none.mp hn b (mem_bandsByRank b)
      · exact (drrPick_spec _ _ _).2 hn b

/-! ## the entry a wake takes -/

theorem ringPopBanded_band :
    (ringPopBanded s pend floors).2.1.map QueueEnt.band = (pickBand s pend floors).band := by
  obtain ⟨hcand, _⟩ := pickBand_spec s pend floors
  unfold ringPopBanded
  dsimp only
  cases hb : (pickBand s pend floors).band with
  | none => rfl
  | some b =>
    dsimp only
    set t := pickCharged s (pickBand s pend floors)
    obtain ⟨h1, h2⟩ := ringPickInBand_spec t b (tenantSvcBound t)
    cases hi : ringPickInBand t b (tenantSvcBound t) with
    | some i => exact congrArg some (candidate_iff.mp (h1 i hi).2).2.1
    | none =>
      have hw : floorWaitingRunnable s (tenantSvcBound s) b = true :=
        (and_eq_true_iff.mp (hcand b hb)).1
      obtain ⟨e, he, hband, hrun⟩ := waitingRunnable_iff.mp hw
      obtain ⟨i, hspan, rfl, hl⟩ := mem_live_iff.mp he
      have hyes : candidate t b (tenantSvcBound t) i = true :=
        candidate_iff.mpr ⟨hl, hband, hrun⟩
      rw [h2 hi i hspan] at hyes
      cases hyes

end

theorem plainWake_floors (h : floorsApply s (svcCap s) = true) : plainWake s = false := by
  unfold plainWake
  rw [h]
  rfl

theorem ringPopRunnable_some (hp : PoolOk s) {pend : Band → Nat}
    (h : (ringPopRunnable s pend).2.1 = some e) :
    tenantCanRun s.ten e.tslot (tenantSvcBound s) = true ∧
      (floorsApply s (svcCap s) = true → floorMayTake (wakeView s pend) e.band = true) := by
  have hpick := ringPopRunnable_spec hp pend
  rw [h] at hpick
  refine ⟨hpick.canRun, fun hf => ?_⟩
  rw [ringPopRunnable_banded _ (plainWake_floors hf), hf] at h
  have hb := ringPopBanded_band s pend true
  rw [h] at hb
  have hc := (pickBand_spec s pend true).1 e.band hb.symm
  exact (and_eq_true_iff.mp hc).2

theorem floorUnits_zero (cap : Nat) : floorUnits cap 0 = 0 := if_pos (.inr rfl)

theorem floorFit_zero (cap left : Nat) : floorFit cap 0 left = 0 := by
  unfold floorFit
  rw [floorUnits_zero]
  split <;> omega

theorem claim_zero (h : floorsOn s.cfg = false) (pend : Band → Nat) (b : Band) :
    (wakeView s pend).claim b = 0 := by
  simp only [floorsOn, ne_eq, decide_not, or_eq_false_iff, not_eq_false',
    decide_eq_true_eq] at h
  obtain ⟨⟨⟨h1, h2⟩, h3⟩, h4⟩ := h
  have hres : floorReserve s.cfg (svcCap s) = 0 := by
    unfold floorReserve
    rw [h4, floorUnits_zero]
  rw [wakeView, load_claim, hres, if_neg fun hc => absurd hc.2 (not_lt_zero _)]
  cases b with
  | critical =>
    unfold floorClaims
    rw [h2, floorUnits_zero]
  | standard =>
    unfold floorClaims
    rw [h1, floorFit_zero]
  | sheddable =>
    unfold floorClaims
    rw [h3, floorFit_zero]

/-- **a wake takes an entry** when a waiter could take a unit that is not reserved from it, and one
of a band below its claim when there is such a band -/
theorem pop_takes (he : s.cfg.mode = .enforce) (h0 : svcCap s ≠ 0) (pend : Band → Nat) :
    ((∃ e ∈ s.queue.live, tenantCanRun s.ten e.tslot (tenantSvcBound s) = true ∧
        ((wakeView s pend).total + ((wakeView s pend).reserve - (wakeView s pend).held .critical) <
            svcCap s ∨
          e.band = .critical ∧ (wakeView s pend).total < svcCap s)) →
      ∃ e, (ringPopRunnable s pend).2.1 = some e) ∧
    ∀ b, belowClaim (wakeView s pend) b = true → ∃ e, (ringPopRunnable s pend).2.1 = some e ∧
      (wakeView s pend).held e.band < (wakeView s pend).claim e.band := by
  obtain ⟨hf, hr⟩ := wakeView_claim s pend
  constructor
  · rintro ⟨e, hl, hrun, hroom⟩
    have hw : (wakeView s pend).wait e.band = true := waitingRunnable_iff.mpr ⟨e, hl, rfl, hrun⟩
    cases hpl : plainWake s with
    | true =>
      have hbest := bestLoop_spec s (tenantSvcBound s) s.queue.banded s.queue.span none
      rw [ringPopRunnable_plain _ hpl]
      cases hres : bestLoop s (tenantSvcBound s) s.queue.banded s.queue.span none with
      | some w => exact ⟨_, rfl⟩
      | none =>
        rw [hres] at hbest
        obtain ⟨i, hi, rfl, hlive⟩ := mem_live_iff.mp hl
        have hnot := hbest.2 i hi
        unfold ready at hnot
        rw [hlive, hrun] at hnot
        cases hnot
    | false =>
      rw [ringPopRunnable_banded _ hpl]
      have hb := ringPopBanded_band s pend (floorsApply s (svcCap s))
      cases hres : (ringPopBanded s pend (floorsApply s (svcCap s))).2.1 with
      | some e' => exact ⟨e', rfl⟩
      | none =>
        -- no band would be served, and yet one may take the unit
        exfalso
        rw [hres] at hb
        obtain ⟨y, hy, hmay⟩ := some_mayTake hf hr hw hroom
        have hnot := (pickBand_spec s pend (floorsApply s (svcCap s))).2.1 hb.symm y
        unfold wakeCand at hnot
        rw [hy, hmay] at hnot
        simp at hnot
  · intro b hb
    have hfl : floorsApply s (svcCap s) = true := by
      by_contra hno
      -- without floors every claim is zero
      have hoff : floorsOn s.cfg = false := by
        simpa [floorsApply, h0, he] using hno
      have hzero := claim_zero hoff pend b
      unfold belowClaim at hb
      rw [hzero] at hb
      simp at hb
    obtain ⟨y, hy, hbelow⟩ := (pickBand_spec s pend true).2.2 rfl b hb
    rw [ringPopRunnable_banded _ (plainWake_floors hfl), hfl]
    have hband := ringPopBanded_band s pend true
    rw [hy] at hband
    obtain ⟨e, he', hy'⟩ := map_eq_some_iff.mp hband
    refine ⟨e, he', ?_⟩
    rw [hy']
    unfold belowClaim at hbelow
    simp only [and_eq_true, decide_eq_true_eq] at hbelow
    exact hbelow.1.2

/-! ## the waiter comes back for its unit -/

theorem Kept.canRun {t t' : Tenancy} (h : Kept t t') {slot : Option Nat}
    (hc : tenantCanRun t' slot bound = true) : tenantCanRun t slot bound = true := by
  unfold tenantCanRun at hc ⊢
  cases slot with
  | none => rfl
  | some j =>
    dsimp only at hc ⊢
    rw [h.inflight j] at hc
    cases ht : t.table with
    | false => simp
    | true => rwa [(h.stay ht).1] at hc

theorem bandDerive_countP (l : List QueueEnt) (b : Band) :
    bandDerive l.length (l.countP fun e => e.band = .critical) (l.countP fun e => e.band = .sheddable) b =
      l.countP fun e => e.band = b := by
  have hsum : l.length = (l.countP fun e => decide (e.band = .standard)) +
      (l.countP fun e => decide (e.band = .critical)) + l.countP fun e => decide (e.band = .sheddable) := by
    induction l with
    | nil => rfl
    | cons e l ih =>
      rw [countP_cons, countP_cons, countP_cons]
      cases e.band <;> simp <;> omega
  cases b with
  | critical | sheddable => rfl
  | standard =>
    show (if l.length > _ then _ else 0) = _
    split <;> omega

theorem PoolOk.bandQueued_eq (hp : PoolOk s) (b : Band) :
    bandQueued s b = s.queue.live.countP fun e => e.band = b := by
  unfold bandQueued
  rw [hp.queued, hp.band .critical rfl, hp.band .sheddable rfl, hp.ring.count_eq,
    hp.ring.band_eq .critical rfl, hp.ring.band_eq .sheddable rfl]
  exact bandDerive_countP _ b

theorem PoolOk.bandQueued_pos (hp : PoolOk s) :
    bandQueued s b > 0 ↔ ∃ e ∈ s.queue.live, e.band = b := by
  rw [hp.bandQueued_eq b, gt_iff_lt, countP_pos_iff]
  simp only [decide_eq_true_eq]

/-- **a unit the wake saw is there when its waiter asks**: the units are as they were, and of the
other bands nobody waits who did not wait then -/
theorem bandLimit_after (band : Band) (wait : Option (Band → Bool)) (hcfg : t.cfg = s.cfg)
    (hcap : svcCap t = svcCap s) (hinf : t.inflight = s.inflight)
    (hband : t.bandInflight = s.bandInflight) (hroom : s.inflight < svcCap s)
    (hmay : floorsApply s (svcCap s) = true → floorMayTake (wakeView s noPend) band = true)
    (hw : floorsApply s (svcCap s) = true → ∀ y,
      (floorViewLoad t (svcCap t) noPend wait).wait y = true → (wakeView s noPend).wait y = true) :
    ∃ lim, bandLimit t band (svcCap t) wait = some lim ∧
      unitTake t.inflight lim = some (t.inflight + 1) := by
  have take : ∀ {lim}, t.inflight < lim → unitTake t.inflight lim = some (t.inflight + 1) := by
    intro lim hlt
    exact if_neg fun hc => absurd hc.2 (not_le.mpr hlt)
  have hfl : floorsApply t (svcCap t) = floorsApply s (svcCap s) := by
    unfold floorsApply
    rw [hcfg, hcap]
  unfold bandLimit
  rw [hfl]
  by_cases hf : floorsApply s (svcCap s) = true
  · rw [if_pos hf]
    have hle : floorHeldBack (floorViewLoad t (svcCap t) noPend wait) band ≤
        floorHeldBack (wakeView s noPend) band := by
      refine heldBack_mono ?_ ?_ ?_ ?_ fun y _ => hw hf y
      · show floorReserve t.cfg (svcCap t) = floorReserve s.cfg (svcCap s)
        rw [hcfg, hcap]
      · show floorClaims t.cfg (svcCap t) = floorClaims s.cfg (svcCap s)
        rw [hcfg, hcap]
      · funext y
        rw [load_claim, hcfg, hcap]
        rfl
      · show bandDerive (t.inflight + _) (t.bandInflight .critical + _) (t.bandInflight .sheddable + _) = _
        rw [hinf, hband]
        rfl
    have htotal : s.inflight + floorHeldBack (wakeView s noPend) band < svcCap s :=
      mayTake_iff.mp (hmay hf)
    rw [if_neg (by omega)]
    exact ⟨_, rfl, take (by omega)⟩
  · rw [if_neg hf]
    exact ⟨_, rfl, take (by omega)⟩

/-- the pool after a wake that was delivered: the units are as they were, one waiter is gone, and
the tenants run what they ran -/
structure AfterWake (s t : State) : Prop where
  gate : SameGate s t
  pool : PoolOk t
  live : ∀ y ∈ t.queue.live, y ∈ s.queue.live
  kept : Kept s.ten t.ten

theorem SameGate.svcCap (h : SameGate s t) : svcCap t = svcCap s := by
  unfold Fc.svcCap
  rw [h.cfg, h.effMax]

theorem wakeOne_some (hp : PoolOk s) {m : Mem} {hook : QueueEnt → Bool}
    (h : wakeOne m s hook = (t, some e)) :
    hasRoom s = true ∧ (ringPopRunnable s noPend).2.1 = some e ∧ AfterWake s t := by
  have hgate := sameGate_wakePop s noPend
  have hpop := wakePop_spec hp noPend
  unfold wakeOne at h
  split at h
  · cases h
  rename_i hno
  refine ⟨by simpa using fun hc => hno (.inr hc), ?_⟩
  unfold wakeHead at h
  dsimp only at h
  cases hw : (wakePop s noPend).2 with
  | none =>
    rw [hw] at h
    cases h
  | some r =>
    obtain ⟨e', u⟩ := r
    rw [hw] at h hpop
    dsimp only at h
    split at h
    · cases h
      obtain ⟨e', he', heq⟩ := map_eq_some_iff.mp
        (show (ringPopRunnable s noPend).2.1.map (fun e => (e, (ringPopRunnable s noPend).2.2)) =
          some (e, u) from hw)
      cases heq
      have hten : PoolOk (wakeDone (wakePop s noPend).1 e) :=
        hpop.ok.retenant rfl rfl rfl (edits_dec hpop.ok.ten _ _).1.ok
      refine ⟨he', hgate.trans (sameGate_wakeDone _ _), hten, fun y hy => hpop.live.mem hy, ?_⟩
      refine (Kept.of_eq hpop.ten).trans ?_
      exact kept_dec_queued hpop.ok.ten e.tslot
    · cases h

theorem ownerResume_turn {p q : Permit} (h : ownerResume s p = (t, q, .turn)) : t = s := by
  unfold ownerResume at h
  split at h
  · cases h
  split at h
  · cases h
  by_cases hc : (evictedClaim s p.qFd p.qGen).2 = true
  · rw [if_pos hc] at h
    unfold resumeEvicted at h
    dsimp only at h
    split at h <;> cases h
  · rw [if_neg hc] at h
    have hs : (evictedClaim s p.qFd p.qGen).1 = s := by
      unfold evictedClaim at hc ⊢
      split at hc
      · exact absurd rfl hc
      · rename_i hno
        rw [if_neg hno]
    split at h
    · cases h
    · exact (congrArg Prod.fst h).symm.trans hs

/-- the tenant that the key finds is at its share -/
def tenantFull (mem : Bool) (s : State) (tkey : UInt64) : Bool :=
  atShare (tenantGet mem s.queue.dead s.ten tkey).1 (tenantGet mem s.queue.dead s.ten tkey).2.1
    (tenantSvcBound s)

section
variable {s t : State}

section
variable (h : AfterWake s t)
include h

theorem AfterWake.svcBound : tenantSvcBound t = tenantSvcBound s := by
  unfold tenantSvcBound shareActive
  rw [h.gate.cfg, h.gate.svcCap]

theorem AfterWake.waiting {u : Tenancy} (hk : Kept t.ten u) {y : Band}
    (hw : floorWaitingRunnable { t with ten := u } (tenantSvcBound s) y = true) :
    (wakeView s noPend).wait y = true := by
  obtain ⟨e, he, hb, hc⟩ := waitingRunnable_iff.mp hw
  exact waitingRunnable_iff.mpr ⟨e, h.live e he, hb, (h.kept.trans hk).canRun hc⟩

omit h in
theorem canRun_unshared (hs : shareActive s = false) (slot : Option Nat) :
    tenantCanRun s.ten slot (tenantSvcBound s) = true := by
  unfold tenantCanRun tenantSvcBound
  rw [hs]
  split <;> simp

theorem AfterWake.unshared {band : Band} (hs : shareActive s = false)
    (hroom : s.inflight < svcCap s)
    (hmay : floorsApply s (svcCap s) = true → floorMayTake (wakeView s noPend) band = true) :
    (acquireLimit t band true).bind (unitTake t.inflight) = some (t.inflight + 1) := by
  obtain ⟨lim, h1, h2⟩ := bandLimit_after band none h.gate.cfg h.gate.svcCap h.gate.inflight
    h.gate.bandInflight hroom hmay fun _ y hy => by
      -- every waiter counts, and the mirrors count them
      obtain ⟨e, he, hband⟩ := h.pool.bandQueued_pos.mp (of_decide_eq_true hy)
      exact waitingRunnable_iff.mpr ⟨e, h.live e he, hband, canRun_unshared hs _⟩
  unfold acquireLimit
  rw [if_neg (by simp), h1]
  exact h2

theorem AfterWake.shared {mem : Bool} {p : Permit} (he : s.cfg.mode = .enforce)
    (hroom : s.inflight < svcCap s)
    (hmay : floorsApply s (svcCap s) = true → floorMayTake (wakeView s noPend) p.band = true) :
    (serviceAcquireShared mem t p true true).2.2 = .admitted ↔ tenantFull mem t p.tkey = false := by
  have hmode : t.cfg.mode = .enforce := by rw [h.gate.cfg, he]
  unfold serviceAcquireShared
  rw [acquireShared_eq]
  set l := sharedLooked mem t p true
  by_cases hat : tenantFull mem t p.tkey = true
  · have hat' : atShare l.ten (sharedGet mem t p).2.1 (tenantSvcBound t) = true :=
      hat
    rw [if_pos hat', if_pos hmode, hat]
    split <;> simp
  · have hat' : ¬ atShare l.ten (sharedGet mem t p).2.1 (tenantSvcBound t) = true :=
      hat
    obtain ⟨g1, g2, g3⟩ := sharedLooked_spec mem t p true
    have hasked : sharedAsked mem t p true = (l, false) := by
      unfold sharedAsked
      rw [if_neg (by simp)]
    have hcap : svcCap l = svcCap t := by
      unfold svcCap
      rw [g1.cfg, g1.effMax]
    have hlook : Kept t.ten (sharedGet mem t p).1 :=
      (edits_get h.pool.ten mem t.queue.dead p.tkey).1.look_kept h.pool.ten
    obtain ⟨lim, h1, h2⟩ := bandLimit_after p.band
      (sharedWait l (tenantSvcBound t)) (g1.cfg.trans h.gate.cfg)
      (hcap.trans h.gate.svcCap) (g2.trans h.gate.inflight) (g1.bandInflight.trans h.gate.bandInflight)
      hroom hmay fun hf y hy => by
        unfold sharedWait at hy
        split at hy
        · rw [h.svcBound] at hy
          exact h.waiting hlook hy
        · -- the floors apply, so nobody waits at all
          rename_i hc
          obtain ⟨e, hl, _⟩ := h.pool.bandQueued_pos.mp
            (show bandQueued t y > 0 from of_decide_eq_true hy)
          exfalso
          have hfl : floorsApply l (svcCap l) = true := by
            unfold floorsApply at hf ⊢
            rwa [hcap, g1.cfg, h.gate.svcCap, h.gate.cfg]
          have hpos : t.queued > 0 := by
            rw [h.pool.queued, h.pool.ring.count_eq]
            exact length_pos_of_mem hl
          rw [hfl, g1.queued] at hc
          simp [hpos] at hc
    have htaken : (sharedTaken mem t p true).isSome = true := by
      unfold sharedTaken
      rw [hasked]
      dsimp only
      unfold unitTakeBand
      rw [h1, bind_some, h2]
      rfl
    obtain ⟨u, hu⟩ := isSome_iff_exists.mp htaken
    rw [if_neg hat', hu]
    simp [hat]

theorem AfterWake.slot_notFull (hp : PoolOk s) {mem : Bool} {tkey : UInt64} {slot : Option Nat}
    (hc : tenantCanRun s.ten slot (tenantSvcBound s) = true)
    (hslot : slot = (tenantGet mem t.queue.dead t.ten tkey).2.1) :
    tenantFull mem t tkey = false := by
  have hlook : Kept t.ten (tenantGet mem t.queue.dead t.ten tkey).1 :=
    (edits_get h.pool.ten mem t.queue.dead tkey).1.look_kept h.pool.ten
  unfold tenantFull atShare
  rw [← hslot, h.svcBound]
  cases slot with
  | none => simp
  | some j =>
    have hin : ((tenantGet mem t.queue.dead t.ten tkey).1.tenants j).inflight =
        (s.ten.tenants j).inflight := (h.kept.trans hlook).inflight j
    rw [any_some, hin]
    by_cases h0 : tenantSvcBound s = 0
    · simp [h0]
    · have hlt : (s.ten.tenants j).inflight < tenantSvcBound s := by
        cases ht : s.ten.table with
        | false =>
          rw [hp.ten.none ht j]
          exact pos_of_ne_zero h0
        | true =>
          unfold tenantCanRun at hc
          simpa [h0, ht] using hc
      simp [not_le.mpr hlt]

end

/-- **the wake and the gate**: the wake takes an entry whenever one may take an unreserved unit, of
a band below its claim if one waits; a waiter that comes straight back is admitted exactly if no
share is in force or its key finds a tenant below its bound -/
theorem wake_gate_agree (hp : PoolOk s) (he : s.cfg.mode = .enforce) (hd : s.draining = false)
    (h0 : svcCap s ≠ 0) :
    (∀ pend : Band → Nat,
      (∃ e ∈ s.queue.live, tenantCanRun s.ten e.tslot (tenantSvcBound s) = true ∧
        (s.inflight + (pend .standard + pend .critical + pend .sheddable) +
            (floorReserve s.cfg (svcCap s) - (s.bandInflight .critical + pend .critical)) < svcCap s ∨
          e.band = .critical ∧
            s.inflight + (pend .standard + pend .critical + pend .sheddable) < svcCap s)) →
      ∃ e, (ringPopRunnable s pend).2.1 = some e) ∧
    (∀ (pend : Band → Nat) (b : Band), belowClaim (wakeView s pend) b = true →
      ∃ e, (ringPopRunnable s pend).2.1 = some e ∧
        (wakeView s pend).held e.band < (wakeView s pend).claim e.band) ∧
    ∀ (m : Mem) (hook : QueueEnt → Bool) (t u : State) (e : QueueEnt) (p q : Permit) (mem : Bool)
      (tkey : UInt64) (band : Nat), wakeOne m s hook = (t, some e) →
      ownerResume t p = (u, q, .turn) → bandOf band = e.band →
      ((serviceAcquireH1Band mem u q true tkey band).2.2 = .admitted ↔
        shareActive s = false ∨ tenantFull mem u tkey = false) ∧
      (e.tslot = (tenantGet mem u.queue.dead u.ten tkey).2.1 → tenantFull mem u tkey = false) := by
  refine ⟨fun pend => (pop_takes he h0 pend).1, fun pend => (pop_takes he h0 pend).2, ?_⟩
  intro m hook t u e p q mem tkey band hwake hturn hband
  obtain ⟨hroom, hpop, haft⟩ := wakeOne_some hp hwake
  obtain rfl := ownerResume_turn hturn
  obtain ⟨hrun, hmay⟩ := ringPopRunnable_some hp hpop
  refine ⟨?_, haft.slot_notFull hp hrun⟩
  have hlt : s.inflight < svcCap s := by
    unfold hasRoom at hroom
    simpa [h0] using hroom
  have hmode : u.cfg.mode = .enforce := by rw [haft.gate.cfg, he]
  have hdr : u.draining = false := by rw [haft.gate.draining, hd]
  have hshare : shareActive u = shareActive s := by
    unfold shareActive
    rw [haft.gate.cfg]
  unfold serviceAcquireH1Band
  rw [serviceAcquire_enforced hmode hdr, hband]
  by_cases hs : shareActive s = true
  · rw [if_pos (hshare.trans hs)]
    rw [haft.shared (p := acquireBind q true tkey e.band) he hlt hmay]
    simp [hs, acquireBind]
  · rw [if_neg (by rw [hshare]; exact hs)]
    rw [not_eq_true] at hs
    rw [haft.unshared hs hlt hmay]
    simp [hs]

end

def openCfg : Cfg :=
  { Cfg.zero with mode := .enforce, maxOutstanding := 2, maxQueueDepth := 2, maxQueueWaitMs := 1000 }

def sharedRun : List (Act (Fin 6)) :=
  admits 0 5 0 ++ admits 1 6 0 ++ parks 2 5 0 100 ++ parks 3 1 0 100 ++ releases 1

/-- tenant 5 holds its share and waits for more; the waiter behind it is woken, and gets the unit -/
theorem wake_gate_agree_line : ∃ x t u e q, exec (step sampleConn)
        (Sys.init Mem.ok 64 { openCfg with tenantSharePct := 50 }) sharedRun = some x ∧
      x.fc.queue.live.map (·.fd) = [(sampleConn 2).1, (sampleConn 3).1] ∧
      wakeOne Mem.ok x.fc (fun _ => true) = (t, some e) ∧
      ownerResume t (x.threads 3).permit = (u, q, .turn) ∧
      (serviceAcquireH1Band true u q true 1 0).2.2 = .admitted := by
  obtain ⟨x, hx, he, hd, h0, hl, hband, hturn, hslot⟩ : ∃ x, exec (step sampleConn)
          (Sys.init Mem.ok 64 { openCfg with tenantSharePct := 50 }) sharedRun = some x ∧
        x.fc.cfg.mode = .enforce ∧ x.fc.draining = false ∧ svcCap x.fc ≠ 0 ∧
        x.fc.queue.live.map (·.fd) = [(sampleConn 2).1, (sampleConn 3).1] ∧
        (wakeOne Mem.ok x.fc fun _ => true).2.map (·.band) = some (bandOf 0) ∧
        let r := ownerResume (wakeOne Mem.ok x.fc fun _ => true).1 (x.threads 3).permit
        r.2.2 = .turn ∧ (wakeOne Mem.ok x.fc fun _ => true).2.map (·.tslot) =
          some (tenantGet true r.1.queue.dead r.1.ten 1).2.1 :=
    exec_found (by decide +kernel)
  generalize hwake : wakeOne Mem.ok x.fc (fun _ => true) = w at hband hturn hslot
  generalize hres : ownerResume w.1 (x.threads 3).permit = r at hturn hslot
  obtain ⟨t, o⟩ := w
  obtain ⟨u, q, res⟩ := r
  obtain ⟨e, rfl, hb⟩ := map_eq_some_iff.mp hband
  cases hturn
  obtain ⟨hadm, hfull⟩ := (wake_gate_agree (pool_run hx) he hd h0).2.2 _ _ _ _ _ _ _ true 1 0 hwake
    hres hb.symm
  exact ⟨x, t, u, e, q, hx, hl, hwake, hres, hadm.mpr (.inr (hfull (Option.some.inj hslot)))⟩

def untrackedRun : List (Act (Fin 6)) :=
  admits 0 5 0 ++ admits 1 6 0 ++ admits 2 1 0 ++ [.push 2 100 false 0 0 Mem.ok,
    .apply { openCfg with tenantSharePct := 50 } Mem.ok] ++ releases 0

/-- another request of tenant 1 takes the tenant's share, and a second unit is freed: the waiter is
woken, and the gate sends it back -/
theorem woken_refused : ∃ x, exec (step sampleConn) (Sys.init Mem.ok 64 openCfg)
        (untrackedRun ++ admits 3 1 0 ++ releases 1) = some x ∧
      x.fc.cfg.mode = .enforce ∧ x.fc.draining = false ∧ svcCap x.fc = 2 ∧ x.fc.inflight = 1 ∧
      (x.threads 2).permit.tkey = 1 ∧ (x.threads 2).permit.band = bandOf 0 ∧
      (wakeOne Mem.ok x.fc fun _ => true).2.isSome = true ∧
      (ownerResume (wakeOne Mem.ok x.fc fun _ => true).1 (x.threads 2).permit).2.2 = .turn ∧
      (serviceAcquireH1Band true
        (ownerResume (wakeOne Mem.ok x.fc fun _ => true).1 (x.threads 2).permit).1
        (ownerResume (wakeOne Mem.ok x.fc fun _ => true).1 (x.threads 2).permit).2.1 true 1 0).2.2 =
        .queue :=
  exec_found (by decide +kernel)

end Fc
