import InferenceGateway.Fc.Steps

/-!
# What the functions leave alone

The functions of the queue move no unit (`SameGate`), the functions of the gate move no waiter
(`SameQueue`).
-/

namespace Fc

/-- the configuration and every unit count are as before -/
structure SameGate (s s' : State) : Prop where
  cfg : s'.cfg = s.cfg
  inflight : s'.inflight = s.inflight
  bandInflight : s'.bandInflight = s.bandInflight
  epInflight : s'.epInflight = s.epInflight
  effMax : s'.effMax = s.effMax
  draining : s'.draining = s.draining
  warmSinceNs : s'.warmSinceNs = s.warmSinceNs

/-- the unit counts are as before -/
structure SameUnits (s s' : State) : Prop where
  inflight : s'.inflight = s.inflight
  bandInflight : s'.bandInflight = s.bandInflight
  epInflight : s'.epInflight = s.epInflight

/-- the waiters, their tenants and the mirrors are as before -/
structure SameQueue (s s' : State) : Prop where
  queue : s'.queue = s.queue
  queued : s'.queued = s.queued
  bandQueued : s'.bandQueued = s.bandQueued
  ten : s'.ten = s.ten

theorem SameGate.refl (s : State) : SameGate s s := by
  constructor <;> rfl

variable {s t u : State} {cap : Nat}

theorem SameGate.trans (h : SameGate s t) (h' : SameGate t u) : SameGate s u :=
  ⟨h'.cfg.trans h.cfg, h'.inflight.trans h.inflight, h'.bandInflight.trans h.bandInflight,
    h'.epInflight.trans h.epInflight, h'.effMax.trans h.effMax, h'.draining.trans h.draining,
    h'.warmSinceNs.trans h.warmSinceNs⟩

theorem SameGate.units {s' : State} (h : SameGate s s') : SameUnits s s' := { h with }
theorem SameUnits.refl (s : State) : SameUnits s s := ⟨rfl, rfl, rfl⟩
theorem SameQueue.refl (s : State) : SameQueue s s := ⟨rfl, rfl, rfl, rfl⟩

theorem SameQueue.trans (h : SameQueue s t) (h' : SameQueue t u) : SameQueue s u :=
  ⟨h'.queue.trans h.queue, h'.queued.trans h.queued, h'.bandQueued.trans h.bandQueued,
    h'.ten.trans h.ten⟩

/-! ## the queue moves no unit -/

section
variable (m : Mem) (mem : Bool) (s : State) (p : Permit)

variable (pend : Band → Nat) (fd : Int) (gen : Nat) (e : QueueEnt)

theorem sameGate_tenantDec (slot : Option Nat) (h : Hold) : SameGate s (s.tenantDec slot h) := by
  constructor <;> rfl

theorem sameGate_evictedClaim : SameGate s (evictedClaim s fd gen).1 := by
  unfold evictedClaim
  split
  · constructor <;> rfl
  · exact SameGate.refl s

theorem sameGate_sweepDrop (take : List Evicted) : ∀ s : State, SameGate s (sweepDrop s take) := by
  induction take with
  | nil => exact SameGate.refl
  | cons e take ih =>
    intro s
    refine SameGate.trans ?_ (ih (s.evictedErase (· = e)))
    constructor <;> rfl

theorem sameGate_queueTake : SameGate s (queueTake s p).1 := by
  unfold queueTake
  split
  · split
    · constructor <;> rfl
    · exact SameGate.refl s
  · exact SameGate.refl s

theorem sameGate_queuePop : SameGate s (queuePop s).1 := by
  unfold queuePop
  dsimp only
  split <;> constructor <;> rfl

theorem sameGate_ringPopRunnable : SameGate s (ringPopRunnable s pend).1 := by
  unfold ringPopRunnable ringPopBanded
  dsimp only
  repeat' split
  all_goals constructor <;> rfl

theorem sameGate_wakePop : SameGate s (wakePop s pend).1 := by
  have h := sameGate_ringPopRunnable s pend
  exact { h with }

theorem sameGate_wakeDone : SameGate s (wakeDone s e) :=
  sameGate_tenantDec s e.tslot .queued

theorem sameGate_wakeFailed (u : PickUndo) : SameGate s (wakeFailed m s e u) := by
  unfold wakeFailed
  dsimp only
  split <;> constructor <;> rfl

theorem sameGate_pushSlot (tkey : UInt64) : SameGate s (pushSlot mem s tkey).1 := by
  unfold pushSlot
  split <;> constructor <;> rfl

theorem sameGate_pushEvicted (evict : Option Nat) (nowNs : Nat) :
    SameGate s (pushEvicted s evict nowNs) := by
  cases evict with
  | none => exact SameGate.refl s
  | some i => constructor <;> rfl

theorem sameGate_pushInsert (front ordered : Bool) (gone : Option QueueEnt) :
    SameGate s (pushInsert m s e front ordered gone).fc := by
  unfold pushInsert
  dsimp only
  split
  · constructor <;> rfl
  · cases gone <;> constructor <;> rfl

theorem sameGate_pushLocked (nowNs : Nat) (front : Bool) :
    SameGate s (pushLocked m s p fd gen nowNs front).fc := by
  have hslot := sameGate_pushSlot m.table s p.tkey
  unfold pushLocked
  dsimp only
  split
  · exact SameGate.refl s
  split
  · exact hslot.trans (by constructor <;> rfl)
  · exact hslot.trans ((sameGate_pushEvicted _ _ _).trans (sameGate_pushInsert _ _ _ _ _ _))

theorem sameGate_queuePush (nowNs : Nat) (front : Bool) :
    SameGate s (queuePush m s p fd gen nowNs front).1 := by
  have h := sameGate_pushLocked m s p fd gen nowNs front
  have h' : SameGate s (countGone (pushLocked m s p fd gen nowNs front).fc
      (pushLocked m s p fd gen nowNs front).gone nowNs) := by
    refine h.trans ?_
    unfold countGone
    split <;> constructor <;> rfl
  unfold queuePush
  dsimp only
  split
  · exact SameGate.refl s
  · split
    · refine h'.trans ?_
      split <;> constructor <;> rfl
    · exact h'.trans (by constructor <;> rfl)

theorem sameUnits_stateApply (cfg : Cfg) : SameUnits s (stateApply m s cfg) := by
  have h1 : ∀ t, SameUnits t (applyShare m.table t) := by
    intro t
    unfold applyShare
    split <;> exact ⟨rfl, rfl, rfl⟩
  have h2 : ∀ t, SameUnits t (adaptReset t s.cfg) := by
    intro t
    unfold adaptReset
    dsimp only
    split <;> exact ⟨rfl, rfl, rfl⟩
  exact ⟨(h2 _).inflight.trans (h1 _).inflight, (h2 _).bandInflight.trans (h1 _).bandInflight,
    (h2 _).epInflight.trans (h1 _).epInflight⟩

theorem sameUnits_adaptTick (sig : Signal) : SameUnits s (adaptTick s sig) := by
  unfold adaptTick
  split
  · exact SameUnits.refl s
  · split
    · exact ⟨rfl, rfl, rfl⟩
    · split <;> exact ⟨rfl, rfl, rfl⟩

/-! ## the gate moves no waiter -/

/-- only the units of the endpoints moved -/
structure OnlyEp (s s' : State) : Prop extends SameQueue s s' where
  cfg : s'.cfg = s.cfg
  effMax : s'.effMax = s.effMax
  inflight : s'.inflight = s.inflight
  bandInflight : s'.bandInflight = s.bandInflight

theorem OnlyEp.refl : OnlyEp s s := ⟨SameQueue.refl s, rfl, rfl, rfl, rfl⟩

theorem onlyEp_giveLeg (r : Role) : OnlyEp s (giveLeg s p r) := by
  unfold giveLeg
  split
  · exact ⟨⟨rfl, rfl, rfl, rfl⟩, rfl, rfl, rfl, rfl⟩
  · exact OnlyEp.refl s

theorem onlyEp_epLand (ep : Nat) (r : Role) (nowNs : Nat) : OnlyEp s (epLand s p ep r nowNs).1 := by
  have h := onlyEp_giveLeg s p r
  unfold epLand
  split
  · exact h
  · exact ⟨{ h with }, h.cfg, h.effMax, h.inflight, h.bandInflight⟩

theorem onlyEp_releaseRole (r : Role) : OnlyEp s (releaseRole s p r).1 := by
  unfold releaseRole
  split
  · exact OnlyEp.refl s
  · split
    · exact ⟨⟨rfl, rfl, rfl, rfl⟩, rfl, rfl, rfl, rfl⟩
    · exact onlyEp_giveLeg s p r

/-- what a call that looks for a unit of an endpoint does in one step -/
inductive EpMove (s : State) (p : Permit) (r : Role) (nowNs : Nat) : State → Pc → Prop
  | stop : EpMove s p r nowNs s .idle
  | next (eps : List (Nat × Bool)) : EpMove s p r nowNs s (.legTry r eps)
  | shed : EpMove s p r nowNs (fcCount s .capacityShed) .idle
  | force {ep : Nat} {pc : Pc} (state : p.state = .executing) (mode : s.cfg.mode ≠ .enforce)
      (place : pc = .legForce r ep ∨ pc = .moveForce r ep) : EpMove s p r nowNs s pc
  | take {ep n : Nat} {pc : Pc} (state : p.state = .executing)
      (unit : unitTake (s.epInflight ep r) (epCapNow s ep r nowNs) = some n)
      (place : pc = .legLand r ep ∨ pc = .moveLand r ep) : EpMove s p r nowNs (setEp s ep r n) pc

theorem legStep_move (r : Role) (nowNs : Nat) (eps : List (Nat × Bool)) :
    EpMove s p r nowNs (legStep s p r nowNs eps).1 (legStep s p r nowNs eps).2 := by
  unfold legStep
  split
  · exact .stop
  split
  · exact .next _
  unfold legStart
  split
  · exact .stop
  · rename_i ep check eps _ n hl
    split at hl
    · cases hl
    · rename_i hc
      exact .take (by_contra fun h => hc (.inr (.inl h))) (Option.some.inj hl) (.inl rfl)
  · rename_i ep check eps _ hl
    split at hl
    · cases hl
    · rename_i hc
      split
      · exact .next _
      · exact .force (by_contra fun h => hc (.inr (.inl h))) ‹_› (.inl rfl)

theorem moveStart_move (r : Role) (ep nowNs : Nat) :
    EpMove s p r nowNs (moveStart s p r ep nowNs).1 (moveStart s p r ep nowNs).2 := by
  unfold moveStart
  split
  · exact .stop
  · rename_i hc
    have hs : p.state = .executing := by_contra fun h => hc (.inl h)
    split
    · exact .take hs ‹_› (.inr rfl)
    · split
      · exact .shed
      · exact .force hs ‹_› (.inr rfl)

end

theorem EpMove.onlyEp {p : Permit} {r : Role} {nowNs : Nat} {pc : Pc}
    (h : EpMove s p r nowNs t pc) : OnlyEp s t := by
  cases h with
  | stop | next | force => exact OnlyEp.refl s
  | shed | take => exact ⟨⟨rfl, rfl, rfl, rfl⟩, rfl, rfl, rfl, rfl⟩

/-! ## the locked section of an acquire under a share -/

theorem bandWaiterCanRun_fst (s : State) (band : Band) (bound : Nat) :
    (bandWaiterCanRun s band bound).1 = { s with ten := (tenantWaiterCanRun s.ten bound).1 } := by
  unfold bandWaiterCanRun
  dsimp only
  split
  · rfl
  split
  · rfl
  split
  · rfl
  split
  · rfl
  split <;> rfl

def sharedGet (mem : Bool) (s : State) (p : Permit) : Tenancy × Option Nat × Bool :=
  tenantGet mem s.queue.dead s.ten p.tkey

/-- what the locked section leaves beside the tenant table and the service count -/
structure SharedFrame (s s' : State) : Prop where
  cfg : s'.cfg = s.cfg
  bandInflight : s'.bandInflight = s.bandInflight
  epInflight : s'.epInflight = s.epInflight
  effMax : s'.effMax = s.effMax
  draining : s'.draining = s.draining
  warmSinceNs : s'.warmSinceNs = s.warmSinceNs
  queue : s'.queue = s.queue
  queued : s'.queued = s.queued
  bandQueued : s'.bandQueued = s.bandQueued
  underflow : s'.anomaly .underflow = s.anomaly .underflow

theorem anomalyIf_full_underflow (s : State) (c : Bool) :
    (s.anomalyIf .tenantTableFull c).anomaly .underflow = s.anomaly .underflow := by
  cases c with
  | false => rfl
  | true =>
    have hne : Anomaly.underflow ≠ Anomaly.tenantTableFull := by decide
    exact Function.update_of_ne hne (s.anomaly .tenantTableFull + 1) s.anomaly

def sharedLooked (mem : Bool) (s : State) (p : Permit) (woken : Bool) : State :=
  (s.tenantGet mem p.tkey (!woken)).1

/-- the pool after the waiters were asked for, and whether one is ahead -/
def sharedAsked (mem : Bool) (s : State) (p : Permit) (woken : Bool) : State × Bool :=
  if s.cfg.mode = .enforce && queueEnabled (sharedLooked mem s p woken) && !woken
  then bandWaiterCanRun (sharedLooked mem s p woken) p.band (tenantSvcBound s)
  else (sharedLooked mem s p woken, false)

/-- the waiting bands an acquire under a share holds floors for -/
def sharedWait (s : State) (bound : Nat) : Option (Band → Bool) :=
  if floorsApply s (svcCap s) && decide (s.queued > 0)
  then some (floorWaitingRunnable s bound) else none

def sharedTaken (mem : Bool) (s : State) (p : Permit) (woken : Bool) : Option State :=
  let a := sharedAsked mem s p woken
  if a.2 then none
  else unitTakeBand a.1 p.band (svcCap a.1) (sharedWait a.1 (tenantSvcBound s))

theorem acquireShared_eq (mem : Bool) (s : State) (p : Permit) (canQueue woken : Bool) :
    acquireShared mem s p canQueue woken =
      let g := sharedLooked mem s p woken
      let slot := (sharedGet mem s p).2.1
      let a := (sharedAsked mem s p woken).1
      if atShare g.ten slot (tenantSvcBound s) then
        if s.cfg.mode = .enforce then
          (g.tenantPut slot, .error (if canQueue && queueEnabled g && bandMayWait g p.band
            then .queue else .tenantShare))
        else ((takeOver g .observeWouldShed).tenantInc slot .inflight, .ok slot)
      else
        match sharedTaken mem s p woken with
        | some u => (u.tenantInc slot .inflight, .ok slot)
        | none =>
          if s.cfg.mode = .enforce then (a.tenantPut slot, .error (fullVerdict a p.band canQueue))
          else ((takeOver a (observeReason a)).tenantInc slot .inflight, .ok slot) := by
  unfold acquireShared
  simp only [decide_eq_true_eq]
  rfl

theorem serviceAcquire_enforced (he : s.cfg.mode = .enforce) (hd : s.draining = false) (mem : Bool)
    (p : Permit) (canQueue woken : Bool) (tkey : UInt64) (band : Band) :
    serviceAcquire mem s p canQueue woken tkey band =
      if shareActive s = true then
        serviceAcquireShared mem s (acquireBind p woken tkey band) canQueue woken
      else
        match (acquireLimit s band woken).bind (unitTake s.inflight) with
        | some n => (takeBand { s with inflight := n } band,
            (acquireBind p woken tkey band).execute none woken, .admitted)
        | none => (s, { acquireBind p woken tkey band with state := .none },
            fullVerdict s band canQueue) := by
  have h1 : ¬ (!fcActive s) = true := by simp [fcActive, he]
  have h2 : ¬ (s.cfg.mode = .enforce ∧ s.draining = true) := by simp [hd]
  refine (if_neg h1).trans ((if_neg h2).trans ?_)
  by_cases hs : shareActive s = true
  · rw [if_pos hs, if_pos hs]
  · rw [if_neg hs, if_neg hs]
    cases (acquireLimit s band woken).bind (unitTake s.inflight) with
    | some n => rfl
    | none => exact if_pos he

theorem SharedFrame.trans (h : SharedFrame s t) (h' : SharedFrame t u) : SharedFrame s u :=
  ⟨h'.cfg.trans h.cfg, h'.bandInflight.trans h.bandInflight, h'.epInflight.trans h.epInflight,
    h'.effMax.trans h.effMax, h'.draining.trans h.draining, h'.warmSinceNs.trans h.warmSinceNs,
    h'.queue.trans h.queue, h'.queued.trans h.queued, h'.bandQueued.trans h.bandQueued,
    h'.underflow.trans h.underflow⟩

theorem sharedLooked_spec (mem : Bool) (s : State) (p : Permit) (woken : Bool) :
    SharedFrame s (sharedLooked mem s p woken) ∧ (sharedLooked mem s p woken).inflight = s.inflight ∧
      (sharedLooked mem s p woken).ten = (sharedGet mem s p).1 :=
  ⟨⟨rfl, rfl, rfl, rfl, rfl, rfl, rfl, rfl, rfl, anomalyIf_full_underflow _ _⟩, rfl, rfl⟩

theorem sharedAsked_spec (mem : Bool) (s : State) (p : Permit) (woken : Bool) :
    SharedFrame s (sharedAsked mem s p woken).1 ∧
      (sharedAsked mem s p woken).1.inflight = s.inflight ∧
      ((sharedAsked mem s p woken).1.ten = (sharedGet mem s p).1 ∨
        (sharedAsked mem s p woken).1.ten =
          (tenantWaiterCanRun (sharedGet mem s p).1 (tenantSvcBound s)).1) := by
  obtain ⟨h1, h2, h3⟩ := sharedLooked_spec mem s p woken
  unfold sharedAsked
  split
  · rw [bandWaiterCanRun_fst]
    exact ⟨h1.trans (by constructor <;> rfl), h2, .inr rfl⟩
  · exact ⟨h1, h2, .inl h3⟩

theorem unitTake_some {ctr n : Nat} (h : unitTake ctr cap = some n) :
    n = ctr + 1 ∧ (cap ≠ 0 → ctr < cap) := by
  unfold unitTake at h
  split at h
  · cases h
  · rename_i hc
    cases h
    refine ⟨rfl, fun h0 => ?_⟩
    by_contra hge
    exact hc ⟨h0, by omega⟩

theorem unitTakeBand_some {band : Band} {wait : Option (Band → Bool)}
    (h : unitTakeBand s band cap wait = some u) :
    ∃ lim, bandLimit s band cap wait = some lim ∧ unitTake s.inflight lim = some (s.inflight + 1) ∧
      u = { s with inflight := s.inflight + 1 } := by
  obtain ⟨lim, hl, h'⟩ := Option.bind_eq_some_iff.mp h
  obtain ⟨n, hn, rfl⟩ := Option.map_eq_some_iff.mp h'
  obtain ⟨rfl, _⟩ := unitTake_some hn
  exact ⟨lim, hl, hn, rfl⟩

/-- **the locked section admits with one unit counted on its slot, or hands the slot back** -/
theorem acquireShared_spec (mem : Bool) (s : State) (p : Permit) (canQueue woken : Bool) :
    SharedFrame s (acquireShared mem s p canQueue woken).1 ∧ ∃ t1, (t1 = (sharedGet mem s p).1 ∨
          t1 = (tenantWaiterCanRun (sharedGet mem s p).1 (tenantSvcBound s)).1) ∧
        match (acquireShared mem s p canQueue woken).2 with
        | .ok slot => slot = (sharedGet mem s p).2.1 ∧
            (acquireShared mem s p canQueue woken).1.inflight = s.inflight + 1 ∧
            (acquireShared mem s p canQueue woken).1.ten = tenantIncAt t1 slot .inflight ∧
            (s.cfg.mode = .enforce → atShare (sharedGet mem s p).1 slot (tenantSvcBound s) = false ∧
              sharedTaken mem s p woken =
                some { (sharedAsked mem s p woken).1 with inflight := s.inflight + 1 })
        | .error _ => (acquireShared mem s p canQueue woken).1.inflight = s.inflight ∧
            (acquireShared mem s p canQueue woken).1.ten =
              tenantPutAt t1 (sharedGet mem s p).2.1 := by
  obtain ⟨g1, g2, g3⟩ := sharedLooked_spec mem s p woken
  obtain ⟨a1, a2, a3⟩ := sharedAsked_spec mem s p woken
  rw [acquireShared_eq]
  set y := (sharedAsked mem s p woken).1
  by_cases hs : atShare (sharedLooked mem s p woken).ten (sharedGet mem s p).2.1
      (tenantSvcBound s) = true
  · simp only [hs, if_true]
    by_cases he : s.cfg.mode = .enforce
    · simp only [he, if_true]
      refine ⟨g1.trans (by constructor <;> rfl), (sharedGet mem s p).1, .inl rfl, g2, ?_⟩
      rfl
    · simp only [if_neg he]
      refine ⟨g1.trans (by constructor <;> rfl), (sharedGet mem s p).1,
        .inl rfl, trivial, ?_, ?_, fun h => absurd h he⟩
      · show (sharedLooked mem s p woken).inflight + 1 = _
        rw [g2]
      · rw [← g3]
        rfl
  · simp only [if_neg hs]
    have hs' : atShare (sharedGet mem s p).1 (sharedGet mem s p).2.1 (tenantSvcBound s) = false := by
      rw [← g3]
      simpa using hs
    cases ht : sharedTaken mem s p woken with
    | some u =>
      have hu : unitTakeBand y p.band (svcCap y) (sharedWait y (tenantSvcBound s)) = some u := by
        unfold sharedTaken at ht
        dsimp only at ht
        split at ht
        · cases ht
        · exact ht
      obtain ⟨lim, _, _, rfl⟩ := unitTakeBand_some hu
      refine ⟨a1.trans (by constructor <;> rfl), y.ten, a3, rfl, ?_, rfl, fun _ => ⟨hs', ?_⟩⟩
      · show y.inflight + 1 = _
        rw [a2]
      · rw [a2]
    | none =>
      by_cases he : s.cfg.mode = .enforce
      · simp only [he, if_true]
        exact ⟨a1.trans (by constructor <;> rfl), y.ten, a3, a2, rfl⟩
      · simp only [if_neg he]
        refine ⟨a1.trans (by constructor <;> rfl), y.ten, a3, trivial, ?_, rfl,
          fun h => absurd h he⟩
        show y.inflight + 1 = _
        rw [a2]

end Fc
