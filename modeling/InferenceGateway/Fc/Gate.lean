import InferenceGateway.Fc.Ring
import InferenceGateway.Fc.Tenants

/-!
# The capacity gate

Taking and giving back units: the service unit under the pool's ceiling, its tenant's share,
the floors and the reserve of the bands, and the endpoint units of a request's legs.
-/

open Function

namespace Fc

open Walk

/-! ## what the pool runs on -/

def fcActive (s : State) : Bool := s.cfg.mode ≠ .off

/-- whether requests may wait on this pool -/
def queueEnabled (s : State) : Bool :=
  s.cfg.mode = .enforce && decide (s.cfg.maxQueueDepth > 0) && decide (s.queue.cap > 0)

/-- the service ceiling in force; 0 is unlimited -/
def svcCap (s : State) : Nat :=
  if s.cfg.adaptive ∧ s.cfg.maxOutstanding ≠ 0 then s.effMax else s.cfg.maxOutstanding

def hasRoom (s : State) : Bool := svcCap s = 0 || decide (s.inflight < svcCap s)

def shareActive (s : State) : Bool :=
  s.cfg.mode ≠ .off && decide (s.cfg.tenantSharePct > 0) && decide (s.cfg.tenantSharePct < 100)

/-- a share of a whole, rounded up, at least one -/
def shareOf (whole pct : Nat) : Nat :=
  if whole = 0 then 0
  else if (whole * pct + 99) / 100 ≠ 0 then (whole * pct + 99) / 100 else 1

def tenantSvcBound (s : State) : Nat :=
  if shareActive s then shareOf (svcCap s) s.cfg.tenantSharePct else 0

def tenantQueueBound (s : State) : Nat :=
  if shareActive s then shareOf s.cfg.maxQueueDepth s.cfg.tenantSharePct else 0

def bandQueueBound (s : State) (b : Band) : Nat :=
  if s.cfg.bandQueuePct b = 0 then 0 else shareOf s.cfg.maxQueueDepth (s.cfg.bandQueuePct b)

def bandWaitMs (s : State) (b : Band) : Nat :=
  if s.cfg.bandWaitMs b ≠ 0 ∧ s.cfg.bandWaitMs b < s.cfg.maxQueueWaitMs
  then s.cfg.bandWaitMs b else s.cfg.maxQueueWaitMs

def tenantsTracked (s : State) : Bool :=
  shareActive s || (s.cfg.mode ≠ .off && s.cfg.tenantWake = .rr)

def wakeStrict (s : State) : Bool := s.cfg.wakePolicy = .strict

/-- the waiters of one band, from the lock-free mirrors -/
def bandQueued (s : State) (b : Band) : Nat :=
  bandDerive s.queued (s.bandQueued .critical) (s.bandQueued .sheddable) b

/-! ## counting -/

def Stats.count (x : Stats) (r : Reason) : Stats :=
  { x with decisions := update x.decisions r (x.decisions r + 1) }

def bandOutcomeOf : Reason → Option BandOutcome
  | .admitted => some .admitted
  | .queued => some .queued
  | .shed => some .shed
  | .queueTimeout => some .expired
  | .cancelled => some .cancelled
  | _ => none

def Stats.countBand (x : Stats) (r : Reason) (b : Band) : Stats :=
  { x.count r with bandOutcome := fun y o =>
      if bandCounted b ∧ y = b ∧ bandOutcomeOf r = some o
      then x.bandOutcome y o + 1 else x.bandOutcome y o }

def qwaitBoundsMs : List Nat := [10, 50, 100, 250, 500, 1000, 2500, 5000]

def Stats.noteWait (x : Stats) (waitMs : Nat) : Stats :=
  let i := qwaitBoundsMs.findIdx (fun b => decide (waitMs ≤ b))
  { x with
    qwaitBucket := if i < qwaitBoundsMs.length
      then update x.qwaitBucket i (x.qwaitBucket i + 1) else x.qwaitBucket
    qwaitSumMs := x.qwaitSumMs + waitMs
    qwaitCount := x.qwaitCount + 1 }

def fcCount (s : State) (r : Reason) : State := { s with stats := s.stats.count r }

def countBand (s : State) (r : Reason) (b : Band) : State :=
  { s with stats := s.stats.countBand r b }

/-- a counter found where it may not be -/
def State.anomalyIf (s : State) (a : Anomaly) (c : Bool) : State :=
  { s with anomaly := if c then update s.anomaly a (s.anomaly a + 1) else s.anomaly }

/-- the reason an observed request is counted under when it is over a ceiling -/
def observeReason (s : State) : Reason :=
  if s.cfg.maxQueueDepth > 0 then .observeWouldQueue else .observeWouldShed

/-! ## permits -/

def Permit.reset : Permit where
  fc := false
  state := .none
  svcHeld := false
  woken := false
  band := .standard
  qParked := false
  qTtlCut := false
  qTtlMs := 0
  ep := fun _ => none
  qFd := -1
  qSlot := 0
  qGen := 0
  qEnqueueNs := 0
  qDeadlineNs := 0
  qFirstNs := 0
  admitNs := 0
  tkey := 0
  tslot := none

/-- fc_permit_bind: a fresh permit bound to the pool -/
def Permit.bind : Permit := { Permit.reset with fc := true }

/-- a wait from `fromNs`, in whole milliseconds -/
def waitedMs (nowNs fromNs : Nat) : Nat :=
  if nowNs > fromNs then (nowNs - fromNs) / 1000000 else 0

def waitEnd (s : State) (p : Permit) (nowNs : Nat) : State × Permit :=
  ({ s with stats := if p.qParked then s.stats.noteWait (waitedMs nowNs p.qEnqueueNs) else s.stats },
    { p with qParked := false })

/-! ## units -/

def unitTake (ctr cap : Nat) : Option Nat :=
  if cap ≠ 0 ∧ ctr ≥ cap then none else some (ctr + 1)

/-- fc_unit_give on the service counter -/
def giveInflight (s : State) : State :=
  { s with inflight := s.inflight - 1 }.anomalyIf .underflow (s.inflight = 0)

def giveBand (s : State) (b : Band) : State :=
  { s with bandInflight := if bandCounted b
      then update s.bandInflight b (s.bandInflight b - 1)
      else s.bandInflight }.anomalyIf .underflow (bandCounted b && s.bandInflight b = 0)

def takeBand (s : State) (b : Band) : State :=
  { s with bandInflight := if bandCounted b
      then update s.bandInflight b (s.bandInflight b + 1) else s.bandInflight }

def setEp (s : State) (ep : Nat) (r : Role) (n : Nat) : State :=
  { s with epInflight := update s.epInflight ep (update (s.epInflight ep) r n) }

def giveEp (s : State) (ep : Nat) (r : Role) : State :=
  (setEp s ep r (s.epInflight ep r - 1)).anomalyIf .underflow (s.epInflight ep r = 0)

def State.tenantDec (s : State) (slot : Option Nat) (h : Hold) : State :=
  { s with ten := (tenantDecAt s.ten slot h).1 }.anomalyIf .underflow (tenantDecAt s.ten slot h).2

/-- `first` is the request's first look, the one the anomaly is counted on -/
def State.tenantGet (s : State) (mem : Bool) (key : UInt64) (first : Bool) : State × Option Nat :=
  let g := Fc.tenantGet mem s.queue.dead s.ten key
  ({ s with ten := g.1 }.anomalyIf .tenantTableFull (g.2.2 && first), g.2.1)

def State.tenantPut (s : State) (slot : Option Nat) : State :=
  { s with ten := tenantPutAt s.ten slot }

def State.tenantInc (s : State) (slot : Option Nat) (h : Hold) : State :=
  { s with ten := tenantIncAt s.ten slot h }

/-! ## floors and the reserve -/

def floorsOn (c : Cfg) : Bool :=
  c.bandMinSharePct .standard ≠ 0 || c.bandMinSharePct .critical ≠ 0 ||
    c.bandMinSharePct .sheddable ≠ 0 || c.criticalReservePct ≠ 0

/-- a share of a ceiling, rounded up but never to the whole ceiling for a share under 100 -/
def floorUnits (cap pct : Nat) : Nat :=
  if cap = 0 ∨ pct = 0 then 0
  else if pct ≥ 100 then cap
  else if (cap * pct + 99) / 100 ≥ cap then cap - 1 else (cap * pct + 99) / 100

/-- what critical holds: the larger of its floor and its reserve -/
def criticalClaim (c : Cfg) (cap : Nat) : Nat :=
  if floorUnits cap c.criticalReservePct > floorUnits cap (c.bandMinSharePct .critical)
  then floorUnits cap c.criticalReservePct else floorUnits cap (c.bandMinSharePct .critical)

/-- the smaller of a band's share and what is left -/
def floorFit (cap pct left : Nat) : Nat :=
  if floorUnits cap pct < left then floorUnits cap pct else left

/-- fc_floor_claims: the floors in units, clamped in rank order -/
def floorClaims (c : Cfg) (cap : Nat) : Band → Nat
  | .critical => floorUnits cap (c.bandMinSharePct .critical)
  | .standard => floorFit cap (c.bandMinSharePct .standard) (cap - criticalClaim c cap)
  | .sheddable => floorFit cap (c.bandMinSharePct .sheddable) (cap - criticalClaim c cap -
        floorFit cap (c.bandMinSharePct .standard) (cap - criticalClaim c cap))

def floorReserve (c : Cfg) (cap : Nat) : Nat := floorUnits cap c.criticalReservePct

/-- the bands as a floor decision sees them -/
structure FloorView where
  (cap total reserve : Nat)
  (floor claim held : Band → Nat)
  wait : Band → Bool

/-- fc_floor_view_load: `pend` are the units a wake loop has already promised, `wait` the bands
with a waiter that could run, or `none` to read the mirrors -/
def floorViewLoad (s : State) (cap : Nat) (pend : Band → Nat) (wait : Option (Band → Bool)) :
    FloorView where
  cap := cap
  total := s.inflight + (pend .standard + pend .critical + pend .sheddable)
  reserve := floorReserve s.cfg cap
  floor := floorClaims s.cfg cap
  claim := fun b =>
    if b = .critical ∧ floorReserve s.cfg cap > floorClaims s.cfg cap .critical
    then floorReserve s.cfg cap else floorClaims s.cfg cap b
  held := bandDerive (s.inflight + (pend .standard + pend .critical + pend .sheddable))
    (s.bandInflight .critical + pend .critical) (s.bandInflight .sheddable + pend .sheddable)
  wait := match wait with
    | some w => w
    | none => fun b => decide (bandQueued s b > 0)

/-- what band `y` holds back from a request of `band` -/
def FloorView.heldBy (v : FloorView) (band y : Band) : Nat :=
  if y = band then 0
  else
    let rd := if y = .critical ∧ v.reserve > v.held y then v.reserve - v.held y else 0
    let fd := if ¬ v.held band < v.claim band ∧ v.wait y ∧ v.floor y > v.held y
      then v.floor y - v.held y else 0
    if rd > fd then rd else fd

/-- fc_floor_held_back: units the other bands hold back from a request of `band` -/
def floorHeldBack (v : FloorView) (band : Band) : Nat :=
  bandsByNumber.foldl (fun held y => held + v.heldBy band y) 0

def floorMayTake (v : FloorView) (band : Band) : Bool :=
  decide (floorHeldBack v band < v.cap) && decide (v.total < v.cap - floorHeldBack v band)

def floorsApply (s : State) (cap : Nat) : Bool := cap ≠ 0 && s.cfg.mode = .enforce && floorsOn s.cfg
def noPend : Band → Nat := fun _ => 0

/-- the ceiling a request of `band` may fill, `none` for no unit at all -/
def bandLimit (s : State) (band : Band) (cap : Nat) (wait : Option (Band → Bool)) : Option Nat :=
  if floorsApply s cap then
    let held := floorHeldBack (floorViewLoad s cap noPend wait) band
    if held ≥ cap then none else some (cap - held)
  else some cap

def unitTakeBand (s : State) (band : Band) (cap : Nat) (wait : Option (Band → Bool)) :
    Option State :=
  (bandLimit s band cap wait).bind fun lim =>
    (unitTake s.inflight lim).map fun n => { s with inflight := n }

def bandBelowClaim (s : State) (band : Band) : Bool :=
  let v := floorViewLoad s (svcCap s) noPend none
  floorsApply s (svcCap s) && decide (v.held band < v.claim band)

/-- a waiter in the ring that could take a unit now, and passes the test -/
def runnableWaiter (s : State) (bound : Nat) (test : QueueEnt → Bool) : Bool :=
  s.queue.span.any fun i =>
    (s.queue.ring i).live && test (s.queue.ring i) && tenantCanRun s.ten (s.queue.ring i).tslot bound

/-- fc_floor_waiting_runnable: which bands hold a waiter whose tenant could take a unit now -/
def floorWaitingRunnable (s : State) (bound : Nat) : Band → Bool :=
  fun b => runnableWaiter s bound (fun e => e.band = b)

/-! ## who is ahead of a newcomer -/

/-- fc_waiters_ahead, from the mirrors -/
def waitersAhead (s : State) (band : Band) : Bool :=
  if s.queued = 0 then false
  else if bandBelowClaim s band then decide (bandQueued s band > 0)
  else if !wakeStrict s || bandRank band = 2 then true
  else bandsByRank.any fun b => decide (bandRank b ≤ bandRank band) && decide (bandQueued s b > 0)

/-- fc_band_waiter_can_run: the tenant count answers when every waiter is ahead of the
newcomer; a queue that also holds bands below it is walked -/
def bandWaiterCanRun (s : State) (band : Band) (bound : Nat) : State × Bool :=
  let r := tenantWaiterCanRun s.ten bound
  let s := { s with ten := r.1 }
  if !r.2 then (s, false)
  else if bandBelowClaim s band then (s, runnableWaiter s bound (fun e => e.band = band))
  else if !wakeStrict s || bandRank band = 2 then (s, true)
  else
    let ahead := bandsByRank.any fun b =>
      decide (s.queue.bandLive b ≠ 0) && decide (bandRank b ≤ bandRank band)
    let below := bandsByRank.any fun b =>
      decide (s.queue.bandLive b ≠ 0) && decide (bandRank b > bandRank band)
    if !ahead then (s, false)
    else if !below then (s, true)
    else (s, runnableWaiter s bound (fun e => bandRank e.band ≤ bandRank band))

/-! ## the service unit -/

/-- fc_band_may_wait: a sheddable request waits only where the pool lets it -/
def bandMayWait (s : State) (b : Band) : Bool :=
  s.cfg.mode ≠ .enforce || b ≠ .sheddable || s.cfg.shedQueue

def bandVerdict (s : State) (b : Band) (v : Verdict) : Verdict :=
  if (v = .queue ∨ v = .shed) ∧ ¬ bandMayWait s b then .bandShed else v

/-- what a full pool answers a request that may (`canQueue`) or may not wait -/
def fullVerdict (s : State) (b : Band) (canQueue : Bool) : Verdict :=
  bandVerdict s b (if canQueue && queueEnabled s then .queue else .shed)

/-- the permit an acquire starts with: a woken request keeps the wait it was first given -/
def acquireBind (p : Permit) (woken : Bool) (tkey : UInt64) (band : Band) : Permit :=
  { Permit.bind with
    qParked := woken && p.qParked
    qTtlCut := woken && p.qTtlCut
    qEnqueueNs := if woken then p.qEnqueueNs else 0
    qDeadlineNs := if woken then p.qDeadlineNs else 0
    tkey := tkey
    band := band }

def Permit.execute (p : Permit) (tslot : Option Nat) (woken : Bool) : Permit :=
  { p with tslot := tslot, svcHeld := true, state := .executing, woken := woken }

/-- a unit taken whatever the ceiling: the pool only observes -/
def takeOver (s : State) (r : Reason) : State :=
  { s with stats := s.stats.count r, inflight := s.inflight + 1 }

/-- whether the slot is at the tenant's bound -/
def atShare (t : Tenancy) (slot : Option Nat) (bound : Nat) : Bool :=
  bound ≠ 0 && slot.any fun i => decide ((t.tenants i).inflight ≥ bound)

/-- the locked section of fc_service_acquire_shared: the tenant slot the unit is counted on,
or the refusal -/
def acquireShared (mem : Bool) (s : State) (p : Permit) (canQueue woken : Bool) :
    State × Except Verdict (Option Nat) :=
  let enforce : Bool := s.cfg.mode = .enforce
  let bound := tenantSvcBound s
  let g := s.tenantGet mem p.tkey (!woken)
  let slot := g.2
  let s := g.1
  if atShare s.ten slot bound then
    if enforce then
      (s.tenantPut slot, .error (if canQueue && queueEnabled s && bandMayWait s p.band
        then .queue else .tenantShare))
    else ((takeOver s .observeWouldShed).tenantInc slot .inflight, .ok slot)
  else
    -- waiters come first, but only those that could take the unit
    let a := if enforce && queueEnabled s && !woken
      then bandWaiterCanRun s p.band bound else (s, false)
    let s := a.1
    let wait := if floorsApply s (svcCap s) && decide (s.queued > 0)
      then some (floorWaitingRunnable s bound) else none
    match if a.2 then none else unitTakeBand s p.band (svcCap s) wait with
    | some s => (s.tenantInc slot .inflight, .ok slot)
    | none =>
      if enforce then (s.tenantPut slot, .error (fullVerdict s p.band canQueue))
      else ((takeOver s (observeReason s)).tenantInc slot .inflight, .ok slot)

def serviceAcquireShared (mem : Bool) (s : State) (p : Permit) (canQueue woken : Bool) :
    State × Permit × Verdict :=
  let r := acquireShared mem s p canQueue woken
  match r.2 with
  | .ok slot => (takeBand r.1 p.band, p.execute slot woken, .admitted)
  | .error v => (r.1, { p with state := .none }, v)

/-- the ceiling an acquire without a share may fill, `none` when it is over: a waiter is ahead
of it, or the other bands hold every unit back -/
def acquireLimit (s : State) (band : Band) (woken : Bool) : Option Nat :=
  if s.cfg.mode = .enforce ∧ queueEnabled s ∧ !woken ∧ waitersAhead s band then none
  else bandLimit s band (svcCap s) none

def serviceAcquire (mem : Bool) (s : State) (p : Permit) (canQueue woken : Bool) (tkey : UInt64)
    (band : Band) : State × Permit × Verdict :=
  let p := acquireBind p woken tkey band
  if !fcActive s then (s, { p with state := .bypass }, .admitted)
  else if s.cfg.mode = .enforce ∧ s.draining then (s, { p with state := .none }, .draining)
  else if shareActive s then serviceAcquireShared mem s p canQueue woken
  else
    match (acquireLimit s band woken).bind (unitTake s.inflight) with
    | some n => (takeBand { s with inflight := n } band, p.execute none woken, .admitted)
    | none =>
      if s.cfg.mode = .enforce then (s, { p with state := .none }, fullVerdict s band canQueue)
      else (takeBand (takeOver s (observeReason s)) band, p.execute none woken, .admitted)

def serviceAcquireH1Band (mem : Bool) (s : State) (p : Permit) (woken : Bool) (tkey : UInt64)
    (band : Nat) : State × Permit × Verdict :=
  serviceAcquire mem s p true woken tkey (bandOf band)

/-! ## endpoint units -/

/-- fc_ep_cap_now: the endpoint's ceiling for the role, or its ramp while it warms up -/
def epCapNow (s : State) (ep : Nat) (r : Role) (nowNs : Nat) : Nat :=
  let cap := s.cfg.epCap r
  let win := s.cfg.warmupMs
  let since := s.warmSinceNs ep
  if cap = 0 ∨ win = 0 ∨ ep ≥ maxEp ∨ since = 0 then cap
  else
    let elapsed := if nowNs ≤ since then 0 else (nowNs - since) / 1000000
    let floor := if cap / 4 ≠ 0 then cap / 4 else 1
    if elapsed ≥ win then cap else floor + (cap - floor) * elapsed / win

def epOverCap (s : State) (ep : Nat) (r : Role) (nowNs : Nat) : Bool :=
  s.cfg.mode = .enforce && decide (ep < maxEp) && epCapNow s ep r nowNs ≠ 0 &&
    decide (s.epInflight ep r ≥ epCapNow s ep r nowNs)

def roles : List Role := [.normal, .prefill, .decode]
def Permit.hasLeg (p : Permit) : Bool := roles.any fun r => (p.ep r).isSome

/-- the unit of the leg's old endpoint goes back -/
def giveLeg (s : State) (p : Permit) (r : Role) : State :=
  match p.ep r with
  | some old => giveEp s old r
  | none => s

/-- the end of fc_ep_acquire: the leg moves to the endpoint whose unit was taken, and the first
leg's unit is the admission -/
def epLand (s : State) (p : Permit) (ep : Nat) (r : Role) (nowNs : Nat) : State × Permit :=
  let s := giveLeg s p r
  let q := { p with ep := update p.ep r (some ep) }
  if p.hasLeg then (s, q)
  else waitEnd (countBand s .admitted p.band) { q with admitNs := nowNs } nowNs

def releaseRole (s : State) (p : Permit) (r : Role) : State × Permit :=
  if p.state ≠ .executing ∨ p.ep r = none then (s, p)
  else if p.fc = false then
    (s.anomalyIf .unknownPermit true, { p with ep := update p.ep r none })
  else (giveLeg s p r, { p with ep := update p.ep r none })

end Fc
