import InferenceGateway.Fc.Gate

/-!
# The capacity queue

Parking a request, evicting a sheddable waiter for it, choosing whom a freed unit wakes, the
wake itself, and the ways a wait ends.  Each definition is one section that runs with the queue
lock held, or one compare-and-swap of a permit's state, or a whole call put together from them.
-/

open Function

namespace Fc

open Walk

/-- fc_queue_publish: the lock-free mirrors -/
def queuePublish (s : State) : State :=
  { s with
    queued := s.queue.count
    bandQueued := fun b => if bandCounted b then s.queue.bandCount b else s.bandQueued b }

/-- fc_permit_settle: out of QUEUED, once -/
def permitSettle (p : Permit) (dst : PState) : Permit × Bool :=
  if p.state = .queued then ({ p with state := dst }, true) else (p, false)

/-! ## evicted waiters -/

/-- fc_ring_evict_pick: the youngest sheddable waiter, where one may be evicted for `band` -/
def ringEvictPick (s : State) (band : Band) : Option Nat :=
  let q := s.queue
  if s.cfg.shedQueue = false ∨ band = .sheddable ∨ q.bandCount .sheddable = 0 ∨
      q.evicted.length ≥ evictPending ∨ q.used = 0 then none
  else (back q.cap q.used (wrap q.cap (q.head + q.used - 1))).find? fun i =>
    (q.ring i).live && (q.ring i).band = .sheddable

/-- fc_ring_evict: the entry's place, band and tenant count go now, its answer is owed -/
def ringEvict (s : State) (slot nowNs : Nat) : State :=
  let e := s.queue.ring slot
  let gone : Evicted := ⟨e.fd, e.gen, nowNs⟩
  State.tenantDec
    { s with queue := { ringRemove s.queue slot with evicted := s.queue.evicted ++ [gone] } }
    e.tslot .queued

def Evicted.names (x : Evicted) (fd : Int) (gen : Nat) : Bool := x.fd = fd && x.gen = gen

/-- the evicted list without the first entry that passes the test -/
def State.evictedErase (s : State) (test : Evicted → Bool) : State :=
  { s with queue := { s.queue with evicted := s.queue.evicted.eraseP test } }

def evictedClaim (s : State) (fd : Int) (gen : Nat) : State × Bool :=
  if fd ≥ 0 ∧ s.queue.evicted.any (·.names fd gen) then (s.evictedErase (·.names fd gen), true)
  else (s, false)

/-- fc_queue_evicted_settle: the entry and the permit in one hold of the lock -/
def evictedSettle (s : State) (p : Permit) (fd : Int) (gen : Nat) : State × Permit × Bool :=
  let r := evictedClaim s fd gen
  if r.2 then (r.1, permitSettle p .evicted) else (s, p, false)

/-- the entries a sweep takes up -/
def sweepTake (s : State) (beforeNs : Nat) : List Evicted :=
  s.queue.evicted.filter fun x => decide (x.atNs ≤ beforeNs)

/-- the end of a sweep: whatever it took up and is still listed goes -/
def sweepDrop (s : State) (take : List Evicted) : State :=
  take.foldl (fun s x => s.evictedErase (· = x)) s

/-! ## parking -/

/-- the times and the place of a park -/
structure ParkAt where
  (enqueueNs deadlineNs : Nat)
  (ordered ttlCut : Bool)

/-- a request going back to its place keeps the times it was first given -/
def goesBack (p : Permit) (front : Bool) : Bool := front && p.qDeadlineNs ≠ 0

/-- a request moved here from another park takes its place by when it first parked there -/
def firstParked (p : Permit) (nowNs : Nat) (front : Bool) : Bool :=
  !front && p.qFirstNs ≠ 0 && decide (p.qFirstNs < nowNs)

def parkAt (s : State) (p : Permit) (nowNs : Nat) (front : Bool) : ParkAt :=
  let window := bandWaitMs s p.band
  let cut : Bool := s.cfg.llmdHeaders && p.qTtlMs ≠ 0 && decide (p.qTtlMs < window)
  let enq := if goesBack p front then p.qEnqueueNs
    else if firstParked p nowNs front then p.qFirstNs else nowNs
  { enqueueNs := enq
    deadlineNs := if goesBack p front then p.qDeadlineNs
      else enq + (if cut then p.qTtlMs else window) * 1000000
    ordered := firstParked p nowNs front
    ttlCut := (front && p.qTtlCut) || (!goesBack p front && cut) }

/-- the permit of a request that waits -/
def parkBind (p : Permit) (fd : Int) (gen : Nat) (at' : ParkAt) (front : Bool) : Permit :=
  { Permit.bind with
    state := .queued
    qFd := fd
    qGen := gen
    qEnqueueNs := at'.enqueueNs
    qDeadlineNs := at'.deadlineNs
    qTtlCut := at'.ttlCut
    tkey := p.tkey
    band := p.band
    qParked := if front then p.qParked else true }

def parkEnt (p : Permit) (fd : Int) (gen : Nat) (at' : ParkAt) (tslot : Option Nat) : QueueEnt :=
  { fd := fd, live := true, band := p.band, tslot := tslot, gen := gen, enqueueNs := at'.enqueueNs
    deadlineNs := at'.deadlineNs }

/-- 0, -1 and -2 of fc_queue_push -/
inductive PushRc
  | parked | full | share
  deriving DecidableEq, Repr

/-- the waiter a park at the queue's depth would evict -/
def pushEvict (s : State) (p : Permit) (at' : ParkAt) (nowNs : Nat) (front : Bool) : Option Nat :=
  if !front && !s.queue.dead && queueEnabled s && decide (s.queue.count ≥ s.cfg.maxQueueDepth) &&
      decide (at'.deadlineNs > nowNs)
  then ringEvictPick s p.band else none

/-- whether the park may go ahead: the band under its own share of the depth, and a place -/
def pushRoom (s : State) (p : Permit) (evict : Option Nat) (front : Bool) : Bool :=
  let bound := bandQueueBound s p.band
  let bandFull := !front && bound ≠ 0 && decide (s.queue.bandLive p.band ≥ bound)
  !bandFull && !s.queue.dead && queueEnabled s &&
    (front || decide (s.queue.count < s.cfg.maxQueueDepth) || evict.isSome)

/-- the tenant's slot of a park, where the pool follows its waiters by tenant -/
def pushSlot (mem : Bool) (s : State) (tkey : UInt64) : State × Option Nat :=
  if tenantsTracked s then s.tenantGet mem tkey false else (s, none)

/-- the tenant holds its share of the queue -/
def pushOver (s : State) (slot : Option Nat) (front : Bool) : Bool :=
  !front && tenantQueueBound s ≠ 0 &&
    slot.any fun i => decide ((s.ten.tenants i).queued ≥ tenantQueueBound s)

/-- what the locked section of fc_queue_push leaves: the pool, the outcome with the slot taken,
and the waiter that was evicted -/
structure Pushed where
  fc : State
  rc : PushRc
  slot : Nat
  gone : Option QueueEnt

def pushEvicted (s : State) (evict : Option Nat) (nowNs : Nat) : State :=
  match evict with
  | some i => ringEvict s i nowNs
  | none => s

/-- the insertion of a push, with the tenant's count -/
def pushInsert (m : Mem) (s : State) (e : QueueEnt) (front ordered : Bool)
    (gone : Option QueueEnt) : Pushed :=
  let r := ringInsert m s.queue e front ordered
  let s := { s with queue := r.1 }
  match r.2 with
  | some slot => ⟨queuePublish (s.tenantInc e.tslot .queued), .parked, slot, gone⟩
  | none =>
    let s := s.tenantPut e.tslot
    ⟨if gone.isSome then queuePublish s else s, .full, 0, gone⟩

def pushLocked (m : Mem) (s : State) (p : Permit) (fd : Int) (gen nowNs : Nat) (front : Bool) :
    Pushed :=
  let at' := parkAt s p nowNs front
  let evict := pushEvict s p at' nowNs front
  if !pushRoom s p evict front then ⟨s, .full, 0, none⟩
  else
    let g := pushSlot m.table s p.tkey
    let s := g.1
    if pushOver s g.2 front then ⟨s.tenantPut g.2, .share, 0, none⟩
    else
      pushInsert m (pushEvicted s evict nowNs) (parkEnt p fd gen at' g.2) front at'.ordered
        (evict.map s.queue.ring)

/-- the counters of an eviction: it is a shed decision, and its park ends here -/
def countGone (s : State) (gone : Option QueueEnt) (nowNs : Nat) : State :=
  match gone with
  | some e =>
    { s with stats := (s.stats.countBand .shed .sheddable).noteWait (waitedMs nowNs e.enqueueNs) }
  | none => s

/-- fc_queue_push: the hook call that follows an eviction is the caller's -/
def queuePush (m : Mem) (s : State) (p : Permit) (fd : Int) (gen nowNs : Nat) (front : Bool) :
    State × Permit × PushRc × Option QueueEnt :=
  if fd < 0 then (s, p, .full, none)
  else
    let r := pushLocked m s p fd gen nowNs front
    let s' := countGone r.fc r.gone nowNs
    match r.rc with
    | .parked =>
      (if front then s' else countBand s' .queued p.band,
        { parkBind p fd gen (parkAt s p nowNs front) front with qSlot := r.slot }, .parked, r.gone)
    | rc =>
      (fcCount s' (if rc = .share then .tenantShare else .queueFull),
        { Permit.bind with tkey := p.tkey, band := p.band, qParked := front && p.qParked },
        rc, r.gone)

/-! ## taking a waiter out -/

/-- fc_queue_take: the permit's own entry, wherever it sits -/
def queueTake (s : State) (p : Permit) : State × Permit × Bool :=
  if p.state = .queued then
    match ringFind s.queue p.qFd p.qGen p.qSlot with
    | some slot =>
      (queuePublish (State.tenantDec { s with queue := ringRemove s.queue slot }
        (s.queue.ring slot).tslot .queued), { p with state := .ended }, true)
    | none => (s, p, false)
  else (s, p, false)

def queueHolds (s : State) (p : Permit) : Bool :=
  p.state = .queued && (ringFind s.queue p.qFd p.qGen p.qSlot).isSome

def queuePop (s : State) : State × Option QueueEnt :=
  let r := ringPop s.queue
  let s := { s with queue := r.1 }
  match r.2 with
  | some e => (queuePublish (s.tenantDec e.tslot .queued), some e)
  | none => (queuePublish s, none)

/-! ## whom a freed unit wakes -/

/-- what a pick spent, so that a wake that cannot be delivered gives it back -/
structure PickUndo where
  band : Option Band
  (credit rr : Bool)
  (rrBefore rrAfter : Nat)
  deriving DecidableEq, Repr

def PickUndo.none : PickUndo := ⟨Option.none, false, false, 0, 0⟩

/-- fc_rr_key: an entry with no slot is one more tenant, last -/
def rrKey (e : QueueEnt) : Nat :=
  match e.tslot with
  | some i => i
  | none => 0x7fffffff

/-- the two candidates of the round-robin loop, each a ring slot and its key: the lowest key
from the cursor on, and the lowest key of all -/
structure RrPick where
  (after wrapped : Option (Nat × Nat))

/-- a key below the candidate's replaces it -/
def keepLower (best : Option (Nat × Nat)) (i key : Nat) : Option (Nat × Nat) :=
  match best with
  | some b => if key < b.2 then some (i, key) else some b
  | none => some (i, key)

def RrPick.see (cursor : Nat) (r : RrPick) (i key : Nat) : RrPick :=
  { after := if key ≥ cursor then keepLower r.after i key else r.after
    wrapped := keepLower r.wrapped i key }

/-- the live entry at a slot is of the band and its tenant could take a unit now -/
def candidate (s : State) (band : Band) (bound : Nat) (i : Nat) : Bool :=
  (s.queue.ring i).live && (s.queue.ring i).band = band &&
    tenantCanRun s.ten (s.queue.ring i).tslot bound

/-- fc_ring_pick_in_band: the oldest, or the oldest of the next tenant in turn -/
def ringPickInBand (s : State) (band : Band) (bound : Nat) : Option Nat :=
  if s.cfg.tenantWake = .rr then
    let r : RrPick := (s.queue.span.filter (candidate s band bound)).foldl
      (fun r i => RrPick.see (s.queue.rrNext band) r i (rrKey (s.queue.ring i))) ⟨none, none⟩
    match r.after with
    | some x => some x.1
    | none => r.wrapped.map Prod.fst
  else s.queue.span.find? (candidate s band bound)

/-- the highest band with a candidate and credit left spends one -/
def drrSpend (credit : Band → Nat) (cand : Band → Bool) : (Band → Nat) × Option Band :=
  match bandsByRank.find? (fun b => cand b && decide (credit b > 0)) with
  | some b => (update credit b (credit b - 1), some b)
  | none => (credit, none)

/-- the credits of a new round -/
def drrRound (c : Cfg) (cand : Band → Bool) : Band → Nat :=
  fun b => if cand b then (if c.bandWeight b ≠ 0 then c.bandWeight b else 1) else 0

/-- fc_drr_pick: the credits and the band served -/
def drrPick (c : Cfg) (credit : Band → Nat) (cand : Band → Bool) : (Band → Nat) × Option Band :=
  let r := drrSpend credit cand
  match r.2 with
  | some b => (r.1, some b)
  | none => drrSpend (drrRound c cand) cand

/-- the band a wake serves, the credits left, and whether one was spent -/
structure BandPick where
  band : Option Band
  credit : Band → Nat
  spent : Bool

/-- a band below its floor first, then the policy: strict takes the highest band, weighted
runs its rounds -/
def pickBand (s : State) (pend : Band → Nat) (floors : Bool) : BandPick :=
  let bound := tenantSvcBound s
  let wait := floorWaitingRunnable s bound
  let v := floorViewLoad s (svcCap s) pend (some wait)
  let ok := fun b => wait b && (!floors || floorMayTake v b)
  let below := bandsByRank.find? fun b =>
    wait b && decide (v.held b < v.claim b) && floorMayTake v b
  match if floors then below else none with
  | some b => ⟨some b, s.queue.drrCredit, false⟩
  | none =>
    if wakeStrict s then ⟨bandsByRank.find? ok, s.queue.drrCredit, false⟩
    else
      let r := drrPick s.cfg s.queue.drrCredit ok
      ⟨r.2, r.1, r.2.isSome⟩

/-- the credits after the band was chosen -/
def pickCharged (s : State) (pick : BandPick) : State :=
  { s with queue := { s.queue with drrCredit := pick.credit } }

/-- the entry at a slot is taken for its band, and the tenant turn moves past it -/
def takeInBand (s : State) (b : Band) (i : Nat) (spent : Bool) :
    State × Option QueueEnt × PickUndo :=
  let e := s.queue.ring i
  let rr : Bool := s.cfg.tenantWake = .rr
  let q := ringRemove s.queue i
  let before := q.rrNext b
  let q := { q with rrNext := if rr then update q.rrNext b (rrKey e + 1) else q.rrNext }
  ({ s with queue := q }, some e,
    { band := some b, credit := spent, rr := rr, rrBefore := if rr then before else 0
      rrAfter := if rr then q.rrNext b else 0 })

/-- fc_ring_pop_banded: the band is chosen first, then the entry inside it -/
def ringPopBanded (s : State) (pend : Band → Nat) (floors : Bool) :
    State × Option QueueEnt × PickUndo :=
  let pick := pickBand s pend floors
  let s := pickCharged s pick
  match pick.band with
  | none => (s, none, PickUndo.none)
  | some b =>
    match ringPickInBand s b (tenantSvcBound s) with
    | none => (s, none, { PickUndo.none with credit := pick.spent })
    | some i => takeInBand s b i pick.spent

/-- the loop of the plain wake: the first entry of the best rank seen, its rank beside it -/
def bestLoop (s : State) (bound : Nat) (banded : Bool) :
    List Nat → Option (Nat × Nat) → Option (Nat × Nat)
  | [], best => best
  | i :: path, best =>
    let e := s.queue.ring i
    let r := if banded then bandRank e.band else 0
    if e.live && tenantCanRun s.ten e.tslot bound && best.all (fun b => decide (r < b.2)) then
      if r = 0 then some (i, r) else bestLoop s bound banded path (some (i, r))
    else bestLoop s bound banded path best

def ringPopRunnable (s : State) (pend : Band → Nat) : State × Option QueueEnt × PickUndo :=
  let floors := floorsApply s (svcCap s)
  if floors || !wakeStrict s || s.cfg.tenantWake = .rr then ringPopBanded s pend floors
  else
    let banded : Bool := s.queue.bandCount .critical ≠ 0 || s.queue.bandCount .sheddable ≠ 0
    match bestLoop s (tenantSvcBound s) banded s.queue.span none with
    | none => (s, none, PickUndo.none)
    | some x =>
      ({ s with queue := ringRemove s.queue x.1 }, some (s.queue.ring x.1), PickUndo.none)

/-! ## the wake -/

/-- the first locked section of fc_queue_wake_head -/
def wakePop (s : State) (pend : Band → Nat) : State × Option (QueueEnt × PickUndo) :=
  let r := ringPopRunnable s pend
  (queuePublish r.1, r.2.1.map fun e => (e, r.2.2))

/-- the last one, after a delivered wake -/
def wakeDone (s : State) (e : QueueEnt) : State := s.tenantDec e.tslot .queued

/-- the credit and the tenant turn a pick spent are given back, if nothing moved them since -/
def undoPick (q : Queue) (u : PickUndo) : Queue :=
  match u.band with
  | none => q
  | some b =>
    { q with
      drrCredit := if u.credit ∧ q.drrCredit b < bandWeightMax + 2
        then update q.drrCredit b (q.drrCredit b + 1) else q.drrCredit
      rrNext := if u.rr ∧ q.rrNext b = u.rrAfter
        then update q.rrNext b u.rrBefore else q.rrNext }

/-- the last one, after a wake that could not be delivered: the entry goes back -/
def wakeFailed (m : Mem) (s : State) (e : QueueEnt) (u : PickUndo) : State :=
  let r := ringInsert m s.queue e true false
  let s := { s with queue := r.1 }
  let s := if r.2.isSome then s else s.tenantDec e.tslot .queued
  queuePublish { s with queue := undoPick s.queue u }

/-- fc_queue_wake_head with the hook's answer; the entry woken, if one was -/
def wakeHead (m : Mem) (s : State) (pend : Band → Nat) (hook : QueueEnt → Bool) :
    State × Option QueueEnt :=
  let r := wakePop s pend
  match r.2 with
  | none => (r.1, none)
  | some (e, u) => if hook e then (wakeDone r.1 e, some e) else (wakeFailed m r.1 e u, none)

def wakeOne (m : Mem) (s : State) (hook : QueueEnt → Bool) : State × Option QueueEnt :=
  if s.queued = 0 ∨ hasRoom s = false then (s, none) else wakeHead m s noPend hook

/-! ## the owner's side -/

def queueResumed (p : Permit) : Permit × Bool :=
  let r := permitSettle p .none
  if r.2 then ({ r.1 with woken := true }, true) else (p, false)

/-- the owner's swap after it claimed its eviction -/
def resumeEvicted (p : Permit) : Permit × Resume :=
  let r := permitSettle p .none
  if r.2 then ({ r.1 with woken := false, qParked := false }, .evicted) else (p, .decided)

def ownerResume (s : State) (p : Permit) : State × Permit × Resume :=
  if p.state = .evicted ∨ p.state = .ended then (s, p, .decided)
  else if p.state ≠ .queued ∨ p.fc = false then (s, p, .notQueued)
  else
    let c := evictedClaim s p.qFd p.qGen
    if c.2 then
      let r := resumeEvicted p
      (c.1, r.1, r.2)
    else if queueHolds c.1 p then (c.1, p, .wait)
    else
      let r := queueResumed p
      (c.1, r.1, if r.2 then .turn else .decided)

/-! ## handing everything back -/

/-- the tenant's unit, whatever the share is now -/
def releaseTenant (s : State) (p : Permit) : State × Permit :=
  (if p.fc then s.tenantDec p.tslot .inflight else s, { p with tslot := none, state := .released })

/-! ## configuration -/

/-- the values fc_state_apply holds inside their bounds -/
def cfgClamp (c : Cfg) : Cfg :=
  let depth := if c.maxQueueDepth > queueDepthMax then queueDepthMax else c.maxQueueDepth
  let wait := if c.maxQueueWaitMs > queueWaitMsMax then queueWaitMsMax else c.maxQueueWaitMs
  { c with
    maxQueueDepth := depth
    maxQueueWaitMs := if depth > 0 ∧ wait = 0 then 5000 else wait
    telemetryStaleMs := if c.telemetryStaleMs = 0 then telemetryStaleMsDefault else c.telemetryStaleMs
    warmupMs := if c.warmupMs > warmupMsMax then warmupMsMax else c.warmupMs
    ttftTargetMs := if c.ttftTargetMs > ttftTargetMsMax then ttftTargetMsMax else c.ttftTargetMs
    tenantSharePct := if c.tenantSharePct > 100 then 0 else c.tenantSharePct }

/-- fc_adapt_reset: where the adaptive ceiling stands after a configuration change -/
def adaptReset (s : State) (old : Cfg) : State :=
  let ceil := s.cfg.maxOutstanding
  if s.cfg.adaptive = false ∨ ceil = 0 then
    { s with effMax := ceil, adaptState := .off, adaptReason := .none }
  else
    let eff := if old.adaptive = false ∨ old.maxOutstanding = 0 ∨ s.effMax = 0 ∨ s.effMax > ceil ∨
        s.effMax ≥ old.maxOutstanding then ceil else s.effMax
    { s with effMax := eff, adaptState := if eff < ceil then .tightened else .atCeiling }

/-- the share of the new configuration, with the tenant table it needs -/
def applyShare (mem : Bool) (s : State) : State :=
  if shareActive s then
    let r := tenantTableEnsure mem s.queue.dead s.ten
    { s with
      ten := r.1
      cfg := { s.cfg with tenantSharePct := if r.2 then s.cfg.tenantSharePct else 0 } }
  else s

def stateApply (m : Mem) (s : State) (cfg : Cfg) : State :=
  let old := s.cfg
  let s := applyShare m.table { s with cfg := cfgClamp cfg }
  let s := { s with warmSinceNs := if s.cfg.warmupMs = 0 then fun _ => 0 else s.warmSinceNs }
  let s := adaptReset s old
  let q := { s.queue with
    drrCredit := if old.wakePolicy ≠ s.cfg.wakePolicy ∨
        bandsByNumber.any (fun b => old.bandWeight b ≠ s.cfg.bandWeight b)
      then fun _ => 0 else s.queue.drrCredit
    rrNext := if old.tenantWake ≠ s.cfg.tenantWake then fun _ => 0 else s.queue.rrNext }
  { s with queue := if !q.dead && decide (s.cfg.maxQueueDepth > q.cap)
      then ringGrow m.grow q s.cfg.maxQueueDepth else q }

/-- fc_state_init_slots with the configuration of the process -/
def stateInit (m : Mem) (slots : Nat) (cfg : Cfg) : State :=
  let n := if slots < tenantSlotsMin then tenantSlotsMin
    else if slots > tenantSlotsMax then tenantSlotsMax else slots
  stateApply m (State.zero n) cfg

/-- what the 1 Hz pass saw across a pool's endpoints -/
structure Signal where
  (fresh queued ttftOver : Bool)

/-- fc_adapt_tick, before its wake -/
def adaptTick (s : State) (sig : Signal) : State :=
  if s.cfg.adaptive = false ∨ s.cfg.maxOutstanding = 0 then s
  else
    let ceil := s.cfg.maxOutstanding
    let eff := if s.effMax = 0 ∨ s.effMax > ceil then ceil else s.effMax
    let floor := if ceil / 4 ≠ 0 then ceil / 4 else 1
    if !sig.fresh then
      { s with
        adaptState := if eff < ceil then .frozen else .atCeiling
        adaptReason := if eff < ceil then .stale else s.adaptReason }
    else if sig.queued || sig.ttftOver then
      let next := if eff * 4 / 5 < floor then floor else eff * 4 / 5
      { s with
        effMax := if next < eff then next else s.effMax
        adaptReason := if sig.queued then .queued else .ttft
        adaptState := if next < ceil then .tightened else .atCeiling }
    else
      let up := if eff < ceil then eff + 1 else eff
      { s with
        effMax := if eff < ceil then eff + 1 else s.effMax
        adaptReason := if eff < ceil then .clear else s.adaptReason
        adaptState := if up < ceil then .tightened else .atCeiling }

def epWarmStart (s : State) (ep nowNs : Nat) : State :=
  { s with warmSinceNs := if ep ≥ maxEp ∨ s.cfg.warmupMs = 0 then s.warmSinceNs
      else update s.warmSinceNs ep nowNs }

end Fc
