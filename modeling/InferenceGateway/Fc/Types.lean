import InferenceGateway.Lib.Probe

/-!
# The data of the admission gate

The records of `sockproxy_fc.h`: a pool's configuration, its queue of waiting requests, its
tenant table, the pool itself and the permit a request carries.  C arrays are functions on
their index, `-1` slots are `none`, and the counters and clocks are natural numbers.

What stands here is what the gate's own functions read or write.  The two process-wide words
the gate uses, the anomaly counters and the drain flag, are fields of the pool.
-/

open Function

namespace Fc

/-! ## enumerations -/

def maxEp : Nat := 32
def queueDepthMax : Nat := 65536
def queueWaitMsMax : Nat := 3600000
def telemetryStaleMsDefault : Nat := 30000
def warmupMsMax : Nat := 3600000
def ttftTargetMsMax : Nat := 3600000
def bandWeightMax : Nat := 62

/-- FC_TENANT_SLOTS, the smallest table -/
def tenantSlotsMin : Nat := 64
def tenantSlotsMax : Nat := 4096
def evictPending : Nat := 16

inductive Role
  | normal | prefill | decode
  deriving DecidableEq, Repr

inductive Mode
  | off | observe | enforce
  deriving DecidableEq, Repr

inductive WakePolicy
  | strict | weighted
  deriving DecidableEq, Repr

inductive TenantWake
  | fifo | rr
  deriving DecidableEq, Repr

inductive Band
  | standard | critical | sheddable
  deriving DecidableEq, Repr

/-- enum fc_reason: what the gate decided -/
inductive Reason
  | admitted | capacityShed | noHealthyCapacity | observeWouldShed | bypassNonInference
  | queued | queueFull | queueTimeout | cancelled | drained | observeWouldQueue | draining
  | tenantShare | shed
  deriving DecidableEq, Repr

/-- enum fc_band_outcome: how a request of a band ended, or that it waited -/
inductive BandOutcome
  | admitted | queued | shed | expired | cancelled
  deriving DecidableEq, Repr

inductive Anomaly
  | underflow | unknownPermit | tenantTableFull
  deriving DecidableEq, Repr

inductive AdaptState
  | off | atCeiling | tightened | frozen
  deriving DecidableEq, Repr

inductive AdaptReason
  | none | queued | ttft | clear | stale
  deriving DecidableEq, Repr

/-- enum fc_permit_state -/
inductive PState
  | none | bypass | executing | released | queued | evicted | ended
  deriving DecidableEq, Repr

inductive Verdict
  | admitted | shed | noCapacity | queue | draining | tenantShare | bandShed
  deriving DecidableEq, Repr

/-- enum fc_resume: what the owner's resume of a parked connection is -/
inductive Resume
  | notQueued | wait | turn | evicted | decided
  deriving DecidableEq, Repr

/-! ## records -/

structure Cfg where
  mode : Mode
  maxOutstanding : Nat
  epCap : Role → Nat
  (maxQueueDepth maxQueueWaitMs telemetryStaleMs : Nat)
  adaptive : Bool
  (warmupMs ttftTargetMs tenantSharePct : Nat)
  wakePolicy : WakePolicy
  (bandWeight bandMinSharePct : Band → Nat)
  criticalReservePct : Nat
  (bandWaitMs bandQueuePct : Band → Nat)
  shedQueue : Bool
  tenantWake : TenantWake
  llmdHeaders : Bool

/-- the zeroed configuration: the gate is off -/
def Cfg.zero : Cfg where
  mode := .off
  maxOutstanding := 0
  epCap := fun _ => 0
  maxQueueDepth := 0
  maxQueueWaitMs := 0
  telemetryStaleMs := 0
  adaptive := false
  warmupMs := 0
  ttftTargetMs := 0
  tenantSharePct := 0
  wakePolicy := .strict
  bandWeight := fun _ => 0
  bandMinSharePct := fun _ => 0
  criticalReservePct := 0
  bandWaitMs := fun _ => 0
  bandQueuePct := fun _ => 0
  shedQueue := false
  tenantWake := .fifo
  llmdHeaders := false

/-- one waiting request: its connection, its band and tenant slot, and its times -/
structure QueueEnt where
  fd : Int
  live : Bool
  band : Band
  tslot : Option Nat
  (gen enqueueNs deadlineNs : Nat)
  deriving DecidableEq, Repr

def QueueEnt.zero : QueueEnt where
  fd := 0
  live := false
  band := .standard
  tslot := some 0
  gen := 0
  enqueueNs := 0
  deadlineNs := 0

/-- a waiter evicted from the queue whose answer is still owed -/
structure Evicted where
  fd : Int
  (gen atNs : Nat)
  deriving DecidableEq, Repr

/-- the waiting requests of a pool: a ring of `cap` slots of which the `used` from `head` on
are in use, tombstones included, and `count` of them live -/
structure Queue where
  ring : Nat → QueueEnt
  (cap head tail used count : Nat)
  (bandCount drrCredit rrNext : Band → Nat)
  dead : Bool
  evicted : List Evicted
  nextDeadlineNs : Nat

def Queue.zero : Queue where
  ring := fun _ => QueueEnt.zero
  cap := 0
  head := 0
  tail := 0
  used := 0
  count := 0
  bandCount := fun _ => 0
  drrCredit := fun _ => 0
  rrNext := fun _ => 0
  dead := false
  evicted := []
  nextDeadlineNs := 0

/-- one tenant's hold on a pool -/
structure Tenant where
  key : UInt64
  (inflight queued : Nat)
  (used waitingRunnable : Bool)
  nextFree : Nat
  deriving DecidableEq, Repr

def Tenant.zero : Tenant where
  key := 0
  inflight := 0
  queued := 0
  used := false
  waitingRunnable := false
  nextFree := 0

/-- the tenant table: `slots` named slots and the shared one after them -/
structure Tenancy where
  table : Bool
  tenants : Nat → Tenant
  index : Nat → Probe.Bucket
  (slots used free tombs runnableWaiting bound : Nat)

def Tenancy.zero (slots : Nat) : Tenancy where
  table := false
  tenants := fun _ => Tenant.zero
  index := fun _ => .empty
  slots := slots
  used := 0
  free := 0
  tombs := 0
  runnableWaiting := 0
  bound := 0

/-- the counters the gate only adds to -/
structure Stats where
  decisions : Reason → Nat
  bandOutcome : Band → BandOutcome → Nat
  qwaitBucket : Nat → Nat
  (qwaitSumMs qwaitCount : Nat)

def Stats.zero : Stats where
  decisions := fun _ => 0
  bandOutcome := fun _ _ => 0
  qwaitBucket := fun _ => 0
  qwaitSumMs := 0
  qwaitCount := 0

/-- the admission state of one pool -/
structure State where
  cfg : Cfg
  (inflight queued : Nat)
  (bandInflight bandQueued : Band → Nat)
  epInflight : Nat → Role → Nat
  queue : Queue
  effMax : Nat
  adaptState : AdaptState
  adaptReason : AdaptReason
  warmSinceNs : Nat → Nat
  ten : Tenancy
  stats : Stats
  anomaly : Anomaly → Nat
  draining : Bool

/-- a pool before its first configuration -/
def State.zero (slots : Nat) : State where
  cfg := Cfg.zero
  inflight := 0
  queued := 0
  bandInflight := fun _ => 0
  bandQueued := fun _ => 0
  epInflight := fun _ _ => 0
  queue := Queue.zero
  effMax := 0
  adaptState := .off
  adaptReason := .none
  warmSinceNs := fun _ => 0
  ten := Tenancy.zero slots
  stats := Stats.zero
  anomaly := fun _ => 0
  draining := false

/-- the permit of one request; `fc` says whether it is bound to the pool -/
structure Permit where
  fc : Bool
  state : PState
  (svcHeld woken : Bool)
  band : Band
  (qParked qTtlCut : Bool)
  qTtlMs : Nat
  ep : Role → Option Nat
  qFd : Int
  (qSlot qGen qEnqueueNs qDeadlineNs qFirstNs admitNs : Nat)
  tkey : UInt64
  tslot : Option Nat

/-- what the allocator answers inside one operation -/
structure Mem where
  (table compact grow : Bool)
  deriving DecidableEq, Repr

def Mem.ok : Mem := ⟨true, true, true⟩

/-! ## bands -/

/-- fc_band_of: a class constant outside the three is standard -/
def bandOf (cls : Nat) : Band :=
  if cls = 1 then .critical else if cls = 2 then .sheddable else .standard

/-- the bands by rank, highest first -/
def bandsByRank : List Band := [.critical, .standard, .sheddable]

/-- the bands in the order of their numbers -/
def bandsByNumber : List Band := [.standard, .critical, .sheddable]

def bandRank : Band → Nat
  | .critical => 0
  | .standard => 1
  | .sheddable => 2

/-- fc_band_counted: standard is the total less the two counted bands -/
def bandCounted (b : Band) : Bool := b = .critical || b = .sheddable

theorem band_update {b : Band} (hb : bandCounted b = true) (f : Band → Nat) (y : Band) (v : Nat) :
    (if bandCounted y = true then update f y v else f) b = if y = b then v else f b := by
  by_cases hy : y = b
  · rw [hy, if_pos hb, update_self, if_pos rfl]
  · rw [if_neg hy]
    split
    · exact update_of_ne (Ne.symm hy) _ _
    · rfl

def bandDerive (total crit shed : Nat) : Band → Nat
  | .critical => crit
  | .sheddable => shed
  | .standard => if total > crit + shed then total - crit - shed else 0

theorem mem_bandsByRank (b : Band) : b ∈ bandsByRank := by
  cases b <;> decide

end Fc
