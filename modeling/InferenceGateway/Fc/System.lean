import InferenceGateway.Fc.Queue

/-!
# The pool and its permits, interleaved

A pool is shared by the permits of its requests.  The calls on a permit are made by the worker
that owns its connection, one after another; the wakes, the deadline, the 1 Hz pass and a
configuration change come from elsewhere at any time.  A step of the machine is one locked
section, one compare-and-swap (the loop of a unit's counter, or the swap of a permit's state),
or one call of the wake hook.  A call that takes several steps keeps its place in `Pc`.

The fields after `sweep` are read by no step: they say which wait of a permit is its current
one, which waits were evicted, how waits ended, and the time of the last first park.
-/

open Function (update)

namespace Fc

/-- where a call on a permit stands between two of its steps -/
inductive Pc
  | idle
  | acqTake (lim : Nat) (woken : Bool)
  | acqOver (woken : Bool)
  | acqShared (canQueue woken : Bool)
  | acqBand (slot : Option Nat) (woken : Bool)
  | legTry (r : Role) (eps : List (Nat × Bool))
  | legForce (r : Role) (ep : Nat)
  | legLand (r : Role) (ep : Nat)
  | moveForce (r : Role) (ep : Nat)
  | moveLand (r : Role) (ep : Nat)
  | relRoles (rs : List Role)
  | relBand | relTenant | relTake | relClaim | relDrop | relSettle | resClaim | resEvict | resHolds
  | resTurn
  | pushHook (fd : Int) (gen : Nat)
  deriving DecidableEq, Repr

structure Thread where
  permit : Permit
  pc : Pc

/-- a wake between its pop and its last locked section; `waits` are the permits' waits when it
popped its entry -/
structure Wake (ι : Type) where
  ent : QueueEnt
  undo : PickUndo
  hook : Option Bool
  waits : ι → Nat

/-- how a wait ended -/
inductive Decision
  | turn | evictedOwner | evictedPass | evictedDropped | ended | cancelled | drained
  deriving DecidableEq, Repr

def Decision.isEviction : Decision → Bool
  | .evictedOwner | .evictedPass | .evictedDropped => true
  | _ => false

structure Sys (ι : Type) where
  fc : State
  threads : ι → Thread
  wakes : List (Wake ι)
  sweep : Option (List Evicted × List Evicted)
  waitNo : ι → Nat
  posted : ι → Bool
  shed : ι → Nat → Bool
  decided : ι → Nat → List Decision
  parkNs : Nat

abbrev Conn := Int × Nat

/-- what a caller starts, or what happens elsewhere -/
inductive Act (ι : Type)
  | acquire (i : ι) (canQueue woken : Bool) (tkey : UInt64) (band : Nat)
  | bypass (i : ι)
  | epAcquire (i : ι) (r : Role) (ep : Nat)
  | epAcquireAny (i : ι) (r : Role) (preferred : Option Nat) (eps : List Nat)
  | move (i : ι) (r : Role) (ep : Nat) (nowNs : Nat)
  | releaseRole (i : ι) (r : Role)
  | release (i : ι)
  | push (i : ι) (nowNs : Nat) (front : Bool) (firstNs ttlMs : Nat) (m : Mem)
  | resume (i : ι)
  | run (i : ι) (nowNs : Nat) (ok : Bool)
  | wakePop (pend : Band → Nat)
  | wakeHook (k : Nat) (ok : Bool)
  | wakeEnd (k : Nat) (m : Mem)
  | deadline (i : ι) (nowNs : Nat)
  | pop
  | drainFn (i : ι)
  | sweepStart (beforeNs : Nat)
  | sweepFn (i : ι)
  | sweepEnd
  | apply (cfg : Cfg) (m : Mem)
  | tick (sig : Signal)
  | warm (ep nowNs : Nat)
  | drain (on : Bool)

variable {ι : Type} [DecidableEq ι]

def Sys.init (m : Mem) (slots : Nat) (cfg : Cfg) : Sys ι where
  fc := stateInit m slots cfg
  threads := fun _ => ⟨Permit.reset, .idle⟩
  wakes := []
  sweep := none
  waitNo := fun _ => 0
  posted := fun _ => false
  shed := fun _ _ => false
  decided := fun _ _ => []
  parkNs := 0

/-- one thread and the pool after a step of it -/
def Sys.put (x : Sys ι) (i : ι) (fc : State) (p : Permit) (pc : Pc) : Sys ι :=
  { x with fc := fc, threads := update x.threads i ⟨p, pc⟩ }

/-- the wait `i` is in ends -/
def Sys.conclude (x : Sys ι) (i : ι) (d : Decision) : Sys ι :=
  let ds := update (x.decided i) (x.waitNo i) (d :: x.decided i (x.waitNo i))
  { x with decided := update x.decided i ds }

/-- the wait ends if the swap was made -/
def Sys.concludeIf (x : Sys ι) (i : ι) (d : Decision) (c : Bool) : Sys ι :=
  if c then x.conclude i d else x

/-- a wake is on its way to the connection -/
def Sys.post (x : Sys ι) (conn : ι → Conn) (c : Conn) (ok : Bool) : Sys ι :=
  { x with posted := fun j => x.posted j || (ok && decide (conn j = c)) }

/-- the wake on its way to `i`, if any, was acted on -/
def Sys.consume (x : Sys ι) (i : ι) : Sys ι := { x with posted := update x.posted i false }

/-! ## the calls on a permit -/

/-- the start of an acquire, up to its first compare-and-swap or lock -/
def acquireStart (s : State) (p : Permit) (canQueue woken : Bool) (tkey : UInt64) (band : Band) :
    Permit × Pc :=
  let p := acquireBind p woken tkey band
  if !fcActive s then ({ p with state := .bypass }, .idle)
  else if s.cfg.mode = .enforce ∧ s.draining then ({ p with state := .none }, .idle)
  else if shareActive s then (p, .acqShared canQueue woken)
  else
    match acquireLimit s band woken with
    | some lim => (p, .acqTake lim woken)
    | none => (p, .acqOver woken)

/-- the endpoint fc_ep_acquire takes a unit of, unless it has nothing to do -/
def legStart (s : State) (p : Permit) (r : Role) (ep nowNs : Nat) : Option (Option Nat) :=
  if fcActive s = false ∨ p.state ≠ .executing ∨ ep ≥ maxEp ∨ p.ep r = some ep then none
  else some (unitTake (s.epInflight ep r) (epCapNow s ep r nowNs))

/-- one step of the leg loop: the next endpoint is passed over, taken, or refused -/
def legStep (s : State) (p : Permit) (r : Role) (nowNs : Nat) : List (Nat × Bool) → State × Pc
  | [] => (s, .idle)
  | (ep, check) :: eps =>
    if check && epOverCap s ep r nowNs then (s, .legTry r eps)
    else
      match legStart s p r ep nowNs with
      | none => (s, .idle)
      | some (some n) => (setEp s ep r n, .legLand r ep)
      | some none => (s, if s.cfg.mode = .enforce then .legTry r eps else .legForce r ep)

/-- the endpoints fc_ep_acquire_any tries, and whether it looks at their ceiling first -/
def legOrder (preferred : Option Nat) (eps : List Nat) : List (Nat × Bool) :=
  ((preferred.filter (· ∈ eps)).toList.map fun i => (i, false)) ++
    ((eps.filter fun i => decide (some i ≠ preferred)).map fun i => (i, true))

def moveStart (s : State) (p : Permit) (r : Role) (ep nowNs : Nat) : State × Pc :=
  if p.state ≠ .executing ∨ p.fc = false ∨ fcActive s = false ∨ ep ≥ maxEp ∨ p.ep r = some ep then
    (s, .idle)
  else
    match unitTake (s.epInflight ep r) (epCapNow s ep r nowNs) with
    | some n => (setEp s ep r n, .moveLand r ep)
    | none => if s.cfg.mode = .enforce then (fcCount s .capacityShed, .idle) else (s, .moveForce r ep)

def releaseStart (p : Permit) : Permit × Pc :=
  match p.state with
  | .none | .released => (p, .idle)
  | .queued => (p, .relTake)
  | .executing => (p, .relRoles roles)
  | _ => ({ p with state := .released }, .idle)

/-- a push may come only on a permit that holds nothing -/
def Permit.free (p : Permit) : Bool := p.state ≠ .executing && p.state ≠ .queued

/-- a park that takes its time from the clock -/
def firstPark (p : Permit) (front : Bool) : Bool := !goesBack p front

/-- the permit that a push is for -/
abbrev Sys.asks (x : Sys ι) (i : ι) (firstNs ttlMs : Nat) : Permit :=
  { (x.threads i).permit with qFirstNs := firstNs, qTtlMs := ttlMs }

/-- the push with what it leaves to say: whose wait began, whose was evicted -/
def Sys.park (x : Sys ι) (conn : ι → Conn) (i : ι) (nowNs : Nat) (front : Bool)
    (firstNs ttlMs : Nat) (m : Mem) : Sys ι :=
  let p := x.asks i firstNs ttlMs
  let r := queuePush m x.fc p (conn i).1 (conn i).2 nowNs front
  let pc := match r.2.2.2 with
    | some e => Pc.pushHook e.fd e.gen
    | none => Pc.idle
  let y := x.put i r.1 r.2.1 pc
  { y with
    waitNo := if r.2.2.1 = .parked then update x.waitNo i (x.waitNo i + 1) else x.waitNo
    shed := match r.2.2.2 with
      | some e => fun j n => x.shed j n || (decide (conn j = (e.fd, e.gen)) && n = x.waitNo j)
      | none => x.shed
    parkNs := if r.2.2.1 = .parked ∧ firstPark p front then nowNs else x.parkNs }

/-- the next step of the call `i` is in -/
def Sys.runStep (x : Sys ι) (conn : ι → Conn) (i : ι) (nowNs : Nat) (ok : Bool) : Option (Sys ι) :=
  let s := x.fc
  let p := (x.threads i).permit
  match (x.threads i).pc with
  | .idle => none
  | .acqTake lim woken =>
    match unitTake s.inflight lim with
    | some n => some (x.put i { s with inflight := n } p (.acqBand none woken))
    | none => some (x.put i s p (.acqOver woken))
  | .acqOver woken =>
    if s.cfg.mode = .enforce then some (x.put i s { p with state := .none } .idle)
    else some (x.put i (takeOver s (observeReason s)) p (.acqBand none woken))
  | .acqShared canQueue woken =>
    let r := acquireShared ok s p canQueue woken
    match r.2 with
    | .ok slot => some (x.put i r.1 p (.acqBand slot woken))
    | .error _ => some (x.put i r.1 { p with state := .none } .idle)
  | .acqBand slot woken => some (x.put i (takeBand s p.band) (p.execute slot woken) .idle)
  | .legTry r eps =>
    let y := legStep s p r nowNs eps
    some (x.put i y.1 p y.2)
  | .legForce r ep =>
    let s := fcCount s (observeReason s)
    some (x.put i (setEp s ep r (s.epInflight ep r + 1)) p (.legLand r ep))
  | .legLand r ep =>
    let y := epLand s p ep r nowNs
    some (x.put i y.1 y.2 .idle)
  | .moveForce r ep =>
    let s := fcCount s .observeWouldShed
    some (x.put i (setEp s ep r (s.epInflight ep r + 1)) p (.moveLand r ep))
  | .moveLand r ep =>
    some (x.put i (giveLeg s p r) { p with ep := update p.ep r (some ep) } .idle)
  | .relRoles (r :: rs) =>
    let y := Fc.releaseRole s p r
    some (x.put i y.1 y.2 (.relRoles rs))
  | .relRoles [] =>
    if p.svcHeld then some (x.put i (giveInflight s) p .relBand) else some (x.put i s p .relTenant)
  | .relBand => some (x.put i (giveBand s p.band) { p with svcHeld := false } .relTenant)
  | .relTenant =>
    let y := releaseTenant s p
    some (x.put i y.1 y.2 .idle)
  | .relTake =>
    let t := queueTake s p
    if t.2.2 then
      let y := waitEnd (countBand t.1 .cancelled p.band) t.2.1 nowNs
      some ((x.put i y.1 { y.2 with state := .released } .idle).conclude i .cancelled)
    else some (x.put i s p .relClaim)
  | .relClaim =>
    let c := evictedClaim s p.qFd p.qGen
    some (x.put i c.1 p (if c.2 then .relDrop else .relSettle))
  | .relDrop =>
    some ((x.put i s { p with state := .released, qParked := false } .idle).concludeIf i .evictedDropped
      (permitSettle p .released).2)
  | .relSettle =>
    some ((x.put i s { p with state := .released } .idle).concludeIf i .cancelled
      (permitSettle p .released).2)
  | .resClaim =>
    let c := evictedClaim s p.qFd p.qGen
    some (x.put i c.1 p (if c.2 then .resEvict else .resHolds))
  | .resEvict =>
    some (((x.put i s (resumeEvicted p).1 .idle).concludeIf i .evictedOwner
      (permitSettle p .none).2).consume i)
  | .resHolds =>
    if queueHolds s p then some ((x.put i s p .idle).consume i) else some (x.put i s p .resTurn)
  | .resTurn =>
    some (((x.put i s (queueResumed p).1 .idle).concludeIf i .turn (permitSettle p .none).2).consume i)
  | .pushHook fd gen => some ((x.put i s p .idle).post conn (fd, gen) ok)

/-! ## the machine -/

/-- a call is started only when the one before it is over -/
def Sys.start (x : Sys ι) (i : ι) (c : Bool) (y : Permit → Sys ι) : Option (Sys ι) :=
  if (x.threads i).pc = .idle ∧ c then some (y (x.threads i).permit) else none

def step (conn : ι → Conn) (x : Sys ι) : Act ι → Option (Sys ι)
  | .acquire i canQueue woken tkey band =>
    x.start i (x.threads i).permit.free fun p =>
      let y := acquireStart x.fc p canQueue woken tkey (bandOf band)
      x.put i x.fc y.1 y.2
  | .bypass i =>
    x.start i (x.threads i).permit.free fun _ =>
      x.put i (if fcActive x.fc then fcCount x.fc .bypassNonInference else x.fc)
        { Permit.bind with state := .bypass } .idle
  | .epAcquire i r ep => x.start i true fun p => x.put i x.fc p (.legTry r [(ep, false)])
  | .epAcquireAny i r preferred eps =>
    x.start i true fun p =>
      if p.state ≠ .executing ∨ fcActive x.fc = false then x
      else x.put i (if eps = [] then fcCount x.fc .noHealthyCapacity else x.fc) p
        (.legTry r (legOrder preferred eps))
  | .move i r ep nowNs =>
    x.start i true fun p =>
      let y := moveStart x.fc p r ep nowNs
      x.put i y.1 p y.2
  | .releaseRole i r =>
    x.start i true fun p =>
      let y := Fc.releaseRole x.fc p r
      x.put i y.1 y.2 .idle
  | .release i =>
    x.start i true fun p =>
      let y := releaseStart p
      x.put i x.fc y.1 y.2
  | .push i nowNs front firstNs ttlMs m =>
    x.start i (x.threads i).permit.free fun _ => x.park conn i nowNs front firstNs ttlMs m
  | .resume i =>
    x.start i true fun p =>
      if p.state = .queued ∧ p.fc then x.put i x.fc p .resClaim else x.consume i
  | .run i nowNs ok => x.runStep conn i nowNs ok
  | .wakePop pend =>
    let r := Fc.wakePop x.fc pend
    match r.2 with
    | none => some { x with fc := r.1 }
    | some (e, u) => some { x with fc := r.1, wakes := x.wakes ++ [⟨e, u, none, x.waitNo⟩] }
  | .wakeHook k ok =>
    match x.wakes[k]? with
    | some w =>
      if w.hook = none then
        some ({ x with wakes := x.wakes.set k { w with hook := some ok } }.post conn
          (w.ent.fd, w.ent.gen) ok)
      else none
    | none => none
  | .wakeEnd k m =>
    match x.wakes[k]? with
    | some w =>
      match w.hook with
      | some true => some { x with fc := wakeDone x.fc w.ent, wakes := x.wakes.eraseIdx k }
      | some false => some { x with fc := wakeFailed m x.fc w.ent w.undo, wakes := x.wakes.eraseIdx k }
      | none => none
    | none => none
  | .deadline i nowNs =>
    let p := (x.threads i).permit
    let t := queueTake x.fc p
    if t.2.2 then
      let y := waitEnd (countBand t.1 .queueTimeout p.band) t.2.1 nowNs
      some ((x.put i y.1 y.2 (x.threads i).pc).conclude i .ended)
    else some x
  | .pop => some { x with fc := (queuePop x.fc).1 }
  | .drainFn i =>
    let p := (x.threads i).permit
    let r := permitSettle p .ended
    some ((x.put i (if r.2 then fcCount x.fc .drained else x.fc) r.1 (x.threads i).pc).concludeIf i
      .drained r.2)
  | .sweepStart beforeNs =>
    match x.sweep with
    | none => some { x with sweep := some (sweepTake x.fc beforeNs, sweepTake x.fc beforeNs) }
    | some _ => none
  | .sweepFn i =>
    match x.sweep with
    | some (take, e :: rest) =>
      if conn i = (e.fd, e.gen) then
        let r := evictedSettle x.fc (x.threads i).permit e.fd e.gen
        some ((({ x with sweep := some (take, rest) } : Sys ι).put i r.1 r.2.1
          (x.threads i).pc).concludeIf i .evictedPass r.2.2)
      else none
    | _ => none
  | .sweepEnd =>
    match x.sweep with
    | some (take, []) => some { x with fc := sweepDrop x.fc take, sweep := none }
    | _ => none
  | .apply cfg m => some { x with fc := stateApply m x.fc cfg }
  | .tick sig => some { x with fc := adaptTick x.fc sig }
  | .warm ep nowNs => some { x with fc := epWarmStart x.fc ep nowNs }
  | .drain on => some { x with fc := { x.fc with draining := on } }

end Fc
