import InferenceGateway.Pools.Index
import InferenceGateway.Pools.Work

/-!
# The life of a pool

A rule's table holds a reference to each of its pools, and so does every holder of a worker.  The
workers find pools through the rule's index without a lock.  A pool that leaves the table gives the
table's reference back after a grace period, and the last reference frees it after another one; an
index is freed a grace period after it was replaced (`sockproxy_pool.c`).

Rule operations are serialized per rule; every other step of every thread may come in between.  A
worker uses a pool while it holds a reference or has found it since it last came online.

* `State.release`    `sp_pool_put`: the last reference hands the pool over to be freed;
* `State.publish`    `sp_pool_index_publish`: the new index, and what the old one kept is handed over;
* `State.step`       one atomic step of any thread.
-/

open Function

namespace Pools

inductive Thread (n : Nat) (R : Type) where
  | rule (r : R)
  | worker (i : Fin n)
  | reclaimer
  deriving DecidableEq

/-- the header of a pool, and how often the pool was freed -/
structure Pool where
  (refs freed : Nat)

/-- `ephash`, `pools` and `pools_waiting` of a rule; `published` records the table at the last publish -/
structure Rule where
  ephash : List Nat
  pools : Option Nat
  (waiting published : List Nat)

/-- a rule after a publish; an empty table has no index -/
def Rule.renewed (ephash : List Nat) (x : Nat) : Rule :=
  ⟨ephash, if ephash = [] then none else some x, [], ephash⟩

/-- what a publish hands over: the old index, the waiting pools and those the caller lets go -/
def Rule.handsOver (t : Rule) (gone : List Nat) : List Work :=
  t.pools.toList.map .indexFree ++ (t.waiting ++ gone).map .tableDrop

/-- what a worker has loaded and found since it came online, and the references it has -/
structure Worker where
  (indexes found : List Nat)
  held : Nat → Nat

/-- pools and indexes are numbered in the order they are made -/
structure State (n : Nat) (R : Type) where
  flow : Flow n (Thread n R)
  rule : R → Rule
  pool : Nat → Pool
  nextPool : Nat
  index : Nat → Index
  indexFreed : Nat → Nat
  nextIndex : Nat
  worker : Fin n → Worker

variable {n : Nat} {R : Type}

namespace State

def init : State n R where
  flow := .init
  rule := fun _ => ⟨[], none, [], []⟩
  pool := fun _ => ⟨0, 0⟩
  nextPool := 0
  index := fun _ => ⟨0, fun _ => .empty, []⟩
  indexFreed := fun _ => 0
  nextIndex := 0
  worker := fun _ => ⟨[], [], fun _ => 0⟩

def setFlow (s : State n R) (f : Flow n (Thread n R)) : State n R := { s with flow := f }
def setPool (s : State n R) (p : Nat) (v : Pool) : State n R := { s with pool := update s.pool p v }
def setRefs (s : State n R) (p v : Nat) : State n R := s.setPool p { s.pool p with refs := v }
def setFreed (s : State n R) (p v : Nat) : State n R := s.setPool p { s.pool p with freed := v }

def setWorker (s : State n R) (i : Fin n) (w : Worker) : State n R :=
  { s with worker := update s.worker i w }

/-- the references to the pool that a worker has -/
def setHeld (s : State n R) (i : Fin n) (p v : Nat) : State n R :=
  s.setWorker i { s.worker i with held := update (s.worker i).held p v }

variable [DecidableEq R]

def setRule (s : State n R) (r : R) (t : Rule) : State n R := { s with rule := update s.rule r t }

def start (s : State n R) (τ : Thread n R) (works : List Work) : State n R :=
  s.setFlow (s.flow.start τ works)

/-- `sp_pool_get` by a worker -/
def get (s : State n R) (i : Fin n) (p : Nat) : State n R :=
  (s.setRefs p ((s.pool p).refs + 1)).setHeld i p ((s.worker i).held p + 1)

/-- `sp_pool_put` in a thread; a release without a reference is ignored -/
def release (s : State n R) (τ : Thread n R) (p : Nat) : State n R :=
  match (s.pool p).refs with
  | 0 => s
  | 1 => (s.setRefs p 0).start τ [.finalFree p]
  | m + 2 => s.setRefs p (m + 1)

/-- `sp_pool_put` of a reference a worker has -/
def put (s : State n R) (i : Fin n) (p : Nat) : State n R :=
  (s.setHeld i p ((s.worker i).held p - 1)).release (.worker i) p

/-- `sp_pool_hold` where the holder has `old` -/
def hold (s : State n R) (i : Fin n) (old new : Option Nat) : State n R :=
  if old = new then s
  else
    let s := match new with
      | some p => s.get i p
      | none => s
    match old with
    | some p => s.put i p
    | none => s

/-- a new pool with the reference of the table, and `HASH_ADD_KEYPTR` -/
def hashAdd (s : State n R) (r : R) : State n R :=
  { (s.setPool s.nextPool ⟨1, 0⟩).setRule r
      { s.rule r with ephash := (s.rule r).ephash ++ [s.nextPool] } with nextPool := s.nextPool + 1 }

def hashDel (s : State n R) (r : R) (p : Nat) : State n R :=
  s.setRule r { s.rule r with ephash := (s.rule r).ephash.erase p }

/-- the allocation in `sp_pool_index_publish` can fail; an empty table needs none -/
def allocates (s : State n R) (r : R) (ok : Bool) : Bool := ok || (s.rule r).ephash.isEmpty

variable (key : Nat → List Nat)

/-- `sp_pool_index_publish` with its memory, and `sp_pool_unlinked` for the pools the caller lets go -/
def publish (s : State n R) (r : R) (gone : List Nat) : State n R :=
  let t := s.rule r
  { s with
    index := update s.index s.nextIndex (.build key t.ephash)
    nextIndex := s.nextIndex + 1
    rule := update s.rule r (.renewed t.ephash s.nextIndex)
    flow := s.flow.start (.rule r) (t.handsOver gone) }

def indexPublish (s : State n R) (r : R) (ok : Bool) : State n R :=
  if s.allocates r ok then s.publish key r [] else s

/-- `sp_pool_link` of a new pool; its callers let the pool go when it fails -/
def link (s : State n R) (r : R) (ok : Bool) : State n R :=
  let p := s.nextPool
  let s := s.hashAdd r
  if s.allocates r ok then s.publish key r []
  else (s.hashDel r p).start (.rule r) [.tableDrop p]

def unlink (s : State n R) (r : R) (p : Nat) (ok : Bool) : State n R :=
  let s := s.hashDel r p
  if s.allocates r ok then s.publish key r [p]
  else s.setRule r { s.rule r with waiting := p :: (s.rule r).waiting }

/-- a step of the reclaimer, with the function of the work it runs -/
def reclaim (s : State n R) : State n R :=
  let s' := s.setFlow s.flow.reclaim
  match s.flow.q.handed with
  | none => s'
  | some (.tableDrop p) => s'.release .reclaimer p
  | some (.finalFree p) =>
    if (s.pool p).refs ≠ 0 then s' else s'.setFreed p ((s.pool p).freed + 1)
  | some (.indexFree x) =>
    { s' with indexFreed := update s.indexFreed x (s.indexFreed x + 1) }

end State

inductive Act (n : Nat) (R : Type) where
  | link (r : R) (ok : Bool)
  | unlink (r : R) (p : Nat) (ok : Bool)
  | publish (r : R) (ok : Bool)
  | load (i : Fin n)
  | store (i : Fin n)
  | offline (i : Fin n)
  | index (i : Fin n) (r : R)
  | find (i : Fin n) (x : Nat) (k : List Nat)
  | get (i : Fin n) (p : Nat)
  | put (i : Fin n) (p : Nat)
  | hold (i : Fin n) (old new : Option Nat)
  | advance (τ : Thread n R)
  | reclaim

namespace State
variable [DecidableEq R] (key : Nat → List Nat)

def mayUse (s : State n R) (i : Fin n) (p : Nat) : Bool :=
  0 < (s.worker i).held p || (s.worker i).found.contains p

/-- the thread has nothing to hand over: it is not in the middle of an operation -/
def free (s : State n R) (τ : Thread n R) : Bool := (s.flow.todo τ).isEmpty

def enabled (s : State n R) : Act n R → Bool
  | .link r _ => s.free (.rule r)
  | .unlink r p _ => s.free (.rule r) && (s.rule r).ephash.contains p
  | .publish r _ => s.free (.rule r)
  | .load i | .store i | .offline i => s.free (.worker i)
  | .index i _ => s.free (.worker i) && (s.flow.q.reader i).seen != 0
  | .find i x _ => s.free (.worker i) && (s.worker i).indexes.contains x
  | .get i p => s.free (.worker i) && s.mayUse i p
  | .put i p => s.free (.worker i) && decide (0 < (s.worker i).held p)
  | .hold i old new => s.free (.worker i) && old.all (fun p => decide (0 < (s.worker i).held p)) &&
      new.all (fun p => s.mayUse i p)
  | .advance _ => true
  | .reclaim => s.free .reclaimer

def act (s : State n R) : Act n R → State n R
  | .link r ok => s.link key r ok
  | .unlink r p ok => s.unlink key r p ok
  | .publish r ok => s.indexPublish key r ok
  | .load i => s.setFlow (s.flow.setQ (s.flow.q.load i))
  | .store i => s.setFlow (s.flow.setQ (s.flow.q.store i))
  | .offline i => (s.setFlow (s.flow.setQ (s.flow.q.offline i))).setWorker i
      { s.worker i with indexes := [], found := [] }
  | .index i r => s.setWorker i
      { s.worker i with indexes := (s.rule r).pools.toList ++ (s.worker i).indexes }
  | .find i x k => s.setWorker i
      { s.worker i with found := ((s.index x).find key k).toList ++ (s.worker i).found }
  | .get i p => s.get i p
  | .put i p => s.put i p
  | .hold i old new => s.hold i old new
  | .advance τ => s.setFlow (s.flow.advance τ)
  | .reclaim => s.reclaim

def step (s : State n R) (a : Act n R) : State n R := if s.enabled a then s.act key a else s

end State

end Pools
