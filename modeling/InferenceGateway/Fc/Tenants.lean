import InferenceGateway.Fc.Types

/-!
# The tenant table

The slots a pool counts its tenants in, and the index that finds a tenant's slot by key.  All
of it runs with the queue lock held.  A slot's number travels in permits and queue entries, so
only the index is ever laid out again.
-/

open Function

namespace Fc

open Walk Probe

/-! ## the index -/

def tidxBuckets (t : Tenancy) : Nat := 2 * t.slots

/-- fc_tidx_home: where a key's probe run starts -/
def tidxHome (nb : Nat) (key : UInt64) : Nat :=
  let key := key ^^^ (key >>> 33)
  let key := key * 0xff51afd7ed558ccd
  let key := key ^^^ (key >>> 33)
  key.toNat % nb

/-- the buckets a probe for `key` passes, a whole lap -/
def tidxRun (t : Tenancy) (key : UInt64) : List Nat :=
  walk (tidxBuckets t) (tidxBuckets t) (tidxHome (tidxBuckets t) key)

/-- fc_tidx_find: the bucket holding the key's slot, or the bucket count and the bucket a new
slot for it goes in -/
def tidxFind (t : Tenancy) (key : UInt64) : Nat × Nat :=
  find t.index (fun n => (t.tenants n).key = key) (tidxBuckets t) (tidxRun t key) (tidxBuckets t)

/-- one slot in use is put in the first empty bucket of its key's run -/
def tidxLay (t : Tenancy) (idx : Nat → Bucket) (i : Nat) : Nat → Bucket :=
  if (t.tenants i).used then
    match firstEmpty idx (tidxRun t (t.tenants i).key) with
    | some b => update idx b (.slot i)
    | none => idx
  else idx

def tidxRelay (t : Tenancy) : Tenancy :=
  { t with
    index := (List.range t.slots).foldl (tidxLay t) (fun _ => .empty)
    tombs := 0 }

/-- fc_tidx_drop: the last bucket of a run is emptied, with the tombstones before it; a bucket
inside a run becomes a tombstone, and past a quarter of them the index is laid out again -/
def tidxDrop (t : Tenancy) (key : UInt64) : Tenancy :=
  let nb := tidxBuckets t
  let b := (tidxFind t key).1
  if b = nb then t
  else if t.index (wrap nb (b + 1)) = .empty then
    let r := sweep (update t.index b .empty) (back nb nb (prev nb b))
    { t with index := r.1, tombs := t.tombs - r.2 }
  else
    let t := { t with index := update t.index b .tomb, tombs := t.tombs + 1 }
    if t.tombs > nb / 4 then tidxRelay t else t

/-! ## the slots -/

def Tenancy.set (t : Tenancy) (i : Nat) (x : Tenant) : Tenancy :=
  { t with tenants := update t.tenants i x }

/-- fc_tenant_table_ensure: the table, made on first use; the flag is false for none -/
def tenantTableEnsure (mem dead : Bool) (t : Tenancy) : Tenancy × Bool :=
  if t.table then (t, true)
  else if dead then (t, false)
  else
    let t := { t with slots := if t.slots = 0 then tenantSlotsMin else t.slots }
    if mem then
      ({ t with
        table := true
        tenants := fun i => { Tenant.zero with nextFree := if i < t.slots then i + 1 else 0 }
        index := fun _ => .empty
        free := 0
        used := 0
        tombs := 0
        runnableWaiting := 0
        bound := 0 }, true)
    else (t, false)

/-- a slot newly given to `key` -/
def Tenant.taken (x : Tenant) (key : UInt64) : Tenant :=
  { x with key := key, inflight := 0, queued := 0, used := true, waitingRunnable := false }

/-- fc_tenant_get with a table: the tenant's slot, taken when it has none, and whether it is
the shared one because the table is full -/
def tenantTake (t : Tenancy) (key : UInt64) : Tenancy × Nat × Bool :=
  let f := tidxFind t key
  if f.1 ≠ tidxBuckets t then (t, (t.index f.1).num, false)
  else if t.free ≥ t.slots then
    let x := t.tenants t.slots
    if x.used then (t, t.slots, true)
    else ({ t.set t.slots (x.taken key) with used := t.used + 1 }, t.slots, true)
  else
    let slot := t.free
    let x := t.tenants slot
    ({ t.set slot (x.taken key) with
      free := x.nextFree
      used := t.used + 1
      tombs := if t.index f.2 = .tomb then t.tombs - 1 else t.tombs
      index := update t.index f.2 (.slot slot) }, slot, false)

/-- fc_tenant_get: `none` when the pool can have no table -/
def tenantGet (mem dead : Bool) (t : Tenancy) (key : UInt64) : Tenancy × Option Nat × Bool :=
  let r := tenantTableEnsure mem dead t
  if r.2 then
    let g := tenantTake r.1 key
    (g.1, some g.2.1, g.2.2)
  else (r.1, none, false)

/-- the slot goes to the head of the free list -/
def Tenancy.link (t : Tenancy) (slot : Nat) : Tenancy :=
  { t.set slot { t.tenants slot with nextFree := t.free } with free := slot }

/-- the last named tenant left: whatever tombstones remain mark nothing -/
def tidxTidy (t : Tenancy) : Tenancy :=
  if t.tombs ≠ 0 ∧ t.used = (t.tenants t.slots).used.toNat then tidxRelay t else t

/-- fc_tenant_put: a slot holding nothing is free again -/
def tenantPut (t : Tenancy) (slot : Nat) : Tenancy :=
  let x := t.tenants slot
  if t.table = false ∨ slot > t.slots then t
  else if x.used = false ∨ x.inflight ≠ 0 ∨ x.queued ≠ 0 then t
  else
    let t := { t.set slot { x with used := false } with used := t.used - 1 }
    -- the shared slot has no bucket and is never on the free list
    if slot = t.slots then t else tidxTidy ((tidxDrop t x.key).link slot)

def Tenant.runnable (x : Tenant) (bound : Nat) : Bool :=
  x.used && decide (x.queued > 0) && (decide (bound = 0) || decide (x.inflight < bound))

/-- fc_tenant_mark: keep the slot's place in the count of tenants that wait and could run -/
def tenantMark (t : Tenancy) (slot : Nat) : Tenancy :=
  let x := t.tenants slot
  let r := x.runnable t.bound
  { t.set slot { x with waitingRunnable := r } with
    runnableWaiting := if r = x.waitingRunnable then t.runnableWaiting
      else if r then t.runnableWaiting + 1 else t.runnableWaiting - 1 }

/-- which of a tenant's two counts an operation moves -/
inductive Hold
  | inflight | queued
  deriving DecidableEq, Repr

def Tenant.get (x : Tenant) : Hold → Nat
  | .inflight => x.inflight
  | .queued => x.queued

def Tenant.put (x : Tenant) : Hold → Nat → Tenant
  | .inflight, n => { x with inflight := n }
  | .queued, n => { x with queued := n }

def tenantInc (t : Tenancy) (slot : Nat) (h : Hold) : Tenancy :=
  let x := t.tenants slot
  tenantMark (t.set slot (x.put h (x.get h + 1))) slot

/-- fc_tenant_dec: one count of the slot moves down, never below zero; the flag says whether
it was there already -/
def tenantDec (t : Tenancy) (slot : Nat) (h : Hold) : Tenancy × Bool :=
  let x := t.tenants slot
  if t.table = false ∨ slot > t.slots ∨ x.used = false then (t, false)
  else (tenantPut (tenantMark (t.set slot (x.put h (x.get h - 1))) slot) slot, x.get h = 0)

/-! a slot number of -1 is no slot -/

def tenantDecAt (t : Tenancy) (slot : Option Nat) (h : Hold) : Tenancy × Bool :=
  match slot with
  | some i => tenantDec t i h
  | none => (t, false)

def tenantPutAt (t : Tenancy) (slot : Option Nat) : Tenancy :=
  match slot with
  | some i => tenantPut t i
  | none => t

def tenantIncAt (t : Tenancy) (slot : Option Nat) (h : Hold) : Tenancy :=
  match slot with
  | some i => tenantInc t i h
  | none => t

/-- fc_tenant_can_run: whether a queued entry's tenant may take a unit now -/
def tenantCanRun (t : Tenancy) (slot : Option Nat) (bound : Nat) : Bool :=
  match slot with
  | none => true
  | some s => decide (bound = 0) || !t.table || decide ((t.tenants s).inflight < bound)

/-- one slot of the recount -/
def tenantRecount (t : Tenancy) (i : Nat) : Tenancy :=
  tenantMark (t.set i { t.tenants i with waitingRunnable := false }) i

/-- fc_tenant_waiter_can_run: the count is taken again only when the bound moved -/
def tenantWaiterCanRun (t : Tenancy) (bound : Nat) : Tenancy × Bool :=
  if t.table = false then (t, false)
  else
    let t := if bound ≠ t.bound then
        (List.range (t.slots + 1)).foldl tenantRecount { t with bound := bound, runnableWaiting := 0 }
      else t
    (t, decide (t.runnableWaiting > 0))

end Fc
