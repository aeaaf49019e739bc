import InferenceGateway.Fc.Types

/-!
# The ring of waiting requests

The functions of `sockproxy_fc.c` that move entries of a pool's ring, all called with the
queue lock held.  A loop over the ring visits the slots of a `walk`; the loop that carries an
inserted entry to its place is a `bubble` along such a path.
-/

open Function

namespace Fc

open Walk

/-! ## counts and deadlines -/

def ringBandAdd (q : Queue) (b : Band) : Queue :=
  { q with bandCount := if bandCounted b
      then update q.bandCount b (q.bandCount b + 1) else q.bandCount }

def ringBandSub (q : Queue) (b : Band) : Queue :=
  { q with bandCount := if bandCounted b ∧ q.bandCount b > 0
      then update q.bandCount b (q.bandCount b - 1) else q.bandCount }

/-- the slots in use, from the head on -/
def Queue.span (q : Queue) : List Nat := walk q.cap q.used q.head

def ringDeadlineAdd (q : Queue) (deadlineNs : Nat) : Queue :=
  { q with nextDeadlineNs :=
      if deadlineNs ≠ 0 ∧ (q.nextDeadlineNs = 0 ∨ deadlineNs < q.nextDeadlineNs)
      then deadlineNs else q.nextDeadlineNs }

/-- one round of the rescan: the least deadline so far, 0 for none -/
def earlier (min : Nat) (e : QueueEnt) : Nat :=
  if e.live ∧ e.deadlineNs ≠ 0 ∧ (min = 0 ∨ e.deadlineNs < min) then e.deadlineNs else min

def ringDeadlineRescan (q : Queue) : Nat := (q.span.map q.ring).foldl earlier 0

def ringDeadlineGone (q : Queue) (deadlineNs : Nat) : Queue :=
  { q with nextDeadlineNs :=
      if deadlineNs ≠ 0 ∧ deadlineNs = q.nextDeadlineNs
      then ringDeadlineRescan q else q.nextDeadlineNs }

/-! ## laying the ring out again -/

/-- the copy loop's state: the new slots, how many are filled, the band counts -/
structure Relay where
  dst : Nat → QueueEnt
  n : Nat
  bandCount : Band → Nat

def Relay.empty : Relay := ⟨fun _ => QueueEnt.zero, 0, fun _ => 0⟩

def Relay.copy (dstCap : Nat) (r : Relay) (e : QueueEnt) : Relay :=
  if e.live ∧ r.n < dstCap then
    { dst := update r.dst r.n e, n := r.n + 1
      bandCount := if bandCounted e.band
        then update r.bandCount e.band (r.bandCount e.band + 1) else r.bandCount }
  else r

def ringRelayout (q : Queue) (dstCap : Nat) : Queue :=
  let r := (q.span.map q.ring).foldl (Relay.copy dstCap) Relay.empty
  { q with
    ring := r.dst
    cap := dstCap
    head := 0
    tail := if r.n = dstCap then 0 else r.n
    used := r.n
    count := r.n
    bandCount := r.bandCount }

/-- `mem`: whether the scratch buffer could be allocated -/
def ringCompact (mem : Bool) (q : Queue) : Queue :=
  if q.cap = 0 then q
  else if mem then ringRelayout q q.cap
  else q

def ringGrow (mem : Bool) (q : Queue) (want : Nat) : Queue :=
  let want := if want > queueDepthMax then queueDepthMax else want
  if want ≤ q.cap then q
  else if !mem then q
  else if q.cap ≠ 0 then ringRelayout q want
  else
    -- no ring yet: the fresh buffer is adopted empty
    { q with
      ring := fun _ => QueueEnt.zero
      cap := want
      head := 0
      tail := 0
      used := 0
      count := 0
      bandCount := fun _ => 0 }

/-! ## insertion -/

/-- an entry going back to the head stops before one that arrived no earlier -/
def stopFront (x e : QueueEnt) : Bool := x.live && decide (x.enqueueNs ≥ e.enqueueNs)

/-- an ordered entry coming from the tail stops behind one that arrived no later -/
def stopBack (x e : QueueEnt) : Bool := x.live && decide (x.enqueueNs ≤ e.enqueueNs)

/-- the slots a loop `while (slot != head) slot = slot - 1, wrapped` steps on to, in at most
`n` rounds -/
def backTo (cap head : Nat) : Nat → Nat → List Nat
  | 0, _ => []
  | n+1, slot => if slot = head then [] else prev cap slot :: backTo cap head n (prev cap slot)

/-- the common end of an insertion: the entry stands in `slot` and is counted -/
def ringPlaced (q : Queue) (slot : Nat) (e : QueueEnt) : Queue :=
  ringDeadlineAdd (ringBandAdd { q with
        ring := update q.ring slot e
        used := q.used + 1
        count := q.count + 1 }
      e.band)
    e.deadlineNs

/-- back at the head, but behind anyone who went back before it and arrived earlier -/
def ringPutFront (q : Queue) (e : QueueEnt) : Queue × Nat :=
  let slot := prev q.cap q.head
  let b := bubble stopFront (update q.ring slot e) slot q.span
  (ringPlaced { q with ring := b.1, head := slot } b.2 e, b.2)

def ringPutTail (q : Queue) (e : QueueEnt) : Queue × Nat :=
  (ringPlaced { q with tail := wrap q.cap (q.tail + 1) } q.tail e, q.tail)

/-- from the tail to behind the last waiter that arrived no later -/
def ringPutOrdered (q : Queue) (e : QueueEnt) : Queue × Nat :=
  let b := bubble stopBack (update q.ring q.tail e) q.tail (backTo q.cap q.head q.cap q.tail)
  (ringPlaced { q with ring := b.1, tail := wrap q.cap (q.tail + 1) } b.2 e, b.2)

/-- the slots an insertion at the head makes when none is left -/
def growBy (cap : Nat) : Nat := if cap / 8 > 16 then cap / 8 else 16

/-- the ring with a free slot made, when one can be -/
def ringMakeRoom (m : Mem) (q : Queue) (front : Bool) : Queue :=
  let q := if q.used ≥ q.cap ∧ q.count < q.cap then ringCompact m.compact q else q
  if q.used ≥ q.cap ∧ front then ringGrow m.grow q (q.cap + growBy q.cap) else q

/-- fc_ring_insert: the slot taken, or `none` when no slot can be made -/
def ringInsert (m : Mem) (q : Queue) (e : QueueEnt) (front ordered : Bool) : Queue × Option Nat :=
  if q.cap = 0 then (q, none)
  else
    let q := ringMakeRoom m q front
    if q.used ≥ q.cap then (q, none)
    else
      let e := { e with live := true }
      let r := if front then ringPutFront q e
        else if ordered then ringPutOrdered q e
        else ringPutTail q e
      (r.1, some r.2)

/-! ## removal -/

/-- drop the tombstones at the head -/
def ringTrim (ring : Nat → QueueEnt) (cap : Nat) : Nat → Nat → Nat × Nat
  | 0, head => (head, 0)
  | used+1, head =>
    if (ring head).live then (head, used+1) else ringTrim ring cap used (wrap cap (head + 1))

/-- the live entry at `slot` leaves the ring, wherever it sits -/
def ringRemove (q : Queue) (slot : Nat) : Queue :=
  let e := q.ring slot
  let q := { q with
    ring := update q.ring slot { e with live := false }
    count := q.count - 1 }
  let q := ringDeadlineGone (ringBandSub q e.band) e.deadlineNs
  let h := ringTrim q.ring q.cap q.used q.head
  { q with head := h.1, used := h.2 }

def ringTakeAt (q : Queue) (slot : Nat) : Queue × QueueEnt := (ringRemove q slot, q.ring slot)

def ringPopLoop : Nat → Queue → Queue × Option QueueEnt
  | 0, q => (q, none)
  | n+1, q =>
    if q.used = 0 then (q, none)
    else
      let e := q.ring q.head
      let q := { q with
        ring := update q.ring q.head { e with live := false }
        head := wrap q.cap (q.head + 1)
        used := q.used - 1 }
      if e.live then
        (ringDeadlineGone (ringBandSub { q with count := q.count - 1 } e.band) e.deadlineNs, some e)
      else ringPopLoop n q

/-- fc_ring_pop: the oldest live entry -/
def ringPop (q : Queue) : Queue × Option QueueEnt := ringPopLoop q.used q

/-! ## looking entries up -/

/-- the entry at a slot waits for the connection -/
def QueueEnt.names (e : QueueEnt) (fd : Int) (gen : Nat) : Bool :=
  e.live && e.fd = fd && e.gen = gen

/-- fc_ring_find: the slot hint first, then the slots in use -/
def ringFind (q : Queue) (fd : Int) (gen hint : Nat) : Option Nat :=
  if q.cap = 0 then none
  else if hint < q.cap ∧ (q.ring hint).names fd gen then some hint
  else q.span.find? (fun i => (q.ring i).names fd gen)

/-- fc_band_live, fc_ring_band_n: the live waiters of one band -/
def Queue.bandLive (q : Queue) (b : Band) : Nat :=
  bandDerive q.count (q.bandCount .critical) (q.bandCount .sheddable) b

end Fc
