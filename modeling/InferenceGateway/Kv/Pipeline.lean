import Mathlib.Data.Prod.Lex
import InferenceGateway.Lib.Run

/-!
# GPU mappings of KV sessions

The slots of the KV pipeline: mappings imported by `llb_kv_pipeline_register_gpu_mmap`, sessions
started by `llb_kv_pipeline_fetch_start` and `llb_kv_pipeline_writeback_start`, eviction, and the
state machine of `llb_kv_pipeline_process`.  A mapping is named by the number of its import.  What
the transport, the compression and the DMA answer is part of the action.

A registration waits in a slot whose state stays IDLE, and every allocation takes the first IDLE
slot.

* `firstSlot`        the searches over the slots;
* `apply`            one call;
* `slotOf`           the slot a fetch finds for its session, and what a change of a slot does to it;
* `eviction_spares_iff`  whom an eviction takes.
-/

open Function List

namespace KvPipe

inductive SessionState where
  | idle | tcpRecv | decompress | dequantize | dmaTransfer | done | writebackDma | compress
  | writebackTcp | writebackDone | error
  deriving DecidableEq, Repr

/-- `kv_session_internal_t`, without its buffers and connection -/
structure Slot where
  state : SessionState
  (sessionId priority totalChunks chunksDone : Nat)
  evicting : Bool
  gpuMmap : Option Nat
  gpuMmapOwned : Bool
  deriving DecidableEq, Repr

def blank : Slot :=
  { state := .idle, sessionId := 0, priority := 0, totalChunks := 0, chunksDone := 0
    evicting := false, gpuMmap := none, gpuMmapOwned := false }

inductive Event where
  /-- a mapping was imported by a register call of the session -/
  | imported (s m : Nat)
  | destroyed (m : Nat)
  /-- `llb_kv_dma_to_gpu` or `llb_kv_dma_from_gpu` was called for the session with the mapping -/
  | dma (s m : Nat)
  deriving DecidableEq, Repr

structure Pipe where
  slot : Nat → Slot
  next : Nat
  trace : List Event
  /-- the last mapping registered for a session since the session last ended -/
  reg : Nat → Option Nat

def maxSessions : Nat := 64

/-! ## slots -/

def firstSlot (slot : Nat → Slot) (p : Slot → Bool) : Option Nat :=
  (range maxSessions).find? fun i => p (slot i)

def Slot.isIdle (x : Slot) : Bool := x.state == .idle
def findIdleSlot (slot : Nat → Slot) : Option Nat := firstSlot slot Slot.isIdle

/-- an active session with this id -/
def Slot.runs (s : Nat) (x : Slot) : Bool := x.sessionId == s && !x.isIdle

/-- a registration of this id that no fetch has taken yet -/
def Slot.waits (s : Nat) (x : Slot) : Bool := x.isIdle && x.sessionId == s && x.gpuMmap.isSome
def findSessionById (slot : Nat → Slot) (s : Nat) : Option Nat := firstSlot slot (Slot.runs s)

/-- the slot `llb_kv_pipeline_fetch_start` finds for a session before it allocates one -/
def slotOf (slot : Nat → Slot) (s : Nat) : Option Nat :=
  (findSessionById slot s).or (firstSlot slot (Slot.waits s))

namespace Pipe

def setSlot (p : Pipe) (i : Nat) (x : Slot) : Pipe := { p with slot := update p.slot i x }
def log (p : Pipe) (e : Event) : Pipe := { p with trace := p.trace ++ [e] }

/-- the mapping a reset of the slot destroys -/
def doomed (x : Slot) : Option Nat := if x.gpuMmapOwned then x.gpuMmap else none

/-- what a reset leaves of the slot -/
def emptied (x : Slot) : Slot :=
  { blank with gpuMmap := if x.gpuMmapOwned then none else x.gpuMmap }

/-- `session_reset`; the session of the slot ends with it -/
def sessionReset (p : Pipe) (i : Nat) : Pipe :=
  { p with
    slot := update p.slot i (emptied (p.slot i))
    trace := p.trace ++ (doomed (p.slot i)).toList.map .destroyed
    reg := update p.reg (p.slot i).sessionId none }

end Pipe

/-! ## allocation -/

section
-- how the floating point progress of two sessions compares
variable (less : Slot → Slot → Bool)

/-- the tests of `find_eviction_candidate` -/
def evictable (newPriority : Nat) (x : Slot) : Bool :=
  !(x.isIdle || x.state == .error || x.evicting) && decide (x.priority < newPriority) &&
    !(decide (0 < x.totalChunks) && decide (50 < x.chunksDone * 100 % 2 ^ 32 / x.totalChunks))

def findEvictionCandidate (slot : Nat → Slot) (newPriority : Nat) : Option Nat :=
  (range maxSessions).foldl (fun best i =>
      if evictable newPriority (slot i) then
        match best with
        | none => some i
        | some b => if less (slot i) (slot b) then some i else some b
      else best) none

/-- `allocate_session`: the slot, and the pipeline after an eviction -/
def allocateSession (p : Pipe) (priority : Nat) : Option (Pipe × Nat) :=
  match findIdleSlot p.slot with
  | some i => some (p, i)
  | none =>
    match findEvictionCandidate less p.slot priority with
    | some i => some (p.sessionReset i, i)
    | none => none

/-! ## calls -/

/-- what `llb_kv_dma_import_gpu_mmap` did -/
inductive Import where
  | ok
  /-- the import failed and left no mapping behind the pointer -/
  | failed
  /-- refused before the pointer was touched -/
  | refused
  deriving DecidableEq, Repr

def registerSlot (slot : Nat → Slot) (s : Nat) : Option Nat :=
  (findSessionById slot s).or (findIdleSlot slot)

def registerGpuMmap (p : Pipe) (s : Nat) (r : Import) : Pipe :=
  match registerSlot p.slot s with
  | none => p
  | some i =>
    let x := { p.slot i with sessionId := s }
    match r with
    | .ok =>
      { slot := update p.slot i { x with gpuMmap := some p.next, gpuMmapOwned := true }
        next := p.next + 1
        trace := p.trace ++ [.imported s p.next]
        reg := update p.reg s (some p.next) }
    | .failed => p.setSlot i { x with gpuMmap := none }
    | .refused => p.setSlot i x

/-- `llb_kv_comch_msg_t`: the fields that are kept -/
structure Msg where
  (sessionId priority totalChunks : Nat)
  deriving DecidableEq, Repr

/-- the slot with the request written into it, and reset again when the call fails -/
def startIn (p : Pipe) (i : Nat) (msg : Msg) (state : SessionState) (ok : Bool) : Pipe :=
  let x := { p.slot i with
    sessionId := msg.sessionId, priority := msg.priority, totalChunks := msg.totalChunks
    chunksDone := 0 }
  if ok then p.setSlot i { x with state } else (p.setSlot i x).sessionReset i

/-- `llb_kv_pipeline_fetch_start`; `ok` when the buffers could be allocated and the store was
reached -/
def fetchStart (p : Pipe) (msg : Msg) (ok : Bool) : Pipe :=
  match slotOf p.slot msg.sessionId with
  | some i => startIn p i msg .tcpRecv ok
  | none =>
    match allocateSession less p msg.priority with
    | some (p, i) => startIn p i msg .tcpRecv ok
    | none => p

def writebackStart (p : Pipe) (msg : Msg) (ok : Bool) : Pipe :=
  match allocateSession less p msg.priority with
  | some (p, i) => startIn p i msg .writebackDma ok
  | none => p

/-! ## processing -/

/-- the answer of the subsystem a session waits for -/
inductive Answer where
  | ok | failed
  /-- a pool or a ring is full, or a worker is not done yet -/
  | busy
  deriving DecidableEq, Repr

/-- the DMA call of a session, with the mapping it has -/
def Pipe.dmaCall (p : Pipe) (x : Slot) : Pipe :=
  match x.gpuMmap with
  | some m => p.log (.dma x.sessionId m)
  | none => p                                   -- refused by the DMA layer

def Pipe.setState (p : Pipe) (i : Nat) (st : SessionState) : Pipe :=
  p.setSlot i { p.slot i with state := st }

def Pipe.chunkDone (p : Pipe) (i : Nat) (last more : SessionState) : Pipe :=
  let x := p.slot i
  p.setSlot i { x with chunksDone := x.chunksDone + 1
                       state := if x.totalChunks ≤ x.chunksDone + 1 then last else more }

def processSession (useV2 : Bool) (p : Pipe) (i : Nat) (r : Answer) : Pipe :=
  let x := p.slot i
  match x.state with
  | .tcpRecv => if r = .ok then p.setState i .decompress else p.setState i .error
  | .decompress =>
    match r with
    | .ok => p.setState i (if useV2 then .dequantize else .dmaTransfer)
    | .failed => p.setState i .error
    | .busy => if useV2 then p else p.setState i .error
  | .dequantize => if r = .ok then p.setState i .dmaTransfer else p
  | .dmaTransfer =>
    if r = .ok then (p.dmaCall x).chunkDone i .done .tcpRecv
    else (p.dmaCall x).setState i .error
  | .writebackDma =>
    if x.gpuMmap = none then p.setState i .error
    else if r = .ok then (p.dmaCall x).setState i .compress
    else (p.dmaCall x).setState i .error
  | .compress => if r = .ok then p.setState i .writebackTcp else p.setState i .error
  | .writebackTcp =>
    if r = .ok then p.chunkDone i .writebackDone .writebackDma else p.setState i .error
  | .writebackDone | .done | .error => p.sessionReset i
  | .idle => p

def process (useV2 : Bool) (p : Pipe) (answers : Nat → Answer) : Pipe :=
  (range maxSessions).foldl
    (fun p i => if (p.slot i).isIdle then p else processSession useV2 p i (answers i)) p

inductive Act where
  | register (s : Nat) (r : Import)
  | fetch (msg : Msg) (ok : Bool)
  | writeback (msg : Msg) (ok : Bool)
  | process (answers : Nat → Answer)

def apply (useV2 : Bool) (p : Pipe) : Act → Pipe
  | .register s r => registerGpuMmap p s r
  | .fetch msg ok => fetchStart less p msg ok
  | .writeback msg ok => writebackStart less p msg ok
  | .process answers => process useV2 p answers

def init : Pipe := { slot := fun _ => blank, next := 0, trace := [], reg := fun _ => none }
def run (useV2 : Bool) (as : List Act) : Pipe := as.foldl (apply less useV2) init

end

/-! ## finding slots -/

section
variable {slot : Nat → Slot} {i : Nat} {x : Slot} {s : Nat}

theorem firstSlot_eq_some {q : Slot → Bool} : firstSlot slot q = some i ↔
    q (slot i) = true ∧ i < maxSessions ∧ ∀ j < i, q (slot j) = false := by
  unfold firstSlot
  simp

theorem firstSlot_update {q : Slot → Bool} (h : q x = q (slot i)) :
    firstSlot (update slot i x) q = firstSlot slot q := by
  unfold firstSlot
  congr 1
  exact funext (Run.update_keeps q h)

theorem slotOf_update (hr : x.runs s = (slot i).runs s) (hw : x.waits s = (slot i).waits s) :
    slotOf (update slot i x) s = slotOf slot s := by
  unfold slotOf findSessionById
  rw [firstSlot_update hr, firstSlot_update hw]

theorem of_slotOf (h : slotOf slot s = some i) : i < maxSessions ∧ ((slot i).runs s = true ∨
      (slot i).waits s = true ∧ ∀ j < maxSessions, (slot j).runs s = false) := by
  unfold slotOf findSessionById at h
  rcases Option.or_eq_some_iff.mp h with hrun | ⟨hnone, hwait⟩
  · obtain ⟨hr, hi, -⟩ := firstSlot_eq_some.mp hrun
    exact ⟨hi, .inl hr⟩
  · obtain ⟨hw, hi, -⟩ := firstSlot_eq_some.mp hwait
    refine ⟨hi, .inr ⟨hw, fun j hj => ?_⟩⟩
    unfold firstSlot at hnone
    rw [find?_eq_none] at hnone
    simpa using hnone j (mem_range.mpr hj)

theorem slotOf_of_runs (hi : i < maxSessions) (hr : (slot i).runs s = true)
    (hfirst : ∀ j < i, (slot j).runs s = false) : slotOf slot s = some i := by
  have hfind : findSessionById slot s = some i := firstSlot_eq_some.mpr ⟨hr, hi, hfirst⟩
  rw [slotOf, hfind]
  rfl

theorem first_of_slotOf (h : slotOf slot s = some i) : ∀ j < i, (slot j).runs s = false := by
  intro j hj
  unfold slotOf findSessionById at h
  rcases Option.or_eq_some_iff.mp h with hrun | ⟨hnone, hwait⟩
  · exact (firstSlot_eq_some.mp hrun).2.2 j hj
  · obtain ⟨-, hi, -⟩ := firstSlot_eq_some.mp hwait
    unfold firstSlot at hnone
    rw [find?_eq_none] at hnone
    simpa using hnone j (mem_range.mpr (Nat.lt_trans hj hi))

theorem sessionId_of_runs (h : x.runs s = true) : x.sessionId = s := by
  simp only [Slot.runs, Bool.and_eq_true, beq_iff_eq] at h
  exact h.1

theorem sessionId_of_waits (h : x.waits s = true) : x.sessionId = s := by
  simp only [Slot.waits, Bool.and_eq_true, beq_iff_eq] at h
  exact h.1.2

theorem sessionId_of_slotOf (h : slotOf slot s = some i) : (slot i).sessionId = s := by
  obtain ⟨-, hrun | hwait⟩ := of_slotOf h
  · exact sessionId_of_runs hrun
  · exact sessionId_of_waits hwait.1

theorem runs_of_ne (h : x.sessionId ≠ s) : x.runs s = false := by
  simp [Slot.runs, h]

theorem waits_of_ne (h : x.sessionId ≠ s) : x.waits s = false := by
  simp [Slot.waits, h]

theorem runs_of_idle (h : x.isIdle = true) : x.runs s = false := by
  simp [Slot.runs, h]

theorem waits_of_empty (h : x.gpuMmap = none) : x.waits s = false := by
  simp [Slot.waits, h]

theorem waits_of_active (h : x.isIdle = false) : x.waits s = false := by
  simp [Slot.waits, h]

end

/-! ## eviction -/

variable {α : Type} [LinearOrder α] (progress : Slot → α) (slot : Nat → Slot) (prio : Nat)

/-- the scan looks for the least progress and takes the first slot that has it -/
def rank (i : Nat) : α ×ₗ Nat := toLex (progress (slot i), i)

theorem findEvictionCandidate_eq :
    findEvictionCandidate (fun x y => decide (progress x < progress y)) slot prio =
      ((range maxSessions).filter fun i => evictable prio (slot i)).argmin (rank progress slot) := by
  unfold findEvictionCandidate
  generalize maxSessions = n
  induction n with
  | zero => rfl
  | succ n ih =>
    rw [range_succ, foldl_append, ih, foldl_cons, foldl_nil, filter_append, filter_singleton]
    cases hn : evictable prio (slot n) with
    | false => rw [if_neg Bool.false_ne_true, cond_false, append_nil]
    | true =>
      rw [if_pos rfl, cond_true, argmin_concat]
      cases hc : argmin (rank progress slot) _ with
      | none => rfl
      | some c =>
        have hlt : c < n := mem_range.mp (mem_of_mem_filter (argmin_mem hc))
        have hrank : rank progress slot n < rank progress slot c ↔
            progress (slot n) < progress (slot c) := by
          rw [rank, rank, Prod.Lex.toLex_lt_toLex]
          exact or_iff_left fun h => absurd h.2 (Nat.lt_asymm hlt)
        simp only [hrank, decide_eq_true_eq]

/-- a session that a request of this priority may evict -/
def Yields (prio : Nat) (x : Slot) : Prop :=
  x.isIdle = false ∧ x.state ≠ .error ∧ x.evicting = false ∧ x.priority < prio ∧
    (0 < x.totalChunks → 2 * x.chunksDone ≤ x.totalChunks)

/-- a session that passes the tests, with more than half of its chunks done -/
def Slips (prio : Nat) (x : Slot) : Prop :=
  evictable prio x = true ∧ 0 < x.totalChunks ∧ x.totalChunks < 2 * x.chunksDone

theorem evictable_iff {prio : Nat} {x : Slot} : evictable prio x = true ↔ Yields prio x ∨ Slips prio x := by
  have hpct : 2 * x.chunksDone ≤ x.totalChunks → 0 < x.totalChunks →
      x.chunksDone * 100 % 2 ^ 32 / x.totalChunks ≤ 50 := by
    intro hhalf h0
    have hle := Nat.mod_le (x.chunksDone * 100) (2 ^ 32)
    exact Nat.div_le_of_le_mul (by omega)
  unfold Slips Yields evictable
  simp only [Bool.and_eq_true, Bool.not_eq_true', Bool.or_eq_false_iff, beq_eq_false_iff_ne,
    decide_eq_true_eq, Bool.and_eq_false_imp, decide_eq_false_iff_not, Nat.not_lt]
  rw [← Nat.not_le (a := 2 * x.chunksDone)]
  tauto

/-- **no session past its half is taken**, exactly if each that slips through ranks after one that
may be taken -/
theorem eviction_spares_iff :
    (∀ i, findEvictionCandidate (fun x y => decide (progress x < progress y)) slot prio = some i →
        i < maxSessions ∧ Yields prio (slot i)) ∧
      (findEvictionCandidate (fun x y => decide (progress x < progress y)) slot prio = none →
        ∀ i < maxSessions, ¬ Yields prio (slot i)) ↔
    ∀ j < maxSessions, Slips prio (slot j) →
      ∃ i < maxSessions, Yields prio (slot i) ∧ rank progress slot i < rank progress slot j := by
  have hmem : ∀ i, i ∈ (range maxSessions).filter (fun i => evictable prio (slot i)) ↔
      i < maxSessions ∧ (Yields prio (slot i) ∨ Slips prio (slot i)) := by
    intro i
    rw [mem_filter, mem_range, evictable_iff]
  rw [findEvictionCandidate_eq]
  cases hc : argmin (rank progress slot) ((range maxSessions).filter _) with
  | none =>
    rw [argmin_eq_none.mp hc] at hmem
    refine iff_of_true ⟨nofun, fun _ i hi hy => ?_⟩ fun j hj hs => ?_
    · exact absurd ((hmem i).mpr ⟨hi, .inl hy⟩) not_mem_nil
    · exact absurd ((hmem j).mpr ⟨hj, .inr hs⟩) not_mem_nil
  | some c =>
    obtain ⟨hlt, hwhich⟩ := (hmem c).mp (argmin_mem hc)
    constructor
    · intro h j hj hs
      have hy := (h.1 c rfl).2
      have hle := le_of_mem_argmin ((hmem j).mpr ⟨hj, .inr hs⟩) hc
      refine ⟨c, hlt, hy, lt_of_le_of_ne hle fun heq => ?_⟩
      obtain rfl : c = j := congrArg (fun z => (ofLex z).2) heq
      exact absurd (hy.2.2.2.2 hs.2.1) (Nat.not_le.mpr hs.2.2)
    · intro h
      refine ⟨fun i hi => ?_, nofun⟩
      cases hi
      refine ⟨hlt, hwhich.resolve_right fun hs => ?_⟩
      obtain ⟨i, hi, hy, hr⟩ := h c hlt hs
      exact absurd hr (not_lt.mpr (le_of_mem_argmin ((hmem i).mpr ⟨hi, .inl hy⟩) hc))

/-- 101 chunks of 200, and 42949673 of 42949700, where the product wraps around -/
theorem eviction_past_half : [(101, 200), (42949673, 42949700)].map (fun x =>
    findEvictionCandidate (fun _ _ => false) (update (fun _ => blank) 0
      { blank with state := .tcpRecv, chunksDone := x.1, totalChunks := x.2 }) 1) =
    [some 0, some 0] := by
  decide +kernel

end KvPipe
