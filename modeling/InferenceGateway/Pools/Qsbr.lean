import Mathlib.Data.Fintype.Order
import InferenceGateway.Lib.Run

/-!
# Grace periods

`sockproxy_qsbr.c`: each worker has a slot that is 0 while it is offline and else the epoch it read
when it came online.  Deferred work is stamped with a new epoch and run once every slot is 0 or at
least the stamp.  The reclaimer collects the ready work under the lock, slot by slot, and runs it
without.

* `Quiet`            what a worker still sees of the pending work: it came online before the stamp;
* `Quiet.handed`     no worker sees what a work item is about when the item is run;
* `deferred_runs`    deferred work is run if the workers keep going offline and the reclaimer goes on.
-/

open Function List Nat

namespace Qsbr

/-- a worker: `sp_qsbr_online` reads the epoch and then stores it in the slot -/
inductive Reader where
  | offline
  | loaded (epoch : Nat)
  | online (epoch : Nat)
  deriving DecidableEq

/-- `seen` in the worker's slot -/
def Reader.seen : Reader → Nat
  | .online e => e
  | _ => 0

/-- the reclaimer: waiting for work, collecting under the lock (the next slot to read, the work found
ready), running what it collected -/
inductive Phase (W : Type) where
  | idle
  | collecting (slot : Nat) (ready : List W)
  | running (ready : List W)

/-- any number of workers with a slot each, and work items that carry their stamps -/
structure State (n : Nat) (W : Type) where
  epoch : Nat
  reader : Fin n → Reader
  queue : List (W × Nat)
  phase : Phase W

variable {n : Nat} {W : Type}

def State.init : State n W := ⟨1, fun _ => .offline, [], .idle⟩

namespace State

def setReader (s : State n W) (i : Fin n) (v : Reader) : State n W :=
  { s with reader := update s.reader i v }

@[simp] theorem setReader_self (s : State n W) (i : Fin n) (v : Reader) :
    (s.setReader i v).reader i = v := by
  exact update_self ..

theorem setReader_of_ne (s : State n W) {i j : Fin n} (h : j ≠ i) (v : Reader) :
    (s.setReader i v).reader j = s.reader j := by
  exact update_of_ne h ..

/-- `sp_qsbr_online`, the load of the epoch -/
def load (s : State n W) (i : Fin n) : State n W :=
  match s.reader i with
  | .offline => s.setReader i (.loaded s.epoch)
  | _ => s

/-- `sp_qsbr_online`, the store in the slot -/
def store (s : State n W) (i : Fin n) : State n W :=
  match s.reader i with
  | .loaded e => s.setReader i (.online e)
  | _ => s

def offline (s : State n W) (i : Fin n) : State n W :=
  match s.reader i with
  | .online _ => s.setReader i .offline
  | _ => s

/-- `sp_qsbr_defer`, for a caller that got the lock -/
def defer (s : State n W) (w : W) : State n W :=
  { s with epoch := s.epoch + 1, queue := s.queue ++ [(w, s.epoch + 1)] }

def locked (s : State n W) : Bool :=
  match s.phase with
  | .collecting _ _ => true
  | _ => false

/-- one step of `sp_qsbr_run_ready` -/
def reclaim (s : State n W) : State n W :=
  match s.phase with
  | .idle => if s.queue.isEmpty then s else { s with phase := .collecting 0 [] }
  | .collecting i ready =>
    match s.queue with
    | [] => { s with phase := .running ready }
    | (w, stamp) :: rest =>
      if h : i < n then
        let v := (s.reader ⟨i, h⟩).seen
        if v ≠ 0 ∧ v < stamp then { s with phase := .running ready }
        else { s with phase := .collecting (i + 1) ready }
      else { s with queue := rest, phase := .collecting 0 (ready ++ [w]) }
  | .running [] => { s with phase := .idle }
  | .running (_ :: ready) => { s with phase := .running ready }

/-- the work whose function that step runs -/
def handed (s : State n W) : Option W :=
  match s.phase with
  | .running (w :: _) => some w
  | _ => none

def ready (s : State n W) : List W :=
  match s.phase with
  | .idle => []
  | .collecting _ ready => ready
  | .running ready => ready

def pending (s : State n W) : List W := s.ready ++ s.queue.map Prod.fst

end State

/-- what one step of the reclaimer can be -/
inductive Reclaimed (s : State n W) : State n W → Prop where
  | wait (hp : s.phase = .idle) (hq : s.queue = []) : Reclaimed s s
  | start (hp : s.phase = .idle) (hq : s.queue ≠ []) :
    Reclaimed s { s with phase := .collecting 0 [] }
  | stop {i : Nat} {ready : List W} (hp : s.phase = .collecting i ready)
    (hq : ∀ w stamp, s.queue.head? = some (w, stamp) →
      ∃ hi : i < n, (s.reader ⟨i, hi⟩).seen ≠ 0 ∧ (s.reader ⟨i, hi⟩).seen < stamp) :
    Reclaimed s { s with phase := .running ready }
  | pass {i : Nat} {ready : List W} {w : W} {stamp : Nat} {rest : List (W × Nat)}
    (hp : s.phase = .collecting i ready) (hq : s.queue = (w, stamp) :: rest) (hi : i < n)
    (hs : ¬ ((s.reader ⟨i, hi⟩).seen ≠ 0 ∧ (s.reader ⟨i, hi⟩).seen < stamp)) :
    Reclaimed s { s with phase := .collecting (i + 1) ready }
  | pop {i : Nat} {ready : List W} {w : W} {stamp : Nat} {rest : List (W × Nat)}
    (hp : s.phase = .collecting i ready) (hq : s.queue = (w, stamp) :: rest) (hi : n ≤ i) :
    Reclaimed s { s with queue := rest, phase := .collecting 0 (ready ++ [w]) }
  | finish (hp : s.phase = .running []) : Reclaimed s { s with phase := .idle }
  | hand {w : W} {ready : List W} (hp : s.phase = .running (w :: ready)) :
    Reclaimed s { s with phase := .running ready }

theorem State.reclaimed (s : State n W) : Reclaimed s s.reclaim := by
  unfold State.reclaim
  split
  case h_1 hp =>
    split
    case isTrue hq => exact .wait hp (List.isEmpty_iff.mp hq)
    case isFalse hq => exact .start hp (fun h => hq (by rw [h]; rfl))
  case h_2 i ready hp =>
    split
    case h_1 hq =>
      refine .stop hp fun w stamp h => ?_
      rw [hq] at h
      cases h
    case h_2 w stamp rest hq =>
      split
      case isTrue hi =>
        dsimp only
        split
        case isTrue hs =>
          refine .stop hp fun w' stamp' h => ⟨hi, ?_⟩
          rw [hq] at h
          cases h
          exact hs
        case isFalse hs => exact .pass hp hq hi hs
      case isFalse hi => exact .pop hp hq (not_lt.mp hi)
  case h_3 hp => exact .finish hp
  case h_4 w ready hp => exact .hand hp

/-! ## what the workers still see -/

/-- the pending work and the workers that may still use what it is about -/
structure Quiet (s : State n W) (Sees : Fin n → W → Prop) : Prop where
  online : ∀ i w, Sees i w → ∃ e, s.reader i = .online e
  epoch : ∀ i e, s.reader i = .loaded e ∨ s.reader i = .online e → 1 ≤ e ∧ e ≤ s.epoch
  start : 1 ≤ s.epoch
  older : ∀ w stamp, (w, stamp) ∈ s.queue → ∀ i, Sees i w → (s.reader i).seen < stamp
  stamped : ∀ w stamp, (w, stamp) ∈ s.queue → stamp ≤ s.epoch
  checked : ∀ k ready, s.phase = .collecting k ready → ∀ w stamp, s.queue.head? = some (w, stamp) →
    ∀ i : Fin n, i.val < k → ¬ Sees i w
  ready : ∀ w ∈ s.ready, ∀ i, ¬ Sees i w

theorem Quiet.init : Quiet (State.init : State n W) (fun _ _ => False) where
  online := fun _ _ h => h.elim
  epoch := fun _ _ h => by rcases h with h | h <;> exact Reader.noConfusion h
  start := le_rfl
  older := fun _ _ h => absurd h not_mem_nil
  stamped := fun _ _ h => absurd h not_mem_nil
  checked := fun _ _ _ _ _ _ _ _ h => h
  ready := fun _ h => absurd h not_mem_nil

namespace Quiet
variable {s : State n W} {Sees Sees' : Fin n → W → Prop}

variable (h : Quiet s Sees)
include h

theorem change
    (hnew : ∀ i w, Sees' i w → Sees i w ∨ (w ∉ s.pending ∧ ∃ e, s.reader i = .online e)) :
    Quiet s Sees' where
  online := by
    intro i w hs
    rcases hnew i w hs with hs | hs
    · exact h.online i w hs
    · exact hs.2
  epoch := h.epoch
  start := h.start
  older := by
    intro w stamp hq i hs
    rcases hnew i w hs with hs | hs
    · exact h.older w stamp hq i hs
    · exact absurd (mem_append_right _ (mem_map_of_mem hq)) hs.1
  stamped := h.stamped
  checked := by
    intro k ready hp w stamp hq i hi hs
    rcases hnew i w hs with hs | hs
    · exact h.checked k ready hp w stamp hq i hi hs
    · exact hs.1 (mem_append_right _ (mem_map_of_mem (mem_of_head? hq)))
  ready := by
    intro w hw i hs
    rcases hnew i w hs with hs | hs
    · exact h.ready w hw i hs
    · exact hs.1 (mem_append_left _ hw)

theorem reader {i : Fin n} (hi : ∀ w, ¬ Sees i w) {v : Reader}
    (hv : ∀ e, v = .loaded e ∨ v = .online e → 1 ≤ e ∧ e ≤ s.epoch) :
    Quiet (s.setReader i v) Sees where
  online := by
    intro j w hs
    have hj : j ≠ i := fun hj => hi w (hj ▸ hs)
    obtain ⟨e, he⟩ := h.online j w hs
    exact ⟨e, by rw [s.setReader_of_ne hj, he]⟩
  epoch := by
    intro j e he
    by_cases hj : j = i
    · subst hj
      rw [s.setReader_self] at he
      exact hv e he
    · rw [s.setReader_of_ne hj] at he
      exact h.epoch j e he
  start := h.start
  older := by
    intro w stamp hq j hs
    have hj : j ≠ i := fun hj => hi w (hj ▸ hs)
    rw [s.setReader_of_ne hj]
    exact h.older w stamp hq j hs
  stamped := h.stamped
  checked := h.checked
  ready := h.ready

theorem load (i : Fin n) : Quiet (s.load i) Sees := by
  unfold State.load
  split
  case h_1 hr =>
    apply h.reader
    · intro w hs
      obtain ⟨e, he⟩ := h.online i w hs
      rw [hr] at he
      cases he
    · rintro e (he | he)
      · cases he
        exact ⟨h.start, le_rfl⟩
      · cases he
  case h_2 => exact h

theorem store (i : Fin n) : Quiet (s.store i) Sees := by
  unfold State.store
  split
  case h_1 e hr =>
    apply h.reader
    · intro w hs
      obtain ⟨e', he⟩ := h.online i w hs
      rw [hr] at he
      cases he
    · rintro e' (he | he)
      · cases he
      · cases he
        exact h.epoch i e (.inl hr)
  case h_2 => exact h

theorem offline {i : Fin n} (hi : ∀ w, ¬ Sees i w) : Quiet (s.offline i) Sees := by
  unfold State.offline
  split
  case h_1 e hr =>
    apply h.reader hi
    rintro e' (he | he) <;> cases he
  case h_2 => exact h

theorem defer (hl : s.locked = false) (w : W) : Quiet (s.defer w) Sees where
  online := h.online
  epoch := fun i e he => ⟨(h.epoch i e he).1, le_succ_of_le (h.epoch i e he).2⟩
  start := le_succ_of_le h.start
  older := by
    intro w' stamp hq i hs
    rcases mem_append.mp hq with hq | hq
    · exact h.older w' stamp hq i hs
    · obtain ⟨rfl, rfl⟩ := Prod.mk.inj (mem_singleton.mp hq)
      obtain ⟨e, he⟩ := h.online i w' hs
      show (s.reader i).seen < s.epoch + 1
      rw [he]
      exact lt_succ_of_le (h.epoch i e (.inr he)).2
  stamped := by
    intro w' stamp hq
    rcases mem_append.mp hq with hq | hq
    · exact le_succ_of_le (h.stamped w' stamp hq)
    · obtain ⟨-, rfl⟩ := Prod.mk.inj (mem_singleton.mp hq)
      exact le_rfl
  checked := by
    intro k ready hp
    have hp' : s.phase = .collecting k ready := hp
    rw [State.locked, hp'] at hl
    cases hl
  ready := h.ready

theorem setPhase {p : Phase W}
    (hc : ∀ k ready, p = .collecting k ready → ∀ w stamp, s.queue.head? = some (w, stamp) →
      ∀ i : Fin n, i.val < k → ¬ Sees i w)
    (hr : ∀ w ∈ ({ s with phase := p } : State n W).ready, w ∈ s.ready) :
    Quiet { s with phase := p } Sees :=
  { h with checked := hc, ready := fun w hw => h.ready w (hr w hw) }

theorem reclaim : Quiet s.reclaim Sees := by
  have hstep := s.reclaimed
  generalize s.reclaim = s' at hstep
  cases hstep with
  | wait => exact h
  | start hp hq =>
    apply h.setPhase
    · intro k ready he w stamp _ i hi
      cases he
      exact absurd hi (not_lt_zero _)
    · exact fun w hw => absurd hw not_mem_nil
  | stop hp hq =>
    refine h.setPhase (fun k r he => by cases he) fun w hw => ?_
    rw [State.ready, hp]
    exact hw
  | @pass i ready w stamp rest hp hq hi hs =>
    apply h.setPhase
    · intro k r he w' stamp' hhead j hj hsees
      cases he
      rw [hq] at hhead
      cases hhead
      by_cases hji : j.val = i
      · -- the slot just read: a worker that sees the work has an older epoch
        obtain rfl : j = ⟨i, hi⟩ := Fin.ext hji
        have hold := h.older w stamp (hq ▸ mem_cons_self) _ hsees
        obtain ⟨e, he⟩ := h.online _ w hsees
        have hpos := (h.epoch _ e (.inr he)).1
        rw [he] at hold hs
        exact hs ⟨pos_iff_ne_zero.mp hpos, hold⟩
      · exact h.checked i ready hp w stamp (by rw [hq]; rfl) j (by omega) hsees
    · intro w' hw'
      rw [State.ready, hp]
      exact hw'
  | @pop i ready w stamp rest hp hq hi =>
    have hrest : ∀ p ∈ rest, p ∈ s.queue := fun p hp => hq ▸ mem_cons_of_mem _ hp
    refine ⟨h.online, h.epoch, h.start, fun w' st hm => h.older w' st (hrest _ hm),
      fun w' st hm => h.stamped w' st (hrest _ hm), ?_, ?_⟩
    · intro k r he w' st _ j hj
      cases he
      exact absurd hj (not_lt_zero _)
    · intro w' hw' j
      rcases mem_append.mp hw' with hw' | hw'
      · apply h.ready
        rw [State.ready, hp]
        exact hw'
      · rw [mem_singleton.mp hw']
        exact h.checked i ready hp w stamp (by rw [hq]; rfl) j (by have := j.isLt; omega)
  | finish hp =>
    exact h.setPhase (fun k r he => by cases he) fun w hw => absurd hw not_mem_nil
  | @hand w ready hp =>
    refine h.setPhase (fun k r he => by cases he) fun w' hw' => ?_
    rw [State.ready, hp]
    exact mem_cons_of_mem w hw'

/-- **No worker sees what a work item is about when it is run.** -/
theorem handed {w : W} (hw : s.handed = some w) (i : Fin n) : ¬ Sees i w := by
  apply h.ready
  unfold State.handed at hw
  split at hw
  case h_1 w' ready hp =>
    cases hw
    rw [State.ready, hp]
    exact mem_cons_self
  case h_2 => cases hw

end Quiet

/-! ## the pending work -/

namespace State
variable (s : State n W)

theorem pending_load (i : Fin n) : (s.load i).pending = s.pending := by
  unfold load
  split <;> rfl

theorem pending_store (i : Fin n) : (s.store i).pending = s.pending := by
  unfold store
  split <;> rfl

theorem pending_offline (i : Fin n) : (s.offline i).pending = s.pending := by
  unfold offline
  split <;> rfl

theorem pending_defer (w : W) : (s.defer w).pending = s.pending ++ [w] := by
  have hready : (s.defer w).ready = s.ready := rfl
  unfold pending
  rw [hready]
  simp [defer]

theorem pending_reclaim : s.pending = s.handed.toList ++ s.reclaim.pending := by
  have hstep := s.reclaimed
  generalize s.reclaim = s' at hstep
  cases hstep with
  | wait hp => simp [handed, hp]
  | pop hp hq => simp [handed, pending, ready, hp, hq]
  | start hp | stop hp | pass hp | finish hp | hand hp => simp [handed, pending, ready, hp]

end State

/-! ## deferred work is run -/

/-- what happens to the grace periods in one step of the whole program -/
inductive Op (n : Nat) (W : Type) where
  | load (i : Fin n)
  | store (i : Fin n)
  | offline (i : Fin n)
  | defer (w : W)
  | reclaim | skip

def State.apply (s : State n W) : Op n W → State n W
  | .load i => s.load i
  | .store i => s.store i
  | .offline i => s.offline i
  | .defer w => s.defer w
  | .reclaim => s.reclaim
  | .skip => s

/-- an endless run in which work is deferred under the lock, the workers keep going offline and the
reclaimer goes on -/
structure Goes (q : Nat → State n W) (op : Nat → Op n W) : Prop where
  step : ∀ t, q (t + 1) = (q t).apply (op t)
  lock : ∀ t w, op t = .defer w → (q t).locked = false
  stamped : ∀ t w stamp, (w, stamp) ∈ (q t).queue → stamp ≤ (q t).epoch
  reclaims : ∀ t, ∃ t', t ≤ t' ∧ op t' = .reclaim
  leaves : ∀ i t, ∃ t', t ≤ t' ∧ (q t').reader i = .offline

/-- the worker holds back no grace period up to `stamp`, now or later -/
def Past (stamp : Nat) (s : State n W) (i : Fin n) : Prop :=
  stamp ≤ s.epoch ∧ ∀ e, s.reader i = .loaded e ∨ s.reader i = .online e → stamp ≤ e

section
variable {s : State n W} {stamp : Nat} {i : Fin n}

variable (h : Past stamp s i)
include h

theorem Past.slot : ¬ ((s.reader i).seen ≠ 0 ∧ (s.reader i).seen < stamp) := by
  rintro ⟨h0, hlt⟩
  cases hr : s.reader i with
  | offline | loaded =>
    rw [hr] at h0
    exact h0 rfl
  | online e =>
    rw [hr] at hlt
    exact absurd (h.2 e (.inr hr)) (not_le.mpr hlt)

theorem Past.setReader {j : Fin n} {v : Reader}
    (hv : j = i → ∀ e, v = .loaded e ∨ v = .online e → stamp ≤ e) :
    Past stamp (s.setReader j v) i := by
  refine ⟨h.1, ?_⟩
  intro e he
  by_cases hij : i = j
  · subst hij
    rw [s.setReader_self] at he
    exact hv rfl e he
  · rw [s.setReader_of_ne hij] at he
    exact h.2 e he

theorem Past.apply (op : Op n W) : Past stamp (s.apply op) i := by
  cases op with
  | load j =>
    show Past stamp (s.load j) i
    unfold State.load
    split
    case h_1 hr =>
      apply h.setReader
      rintro hj e (he | he)
      · cases he
        exact h.1
      · cases he
    case h_2 => exact h
  | store j =>
    show Past stamp (s.store j) i
    unfold State.store
    split
    case h_1 e hr =>
      apply h.setReader
      rintro rfl e' (he | he)
      · cases he
      · cases he
        exact h.2 e (.inl hr)
    case h_2 => exact h
  | offline j =>
    show Past stamp (s.offline j) i
    unfold State.offline
    split
    case h_1 e hr =>
      apply h.setReader
      rintro rfl e' (he | he) <;> cases he
    case h_2 => exact h
  | defer w => exact ⟨le_succ_of_le h.1, h.2⟩
  | reclaim =>
    show Past stamp s.reclaim i
    have hstep := s.reclaimed
    generalize s.reclaim = s' at hstep
    cases hstep <;> exact h
  | skip => exact h

end

theorem epoch_apply (s : State n W) (op : Op n W) : s.epoch ≤ (s.apply op).epoch := by
  cases op with
  | load j =>
    show _ ≤ (s.load j).epoch
    unfold State.load
    split <;> exact le_rfl
  | store j =>
    show _ ≤ (s.store j).epoch
    unfold State.store
    split <;> exact le_rfl
  | offline j =>
    show _ ≤ (s.offline j).epoch
    unfold State.offline
    split <;> exact le_rfl
  | defer w => exact le_succ _
  | reclaim =>
    show _ ≤ s.reclaim.epoch
    have hstep := s.reclaimed
    generalize s.reclaim = s' at hstep
    cases hstep <;> exact le_rfl
  | skip => exact le_rfl

/-- how far the reclaimer is from taking the head of the queue, when no slot holds it back -/
def State.distance (s : State n W) : Nat :=
  match s.phase with
  | .idle => n + 1
  | .collecting i _ => n - i
  | .running ready => n + 2 + ready.length

/-- a step of the reclaimer takes the head of the queue or leaves the queue alone, and then it comes
nearer to the head if no slot holds it back -/
theorem reclaim_front {s : State n W} {w : W} {stamp : Nat}
    (hhead : s.queue.head? = some (w, stamp)) :
    (s.reclaim.queue = s.queue ∧ ((∀ i, Past stamp s i) → s.reclaim.distance < s.distance)) ∨
      (s.reclaim.queue = s.queue.tail ∧ w ∈ s.reclaim.ready) := by
  have hstep := s.reclaimed
  generalize s.reclaim = s' at hstep
  cases hstep with
  | wait hp hq =>
    rw [hq] at hhead
    cases hhead
  | start hp | finish hp | hand hp => exact .inl ⟨rfl, fun _ => by simp [State.distance, hp]⟩
  | stop hp hq =>
    refine .inl ⟨rfl, fun hpast => ?_⟩
    obtain ⟨hi, hs⟩ := hq w stamp hhead
    exact absurd hs (hpast ⟨_, hi⟩).slot
  | pass hp hq hi hs =>
    refine .inl ⟨rfl, fun _ => ?_⟩
    simp only [State.distance, hp]
    omega
  | @pop i ready w' stamp' rest hp hq hi =>
    refine .inr ⟨by rw [hq]; rfl, ?_⟩
    rw [hq] at hhead
    cases hhead
    exact mem_append_right ready mem_cons_self

theorem apply_front (s : State n W) {op : Op n W} (hop : op ≠ .reclaim) :
    (s.apply op).phase = s.phase ∧ ((s.apply op).queue = s.queue ∨
        ∃ w, op = .defer w ∧ (s.apply op).queue = s.queue ++ [(w, s.epoch + 1)]) := by
  cases op with
  | load j =>
    show (s.load j).phase = _ ∧ ((s.load j).queue = _ ∨ _)
    unfold State.load
    split <;> exact ⟨rfl, .inl rfl⟩
  | store j =>
    show (s.store j).phase = _ ∧ ((s.store j).queue = _ ∨ _)
    unfold State.store
    split <;> exact ⟨rfl, .inl rfl⟩
  | offline j =>
    show (s.offline j).phase = _ ∧ ((s.offline j).queue = _ ∨ _)
    unfold State.offline
    split <;> exact ⟨rfl, .inl rfl⟩
  | defer w => exact ⟨rfl, .inr ⟨w, rfl, rfl⟩⟩
  | reclaim => exact absurd rfl hop
  | skip => exact ⟨rfl, .inl rfl⟩

theorem apply_keeps_front (s : State n W) {op : Op n W} (hop : op ≠ .reclaim) :
    s.queue <+: (s.apply op).queue := by
  rcases (apply_front s hop).2 with hq | ⟨w, -, hq⟩
  · exact hq ▸ prefix_rfl
  · exact hq ▸ prefix_append _ _

namespace Goes
variable {q : Nat → State n W} {op : Nat → Op n W}

theorem epoch_mono (h : Goes q op) {t t' : Nat} (ht : t ≤ t') : (q t).epoch ≤ (q t').epoch := by
  induction t', ht using le_induction with
  | base => exact le_rfl
  | succ t' ht ih =>
    rw [h.step t']
    exact le_trans ih (epoch_apply _ _)

theorem all_past (h : Goes q op) {t stamp : Nat} (hs : stamp ≤ (q t).epoch) :
    ∃ t', t ≤ t' ∧ ∀ k, t' ≤ k → ∀ i, Past stamp (q k) i := by
  choose f hf hoff using fun i => h.leaves i t
  obtain ⟨m, hm⟩ := Finite.exists_le f
  -- a worker that was offline holds it back no more
  have hpast : ∀ i k, f i ≤ k → Past stamp (q k) i := by
    intro i k hk
    induction k, hk using le_induction with
    | base =>
      refine ⟨le_trans hs (h.epoch_mono (hf i)), ?_⟩
      rintro e (he | he) <;> rw [hoff i] at he <;> cases he
    | succ k hk ih =>
      rw [h.step k]
      exact ih.apply _
  exact ⟨max t m, le_max_left _ _, fun k hk i =>
    hpast i k (le_trans (hm i) (le_trans (le_max_right _ _) hk))⟩

end Goes

/-- a work item at a place of the queue, and the head of the queue -/
def Queued (w : W) (stamp : Nat) (j : Nat) (v : W) (first : Nat) (s : State n W) : Prop :=
  s.queue[j]? = some (w, stamp) ∧ s.queue.head? = some (v, first)

/-- the work item was found ready or moved up -/
def Moved (w : W) (stamp : Nat) (j : Nat) (s : State n W) : Prop :=
  w ∈ s.ready ∨ ∃ i, i < j ∧ s.queue[i]? = some (w, stamp)

section
variable {s : State n W} {w v : W} {stamp j first : Nat}

variable {s' : State n W}

variable (h : Queued w stamp j v first s)
include h

theorem moved_of_tail (hq : s'.queue = s.queue.tail) (hr : v ∈ s'.ready) : Moved w stamp j s' := by
  cases j with
  | zero =>
    have hvw : some (w, stamp) = some (v, first) := by
      rw [← h.1, ← h.2, head?_eq_getElem?]
    cases hvw
    exact .inl hr
  | succ j =>
    refine .inr ⟨j, lt_succ_self j, ?_⟩
    rw [hq, getElem?_tail]
    exact h.1

theorem Queued.of_front (hq : s.queue <+: s'.queue) : Queued w stamp j v first s' := by
  obtain ⟨u, hu⟩ := hq
  constructor
  · rw [← hu, getElem?_append_left (List.getElem?_eq_some_iff.mp h.1).1]
    exact h.1
  · rw [← hu, head?_append, h.2]
    rfl

omit h in
theorem State.distance_congr (hp : s'.phase = s.phase) : s'.distance = s.distance := by
  unfold State.distance
  rw [hp]

theorem Queued.apply (op : Op n W) :
    Moved w stamp j (s.apply op) ∨ (Queued w stamp j v first (s.apply op) ∧
      ((∀ i, Past first s i) → (s.apply op).distance ≤ s.distance ∧
        (op = .reclaim → (s.apply op).distance < s.distance))) := by
  by_cases hop : op = .reclaim
  · subst hop
    rcases reclaim_front h.2 with ⟨hq, hd⟩ | ⟨hq, hr⟩
    · exact .inr ⟨h.of_front (hq ▸ prefix_rfl), fun hpast =>
        ⟨le_of_lt (hd hpast), fun _ => hd hpast⟩⟩
    · exact .inl (moved_of_tail h hq hr)
  · have hp := (apply_front s hop).1
    exact .inr ⟨h.of_front (apply_keeps_front s hop), fun _ =>
      ⟨(State.distance_congr hp).le, fun hr => absurd hr hop⟩⟩

end

/-! ## the running of collected work -/

/-- the reclaimer has collected the work and is not done collecting -/
def State.Collected (w : W) (s : State n W) : Prop :=
  ∃ k ready, s.phase = .collecting k ready ∧ w ∈ ready

def State.Running (w : W) (s : State n W) : Prop := ∃ ready, s.phase = .running ready ∧ w ∈ ready
def State.room (s : State n W) : Nat := s.queue.length * (n + 1) + s.distance

namespace State.Collected
variable {s : State n W} {w : W}

variable (h : s.Collected w)
include h

theorem locked : s.locked = true := by
  obtain ⟨k, ready, hp, -⟩ := h
  rw [State.locked, hp]

theorem congr {s' : State n W} (hp : s'.phase = s.phase) (hq : s'.queue = s.queue) :
    s'.Collected w ∧ s'.room ≤ s.room := by
  refine ⟨?_, ?_⟩
  · unfold State.Collected
    rw [hp]
    exact h
  · rw [State.room, State.room, hq, State.distance_congr hp]

theorem reclaim : s.reclaim.Running w ∨ (s.reclaim.Collected w ∧ s.reclaim.room < s.room) := by
  obtain ⟨k, ready, hp, hw⟩ := h
  have hstep := s.reclaimed
  generalize s.reclaim = s' at hstep
  cases hstep with
  | wait hp' | start hp' | finish hp' | hand hp' => cases hp.symm.trans hp'
  | stop hp' =>
    cases hp.symm.trans hp'
    exact .inl ⟨ready, rfl, hw⟩
  | pass hp' hq hi =>
    cases hp.symm.trans hp'
    refine .inr ⟨⟨k + 1, ready, rfl, hw⟩, ?_⟩
    simp only [State.room, State.distance, hp]
    omega
  | @pop _ _ v stamp rest hp' hq hi =>
    cases hp.symm.trans hp'
    refine .inr ⟨⟨0, ready ++ [v], rfl, mem_append_left _ hw⟩, ?_⟩
    simp only [State.room, State.distance, hp, hq, length_cons, succ_mul]
    omega

end State.Collected

namespace Goes
variable {q : Nat → State n W} {op : Nat → Op n W}

variable {t j stamp : Nat} {w : W}

variable (h : Goes q op)
include h

theorem queue_moves (hw : (q t).queue[j]? = some (w, stamp)) :
    ∃ t', t ≤ t' ∧ Moved w stamp j (q t') := by
  obtain ⟨⟨v, first⟩, hhead⟩ : ∃ p, (q t).queue.head? = some p := by
    cases hq : (q t).queue with
    | nil =>
      rw [hq] at hw
      cases hw
    | cons p rest => exact ⟨p, rfl⟩
  -- a moment from which no slot holds back the head of the queue
  obtain ⟨m, htm, hpast⟩ := h.all_past (h.stamped t v first (mem_of_head? hhead))
  have hreach : ∀ k, t ≤ k → (∃ t', t ≤ t' ∧ Moved w stamp j (q t')) ∨
      Queued w stamp j v first (q k) := by
    intro k hk
    induction k, hk using le_induction with
    | base => exact .inr ⟨hw, hhead⟩
    | succ k hk ih =>
      rcases ih with ih | ih
      · exact .inl ih
      · rcases ih.apply (op k) with hm | ⟨hq, -⟩
        · exact .inl ⟨k + 1, by omega, by rw [h.step k]; exact hm⟩
        · exact .inr (by rw [h.step k]; exact hq)
  rcases hreach m htm with hdone | hstart
  · exact hdone
  · obtain ⟨k, hk, hm⟩ := Run.leads_measure h.reclaims (Queued w stamp j v first) (Moved w stamp j)
      State.distance hstart
      (fun k hk hq => by
        rw [h.step k]
        exact (hq.apply (op k)).imp id fun hq' => ⟨hq'.1, (hq'.2 (hpast k hk)).1⟩)
      (fun k hk hq hr => by
        rw [h.step k]
        exact (hq.apply (op k)).imp id fun hq' => ⟨hq'.1, (hq'.2 (hpast k hk)).2 hr⟩)
    exact ⟨k, by omega, hm⟩

theorem queue_ready (hw : (q t).queue[j]? = some (w, stamp)) : ∃ t', t ≤ t' ∧ w ∈ (q t').ready := by
  induction j using Nat.strong_induction_on generalizing t with
  | _ j ih =>
    obtain ⟨t', ht, hr | ⟨i, hi, hq⟩⟩ := h.queue_moves hw
    · exact ⟨t', ht, hr⟩
    · obtain ⟨t'', ht', hr⟩ := ih i hi hq
      exact ⟨t'', le_trans ht ht', hr⟩

theorem collected_runs (hw : (q t).Collected w) :
    ∃ t' ready, t ≤ t' ∧ (q t').phase = .running ready ∧ w ∈ ready := by
  obtain ⟨t', ht, ready, hr⟩ := Run.leads_measure h.reclaims (State.Collected w) (State.Running w)
    State.room hw
    (fun k _ hc => by
      by_cases hop : op k = .reclaim
      · rw [h.step k, hop]
        exact hc.reclaim.imp id fun hc' => ⟨hc'.1, hc'.2.le⟩
      · obtain ⟨hp, hq | ⟨v, hv, -⟩⟩ := apply_front (q k) hop
        · rw [h.step k]
          exact .inr (hc.congr hp hq)
        · exact absurd (h.lock k v hv) (by rw [hc.locked]; exact nofun))
    (fun k _ hc hop => by
      rw [h.step k, hop]
      exact hc.reclaim)
  exact ⟨t', ready, ht, hr⟩

theorem running_handed {ready : List W} (hp : (q t).phase = .running ready) (hw : w ∈ ready) :
    ∃ t', t ≤ t' ∧ op t' = .reclaim ∧ (q t').handed = some w := by
  induction ready generalizing t with
  | nil => exact absurd hw not_mem_nil
  | cons v ready ih =>
    obtain ⟨m, hm, hop, hpm⟩ := Run.until_tick h.reclaims
      (fun s : State n W => s.phase = .running (v :: ready)) hp
      (fun k _ hop hk => by
        rw [h.step k, (apply_front _ hop).1]
        exact hk)
    by_cases hvw : v = w
    · refine ⟨m, hm, hop, ?_⟩
      rw [State.handed, hpm, hvw]
    · have hnext : (q (m + 1)).phase = .running ready := by
        rw [h.step m, hop]
        show (q m).reclaim.phase = _
        rw [State.reclaim, hpm]
      obtain ⟨t', ht, hr⟩ := ih hnext ((mem_cons.mp hw).resolve_left fun he => hvw he.symm)
      exact ⟨t', by omega, hr⟩

/-- **Deferred work is run.** -/
theorem deferred_runs (hw : w ∈ (q t).pending) :
    ∃ t', t ≤ t' ∧ op t' = .reclaim ∧ (q t').handed = some w := by
  -- the work is found ready
  have hready : ∃ t', t ≤ t' ∧ w ∈ (q t').ready := by
    rcases mem_append.mp hw with hw | hw
    · exact ⟨t, le_rfl, hw⟩
    · obtain ⟨⟨w', stamp⟩, hm, rfl⟩ := mem_map.mp hw
      obtain ⟨j, hj⟩ := getElem?_of_mem hm
      exact h.queue_ready hj
  obtain ⟨t1, ht1, hr⟩ := hready
  cases hp : (q t1).phase with
  | idle =>
    rw [State.ready, hp] at hr
    exact absurd hr not_mem_nil
  | collecting k ready =>
    rw [State.ready, hp] at hr
    obtain ⟨t2, ready', ht2, hp2, hw2⟩ := h.collected_runs ⟨k, ready, hp, hr⟩
    obtain ⟨t3, ht3, hdone⟩ := h.running_handed hp2 hw2
    exact ⟨t3, by omega, hdone⟩
  | running ready =>
    rw [State.ready, hp] at hr
    obtain ⟨t3, ht3, hdone⟩ := h.running_handed hp hr
    exact ⟨t3, by omega, hdone⟩

end Goes

end Qsbr
