import InferenceGateway.Lib.Run
import InferenceGateway.Pd.Pool

/-!
# Parked prefill requests

Connections that take prefill units with `pd_reserve_prefill`, give them back with `pd_load_put`,
`pd_load_release` and `pd_load_commit`, and wait in the parked FIFOs of the endpoints, interleaved:
every atomic access and every section under `pd_parked_lock` is one step.  The cap, the queue
depth and the pool do not change.  Which endpoint the tiers of the selection propose is the
schedule's choice, within the masks they honour.

A unit that is given back wakes one entry of its endpoint's FIFO, and the woken request selects
again over all endpoints.  `turns` counts the returned units of an endpoint that are on their way
to a waiter.

* `Balanced`                  every free unit of an endpoint with waiters is on its way to one;
* `drops`                     the turn a step uses up without taking the unit it was given for;
* `waiter_never_stranded`     runs stay balanced exactly when no dropped turn was still needed;
* `waiter_stranded`           the woken request takes a unit of another endpoint, or has gone.
-/

open Function List

namespace Pd

/-- `pd_max_inflight_per_ep` and `pd_queue_depth_per_ep` -/
structure Limits where
  (cap depth : Nat)
  depth_pos : 1 ≤ depth

/-- the locals of a `pd_reserve_prefill` call -/
structure Call where
  /-- `original_excluded` -/
  excl : Mask
  allowPark : Bool
  rejected : Mask
  /-- the endpoint whose returned unit the caller was woken for, when it was woken -/
  turn : Option Nat
  deriving DecidableEq, Repr

/-- what a connection's owner is doing -/
inductive Task where
  | idle
  /-- `PD_PREFILL_PARKED` was returned with `park_ep_idx = e` -/
  | parked (e : Nat)
  /-- in the in-flight cap loop, before the body for endpoint `i` -/
  | scan (r : Call) (i : Nat) (a : CapScan)
  /-- before the section under `pd_parked_lock` -/
  | park (r : Call)
  /-- in the tiers, which honour the mask -/
  | pick (r : Call) (mask : Mask)
  /-- in `pd_load_try_reserve`, with the value of `cur` once it was read -/
  | grab (r : Call) (e : Nat) (cur : Option Nat)
  /-- `pd_reserve_prefill` returned 0 with `e` -/
  | got (e : Nat)
  /-- in `pd_load_put`, with the value of `cur` once it was read -/
  | put (e : Nat) (cur : Option Nat)
  /-- in `pd_wake_parked_one`, before the pop -/
  | wake (e : Nat)
  /-- in `pd_wake_parked_one`, with the entry it popped -/
  | popped (e c : Nat)
  /-- in `pd_cleanup` of a closed connection, before its FIFO entry is removed -/
  | leave (e : Nat)
  /-- in `pd_cleanup` of a closed connection, before its unit is given back -/
  | drop
  deriving DecidableEq, Repr

/-- a connection, named by its position: an `(fd, gen)` pair is used once -/
structure Conn where
  /-- registered with its generation -/
  alive : Bool
  /-- `pd_prefill_load_token` -/
  token : Option Nat
  task : Task
  deriving DecidableEq, Repr

structure State where
  /-- `active_conns` -/
  load : Nat → Nat
  /-- `pd_parked`, oldest entry first -/
  fifo : Nat → List Nat
  /-- wakes not yet delivered: the connection, and the endpoint it was popped for -/
  wakes : List (Nat × Nat)
  conns : List Conn

inductive Act where
  /-- a request calls `pd_reserve_prefill` -/
  | start (c : Nat) (excl : Mask) (allowPark : Bool)
  /-- the next step of what the connection's owner is doing -/
  | step (c : Nat)
  /-- a weak compare-exchange fails though the value is the expected one -/
  | miss (c : Nat)
  /-- a tier proposes endpoint `e` -/
  | pick (c e : Nat)
  | noPick (c : Nat)
  /-- the wake of the entry that the connection popped fails -/
  | noWake (c : Nat)
  /-- `pd_load_commit` of the reserved unit -/
  | commit (c : Nat)
  /-- the reserved unit is given back, with no token taken -/
  | rollback (c : Nat)
  /-- `pd_load_release` of the connection's token -/
  | release (c : Nat)
  | close (c : Nat)
  /-- a wake of the connection is delivered; the request selects again with this mask -/
  | deliver (c : Nat) (excl : Mask)
  deriving DecidableEq, Repr

namespace State

def setTask (s : State) (c : Nat) (k : Conn) (t : Task) : State :=
  { s with conns := s.conns.set c { k with task := t } }

def setLoad (s : State) (e v : Nat) : State := { s with load := update s.load e v }
def setFifo (s : State) (e : Nat) (q : List Nat) : State := { s with fifo := update s.fifo e q }

end State

def uint32Max : Nat := 4294967295

/-- the loop test of `pd_load_try_reserve` -/
def mayTake (cap cur : Nat) : Bool := cur != uint32Max && (cap == 0 || decide (cur < cap))

/-- the code from `select_again` on -/
def selectAgain (p : Pool) (l : Limits) (r : Call) : Task :=
  if l.cap = 0 then .pick r (withCtrl p r.excl ||| r.rejected) else .scan r 0 ⟨0, 0, 0⟩

/-- the cap loop found every endpoint it looked at at the cap -/
def allCapped (a : CapScan) : Bool := decide (0 < a.healthyElig) && a.underCap == 0

/-- the guards every tier has -/
def mayPick (p : Pool) (mask : Mask) (e : Nat) : Bool :=
  decide (e < p.nEps) && !mask.testBit e && !p.inv e && !tripped p e

def noCandidate (p : Pool) (mask : Mask) : Bool := (range p.nEps).all fun i => !takesNew p mask i

/-- what follows the exchange of a token -/
def afterExchange : Option Nat → Task
  | some e => .put e none
  | none => .idle

/-- the next step of a connection's owner -/
def advance (p : Pool) (l : Limits) (s : State) (c : Nat) (k : Conn) : State :=
  match k.task with
  | .scan r i a =>
    if i < p.nEps then
      s.setTask c k
        (.scan r (i + 1) (capScanStep p l.cap (withCtrl p r.excl) r.rejected (s.load i) i a))
    else if allCapped a then
      if r.allowPark then s.setTask c k (.park r)
      else s.setTask c k .idle                         -- shed: no parking asked for
    else s.setTask c k (.pick r (withCtrl p r.excl ||| a.capExcl ||| r.rejected))
  | .park r =>
    if roomy p l.cap (withCtrl p r.excl) s.load then
      s.setTask c k (selectAgain p l { r with rejected := 0 })
    else match shortestFifo p l.depth (withCtrl p r.excl) (fun i => (s.fifo i).length) with
      | some e => (s.setFifo e (s.fifo e ++ [c])).setTask c k (.parked e)
      | none => s.setTask c k .idle                    -- shed: every FIFO is full
  | .grab r e none => s.setTask c k (.grab r e (some (s.load e)))
  | .grab r e (some cur) =>
    if mayTake l.cap cur then
      if s.load e = cur then (s.setLoad e (cur + 1)).setTask c k (.got e)
      else s.setTask c k (.grab r e (some (s.load e)))
    else s.setTask c k (selectAgain p l { r with rejected := r.rejected ||| bit e })
  | .put e none => s.setTask c k (.put e (some (s.load e)))
  | .put e (some cur) =>
    if 0 < cur then
      if s.load e = cur then
        (s.setLoad e (cur - 1)).setTask c k (if p.epRole e = 1 then .wake e else .idle)
      else s.setTask c k (.put e (some (s.load e)))
    else s.setTask c k .idle
  | .wake e =>
    match s.fifo e with
    | [] => s.setTask c k .idle
    | d :: q => (s.setFifo e q).setTask c k (.popped e d)
  | .popped e d =>
    if (s.conns[d]?).any Conn.alive then
      { s with wakes := s.wakes ++ [(d, e)] }.setTask c k .idle
    else s.setTask c k (.wake e)                       -- canceled or recycled head
  | .leave e => (s.setFifo e ((s.fifo e).erase c)).setTask c k .drop
  | .drop => { s with conns := s.conns.set c { k with token := none, task := afterExchange k.token } }
  | _ => s

/-- a weak compare-exchange that fails for no reason reads the value again -/
def spurious (l : Limits) (s : State) (c : Nat) (k : Conn) : State :=
  match k.task with
  | .grab r e (some cur) =>
    if mayTake l.cap cur then s.setTask c k (.grab r e (some (s.load e))) else s
  | .put e (some cur) => if 0 < cur then s.setTask c k (.put e (some (s.load e))) else s
  | _ => s

/-- the call a woken request makes -/
def resumed (e : Nat) (excl : Mask) : Call :=
  { excl, allowPark := true, rejected := 0, turn := some e }

/-- a wake finds its connection parked, with its entry popped -/
def myTurn (fifo : Nat → List Nat) (c : Nat) (k : Conn) : Bool :=
  k.alive && match k.task with
    | .parked e => !(fifo e).contains c
    | _ => false

/-- the owner of the connection can look at a wake now -/
def listens (k : Conn) : Bool :=
  !k.alive || match k.task with
    | .idle | .parked _ => true
    | _ => false

def deliver (p : Pool) (l : Limits) (s : State) (c : Nat) (k : Conn) (excl : Mask) : State :=
  match s.wakes.find? (·.1 == c) with
  | some w =>
    if listens k then
      if myTurn s.fifo c k then
        { s with wakes := s.wakes.erase w }.setTask c k (selectAgain p l (resumed w.2 excl))
      else { s with wakes := s.wakes.erase w }
    else s
  | none => s

/-- one action of connection `c`; what is not enabled changes nothing -/
def act (p : Pool) (l : Limits) (s : State) (c : Nat) (k : Conn) : Act → State
  | .start _ excl allowPark =>
    if k.alive && k.task == .idle then
      s.setTask c k (selectAgain p l { excl, allowPark, rejected := 0, turn := none })
    else s
  | .step _ => advance p l s c k
  | .miss _ => spurious l s c k
  | .pick _ e =>
    match k.task with
    | .pick r mask => if mayPick p mask e then s.setTask c k (.grab r e none) else s
    | _ => s
  | .noPick _ =>
    match k.task with
    | .pick _ mask => if noCandidate p mask then s.setTask c k .idle else s
    | _ => s
  | .noWake _ =>
    match k.task with
    | .popped _ d => if (s.conns[d]?).any Conn.alive then s.setTask c k .idle else s
    | _ => s
  | .commit _ =>
    match k.task with
    | .got e => { s with conns := s.conns.set c
                           { k with token := some e, task := afterExchange k.token } }
    | _ => s
  | .rollback _ =>
    match k.task with
    | .got e => s.setTask c k (.put e none)
    | _ => s
  | .release _ =>
    if k.alive && k.task == .idle then
      { s with conns := s.conns.set c { k with token := none, task := afterExchange k.token } }
    else s
  | .close _ =>
    match k.task with
    | .idle => { s with conns := s.conns.set c { k with alive := false, task := .drop } }
    | .parked e => { s with conns := s.conns.set c { k with alive := false, task := .leave e } }
    | _ => s
  | .deliver _ excl => deliver p l s c k excl

def Act.conn : Act → Nat
  | .start c _ _ | .step c | .miss c | .pick c _ | .noPick c | .noWake c | .commit c | .rollback c
  | .release c | .close c | .deliver c _ => c

def apply (p : Pool) (l : Limits) (s : State) (a : Act) : State :=
  match s.conns[a.conn]? with
  | some k => act p l s a.conn k a
  | none => s

def init (n : Nat) : State :=
  { load := fun _ => 0, fifo := fun _ => [], wakes := []
    conns := replicate n { alive := true, token := none, task := .idle } }

def run (p : Pool) (l : Limits) (n : Nat) (as : List Act) : State := as.foldl (apply p l) (init n)

/-! ## turns -/

/-- the endpoint whose returned unit the task is passing on or was woken for -/
def Task.turn : Task → Option Nat
  | .scan r _ _ | .park r | .pick r _ | .grab r _ _ => r.turn
  | .wake e | .popped e _ => some e
  | _ => none

theorem turn_selectAgain (p : Pool) (l : Limits) (r : Call) :
    (selectAgain p l r).turn = r.turn := by
  unfold selectAgain
  split <;> rfl

theorem turn_afterExchange (o : Option Nat) : (afterExchange o).turn = none := by
  cases o <;> rfl

def Conn.holds (e : Nat) (k : Conn) : Bool := k.task.turn == some e

@[simp] theorem Conn.holds_iff {e : Nat} {k : Conn} : k.holds e = true ↔ k.task.turn = some e := by
  rw [holds, beq_iff_eq]

def wakesFor (ws : List (Nat × Nat)) (e : Nat) : Nat := ws.countP (·.2 == e)

namespace State

/-- the returned units of an endpoint that are on their way to a waiter: between the decrement
and the pop, in an undelivered wake, or with a woken request that has not ended its call -/
def turns (s : State) (e : Nat) : Nat := s.conns.countP (Conn.holds e) + wakesFor s.wakes e

/-- the units of an endpoint that are taken or on their way to a waiter -/
def due (s : State) (e : Nat) : Nat := s.load e + s.turns e

end State

/-- **every free unit of an endpoint with waiters is on its way to a waiter** -/
def Balanced (p : Pool) (l : Limits) (s : State) : Prop :=
  ∀ e, p.epRole e = 1 → s.fifo e ≠ [] → l.cap ≤ s.due e

/-- no waiter is asleep next to a free unit of the endpoint it waits on -/
def NoneStranded (p : Pool) (l : Limits) (s : State) : Prop :=
  ∀ e, p.epRole e = 1 → s.fifo e ≠ [] → l.cap ≤ s.load e

def Task.rests : Task → Bool
  | .idle | .parked _ | .got _ => true
  | _ => false

def Quiet (s : State) : Prop := (∀ k ∈ s.conns, k.task.rests = true) ∧ s.wakes = []

variable {s : State} {p : Pool} {l : Limits}

theorem turns_of_quiet (h : Quiet s) (e : Nat) : s.turns e = 0 := by
  have hconns : s.conns.countP (Conn.holds e) = 0 := by
    rw [countP_eq_zero]
    intro k hk
    have hrest := h.1 k hk
    cases ht : k.task <;> simp [ht, Task.rests] at hrest <;> simp [Conn.holds, ht, Task.turn]
  rw [State.turns, hconns, h.2]
  rfl

theorem balanced_iff_of_quiet (h : Quiet s) : Balanced p l s ↔ NoneStranded p l s := by
  simp only [Balanced, NoneStranded, State.due, turns_of_quiet h, Nat.add_zero]

/-! ## the turns a step drops -/

/-- the endpoint whose turn ends with this step of the connection's owner, with no unit of it
taken for the turn -/
def dropsAdvance (p : Pool) (l : Limits) (s : State) (k : Conn) : Option Nat :=
  match k.task with
  | .scan r i a => if ¬ i < p.nEps ∧ allCapped a ∧ ¬ r.allowPark then r.turn else none
  | .park r => if roomy p l.cap (withCtrl p r.excl) s.load then none else r.turn
  | .grab r e (some cur) =>
    if mayTake l.cap cur ∧ s.load e = cur ∧ r.turn ≠ some e then r.turn else none
  | .wake e => if s.fifo e = [] then some e else none
  | _ => none

/-- the same for every action: a woken request ends its call without a unit, takes one of another
endpoint or is not there any more, its wake fails, or a returned unit finds nobody waiting -/
def drops (p : Pool) (l : Limits) (s : State) (a : Act) : Option Nat :=
  match s.conns[a.conn]? with
  | none => none
  | some k => match a with
    | .step _ => dropsAdvance p l s k
    | .noPick _ =>
      match k.task with
      | .pick r mask => if noCandidate p mask then r.turn else none
      | _ => none
    | .noWake _ =>
      match k.task with
      | .popped e d => if (s.conns[d]?).any Conn.alive then some e else none
      | _ => none
    | .deliver c _ =>
      match s.wakes.find? (·.1 == c) with
      | some w => if listens k ∧ ¬ myTurn s.fifo c k then some w.2 else none
      | none => none
    | _ => none

/-- a turn is only dropped where nobody else waits on the endpoint, or where the units taken and
the other turns still fill it -/
def HandsOn (p : Pool) (l : Limits) (s : State) (a : Act) : Prop :=
  ∀ e, drops p l s a = some e → p.epRole e = 1 → s.fifo e = [] ∨ l.cap < s.due e

/-- what a step does to what is due -/
structure Effect (p : Pool) (l : Limits) (s s' : State) (lost : Option Nat) : Prop where
  due : ∀ e, p.epRole e = 1 → lost ≠ some e → s.due e ≤ s'.due e
  less : ∀ e, lost = some e → s.due e = s'.due e + 1
  fifo : ∀ e, s'.fifo e ≠ [] → s.fifo e ≠ [] ∨ l.cap ≤ s'.load e
  same : ∀ e, lost = some e → s'.fifo e = s.fifo e ∨ l.cap ≤ s'.load e

open Effect

theorem Effect.balanced_iff {s' : State} {lost : Option Nat} (h : Effect p l s s' lost)
    (hb : Balanced p l s) :
    Balanced p l s' ↔ ∀ e, lost = some e → p.epRole e = 1 → s.fifo e = [] ∨ l.cap < s.due e := by
  have hload : ∀ e, s'.load e ≤ s'.due e := fun e => Nat.le_add_right _ _
  constructor
  · intro hb' e he hr
    have hless := h.less e he
    by_cases hq : s.fifo e = []
    · exact .inl hq
    · right
      rcases h.same e he with hsame | hcap
      · have := hb' e hr (hsame ▸ hq)
        omega
      · have := hload e
        omega
  · intro hok e hr hq
    rcases h.fifo e hq with hq0 | hcap
    · by_cases he : lost = some e
      · have hless := h.less e he
        rcases hok e he hr with hnil | hlt
        · exact absurd hnil hq0
        · omega
      · exact (hb e hr hq0).trans (h.due e hr he)
    · exact hcap.trans (hload e)

section
variable {p : Pool} {l : Limits} {s : State} {c : Nat} {k : Conn}

def share (k : Conn) (e : Nat) : Nat := if k.holds e then 1 else 0

variable {e : Nat} {w : Nat × Nat}

theorem share_pos (h : k.task.turn = some e) : share k e = 1 := if_pos (Conn.holds_iff.mpr h)

theorem share_neg (h : k.task.turn ≠ some e) : share k e = 0 :=
  if_neg fun hh => h (Conn.holds_iff.mp hh)

theorem share_le (k : Conn) (e : Nat) : share k e ≤ 1 := by
  unfold share
  split <;> omega

theorem share_none (h : k.task.turn = none) (e : Nat) : share k e = 0 :=
  share_neg (by rw [h]; exact nofun)

theorem Effect.refl : Effect p l s s none where
  due _ _ _ := le_rfl
  less _ he := by cases he
  fifo _ hq := .inl hq
  same _ he := by cases he

theorem wakesFor_append (ws : List (Nat × Nat)) (c e d : Nat) :
    wakesFor (ws ++ [(c, e)]) d = wakesFor ws d + if e = d then 1 else 0 := by
  simp [wakesFor, countP_append, countP_cons]

theorem wakesFor_erase {ws : List (Nat × Nat)} (h : w ∈ ws) (d : Nat) :
    wakesFor ws d = wakesFor (ws.erase w) d + if w.2 = d then 1 else 0 := by
  have hperm := (perm_cons_erase h).countP_eq (fun w => w.2 == d)
  rw [countP_cons] at hperm
  simpa [wakesFor] using hperm

theorem Effect.ignores (hw : w ∈ s.wakes) :
    Effect p l s { s with wakes := s.wakes.erase w } (some w.2) where
  due x _ hne := by
    have := wakesFor_erase hw x
    rw [if_neg (by simpa using hne)] at this
    simp only [State.due, State.turns]
    omega
  less x hx := by
    have := wakesFor_erase hw x
    rw [if_pos (Option.some.inj hx)] at this
    simp only [State.due, State.turns]
    omega
  fifo _ hq := .inl hq
  same _ _ := .inl rfl

variable (hk : s.conns[c]? = some k)
include hk

theorem due_set (ld : Nat → Nat) (q : Nat → List Nat) (ws : List (Nat × Nat)) (k' : Conn) (e : Nat) :
    (State.mk ld q ws (s.conns.set c k')).due e + (s.load e + share k e + wakesFor s.wakes e) =
      s.due e + (ld e + share k' e + wakesFor ws e) := by
  have h := Run.countP_set hk k' (Conn.holds e)
  simp only [State.due, State.turns, share]
  omega

/-- a step of one connection: what is due goes with its own turn, the load and the wakes -/
theorem Effect.moves {ld : Nat → Nat} {q : Nat → List Nat} {ws : List (Nat × Nat)} {k' : Conn}
    {lost : Option Nat} (hdue : ∀ e, p.epRole e = 1 → lost ≠ some e →
      s.load e + share k e + wakesFor s.wakes e ≤ ld e + share k' e + wakesFor ws e)
    (hless : ∀ e, lost = some e →
      s.load e + share k e + wakesFor s.wakes e = ld e + share k' e + wakesFor ws e + 1)
    (hq : ∀ e, q e = s.fifo e ∨ l.cap ≤ ld e ∨ lost = none ∧ (q e ≠ [] → s.fifo e ≠ [])) :
    Effect p l s ⟨ld, q, ws, s.conns.set c k'⟩ lost where
  due e hr hne := by
    have := due_set hk ld q ws k' e
    have := hdue e hr hne
    omega
  less e he := by
    have := due_set hk ld q ws k' e
    have := hless e he
    omega
  fifo e hne := by
    rcases hq e with h | h | h
    · exact .inl (h ▸ hne)
    · exact .inr h
    · exact .inl (h.2 hne)
  same e he := by
    rcases hq e with h | h | h
    · exact .inl h
    · exact .inr h
    · cases h.1.symm.trans he

variable (k' : Conn)

theorem Effect.of_task (lost : Option Nat)
    (h : ∀ e, share k e = share k' e + if lost = some e then 1 else 0) :
    Effect p l s { s with conns := s.conns.set c k' } lost := by
  refine moves hk (fun e _ hne => ?_) (fun e he => ?_) fun _ => .inl rfl
  · rw [h e, if_neg hne, Nat.add_zero]
  · rw [h e, if_pos he]
    omega

theorem Effect.keeps (h : k'.task.turn = k.task.turn) :
    Effect p l s { s with conns := s.conns.set c k' } none := by
  apply of_task hk
  intro e
  simp [share, h]

theorem Effect.ends (h : k'.task.turn = none) :
    Effect p l s { s with conns := s.conns.set c k' } k.task.turn := by
  apply of_task hk
  intro e
  simp [share, h]

theorem Effect.takes (h : k'.task.turn = none) (e : Nat) :
    Effect p l s { s with load := update s.load e (s.load e + 1), conns := s.conns.set c k' }
      (if k.task.turn = some e then none else k.task.turn) := by
  refine moves hk (fun d _ hne => ?_) (fun d hd => ?_) fun _ => .inl rfl
  · by_cases hd : d = e
    · rw [hd, update_self]
      have := share_le k e
      omega
    · rw [update_of_ne hd, share_neg]
      · omega
      · intro hturn
        rw [hturn, if_neg (by simpa using hd)] at hne
        exact hne rfl
  · split at hd
    · cases hd
    · next hne =>
      have hde : d ≠ e := fun he => hne (he ▸ hd)
      rw [share_none h d, share_pos hd, update_of_ne hde]
      omega

theorem Effect.gives (hn : k.task.turn = none) (e : Nat)
    (h : p.epRole e = 1 → k'.task.turn = some e) (hpos : 0 < s.load e) :
    Effect p l s { s with load := update s.load e (s.load e - 1),
                          conns := s.conns.set c k' } none := by
  refine moves hk (fun d hr _ => ?_) nofun fun _ => .inl rfl
  rw [share_none hn d]
  by_cases hd : d = e
  · subst hd
    rw [update_self, share_pos (h hr)]
    omega
  · rw [update_of_ne hd]
    omega

theorem Effect.shortens (h : k'.task.turn = k.task.turn) (e : Nat) (q : List Nat)
    (hq : q ≠ [] → s.fifo e ≠ []) :
    Effect p l s { s with fifo := update s.fifo e q, conns := s.conns.set c k' } none := by
  refine moves hk (fun d _ _ => ?_) nofun fun d => ?_
  · simp only [share, Conn.holds_iff, h, le_refl]
  · by_cases hde : d = e
    · subst hde
      exact .inr (.inr ⟨rfl, by simpa using hq⟩)
    · exact .inl (update_of_ne hde ..)

theorem Effect.parks (h : k'.task.turn = none) (e : Nat) (q : List Nat) (hcap : l.cap ≤ s.load e) :
    Effect p l s { s with fifo := update s.fifo e q, conns := s.conns.set c k' } k.task.turn := by
  refine moves hk (fun d _ hne => ?_) (fun d hd => ?_) fun d => ?_
  · rw [share_neg hne]
    omega
  · rw [share_pos hd, share_none h d]
    omega
  · by_cases hde : d = e
    · exact .inr (.inl (hde ▸ hcap))
    · exact .inl (update_of_ne hde ..)

theorem Effect.wakes (d e : Nat) (hturn : k.task.turn = some e) :
    Effect p l s { s with wakes := s.wakes ++ [(d, e)], conns := s.conns.set c k' } none := by
  refine moves hk (fun x _ _ => ?_) nofun fun _ => .inl rfl
  rw [wakesFor_append]
  by_cases hx : e = x
  · rw [if_pos hx]
    have := share_le k x
    omega
  · rw [share_neg (by rw [hturn]; simpa using hx)]
    omega

theorem Effect.resumes (hw : w ∈ s.wakes) (h : k'.task.turn = some w.2) (hn : k.task.turn = none) :
    Effect p l s { s with wakes := s.wakes.erase w, conns := s.conns.set c k' } none := by
  refine moves hk (fun x _ _ => ?_) nofun fun _ => .inl rfl
  rw [share_none hn x, wakesFor_erase hw x]
  by_cases hx : w.2 = x
  · rw [if_pos hx, share_pos (hx ▸ h)]
    omega
  · rw [if_neg hx]
    omega

/-! ## every action -/

theorem effect_advance : Effect p l s (advance p l s c k) (dropsAdvance p l s k) := by
  unfold advance dropsAdvance
  cases ht : k.task with
  | scan r i a =>
    have hturn : k.task.turn = r.turn := by rw [ht]; rfl
    dsimp only
    by_cases hi : i < p.nEps
    · rw [if_pos hi, if_neg (fun h => h.1 hi)]
      exact keeps hk _ hturn.symm
    · rw [if_neg hi]
      by_cases hcap : allCapped a = true
      · rw [if_pos hcap]
        by_cases hpark : r.allowPark = true
        · rw [if_pos hpark, if_neg (fun h => h.2.2 hpark)]
          exact keeps hk _ hturn.symm
        · rw [if_neg hpark, if_pos ⟨hi, hcap, hpark⟩, ← hturn]
          exact ends hk _ rfl
      · rw [if_neg hcap, if_neg (fun h => hcap h.2.1)]
        exact keeps hk _ hturn.symm
  | park r =>
    have hturn : k.task.turn = r.turn := by rw [ht]; rfl
    dsimp only
    by_cases hroom : roomy p l.cap (withCtrl p r.excl) s.load = true
    · rw [if_pos hroom, if_pos hroom]
      exact keeps hk _ ((turn_selectAgain p l _).trans hturn.symm)
    · rw [if_neg hroom, if_neg hroom, ← hturn]
      split
      · next e he =>
        obtain ⟨hlt, hnew⟩ := of_shortestFifo he
        exact parks hk _ rfl e _ (roomy_eq_false.mp (Bool.not_eq_true _ ▸ hroom) e hlt hnew)
      · exact ends hk _ rfl
  | grab r e cur =>
    have hturn : k.task.turn = r.turn := by rw [ht]; rfl
    cases cur with
    | none => exact keeps hk _ hturn.symm
    | some cur =>
      dsimp only
      by_cases hmay : mayTake l.cap cur = true
      · rw [if_pos hmay]
        by_cases hcur : s.load e = cur
        · rw [if_pos hcur]
          subst hcur
          have htakes := takes (p := p) (l := l) hk { k with task := .got e } rfl e
          rw [hturn] at htakes
          by_cases hown : r.turn = some e
          · rw [if_neg fun h => h.2.2 hown]
            rw [if_pos hown] at htakes
            exact htakes
          · rw [if_pos ⟨hmay, rfl, hown⟩]
            rw [if_neg hown] at htakes
            exact htakes
        · rw [if_neg hcur, if_neg fun h => hcur h.2.1]
          exact keeps hk _ hturn.symm
      · rw [if_neg hmay, if_neg fun h => hmay h.1]
        exact keeps hk _ ((turn_selectAgain p l _).trans hturn.symm)
  | put e cur =>
    have hturn : k.task.turn = none := by rw [ht]; rfl
    cases cur with
    | none => exact keeps hk _ hturn.symm
    | some cur =>
      dsimp only
      by_cases hpos : 0 < cur
      · rw [if_pos hpos]
        by_cases hcur : s.load e = cur
        · rw [if_pos hcur]
          subst hcur
          apply gives hk _ hturn e _ hpos
          intro hr
          rw [if_pos hr]
          rfl
        · rw [if_neg hcur]
          exact keeps hk _ hturn.symm
      · rw [if_neg hpos]
        exact keeps hk _ hturn.symm
  | wake e =>
    have hturn : k.task.turn = some e := by rw [ht]; rfl
    dsimp only
    cases hq : s.fifo e with
    | nil =>
      rw [← hturn]
      exact ends hk _ rfl
    | cons d q =>
      refine shortens hk { k with task := .popped e d } hturn.symm e q fun _ => ?_
      rw [hq]
      exact cons_ne_nil d q
  | popped e d =>
    have hturn : k.task.turn = some e := by rw [ht]; rfl
    dsimp only
    split
    · exact Effect.wakes hk _ d e hturn
    · exact keeps hk _ hturn.symm
  | leave e =>
    have hturn : k.task.turn = none := by rw [ht]; rfl
    refine shortens hk { k with task := .drop } hturn.symm e _ fun hne hnil => ?_
    rw [hnil] at hne
    exact hne rfl
  | drop =>
    have hturn : k.task.turn = none := by rw [ht]; rfl
    exact keeps hk _ ((turn_afterExchange _).trans hturn.symm)
  | idle | parked | pick | got => exact refl

theorem effect_spurious : Effect p l s (spurious l s c k) none := by
  unfold spurious
  cases ht : k.task with
  | grab _ _ cur | put _ cur =>
    cases cur with
    | none => exact refl
    | some cur =>
      dsimp only
      split
      · exact keeps hk _ (by rw [ht]; rfl)
      · exact refl
  | _ => exact refl

theorem effect_deliver (excl : Mask) : Effect p l s (deliver p l s c k excl)
    (match s.wakes.find? (·.1 == c) with
      | some w => if listens k ∧ ¬ myTurn s.fifo c k then some w.2 else none
      | none => none) := by
  unfold deliver
  cases hf : s.wakes.find? (·.1 == c) with
  | none => exact refl
  | some w =>
    have hw : w ∈ s.wakes := mem_of_find?_eq_some hf
    dsimp only
    by_cases hl : listens k = true
    · rw [if_pos hl]
      by_cases hmine : myTurn s.fifo c k = true
      · rw [if_pos hmine, if_neg fun h => h.2 hmine]
        refine resumes hk _ hw (turn_selectAgain p l _) ?_
        unfold myTurn at hmine
        cases ht : k.task with
        | parked e => rfl
        | _ => simp [ht] at hmine
      · rw [if_neg hmine, if_pos ⟨hl, hmine⟩]
        exact ignores hw
    · rw [if_neg hl, if_neg fun h => hl h.1]
      exact refl

end

theorem effect_apply (p : Pool) (l : Limits) (s : State) (a : Act) :
    Effect p l s (apply p l s a) (drops p l s a) := by
  unfold apply drops
  cases hk : s.conns[a.conn]? with
  | none => exact refl
  | some k =>
    dsimp only
    cases a with
    | start c excl allowPark =>
      unfold act
      dsimp only
      split
      · next h =>
        rw [Bool.and_eq_true, beq_iff_eq] at h
        exact keeps hk _ (by rw [h.2]; exact turn_selectAgain p l _)
      · exact refl
    | step c => exact effect_advance hk
    | miss c => exact effect_spurious hk
    | pick c e =>
      unfold act
      cases ht : k.task with
      | pick r mask =>
        dsimp only
        split
        · exact keeps hk _ (by rw [ht]; rfl)
        · exact refl
      | _ => exact refl
    | noPick c =>
      unfold act
      cases ht : k.task with
      | pick r mask =>
        dsimp only
        split
        · have hturn : k.task.turn = r.turn := by rw [ht]; rfl
          rw [← hturn]
          exact ends hk _ rfl
        · exact refl
      | _ => exact refl
    | noWake c =>
      unfold act
      cases ht : k.task with
      | popped e d =>
        dsimp only
        split
        · have hturn : k.task.turn = some e := by rw [ht]; rfl
          rw [← hturn]
          exact ends hk _ rfl
        · exact refl
      | _ => exact refl
    | commit c =>
      unfold act
      cases ht : k.task with
      | got e => exact keeps hk _ (by rw [ht]; exact turn_afterExchange _)
      | _ => exact refl
    | rollback c =>
      unfold act
      cases ht : k.task with
      | got e => exact keeps hk _ (by rw [ht]; rfl)
      | _ => exact refl
    | release c =>
      unfold act
      dsimp only
      split
      · next h =>
        rw [Bool.and_eq_true, beq_iff_eq] at h
        exact keeps hk _ (by rw [h.2]; exact turn_afterExchange _)
      · exact refl
    | close c =>
      unfold act
      cases ht : k.task with
      | idle | parked => exact keeps hk _ (by rw [ht]; rfl)
      | _ => exact refl
    | deliver c excl => exact effect_deliver hk excl

/-! ## runs -/

/-- **no parked request is left asleep next to a free unit of its endpoint, exactly when no turn is
dropped that a waiter still needed** -/
theorem waiter_never_stranded (p : Pool) (l : Limits) (n : Nat) (as : List Act) :
    ((∀ pre post, as = pre ++ post → Balanced p l (run p l n pre)) ↔
      ∀ pre a post, as = pre ++ a :: post → HandsOn p l (run p l n pre) a) ∧
    ∀ s, Quiet s → (Balanced p l s ↔ NoneStranded p l s) := by
  refine ⟨?_, fun s => balanced_iff_of_quiet⟩
  exact Run.prefix_iff (apply p l) (init n) (Balanced p l) (HandsOn p l) (fun _ _ hq => absurd rfl hq)
    (fun s a hb => (effect_apply p l s a).balanced_iff hb) as

def twoPrefill : Pool :=
  { nEps := 2, epRole := fun _ => 1, inv := fun _ => false, cbEnabled := true
    cbOpen := fun _ => false, ctrlMode := 0, ctrlEp := fun _ => .active, nEps_le := by decide }

def oneUnit : Limits := { cap := 1, depth := 2, depth_pos := by decide }

def takesUnit (c e : Nat) : List Act :=
  [.start c 0 true, .step c, .step c, .step c, .pick c e, .step c, .step c, .commit c]

def parksHere (c : Nat) : List Act := [.start c 0 true, .step c, .step c, .step c, .step c]

/-- connections 0 and 1 hold both units, 2 and 4 wait on endpoint 0 and 3 on endpoint 1 -/
def filled : List Act := takesUnit 0 0 ++ takesUnit 1 1 ++ parksHere 2 ++ parksHere 3 ++ parksHere 4

/-- both units come back, after the only waiter of endpoint 1 went: the request woken for
endpoint 0 takes the unit of endpoint 1 -/
def landsElsewhere : List Act :=
  filled ++ [.close 3, .step 3, .step 3, .release 1, .step 1, .step 1, .step 1,
    .release 0, .step 0, .step 0, .step 0, .step 0,
    .deliver 2 0, .step 2, .step 2, .step 2, .pick 2 1, .step 2, .step 2]

/-- the unit of endpoint 0 comes back, and the request woken for it has gone -/
def wokenGone : List Act :=
  filled ++ [.release 0, .step 0, .step 0, .step 0, .step 0, .close 2, .step 2, .step 2,
    .deliver 2 0]

/-- connection 4 sleeps in the FIFO of endpoint 0, whose unit is free, with no call in progress and no
wake under way -/
def Strands (as : List Act) : Prop :=
  Quiet (run twoPrefill oneUnit 5 as) ∧ (run twoPrefill oneUnit 5 as).fifo 0 = [4] ∧
    (run twoPrefill oneUnit 5 as).load 0 = 0

theorem Strands.not_served {as : List Act} (h : Strands as) :
    ¬ NoneStranded twoPrefill oneUnit (run twoPrefill oneUnit 5 as) := by
  obtain ⟨-, hfifo, hload⟩ := h
  intro hall
  have hcap := hall 0 rfl (by rw [hfifo]; exact cons_ne_nil _ _)
  rw [hload] at hcap
  exact absurd hcap (by decide)

theorem waiter_stranded : (Strands landsElsewhere ∧
      ¬ NoneStranded twoPrefill oneUnit (run twoPrefill oneUnit 5 landsElsewhere)) ∧
    Strands wokenGone ∧ ¬ NoneStranded twoPrefill oneUnit (run twoPrefill oneUnit 5 wokenGone) := by
  have h1 : Strands landsElsewhere :=
    ⟨⟨by decide +kernel, by decide +kernel⟩, by decide +kernel, by decide +kernel⟩
  have h2 : Strands wokenGone :=
    ⟨⟨by decide +kernel, by decide +kernel⟩, by decide +kernel, by decide +kernel⟩
  exact ⟨⟨h1, h1.not_served⟩, h2, h2.not_served⟩

end Pd
