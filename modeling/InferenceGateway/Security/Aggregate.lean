import InferenceGateway.Lib.Run

/-!
# The aggregate flood budget

`security_aggregate.h` holds one second of counters for all CPUs.  A CPU reads the clock first
(`dp_check_security_aggregate`, outside the lock) and decides later under the lock
(`security_aggregate_decide`), so the second it presents may be an old one.

* `aggregateDecide`   the locked decision;
* `step`              ticks of the clock, clock reads and decisions of any number of CPUs;
* `Meter`             the four counters with their limits and weights, one lemma for all;
* `Kept`              what every step keeps: no counter wraps, and no counter holds more than what
                      was presented in its second;
* `Within`            what a step keeps unless it comes back to a second that was left.
-/

set_option linter.unusedSectionVars false

open Function List

namespace Security

/-! ## the decision -/

structure Budget where
  (version syn conn udp bytes : UInt32)
deriving DecidableEq

/-- `struct security_aggregate_state`; the counters are 64 bit wide -/
structure Aggregate where
  version : UInt32
  (second synCount connCount udpCount udpBytes : Nat)
deriving DecidableEq

/-- what the guard is told of a packet: its kind and `l3_len` -/
structure Packet where
  (isSyn isUdp : Bool)
  bytes : UInt32
deriving DecidableEq

/-- the return values 0 to 3 -/
inductive Verdict where
  | pass | syn | conn | udp
deriving DecidableEq

/-- `if (limit && count <= limit) count += amount` on a 64 bit counter -/
def charge (limit : UInt32) (count amount : Nat) : Nat :=
  if limit ≠ 0 ∧ count ≤ limit.toNat then (count + amount) % 2 ^ 64 else count

/-- `limit && count > limit` -/
def exceeds (limit : UInt32) (count : Nat) : Bool := limit ≠ 0 && limit.toNat < count

/-- a new version or another second starts the counters again -/
def Aggregate.roll (s : Aggregate) (b : Budget) (second : Nat) : Aggregate :=
  if s.version ≠ b.version ∨ s.second ≠ second then ⟨b.version, second, 0, 0, 0, 0⟩ else s

def Aggregate.countSyn (s : Aggregate) (b : Budget) : Aggregate :=
  { s with synCount := charge b.syn s.synCount 1, connCount := charge b.conn s.connCount 1 }

def Aggregate.countUdp (s : Aggregate) (b : Budget) (bytes : UInt32) : Aggregate :=
  { s with udpCount := charge b.udp s.udpCount 1, udpBytes := charge b.bytes s.udpBytes bytes.toNat }

def aggregateDecide (s : Aggregate) (b : Budget) (second : Nat) (p : Packet) :
    Aggregate × Verdict :=
  let s := s.roll b second
  let s := if p.isSyn then s.countSyn b else s
  let drop :=
    if p.isSyn then
      if exceeds b.syn s.synCount then .syn else if exceeds b.conn s.connCount then .conn else .pass
    else .pass
  let s := if p.isUdp then s.countUdp b p.bytes else s
  let drop :=
    if p.isUdp && (exceeds b.udp s.udpCount || exceeds b.bytes s.udpBytes) then .udp else drop
  (s, drop)

/-! ## the meters -/

inductive Meter where
  | syn | conn | udp | bytes
deriving DecidableEq

def Meter.limit (b : Budget) : Meter → UInt32
  | .syn => b.syn
  | .conn => b.conn
  | .udp => b.udp
  | .bytes => b.bytes

def Meter.count (s : Aggregate) : Meter → Nat
  | .syn => s.synCount
  | .conn => s.connCount
  | .udp => s.udpCount
  | .bytes => s.udpBytes

/-- the meter is read for this packet -/
def Meter.applies (p : Packet) : Meter → Bool
  | .syn | .conn => p.isSyn
  | .udp | .bytes => p.isUdp

/-- what a packet adds to the meter -/
def Meter.weight (p : Packet) : Meter → Nat
  | .syn | .conn => if p.isSyn then 1 else 0
  | .udp => if p.isUdp then 1 else 0
  | .bytes => if p.isUdp then p.bytes.toNat else 0

theorem weight_of_not_applies {m : Meter} {p : Packet} (h : m.applies p = false) :
    m.weight p = 0 := by
  cases m <;> simp only [Meter.applies] at h <;> simp [Meter.weight, h]

variable (m : Meter) (s : Aggregate) (b : Budget) (second : Nat) (p : Packet)

theorem weight_lt : m.weight p < 2 ^ 32 := by
  have hb := p.bytes.toNat_lt
  cases m <;> simp only [Meter.weight] <;> split <;> omega

theorem count_roll : m.count (s.roll b second) =
      if s.version ≠ b.version ∨ s.second ≠ second then 0 else m.count s := by
  unfold Aggregate.roll
  split
  · cases m <;> rfl
  · rfl

theorem count_decide : m.count (aggregateDecide s b second p).1 =
      if m.applies p then charge (m.limit b) (m.count (s.roll b second)) (m.weight p)
      else m.count (s.roll b second) := by
  rcases p with ⟨_ | _, _ | _, bytes⟩ <;> cases m <;> rfl

theorem decide_version : (aggregateDecide s b second p).1.version = b.version ∧
      (aggregateDecide s b second p).1.second = second := by
  have hroll : (s.roll b second).version = b.version ∧ (s.roll b second).second = second := by
    unfold Aggregate.roll
    split
    · exact ⟨rfl, rfl⟩
    · rename_i h
      rw [not_or, not_not, not_not] at h
      exact h
  rcases p with ⟨_ | _, _ | _, bytes⟩ <;> exact hroll

theorem decide_pass : (aggregateDecide s b second p).2 = .pass ↔ ∀ m : Meter, m.applies p = true →
        exceeds (m.limit b) (m.count (aggregateDecide s b second p).1) = false := by
  constructor
  · intro h m hm
    rcases p with ⟨isSyn, isUdp, bytes⟩
    cases m <;> cases isSyn <;> cases isUdp <;> simp_all [Meter.applies, aggregateDecide] <;>
      grind [Meter.limit, Meter.count, Aggregate.countUdp]
  · intro h
    have hsyn := h .syn
    have hconn := h .conn
    have hudp := h .udp
    have hbytes := h .bytes
    rcases p with ⟨_ | _, _ | _, bytes⟩ <;>
      simp_all [Meter.applies, aggregateDecide, Meter.limit, Meter.count, Aggregate.countUdp]

/-! ## the CPUs -/

section
variable {ι : Type*} [DecidableEq ι]

/-- one locked decision, as the history remembers it -/
structure Decision where
  packet : Packet
  second : Nat
  verdict : Verdict
deriving DecidableEq

/-- the clock, the shared counters, the packet each CPU has read the clock for, and the decisions
so far, newest first -/
structure Cpus (ι : Type*) where
  clock : Nat
  agg : Aggregate
  pending : ι → Option (Packet × Nat)
  log : List Decision

inductive Act (ι : Type*) where
  | tick (ns : Nat)
  | read (cpu : ι) (p : Packet)
  | decide (cpu : ι)

def rateWindowNs : Nat := 1000000000

/-- some limit applies to the packet; otherwise `dp_check_security_aggregate` passes it at once -/
def guarded (b : Budget) (p : Packet) : Bool :=
  (p.isSyn && (b.syn ≠ 0 || b.conn ≠ 0)) || (p.isUdp && (b.udp ≠ 0 || b.bytes ≠ 0))

/-- one step of `dp_check_security_aggregate` on some CPU, under one configuration: the clock is
read outside the lock, the decision is a step of its own -/
def step (b : Budget) (s : Cpus ι) : Act ι → Cpus ι
  | .tick ns => { s with clock := s.clock + ns }
  | .read cpu p =>
    match s.pending cpu with
    | none =>
      if guarded b p then
        { s with pending := update s.pending cpu (some (p, s.clock / rateWindowNs)) }
      else s
    | some _ => s
  | .decide cpu =>
    match s.pending cpu with
    | none => s
    | some (p, second) =>
      { s with
        agg := (aggregateDecide s.agg b second p).1
        pending := update s.pending cpu none
        log := ⟨p, second, (aggregateDecide s.agg b second p).2⟩ :: s.log }

/-- no CPU is at work and nothing was decided yet; the counters are as an earlier version left
them -/
def start (clock : Nat) (agg : Aggregate) : Cpus ι := ⟨clock, agg, fun _ => none, []⟩

theorem step_cases (s : Cpus ι) (a : Act ι) :
    ((step b s a).agg = s.agg ∧ (step b s a).log = s.log) ∨
      ∃ cpu p second, a = .decide cpu ∧ s.pending cpu = some (p, second) ∧
        (step b s a).agg = (aggregateDecide s.agg b second p).1 ∧
        (step b s a).log = ⟨p, second, (aggregateDecide s.agg b second p).2⟩ :: s.log := by
  cases a with
  | tick ns => exact .inl ⟨rfl, rfl⟩
  | read cpu p =>
    left
    simp only [step]
    split
    · split <;> exact ⟨rfl, rfl⟩
    · exact ⟨rfl, rfl⟩
  | decide cpu =>
    cases hp : s.pending cpu with
    | none =>
      left
      simp only [step, hp, and_self]
    | some r =>
      right
      refine ⟨cpu, r.1, r.2, rfl, hp, ?_⟩
      simp only [step, hp, and_self]

/-! ## what was presented and what passed -/

/-- what the packets presented in a second weigh on the meter -/
def presented (m : Meter) (second : Nat) (log : List Decision) : Nat :=
  (log.map fun d => if d.second = second then m.weight d.packet else 0).sum

/-- what the packets let through in a second weigh on the meter -/
def passed (m : Meter) (second : Nat) (log : List Decision) : Nat :=
  (log.map fun d => if d.second = second ∧ d.verdict = .pass then m.weight d.packet else 0).sum

theorem passed_cons (d : Decision) (log : List Decision) : passed m second (d :: log) =
      (if d.second = second ∧ d.verdict = .pass then m.weight d.packet else 0) +
        passed m second log := by
  rfl

variable {m : Meter} {second : Nat} {b : Budget} {s : Cpus ι} {p : Packet} {agg : Aggregate}

theorem passed_of_new {log : List Decision} (h : ∀ d ∈ log, d.second ≠ second) :
    passed m second log = 0 := by
  induction log with
  | nil => rfl
  | cons d log ih =>
    rw [passed_cons, if_neg (fun hd => h d mem_cons_self hd.1),
      ih fun d hd => h d (mem_cons_of_mem _ hd)]

/-- every packet that was refused was, with those presented before it in its own second, more than
a limit that applies to it -/
def Justified (b : Budget) : List Decision → Prop
  | [] => True
  | d :: log =>
    (d.verdict ≠ .pass → ∃ m : Meter, m.applies d.packet = true ∧ m.limit b ≠ 0 ∧
      (m.limit b).toNat < presented m d.second log + m.weight d.packet) ∧ Justified b log

/-! ## what every step keeps -/

/-- no counter can wrap, the counters are those of the configuration once something was decided,
and none holds more than what was presented in its second -/
structure Kept (b : Budget) (s : Cpus ι) : Prop where
  small : ∀ m : Meter, m.count s.agg < 2 ^ 33 ∨ s.agg.version ≠ b.version
  current : s.log ≠ [] → s.agg.version = b.version
  held : ∀ m : Meter, s.agg.version = b.version → m.count s.agg ≤ presented m s.agg.second s.log
  justified : Justified b s.log

theorem Kept.rolled (h : Kept b s) (second : Nat) (m : Meter) :
    m.count (s.agg.roll b second) < 2 ^ 33 ∧
      m.count (s.agg.roll b second) ≤ presented m second s.log := by
  rw [count_roll]
  split
  · exact ⟨by decide, Nat.zero_le _⟩
  · rename_i hsame
    rw [not_or, not_not, not_not] at hsame
    refine ⟨(h.small m).resolve_right (not_not.mpr hsame.1), ?_⟩
    rw [← hsame.2]
    exact h.held m hsame.1

theorem charge_cases (limit : UInt32) {count amount : Nat} (hc : count < 2 ^ 33)
    (ha : amount < 2 ^ 32) :
    (limit ≠ 0 ∧ count ≤ limit.toNat ∧ charge limit count amount = count + amount) ∨
      ((limit = 0 ∨ limit.toNat < count) ∧ charge limit count amount = count) := by
  unfold charge
  by_cases h : limit ≠ 0 ∧ count ≤ limit.toNat
  · left
    rw [if_pos h]
    exact ⟨h.1, h.2, Nat.mod_eq_of_lt (by omega)⟩
  · right
    rw [if_neg h]
    refine ⟨?_, rfl⟩
    by_cases h0 : limit = 0
    · exact .inl h0
    · exact .inr (not_le.mp fun hle => h ⟨h0, hle⟩)

theorem over_iff {limit : UInt32} {count : Nat} :
    exceeds limit count = true ↔ limit ≠ 0 ∧ limit.toNat < count := by
  unfold exceeds
  rw [Bool.and_eq_true, decide_eq_true_eq, decide_eq_true_eq]

theorem Kept.decided (h : Kept b s) (second : Nat) (p : Packet) (m : Meter) :
    m.count (aggregateDecide s.agg b second p).1 < 2 ^ 33 ∧
      m.count (aggregateDecide s.agg b second p).1 ≤ presented m second s.log + m.weight p ∧
      m.count (s.agg.roll b second) ≤ m.count (aggregateDecide s.agg b second p).1 := by
  obtain ⟨hlt, hle⟩ := h.rolled second m
  have hw := weight_lt m p
  have hl := (m.limit b).toNat_lt
  rw [count_decide]
  split
  · rcases charge_cases (m.limit b) hlt hw with ⟨-, hcl, he⟩ | ⟨-, he⟩
    · omega
    · omega
  · omega

theorem Kept.refusal (h : Kept b s) (hr : (aggregateDecide s.agg b second p).2 ≠ .pass) :
    ∃ m : Meter, m.applies p = true ∧ m.limit b ≠ 0 ∧
      (m.limit b).toNat < presented m second s.log + m.weight p := by
  rw [Ne, decide_pass, not_forall] at hr
  obtain ⟨m, hm⟩ := hr
  rw [Classical.not_imp, Bool.not_eq_false, over_iff] at hm
  exact ⟨m, hm.1, hm.2.1, lt_of_lt_of_le hm.2.2 (h.decided second p m).2.1⟩

theorem kept_start (hv : agg.version ≠ b.version) (clock : Nat) :
    Kept b (start clock agg : Cpus ι) where
  small _ := .inr hv
  current h := absurd rfl h
  held _ h := absurd h hv
  justified := trivial

theorem Kept.step (h : Kept b s) (a : Act ι) : Kept b (step b s a) := by
  rcases step_cases b s a with ⟨hagg, hlog⟩ | ⟨cpu, p, second, -, -, hagg, hlog⟩
  · constructor
    · rw [hagg]
      exact h.small
    · rw [hagg, hlog]
      exact h.current
    · rw [hagg, hlog]
      exact h.held
    · rw [hlog]
      exact h.justified
  · obtain ⟨hver, hsec⟩ := decide_version s.agg b second p
    constructor
    · rw [hagg]
      exact fun m => .inl (h.decided second p m).1
    · rw [hagg]
      exact fun _ => hver
    · intro m _
      rw [hagg, hlog, presented, map_cons, sum_cons, hsec, if_pos rfl, Nat.add_comm]
      exact (h.decided second p m).2.1
    · rw [hlog]
      exact ⟨fun hr => h.refusal hr, h.justified⟩

/-! ## what a step keeps that does not come back to a second -/

/-- what passed in any second is within the limits, and what passed in the second of the counters
is in the counters -/
def Within (b : Budget) (s : Cpus ι) : Prop :=
  ∀ m : Meter, m.limit b ≠ 0 → (∀ second, passed m second s.log ≤ (m.limit b).toNat) ∧
      passed m s.agg.second s.log ≤ m.count s.agg

/-- a decision is about the second the counters hold, or about one nothing was decided in yet -/
def onTime (s : Cpus ι) : Act ι → Bool
  | .decide cpu =>
    match s.pending cpu with
    | none => true
    | some (_, second) => s.agg.second = second || s.log.all fun d => d.second ≠ second
  | _ => true

theorem Within.rolled (hk : Kept b s) (h : Within b s)
    (ht : s.agg.second = second ∨ ∀ d ∈ s.log, d.second ≠ second) (hm : m.limit b ≠ 0) :
    passed m second s.log ≤ m.count (s.agg.roll b second) := by
  rw [count_roll]
  split
  · rename_i hroll
    rw [passed_of_new]
    rcases ht with heq | hnew
    · -- only another version is left as a reason, and then nothing was decided
      intro d hd
      have hver := hk.current (ne_nil_of_mem hd)
      exact absurd hroll (not_or.mpr ⟨not_not.mpr hver, not_not.mpr heq⟩)
    · exact hnew
  · rename_i hsame
    rw [not_or, not_not, not_not] at hsame
    rw [← hsame.2]
    exact (h m hm).2

theorem Kept.passes (h : Kept b s) (hp : (aggregateDecide s.agg b second p).2 = .pass)
    (hm : m.limit b ≠ 0) (ha : m.applies p = true) :
    m.count (aggregateDecide s.agg b second p).1 = m.count (s.agg.roll b second) + m.weight p ∧
      m.count (aggregateDecide s.agg b second p).1 ≤ (m.limit b).toNat := by
  have hnot := (decide_pass s.agg b second p).mp hp m ha
  rw [← Bool.not_eq_true, over_iff, not_and, not_lt] at hnot
  have hle := hnot hm
  refine ⟨?_, hle⟩
  rw [count_decide, if_pos ha] at hle ⊢
  rcases charge_cases (m.limit b) (h.rolled second m).1 (weight_lt m p) with ⟨-, -, he⟩ | ⟨hz, he⟩
  · exact he
  · rw [he] at hle
    rcases hz with h0 | hlt
    · exact absurd h0 hm
    · exact absurd hlt (not_lt.mpr hle)

theorem Within.step (hk : Kept b s) (h : Within b s) {a : Act ι} (ht : onTime s a = true) :
    Within b (step b s a) := by
  rcases step_cases b s a with ⟨hagg, hlog⟩ | ⟨cpu, p, second, rfl, hp, hagg, hlog⟩
  · intro m hm
    rw [hagg, hlog]
    exact h m hm
  · intro m hm
    simp only [onTime, hp, Bool.or_eq_true, decide_eq_true_eq, all_eq_true] at ht
    have hroll := Within.rolled hk h ht hm
    have hmono := (hk.decided second p m).2.2
    have hbound := (h m hm).1
    rw [hagg, hlog, (decide_version s.agg b second p).2]
    by_cases hv : (aggregateDecide s.agg b second p).2 = .pass ∧ m.applies p = true
    · -- the packet counts: it is in the meter, and the meter is within the limit
      obtain ⟨hcount, hle⟩ := hk.passes hv.1 hm hv.2
      constructor
      · intro t
        rw [passed_cons]
        dsimp only
        split
        · rename_i hd
          rw [← hd.1]
          omega
        · rw [Nat.zero_add]
          exact hbound t
      · rw [passed_cons, if_pos ⟨rfl, hv.1⟩]
        dsimp only
        omega
    · have hsame : ∀ t, passed m t (⟨p, second, (aggregateDecide s.agg b second p).2⟩ :: s.log) =
          passed m t s.log := by
        intro t
        rw [passed_cons]
        split
        · rename_i hd
          have hna : m.applies p = false := by
            rw [← Bool.not_eq_true]
            exact fun ha => hv ⟨hd.2, ha⟩
          rw [weight_of_not_applies hna, Nat.zero_add]
        · rw [Nat.zero_add]
      simp only [hsame]
      exact ⟨hbound, le_trans hroll hmono⟩

/-! ## the budget over whole runs -/

/-- the next addition to a counter cannot wrap it, whichever packet and second it is for -/
def NoWrap (b : Budget) (s : Cpus ι) : Prop :=
  ∀ (m : Meter) (second : Nat) (p : Packet), m.count (s.agg.roll b second) + m.weight p < 2 ^ 64

theorem Kept.noWrap (h : Kept b s) : NoWrap b s := by
  intro m second p
  have h1 := (h.rolled second m).1
  have h2 := weight_lt m p
  omega

/-- **the aggregate budget**: no counter wraps, a packet is refused only for what its own second
was presented with, and while no decision comes back to a second left by the counters, every
second's packets stay within every limit -/
theorem aggregate_budget {b : Budget} {agg : Aggregate} (hv : agg.version ≠ b.version)
    (clock : Nat) (as : List (Act ι)) :
    NoWrap b (as.foldl (step b) (start clock agg)) ∧
      Justified b (as.foldl (step b) (start clock agg)).log ∧
      ((∀ pre a post, as = pre ++ a :: post →
          onTime (pre.foldl (step b) (start clock agg)) a = true) →
        ∀ m : Meter, m.limit b ≠ 0 → ∀ second,
          passed m second (as.foldl (step b) (start clock agg)).log ≤ (m.limit b).toNat) := by
  have hk : Kept b (as.foldl (step b) (start clock agg)) :=
    foldlRecOn as (step b) (kept_start hv clock) fun _ h a _ => h.step a
  refine ⟨hk.noWrap, hk.justified, ?_⟩
  intro ht m hm
  have hrun := Run.prefix_inv (step b) (start clock agg) (fun s => Kept b s ∧ Within b s)
    (fun s a => onTime s a = true)
    ⟨kept_start hv clock, fun m hm => ⟨fun _ => Nat.zero_le _, Nat.zero_le _⟩⟩
    (fun s a h ht => ⟨h.1.step a, Within.step h.1 h.2 ht⟩) ht as [] (append_nil as).symm
  exact (hrun.2 m hm).1

end

def oneSyn : Budget := ⟨1, 1, 0, 0, 0⟩
def synPacket : Packet := ⟨true, false, 60⟩

/-- CPU 0 reads the clock just before a second ends and decides in the middle of the next one -/
def lateDecision : List (Act (Fin 2)) :=
  [.read 0 synPacket, .tick 1000000000, .read 1 synPacket, .decide 1, .decide 0,
    .read 1 synPacket, .decide 1]

def promptDecisions : List (Act (Fin 2)) :=
  [.tick 1000000000, .read 1 synPacket, .decide 1, .read 0 synPacket, .decide 0]

/-- decided in time, the second SYN is refused -/
theorem prompt_decisions_within :
    passed .syn 1 (promptDecisions.foldl (step oneSyn) (start 0 ⟨0, 0, 0, 0, 0, 0⟩)).log ≤ 1 :=
  (aggregate_budget (by decide) 0 promptDecisions).2.2
    (Run.of_throughout (by decide +kernel)) .syn (by decide) 1

/-- the late decision starts the counters again, and with the next packet they start once more:
two SYNs pass in a second that allows one -/
theorem late_decision_doubles :
    passed .syn 1 (lateDecision.foldl (step oneSyn) (start 0 ⟨0, 0, 0, 0, 0, 0⟩)).log = 2 := by
  decide +kernel

end Security
