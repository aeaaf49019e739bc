import InferenceGateway.Lib.Run

/-!
# The circuit breaker of an endpoint

A breaker opens after connect failures or origin errors, lets a few probes through once its timeout
has passed and closes on their success.  Every operation is one step under its lock.  A probe slot is
taken by the check itself, whoever asks, and is given back only by an outcome: a half-open breaker
whose slots are gone refuses every check from then on (`dark_of_exhausted`).

* `breaker_lets_back`   which runs never make an endpoint dark, and what opens and closes a breaker;
* `breaker_dark`        three checks that send nothing make it dark for good.
-/

open List Run

namespace Cb

inductive CbState where
  | closed | opened | halfOpen
  deriving DecidableEq

/-- `circuit_breaker_t` -/
structure Breaker where
  state : CbState
  (failureCount successCount : Nat)
  (lastFailureTs openTs : Int)
  (failureThreshold successThreshold openTimeoutSec halfOpenMaxRequests halfOpenRequests : Nat)
  originErrStreak : Nat
  originTripped : Bool
  deriving DecidableEq

def Breaker.init : Breaker where
  state := .closed
  failureCount := 0
  successCount := 0
  lastFailureTs := 0
  openTs := 0
  failureThreshold := 5
  successThreshold := 1
  openTimeoutSec := 30
  halfOpenMaxRequests := 3
  halfOpenRequests := 0
  originErrStreak := 0
  originTripped := false

/-- `circuit_breaker_configure_pool` for one endpoint: a zero keeps the default -/
def configurePool (failureThreshold openTimeoutSec : Nat) : Breaker :=
  { Breaker.init with
    failureThreshold := if failureThreshold = 0 then 5 else failureThreshold
    openTimeoutSec := if openTimeoutSec = 0 then 30 else openTimeoutSec }

namespace Breaker

/-- `circuit_breaker_should_skip`: whether the endpoint is skipped -/
def shouldSkip (b : Breaker) (now : Int) : Bool × Breaker :=
  match b.state with
  | .closed => (false, b)
  | .opened =>
    if now - b.openTs ≥ b.openTimeoutSec then
      -- the check that finds the timeout over takes a probe too
      (false, { b with state := .halfOpen, halfOpenRequests := 1, successCount := 0 })
    else (true, b)
  | .halfOpen =>
    if b.halfOpenRequests ≥ b.halfOpenMaxRequests then (true, b)
    else (false, { b with halfOpenRequests := b.halfOpenRequests + 1 })

/-- `circuit_breaker_record_failure`, and whether the breaker tripped -/
def recordFailure (b : Breaker) (now : Int) : Breaker × Bool :=
  let b := { b with lastFailureTs := now }
  match b.state with
  | .closed =>
    let b := { b with failureCount := b.failureCount + 1 }
    if b.failureCount ≥ b.failureThreshold then ({ b with state := .opened, openTs := now }, true)
    else (b, false)
  | .halfOpen => ({ b with state := .opened, openTs := now, failureCount := b.failureThreshold }, true)
  | .opened => (b, false)

def originGatesConnectClose (b : Breaker) : Bool := b.originTripped

def recordSuccess (b : Breaker) : Breaker :=
  match b.state with
  | .closed => { b with failureCount := 0 }
  | .halfOpen =>
    if b.originGatesConnectClose then b
    else
      let b := { b with successCount := b.successCount + 1 }
      if b.successCount ≥ b.successThreshold then { b with state := .closed, failureCount := 0 } else b
  | .opened => b

/-- `circuit_breaker_origin_note_error`: whether the breaker is to open now -/
def originNoteError (b : Breaker) (threshold : Int) : Breaker × Bool :=
  if threshold ≤ 0 then (b, false)
  else
    match b.state with
    | .closed =>
      let b := { b with originErrStreak := b.originErrStreak + 1 }
      if b.originErrStreak ≥ threshold.toNat then
        ({ b with originErrStreak := 0, originTripped := true }, true)
      else (b, false)
    | .halfOpen => ({ b with originErrStreak := 0, originTripped := true }, true)
    | .opened => (b, false)

/-- `circuit_breaker_record_origin_error`, and whether the breaker tripped -/
def recordOriginError (b : Breaker) (threshold : Int) (now : Int) : Breaker × Bool :=
  if threshold ≤ 0 then (b, false)
  else
    let (b, trip) := b.originNoteError threshold
    if trip then
      ({ b with state := .opened, openTs := now, lastFailureTs := now, failureCount := b.failureThreshold },
        true)
    else (b, false)

/-- `circuit_breaker_origin_note_success`: whether the breaker is to close now -/
def originNoteSuccess (b : Breaker) : Breaker × Bool :=
  let b := { b with originErrStreak := 0 }
  (b, decide (b.state = .halfOpen) && b.originTripped)

def recordOriginSuccess (b : Breaker) : Breaker :=
  let (b, close) := b.originNoteSuccess
  if close then { b with state := .closed, failureCount := 0, successCount := 0, originTripped := false }
  else b

def proactiveHeal (b : Breaker) (now : Int) : Breaker × Bool :=
  if b.state ≠ .opened then (b, false)
  else if now - b.openTs < b.openTimeoutSec then (b, false)
  else ({ b with state := .halfOpen, halfOpenRequests := 0, successCount := 0 }, true)

end Breaker

/-! ## runs -/

/-- an operation, with the time it has read -/
inductive Step where
  | check (now : Int)
  | failure (now : Int)
  | success
  | originError (now : Int)
  | originSuccess
  | heal (now : Int)
  deriving DecidableEq

def Step.isOutcome : Step → Bool
  | .check _ | .heal _ => false
  | _ => true

/-- the breaker after an operation; `threshold` is that of the origin errors -/
def apply (threshold : Int) (b : Breaker) : Step → Breaker
  | .check now => (b.shouldSkip now).2
  | .failure now => (b.recordFailure now).1
  | .success => b.recordSuccess
  | .originError now => (b.recordOriginError threshold now).1
  | .originSuccess => b.recordOriginSuccess
  | .heal now => (b.proactiveHeal now).1

def run (threshold : Int) (b : Breaker) (steps : List Step) : Breaker := steps.foldl (apply threshold) b

variable (threshold : Int)

theorem run_append (b : Breaker) (pre : List Step) (a : Step) :
    run threshold b (pre ++ [a]) = apply threshold (run threshold b pre) a := by
  rw [run, foldl_append]
  rfl

inductive Move (threshold : Int) (b : Breaker) : Step → Breaker → Prop
  | checkClosed {now : Int} (h : b.state = .closed) : Move threshold b (.check now) b
  | checkProbe {now : Int} (h : b.state = .opened) (late : now - b.openTs ≥ b.openTimeoutSec) :
      Move threshold b (.check now) { b with state := .halfOpen, halfOpenRequests := 1, successCount := 0 }
  | checkOpened {now : Int} (h : b.state = .opened) (early : ¬ now - b.openTs ≥ b.openTimeoutSec) :
      Move threshold b (.check now) b
  | checkFull {now : Int} (h : b.state = .halfOpen) (full : b.halfOpenRequests ≥ b.halfOpenMaxRequests) :
      Move threshold b (.check now) b
  | checkSlot {now : Int} (h : b.state = .halfOpen) (free : ¬ b.halfOpenRequests ≥ b.halfOpenMaxRequests) :
      Move threshold b (.check now) { b with halfOpenRequests := b.halfOpenRequests + 1 }
  | fail {now : Int} (h : b.state = .closed) (below : ¬ b.failureCount + 1 ≥ b.failureThreshold) :
      Move threshold b (.failure now) { b with lastFailureTs := now, failureCount := b.failureCount + 1 }
  | failTrip {now : Int} (h : b.state = .closed) (enough : b.failureCount + 1 ≥ b.failureThreshold) :
      Move threshold b (.failure now)
        { b with lastFailureTs := now, failureCount := b.failureCount + 1, state := .opened, openTs := now }
  | failProbe {now : Int} (h : b.state = .halfOpen) : Move threshold b (.failure now)
      { b with lastFailureTs := now, state := .opened, openTs := now, failureCount := b.failureThreshold }
  | failOpened {now : Int} (h : b.state = .opened) :
      Move threshold b (.failure now) { b with lastFailureTs := now }
  | successClosed (h : b.state = .closed) : Move threshold b .success { b with failureCount := 0 }
  | successGated (h : b.state = .halfOpen) (gated : b.originTripped = true) : Move threshold b .success b
  | successClose (h : b.state = .halfOpen) (free : b.originTripped = false)
      (enough : b.successCount + 1 ≥ b.successThreshold) : Move threshold b .success
        { b with successCount := b.successCount + 1, state := .closed, failureCount := 0 }
  | successCount (h : b.state = .halfOpen) (free : b.originTripped = false)
      (below : ¬ b.successCount + 1 ≥ b.successThreshold) : Move threshold b .success
        { b with successCount := b.successCount + 1 }
  | successOpened (h : b.state = .opened) : Move threshold b .success b
  | originOff {now : Int} (h : threshold ≤ 0 ∨ b.state = .opened) : Move threshold b (.originError now) b
  | originNote {now : Int} (on : 0 < threshold) (h : b.state = .closed)
      (below : ¬ b.originErrStreak + 1 ≥ threshold.toNat) :
      Move threshold b (.originError now) { b with originErrStreak := b.originErrStreak + 1 }
  | originTrip {now : Int} (on : 0 < threshold)
      (h : b.state = .closed ∧ b.originErrStreak + 1 ≥ threshold.toNat ∨ b.state = .halfOpen) :
      Move threshold b (.originError now)
        { b with originErrStreak := 0, originTripped := true, state := .opened, openTs := now
                 lastFailureTs := now, failureCount := b.failureThreshold }
  | originClose (h : b.state = .halfOpen) (tripped : b.originTripped = true) : Move threshold b .originSuccess
      { b with originErrStreak := 0, state := .closed, failureCount := 0, successCount := 0
               originTripped := false }
  | originReset (h : ¬ (b.state = .halfOpen ∧ b.originTripped = true)) :
      Move threshold b .originSuccess { b with originErrStreak := 0 }
  | healStay {now : Int} (h : b.state ≠ .opened ∨ now - b.openTs < b.openTimeoutSec) :
      Move threshold b (.heal now) b
  | heal {now : Int} (h : b.state = .opened) (late : now - b.openTs ≥ b.openTimeoutSec) :
      Move threshold b (.heal now) { b with state := .halfOpen, halfOpenRequests := 0, successCount := 0 }

section
variable (threshold : Int) (b : Breaker)

theorem apply_check (now : Int) :
    Move threshold b (.check now) (apply threshold b (.check now)) := by
  unfold apply Breaker.shouldSkip
  dsimp only
  split
  · exact .checkClosed ‹_›
  · split
    · exact .checkProbe ‹_› ‹_›
    · exact .checkOpened ‹_› ‹_›
  · split
    · exact .checkFull ‹_› ‹_›
    · exact .checkSlot ‹_› ‹_›

theorem apply_failure (now : Int) :
    Move threshold b (.failure now) (apply threshold b (.failure now)) := by
  unfold apply Breaker.recordFailure
  dsimp only
  split
  · split
    · exact .failTrip ‹_› ‹_›
    · exact .fail ‹_› ‹_›
  · exact .failProbe ‹_›
  · exact .failOpened ‹_›

theorem apply_success : Move threshold b .success (apply threshold b .success) := by
  unfold apply Breaker.recordSuccess Breaker.originGatesConnectClose
  dsimp only
  split
  · exact .successClosed ‹_›
  · split
    · exact .successGated ‹_› ‹_›
    · rename_i h hfree
      rw [Bool.not_eq_true] at hfree
      split
      · exact .successClose h hfree ‹_›
      · exact .successCount h hfree ‹_›
  · exact .successOpened ‹_›

theorem apply_originError (now : Int) :
    Move threshold b (.originError now) (apply threshold b (.originError now)) := by
  change Move threshold b _ (b.recordOriginError threshold now).1
  by_cases hoff : threshold ≤ 0
  · rw [Breaker.recordOriginError, if_pos hoff]
    exact .originOff (.inl hoff)
  have hon : 0 < threshold := Int.not_le.mp hoff
  rw [Breaker.recordOriginError, if_neg hoff]
  cases h : b.state with
  | closed =>
    by_cases henough : b.originErrStreak + 1 ≥ threshold.toNat
    · have hnote : b.originNoteError threshold =
          ({ b with originErrStreak := 0, originTripped := true }, true) := by
        simp [Breaker.originNoteError, hoff, h, henough]
      rw [hnote]
      exact .originTrip hon (.inl ⟨h, henough⟩)
    · have hnote : b.originNoteError threshold =
          ({ b with originErrStreak := b.originErrStreak + 1 }, false) := by
        simp only [Breaker.originNoteError, if_neg hoff, h, if_neg henough]
      rw [hnote]
      exact .originNote hon h henough
  | halfOpen =>
    have hnote : b.originNoteError threshold =
        ({ b with originErrStreak := 0, originTripped := true }, true) := by
      simp [Breaker.originNoteError, hoff, h]
    rw [hnote]
    exact .originTrip hon (.inr h)
  | opened =>
    have hnote : b.originNoteError threshold = (b, false) := by
      simp [Breaker.originNoteError, hoff, h]
    rw [hnote]
    exact .originOff (.inr h)

theorem apply_originSuccess :
    Move threshold b .originSuccess (apply threshold b .originSuccess) := by
  unfold apply Breaker.recordOriginSuccess Breaker.originNoteSuccess
  dsimp only
  split
  · rename_i h
    rw [Bool.and_eq_true, decide_eq_true_eq] at h
    exact .originClose h.1 h.2
  · rename_i h
    rw [Bool.and_eq_true, decide_eq_true_eq] at h
    exact .originReset h

theorem apply_heal (now : Int) : Move threshold b (.heal now) (apply threshold b (.heal now)) := by
  unfold apply Breaker.proactiveHeal
  dsimp only
  split
  · exact .healStay (.inl ‹_›)
  rename_i h
  split
  · exact .healStay (.inr ‹_›)
  · rename_i hlate
    exact .heal (not_not.mp h) (Int.not_lt.mp hlate)

theorem apply_move (a : Step) : Move threshold b a (apply threshold b a) := by
  cases a with
  | check now => exact apply_check threshold b now
  | failure now => exact apply_failure threshold b now
  | success => exact apply_success threshold b
  | originError now => exact apply_originError threshold b now
  | originSuccess => exact apply_originSuccess threshold b
  | heal now => exact apply_heal threshold b now

end

def Breaker.config (b : Breaker) : Nat × Nat × Nat × Nat :=
  (b.failureThreshold, b.successThreshold, b.openTimeoutSec, b.halfOpenMaxRequests)

theorem apply_config (b : Breaker) (a : Step) : (apply threshold b a).config = b.config := by
  have hmove := apply_move threshold b a
  generalize apply threshold b a = b' at hmove
  cases hmove <;> rfl

theorem run_config (b : Breaker) (steps : List Step) :
    (run threshold b steps).config = b.config := by
  induction steps generalizing b with
  | nil => rfl
  | cons a steps ih => exact (ih (apply threshold b a)).trans (apply_config threshold b a)

/-! ## what lets traffic back -/

def Exhausted (b : Breaker) : Prop := b.state = .halfOpen ∧ b.halfOpenMaxRequests ≤ b.halfOpenRequests
def Quiet (steps : List Step) : Prop := ∀ a ∈ steps, a.isOutcome = false

/-- the operation is a check that lets a request through -/
def allows (b : Breaker) : Step → Bool
  | .check now => !(b.shouldSkip now).1
  | _ => false

def letThrough (threshold : Int) (b : Breaker) : List Step → Bool
  | [] => false
  | a :: steps => allows b a || letThrough threshold (apply threshold b a) steps

/-- without an outcome, the first check made after the timeout lets a request through unless an
earlier one has -/
def LetsBack (threshold : Int) (b : Breaker) : Prop :=
  ∀ quiet now, Quiet quiet → b.openTs + b.openTimeoutSec ≤ now →
    letThrough threshold b (quiet ++ [.check now]) = true

/-- a check does not take the last probe slot -/
def keepsSlot (b : Breaker) : Step → Prop
  | .check _ => b.state = .halfOpen → b.halfOpenRequests + 1 < b.halfOpenMaxRequests
  | _ => True

variable {b : Breaker} {now : Int} {quiet : List Step} {a : Step}

theorem shouldSkip_of_exhausted (h : Exhausted b) (now : Int) : b.shouldSkip now = (true, b) := by
  rw [Breaker.shouldSkip, h.1]
  exact if_pos h.2

theorem shouldSkip_of_late (h : ¬ Exhausted b) (hlate : b.openTs + b.openTimeoutSec ≤ now) :
    (b.shouldSkip now).1 = false := by
  unfold Breaker.shouldSkip
  split
  · rfl
  · rw [if_pos (by omega)]
  · rw [if_neg fun hfull => h ⟨‹_›, hfull⟩]

theorem dark_of_exhausted (h : Exhausted b) (hquiet : Quiet quiet) :
    run threshold b quiet = b ∧ letThrough threshold b quiet = false := by
  induction quiet with
  | nil => exact ⟨rfl, rfl⟩
  | cons a quiet ih =>
    have hstay : apply threshold b a = b ∧ allows b a = false := by
      cases a with
      | check now => simp [apply, allows, shouldSkip_of_exhausted h now]
      | heal now => simp [apply, allows, Breaker.proactiveHeal, h.1]
      | _ => cases hquiet _ mem_cons_self
    obtain ⟨hrun, hlet⟩ := ih fun x hx => hquiet x (mem_cons_of_mem _ hx)
    constructor
    · rw [run, foldl_cons, hstay.1]
      exact hrun
    · rw [letThrough, hstay.1, hstay.2, hlet]
      rfl

section
variable (h : ¬ Exhausted b) (hmax : 0 < b.halfOpenMaxRequests)
include h hmax

theorem quiet_step (ha : a.isOutcome = false) : allows b a = true ∨
      ¬ Exhausted (apply threshold b a) ∧ (apply threshold b a).openTs = b.openTs := by
  cases a with
  | check now =>
    by_cases hlate : b.openTs + b.openTimeoutSec ≤ now
    · left
      simp [allows, shouldSkip_of_late h hlate]
    · simp only [allows, apply, Breaker.shouldSkip]
      split
      · exact .inl rfl
      · rw [if_neg (by omega)]
        exact .inr ⟨h, rfl⟩
      · rw [if_neg fun hfull => h ⟨‹_›, hfull⟩]
        exact .inl rfl
  | heal now =>
    right
    have hmove := apply_move threshold b (.heal now)
    generalize apply threshold b (.heal now) = b' at hmove
    cases hmove with
    | healStay _ => exact ⟨h, rfl⟩
    | heal _ _ => exact ⟨fun he => absurd he.2 (Nat.not_le.mpr hmax), rfl⟩
  | _ => cases ha

theorem letThrough_of_late (hquiet : Quiet quiet) (hlate : b.openTs + b.openTimeoutSec ≤ now) :
    letThrough threshold b (quiet ++ [.check now]) = true := by
  induction quiet generalizing b with
  | nil => simp [letThrough, allows, shouldSkip_of_late h hlate]
  | cons a quiet ih =>
    rw [cons_append, letThrough, Bool.or_eq_true]
    rcases quiet_step threshold h hmax (hquiet a mem_cons_self) with hallow | ⟨hfree, hts⟩
    · exact .inl hallow
    · have hcfg := apply_config threshold b a
      simp only [Breaker.config, Prod.mk.injEq] at hcfg
      right
      apply ih hfree (by omega) (fun x hx => hquiet x (mem_cons_of_mem _ hx))
      omega

omit h in
/-- **traffic comes back exactly while a probe slot can be had** -/
theorem letsBack_iff : LetsBack threshold b ↔ ¬ Exhausted b := by
  constructor
  · intro h he
    have hlet := h [] _ (fun _ hx => absurd hx not_mem_nil) (le_refl _)
    rw [(dark_of_exhausted threshold he (by simp [Quiet, Step.isOutcome])).2] at hlet
    cases hlet
  · intro h quiet now hquiet hlate
    exact letThrough_of_late threshold h hmax hquiet hlate

omit hmax in
theorem exhausted_apply (hmax : 1 < b.halfOpenMaxRequests) (a : Step) :
    ¬ Exhausted (apply threshold b a) ↔ keepsSlot b a := by
  have hmove := apply_move threshold b a
  generalize apply threshold b a = b' at hmove
  unfold Exhausted at h ⊢
  cases hmove <;> simp_all [keepsSlot]
  omega

end

/-! ## what closes a breaker -/

def Step.isFault : Step → Bool
  | .failure _ | .originError _ => true
  | _ => false

section
variable {threshold : Int} {b' : Breaker} (hmove : Move threshold b a b') (ha : a.isFault = false)
include hmove ha

theorem Move.opened (h : b.state = .opened) :
    (b'.state = .opened ∧ b'.openTs = b.openTs) ∨ b'.state = .halfOpen := by
  cases hmove <;> simp_all [Step.isFault]

theorem Move.halfOpen (h : b.state = .halfOpen) :
    (b'.state = .halfOpen ∧ b.halfOpenRequests ≤ b'.halfOpenRequests ∧
        b'.originTripped = b.originTripped) ∨ b'.state = .closed := by
  cases hmove <;> simp_all [Step.isFault]

end

section
variable {threshold : Int} {b : Breaker} {σ : Nat → Step} {N : Nat}

/-- the clock advances: checks come at times as late as one likes -/
def Asked (σ : Nat → Step) : Prop := ∀ n (t : Int), ∃ m now, n ≤ m ∧ t ≤ now ∧ σ m = .check now

theorem trace_config (threshold : Int) (b : Breaker) (σ : Nat → Step) (n : Nat) :
    (trace (apply threshold) b σ n).config = b.config :=
  trace_inv (fun c a h => (apply_config threshold c a).trans h) rfl σ n

variable (hcalm : ∀ n, N ≤ n → (σ n).isFault = false) (hasked : Asked σ)
include hcalm hasked

theorem leads_halfOpen (threshold : Int) (b : Breaker) :
    ∃ n, N ≤ n ∧ ((trace (apply threshold) b σ n).state = .halfOpen ∨
      (trace (apply threshold) b σ n).state = .closed) := by
  cases hs : (trace (apply threshold) b σ N).state with
  | closed => exact ⟨N, le_refl N, .inr hs⟩
  | halfOpen => exact ⟨N, le_refl N, .inl hs⟩
  | opened =>
    obtain ⟨m, now, hm, hlate, hcheck⟩ := hasked N
      ((trace (apply threshold) b σ N).openTs + (trace (apply threshold) b σ N).openTimeoutSec)
    obtain ⟨n, hn, hhalf⟩ := leads (apply threshold) b σ hm
      (fun c => c.state = .opened ∧ c.openTs = (trace (apply threshold) b σ N).openTs)
      (fun c => c.state = .halfOpen) ⟨hs, rfl⟩
      (fun k hk hp => ((apply_move _ _ _).opened (hcalm k hk) hp.1).imp_left fun h => ⟨h.1, h.2.trans hp.2⟩)
      (fun hp => by
        have hcfg := (trace_config threshold b σ m).trans (trace_config threshold b σ N).symm
        simp only [Breaker.config, Prod.mk.injEq] at hcfg
        rw [trace, hcheck, apply, Breaker.shouldSkip, hp.1]
        rw [if_pos (by omega)])
    exact ⟨n, hn, .inl hhalf⟩

theorem closes_of_keepsSlot (hslot : ∀ n, keepsSlot (trace (apply threshold) b σ n) (σ n)) :
    ∃ n, N ≤ n ∧ (trace (apply threshold) b σ n).state = .closed := by
  by_contra hnever
  -- never closed, it gives out one slot after the other
  have hgiven : ∀ k, ∃ n, N ≤ n ∧ (trace (apply threshold) b σ n).state = .halfOpen ∧
      k ≤ (trace (apply threshold) b σ n).halfOpenRequests ∧ (k = 0 ∨ k < b.halfOpenMaxRequests) := by
    intro k
    induction k with
    | zero =>
      obtain ⟨n, hn, hhalf | hclosed⟩ := leads_halfOpen hcalm hasked threshold b
      · exact ⟨n, hn, hhalf, Nat.zero_le _, .inl rfl⟩
      · exact absurd ⟨n, hn, hclosed⟩ hnever
    | succ k ih =>
      obtain ⟨n, hn, hhalf, hk, -⟩ := ih
      obtain ⟨m, now, hm, -, hcheck⟩ := hasked n 0
      obtain ⟨i, hi, hmore⟩ := leads (apply threshold) b σ hm
        (fun c => c.state = .halfOpen ∧ k ≤ c.halfOpenRequests)
        (fun c => (c.state = .halfOpen ∧ k + 1 ≤ c.halfOpenRequests ∧
          k + 1 < b.halfOpenMaxRequests) ∨ c.state = .closed) ⟨hhalf, hk⟩
        (fun j hj hp => ((apply_move _ _ _).halfOpen (hcalm j (hn.trans hj)) hp.1).imp
          (fun h => ⟨h.1, hp.2.trans h.2.1⟩) .inr)
        (fun hp => by
          have hs := hslot m
          rw [hcheck] at hs
          have hfree := hs hp.1
          have hcfg := trace_config threshold b σ m
          simp only [Breaker.config, Prod.mk.injEq] at hcfg
          left
          rw [trace, hcheck, apply, Breaker.shouldSkip, hp.1]
          dsimp only
          rw [if_neg (by omega)]
          exact ⟨rfl, Nat.succ_le_succ hp.2, by omega⟩)
      rcases hmore with ⟨h1, h2, h3⟩ | hclosed
      · exact ⟨i, hn.trans hi, h1, h2, .inr h3⟩
      · exact absurd ⟨i, hn.trans hi, hclosed⟩ hnever
  obtain ⟨_, -, -, -, hroom⟩ := hgiven (b.halfOpenMaxRequests + 1)
  omega

theorem closes_of_answered (hone : b.successThreshold = 1)
    (hsuccess : ∀ n, ∃ m, n ≤ m ∧ σ m = .success) (horigin : ∀ n, ∃ m, n ≤ m ∧ σ m = .originSuccess) :
    ∃ n, N ≤ n ∧ (trace (apply threshold) b σ n).state = .closed := by
  obtain ⟨n, hn, hhalf | hclosed⟩ := leads_halfOpen hcalm hasked threshold b
  · -- the evidence that closes it is of the kind that opened it
    have hleads : ∀ m, n ≤ m → (∀ c, c.state = .halfOpen →
        c.originTripped = (trace (apply threshold) b σ n).originTripped → c.config = b.config →
          (apply threshold c (σ m)).state = .closed) →
        ∃ i, n ≤ i ∧ (trace (apply threshold) b σ i).state = .closed := by
      intro m hm hfire
      exact leads (apply threshold) b σ hm (fun c => c.state = .halfOpen ∧
          c.originTripped = (trace (apply threshold) b σ n).originTripped)
        (fun c => c.state = .closed) ⟨hhalf, rfl⟩
        (fun j hj hp => ((apply_move _ _ _).halfOpen (hcalm j (hn.trans hj)) hp.1).imp_left
          fun h => ⟨h.1, h.2.2.trans hp.2⟩)
        (fun hp => hfire _ hp.1 hp.2 (trace_config threshold b σ m))
    obtain ⟨i, hi, hclosed⟩ : ∃ i, n ≤ i ∧ (trace (apply threshold) b σ i).state = .closed := by
      cases ht : (trace (apply threshold) b σ n).originTripped with
      | true =>
        obtain ⟨m, hm, hstep⟩ := horigin n
        refine hleads m hm fun c hc htrip _ => ?_
        rw [ht] at htrip
        simp [hstep, apply, Breaker.recordOriginSuccess, Breaker.originNoteSuccess, hc, htrip]
      | false =>
        obtain ⟨m, hm, hstep⟩ := hsuccess n
        refine hleads m hm fun c hc htrip hcfg => ?_
        simp only [Breaker.config, Prod.mk.injEq] at hcfg
        rw [ht] at htrip
        simp [hstep, apply, Breaker.recordSuccess, Breaker.originGatesConnectClose, hc, htrip,
          hcfg.2.1.trans hone]
    exact ⟨i, hn.trans hi, hclosed⟩
  · exact ⟨n, hn, hclosed⟩

end

/-! ## what opens a breaker -/

/-- the connect failures since the last connect success -/
def fails (steps : List Step) : Nat :=
  steps.foldl (fun n a => match a with
    | .failure _ => n + 1
    | .success => 0
    | _ => n) 0

/-- the origin errors since the last origin success -/
def origins (steps : List Step) : Nat :=
  steps.foldl (fun n a => match a with
    | .originError _ => n + 1
    | .originSuccess => 0
    | _ => n) 0

def Counted (b : Breaker) (failed erred : Nat) : Prop :=
  (b.state = .closed → b.failureCount ≤ failed) ∧ b.originErrStreak ≤ erred

theorem run_counted (threshold : Int) (hb : Counted b 0 0) (steps : List Step) :
    Counted (run threshold b steps) (fails steps) (origins steps) := by
  induction steps using reverseRecOn with
  | nil => exact hb
  | append_singleton steps a ih =>
    rw [run_append, fails, origins]
    have hmove := apply_move threshold (run threshold b steps) a
    generalize apply threshold (run threshold b steps) a = b' at hmove
    obtain ⟨hfail, herr⟩ := ih
    rw [fails] at hfail
    rw [origins] at herr
    unfold Counted
    cases hmove <;> simp_all
    omega

theorem opens_only_on_threshold (threshold : Int) (hb : Counted b 0 0) (steps : List Step)
    (a : Step) (hclosed : (run threshold b steps).state = .closed)
    (hopened : (run threshold b (steps ++ [a])).state = .opened) :
    (∃ now, a = .failure now ∧ b.failureThreshold ≤ fails (steps ++ [a])) ∨
      ∃ now, a = .originError now ∧ 0 < threshold ∧ threshold ≤ origins (steps ++ [a]) := by
  obtain ⟨hfail, herr⟩ := run_counted threshold hb steps
  have hcfg := run_config threshold b steps
  simp only [Breaker.config, Prod.mk.injEq] at hcfg
  rw [run_append] at hopened
  rw [fails, origins, foldl_append, foldl_append]
  rw [fails] at hfail
  rw [origins] at herr
  have hmove := apply_move threshold (run threshold b steps) a
  generalize apply threshold (run threshold b steps) a = b' at hmove hopened
  cases hmove with
  | failTrip _ henough =>
    left
    refine ⟨_, rfl, ?_⟩
    have hcount := hfail hclosed
    simp only [foldl_cons, foldl_nil]
    omega
  | originTrip hon henough =>
    right
    refine ⟨_, rfl, hon, ?_⟩
    simp only [foldl_cons, foldl_nil]
    rcases henough with ⟨_, henough⟩ | hhalf
    · omega
    · rw [hhalf] at hclosed
      cases hclosed
  | _ => simp_all

/-- what a configured breaker does for its endpoint -/
structure LetsTrafficBack (threshold : Int) (b : Breaker) : Prop where
  /-- no state of a run is stuck, exactly when no check took the last slot -/
  notStuck : ∀ steps, (∀ pre post, steps = pre ++ post → LetsBack threshold (run threshold b pre)) ↔
    ∀ pre a post, steps = pre ++ a :: post → keepsSlot (run threshold b pre) a
  /-- under the same condition a breaker that is asked and sees no more faults closes -/
  closes : ∀ (σ : Nat → Step) (N : Nat), (∀ n, keepsSlot (trace (apply threshold) b σ n) (σ n)) →
    (∀ n, N ≤ n → (σ n).isFault = false) → Asked σ →
      ∃ n, N ≤ n ∧ (trace (apply threshold) b σ n).state = .closed
  /-- and without it when successes of both kinds keep coming -/
  answered : ∀ (σ : Nat → Step) (N : Nat), (∀ n, N ≤ n → (σ n).isFault = false) → Asked σ →
    (∀ n, ∃ m, n ≤ m ∧ σ m = .success) → (∀ n, ∃ m, n ≤ m ∧ σ m = .originSuccess) →
      ∃ n, N ≤ n ∧ (trace (apply threshold) b σ n).state = .closed
  /-- it opens on a threshold of failures with no success between, or of origin errors -/
  opens : ∀ steps a, (run threshold b steps).state = .closed → (run threshold b (steps ++ [a])).state = .opened →
    (∃ now, a = .failure now ∧ b.failureThreshold ≤ fails (steps ++ [a])) ∨
      ∃ now, a = .originError now ∧ 0 < threshold ∧ threshold ≤ origins (steps ++ [a])

/-- **a breaker lets traffic back as long as no check takes its last probe slot** -/
theorem breaker_lets_back (threshold : Int) (failureThreshold openTimeoutSec : Nat) :
    LetsTrafficBack threshold (configurePool failureThreshold openTimeoutSec) where
  notStuck := by
    intro steps
    have hmax : ∀ pre,
        (run threshold (configurePool failureThreshold openTimeoutSec) pre).halfOpenMaxRequests = 3 := by
      intro pre
      have hcfg := run_config threshold (configurePool failureThreshold openTimeoutSec) pre
      simp only [Breaker.config, Prod.mk.injEq] at hcfg
      exact hcfg.2.2.2
    -- the slots are those of the configuration in every state of the run
    have hiff := prefix_iff (apply threshold) (configurePool failureThreshold openTimeoutSec)
      (fun b => ¬ Exhausted b ∧ b.halfOpenMaxRequests = 3) keepsSlot ⟨fun h => (by cases h.1), rfl⟩
      (fun b a hb => by
        have hcfg := apply_config threshold b a
        simp only [Breaker.config, Prod.mk.injEq] at hcfg
        rw [← exhausted_apply threshold hb.1 (by omega) a]
        exact and_iff_left (hcfg.2.2.2.trans hb.2)) steps
    refine Iff.trans ?_ hiff
    apply forall_congr'
    intro pre
    apply forall_congr'
    intro post
    apply forall_congr'
    intro _
    have h3 := hmax pre
    rw [letsBack_iff threshold (by omega)]
    exact (and_iff_left h3).symm
  closes := fun _ _ hslot hcalm hasked => closes_of_keepsSlot hcalm hasked hslot
  answered := fun _ _ hcalm hasked hsuccess horigin => closes_of_answered hcalm hasked rfl hsuccess horigin
  opens := opens_only_on_threshold threshold ⟨fun _ => Nat.zero_le _, Nat.zero_le _⟩

def darkRun : List Step :=
  [.failure 0, .failure 0, .failure 0, .failure 0, .failure 0, .check 30, .check 31, .check 32]

/-- the endpoint is dark from then on: no check lets a request through and the breaker never closes,
however long it waits and however often it is healed -/
theorem breaker_dark : ¬ LetsBack 5 (run 5 (configurePool 0 0) darkRun) ∧
    ∀ quiet, Quiet quiet → letThrough 5 (run 5 (configurePool 0 0) darkRun) quiet = false ∧
      (run 5 (configurePool 0 0) (darkRun ++ quiet)).state = .halfOpen := by
  have hdark : Exhausted (run 5 (configurePool 0 0) darkRun) := by
    unfold Exhausted
    decide
  refine ⟨fun h => (letsBack_iff 5 (by decide)).mp h hdark, ?_⟩
  intro quiet hquiet
  obtain ⟨hstay, hlet⟩ := dark_of_exhausted 5 hdark hquiet
  refine ⟨hlet, ?_⟩
  change (run 5 (run 5 (configurePool 0 0) darkRun) quiet).state = _
  rw [hstay]
  exact hdark.1

end Cb
