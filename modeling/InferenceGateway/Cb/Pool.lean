import InferenceGateway.Cb.Breaker

/-!
# The breakers of a pool

A pool keeps a breaker per endpoint slot.  The breakers are set up when the pool is made and when
it is configured, for the endpoints it has then; an update of the rule in place changes the
endpoints and leaves the breakers as they are.
-/

open Function

namespace Cb

def Breaker.zero : Breaker :=
  { Breaker.init with
    failureThreshold := 0, successThreshold := 0, openTimeoutSec := 0, halfOpenMaxRequests := 0 }

def maxProxyEp : Nat := 32

structure Pool where
  nEps : Nat
  eps : Nat → Nat
  cbEnabled : Bool
  breaker : Nat → Breaker
  /-- how many slots were ever set up -/
  setUp : Nat
  /-- no connect failure was counted in CLOSED for the endpoint now in the slot -/
  unfailed : Nat → Bool

def Pool.uses (p : Pool) (i : Nat) : Bool := i < p.nEps && i < maxProxyEp

/-- the breakers of the endpoints in use are set up -/
def Pool.init (p : Pool) (b : Breaker) : Pool :=
  { p with breaker := fun i => if p.uses i then b else p.breaker i, setUp := max p.setUp p.nEps }

/-- the new pool of `proxy_add_entry` -/
def Pool.create (n : Nat) (eps : Nat → Nat) (enabled : Bool) : Pool :=
  let p : Pool :=
    { nEps := n, eps := eps, cbEnabled := enabled, breaker := fun _ => Breaker.zero, setUp := 0
      unfailed := fun _ => true }
  if enabled then p.init Breaker.init else p

inductive PoolOp
  /-- the refresh in place of `proxy_add_entry` -/
  | refresh (n : Nat) (eps : Nat → Nat)
  | configure (enabled : Bool) (failureThreshold openTimeoutSec : Nat)
  | outcome (i : Nat) (a : Step)

def Step.isFailure : Step → Bool
  | .failure _ => true
  | _ => false

def Pool.comes (p : Pool) (eps : Nat → Nat) (i : Nat) : Bool := p.nEps ≤ i || eps i ≠ p.eps i

def Pool.apply (threshold : Int) (p : Pool) : PoolOp → Pool
  | .refresh n eps =>
    { p with nEps := n, eps := eps, unfailed := fun i => p.comes eps i || p.unfailed i }
  | .configure enabled failureThreshold openTimeoutSec =>
    let p := if enabled then p.init (configurePool failureThreshold openTimeoutSec) else p
    { p with cbEnabled := enabled }
  | .outcome i a =>
    if p.cbEnabled && p.uses i then
      { p with
        breaker := update p.breaker i (Cb.apply threshold (p.breaker i) a)
        unfailed := if a.isFailure && (p.breaker i).state = .closed then update p.unfailed i false
          else p.unfailed }
    else p

def Breaker.configured (b : Breaker) : Prop :=
  1 ≤ b.failureThreshold ∧ 1 ≤ b.successThreshold ∧ 1 ≤ b.halfOpenMaxRequests ∧ 1 ≤ b.openTimeoutSec

/-- where breakers are on, every endpoint's is configured, and its first connect failure does not
open it -/
def Pool.Guarded (p : Pool) : Prop :=
  p.cbEnabled = true → ∀ i, p.uses i = true → (p.breaker i).configured ∧
    (p.unfailed i = true → (p.breaker i).state = .closed → 1 < (p.breaker i).failureThreshold → ∀ now,
      ((p.breaker i).recordFailure now).1.state = .closed)

/-- a closed breaker is more than one failure short of its threshold, if that is above one -/
def Breaker.spare (b : Breaker) : Prop :=
  b.state = .closed → 1 < b.failureThreshold → b.failureCount + 1 < b.failureThreshold

/-- while breakers are on, an endpoint comes only into a slot that was set up and carries no
failure count one short of the threshold -/
def PoolOp.respects (p : Pool) : PoolOp → Prop
  | .refresh n eps => p.cbEnabled = true → ∀ i, i < n → i < maxProxyEp → p.comes eps i = true →
      i < p.setUp ∧ (p.breaker i).spare
  | _ => True

def Pool.Tracked (p : Pool) : Prop :=
  ∀ i, i < maxProxyEp → (i < p.setUp → (p.breaker i).configured) ∧
    (p.setUp ≤ i → (p.breaker i).failureThreshold = 0)

section
variable {threshold : Int} {b : Breaker} {p : Pool} {i : Nat}

theorem spare_iff : b.spare ↔ (b.state = .closed → 1 < b.failureThreshold →
    ∀ now, (b.recordFailure now).1.state = .closed) := by
  unfold Breaker.spare Breaker.recordFailure
  refine forall_congr' fun hc => forall_congr' fun _ => ?_
  simp only [hc]
  constructor
  · intro h now
    rw [if_neg (by omega)]
  · intro h
    by_contra hn
    have h0 := h 0
    rw [if_pos (by omega)] at h0
    cases h0

theorem apply_spare {a : Step} (h : b.spare) (hc : ¬ (a.isFailure && b.state = .closed) = true) :
    (apply threshold b a).spare := by
  have hmove := apply_move threshold b a
  generalize apply threshold b a = b' at hmove
  cases hmove with
  | fail hs | failTrip hs => exact absurd (decide_eq_true hs) hc
  | successClosed | successClose | originClose => exact fun _ h1 => h1
  | checkProbe | checkSlot | failProbe | failOpened | successCount | originTrip | heal => grind [Breaker.spare]
  | _ => exact h

theorem configured_of_config {b' : Breaker} (h : b'.config = b.config) (hb : b.configured) :
    b'.configured := by
  simp only [Breaker.config, Prod.mk.injEq] at h
  obtain ⟨h1, h2, h3, h4⟩ := h
  unfold Breaker.configured
  rwa [h1, h2, h3, h4]

theorem uses_iff : p.uses i = true ↔ i < p.nEps ∧ i < maxProxyEp := by
  rw [Pool.uses, Bool.and_eq_true, decide_eq_true_iff, decide_eq_true_iff]

theorem tracked_init (h : p.Tracked) (hb : b.configured) : (p.init b).Tracked := by
  intro i hi
  have hu := uses_iff (p := p) (i := i)
  obtain ⟨h1, h2⟩ := h i hi
  unfold Pool.init
  dsimp only
  split
  case isTrue hc => exact ⟨fun _ => hb, fun hle => absurd (hu.mp hc).1 (by omega)⟩
  case isFalse hc =>
    rw [hu] at hc
    exact ⟨fun hlt => h1 (by omega), fun hle => h2 (by omega)⟩

theorem guarded_init (hb : b.configured) (hc : b.failureCount = 0) : (p.init b).Guarded := by
  intro _ i hi
  have he : (p.init b).breaker i = b := if_pos hi
  rw [he]
  exact ⟨hb, fun _ => spare_iff.mp fun _ h1 => by rwa [hc]⟩

theorem configurePool_configured (ft ot : Nat) : (configurePool ft ot).configured := by
  unfold Breaker.configured configurePool
  dsimp only
  refine ⟨?_, le_rfl, by decide, ?_⟩ <;> split <;> omega

theorem tracked_apply (h : p.Tracked) (op : PoolOp) : (p.apply threshold op).Tracked := by
  cases op with
  | refresh => exact h
  | configure enabled ft ot =>
    cases enabled with
    | false => exact h
    | true => exact tracked_init h (configurePool_configured ft ot)
  | outcome i a =>
    unfold Pool.apply
    dsimp only
    split
    case isFalse => exact h
    case isTrue =>
      have hconf := apply_config threshold (p.breaker i) a
      refine Run.update_all (fun j (b : Breaker) => j < maxProxyEp → (j < p.setUp → b.configured) ∧
        (p.setUp ≤ j → b.failureThreshold = 0)) (fun hi => ?_) h
      exact ⟨fun hlt => configured_of_config hconf ((h i hi).1 hlt),
        fun hle => (congrArg Prod.fst hconf).trans ((h i hi).2 hle)⟩

theorem guarded_apply (h : p.Guarded) (ht : p.Tracked) (op : PoolOp) :
    (p.apply threshold op).Guarded ↔ op.respects p := by
  cases op with
  | refresh n eps =>
    constructor
    · intro hg hon i hn hi hcomes
      obtain ⟨hconf, hspare⟩ := hg hon i (uses_iff.mpr ⟨hn, hi⟩)
      refine ⟨?_, spare_iff.mpr (hspare (by simp [Pool.apply, hcomes]))⟩
      by_contra hlt
      exact absurd ((ht i hi).2 (Nat.le_of_not_lt hlt)) (Nat.ne_of_gt hconf.1)
    · intro hr hon i hu
      obtain ⟨hn, hi⟩ := uses_iff.mp hu
      cases hcomes : p.comes eps i with
      | true =>
        obtain ⟨hlt, hspare⟩ := hr hon i hn hi hcomes
        exact ⟨(ht i hi).1 hlt, fun _ => spare_iff.mp hspare⟩
      | false =>
        obtain ⟨hconf, hspare⟩ := h hon i (uses_iff.mpr ⟨by simp [Pool.comes] at hcomes; omega, hi⟩)
        exact ⟨hconf, fun hf => hspare (by simpa [Pool.apply, hcomes] using hf)⟩
  | configure enabled ft ot =>
    refine iff_of_true ?_ trivial
    cases enabled with
    | false => exact nofun
    | true => exact guarded_init (p := { p with cbEnabled := true }) (configurePool_configured ft ot) rfl
  | outcome i a =>
    refine iff_of_true ?_ trivial
    unfold Pool.apply
    dsimp only
    split
    case isFalse => exact h
    case isTrue hu =>
      intro hon j hj
      by_cases hji : j = i
      · subst hji
        obtain ⟨hconf, hspare⟩ := h hon j hj
        dsimp only
        rw [update_self]
        refine ⟨configured_of_config (apply_config threshold (p.breaker j) a) hconf, fun hf => ?_⟩
        split at hf
        · rw [update_self] at hf; cases hf
        · exact spare_iff.mp (apply_spare (spare_iff.mpr (hspare hf)) ‹_›)
      · dsimp only
        rw [update_of_ne hji]
        refine ⟨(h hon j hj).1, fun hf => (h hon j hj).2 ?_⟩
        split at hf
        · rwa [update_of_ne hji] at hf
        · exact hf

end

theorem create_ok (n : Nat) (eps : Nat → Nat) (enabled : Bool) :
    (Pool.create n eps enabled).Guarded ∧ (Pool.create n eps enabled).Tracked := by
  cases enabled with
  | false => exact ⟨nofun, fun _ _ => ⟨nofun, fun _ => rfl⟩⟩
  | true =>
    exact ⟨guarded_init (configurePool_configured 0 0) rfl,
      tracked_init (fun _ _ => ⟨nofun, fun _ => rfl⟩) (configurePool_configured 0 0)⟩

/-- In every run every endpoint in use is guarded by a configured breaker exactly where every refresh
respects the slots that were set up. -/
theorem breakers_configured_iff (threshold : Int) (n : Nat) (eps : Nat → Nat) (enabled : Bool)
    (ops : List PoolOp) :
    (∀ pre post, ops = pre ++ post →
      (pre.foldl (Pool.apply threshold) (Pool.create n eps enabled)).Guarded) ↔
    ∀ pre op post, ops = pre ++ op :: post →
      op.respects (pre.foldl (Pool.apply threshold) (Pool.create n eps enabled)) :=
  Run.prefix_iff_of_inv _ _ _ _ (create_ok n eps enabled).1 Pool.Tracked (create_ok n eps enabled).2
    ops (fun _ _ _ _ ht => tracked_apply ht _) fun _ _ _ h ht => guarded_apply h ht _

/-- a pool of one endpoint gets a second one in place, and one failed connect opens its breaker -/
theorem second_endpoint_unguarded :
    let p := (Pool.create 1 id true).apply 3 (.refresh 2 id)
    p.cbEnabled = true ∧ p.uses 1 = true ∧ (p.breaker 1).failureThreshold = 0 ∧
      ((p.apply 3 (.outcome 1 (.failure 7))).breaker 1).state = .opened := by
  decide

end Cb
