import InferenceGateway.Fc.Queue

/-!
# The adaptive ceiling

The ceiling of an adaptive pool over configuration changes and ticks.  What a tick wakes moves
waiters only and is left out.
-/

namespace Fc

/-- what moves the ceiling -/
inductive Retune
  | apply (m : Mem) (cfg : Cfg)
  | tick (sig : Signal)

def Retune.run (s : State) : Retune → State
  | .apply m cfg => stateApply m s cfg
  | .tick sig => adaptTick s sig

def State.adapts (s : State) : Prop := s.cfg.adaptive = true ∧ 0 < s.cfg.maxOutstanding

/-- an adaptive ceiling is within the configured one, and its state says whether it is under -/
structure Adapted (s : State) : Prop where
  pos : 1 ≤ s.effMax
  le : s.effMax ≤ s.cfg.maxOutstanding
  opened : s.adaptState = .atCeiling ↔ s.effMax = s.cfg.maxOutstanding
  under : s.adaptState = .tightened ∨ s.adaptState = .frozen ↔ s.effMax < s.cfg.maxOutstanding

/-- how a tick moves the ceiling: a stale signal holds it, backpressure never raises it nor takes
it under a quarter, a clear signal gives one unit back -/
def Signal.Moves (sig : Signal) (ceil eff next : Nat) : Prop :=
  if sig.fresh = false then next = eff
  else if (sig.queued || sig.ttftOver) = true then
    next ≤ eff ∧ (max 1 (ceil / 4) ≤ eff → max 1 (ceil / 4) ≤ next)
  else next = if eff < ceil then eff + 1 else eff

theorem adaptReset_adapted {s : State} (old : Cfg) (h : (adaptReset s old).adapts) :
    Adapted (adaptReset s old) := by
  unfold adaptReset at h ⊢
  dsimp only at h ⊢
  split at h
  case isTrue hoff => exact absurd h (by unfold State.adapts; grind)
  case isFalse hon =>
    constructor <;> grind

theorem adaptTick_cfg (s : State) (sig : Signal) : (adaptTick s sig).cfg = s.cfg := by
  unfold adaptTick
  split_ifs <;> rfl

theorem adaptTick_moves {s : State} (h : s.adapts) (hs : Adapted s) (sig : Signal) :
    Adapted (adaptTick s sig) ∧
      sig.Moves s.cfg.maxOutstanding s.effMax (adaptTick s sig).effMax := by
  obtain ⟨ha, hc⟩ := h
  obtain ⟨hpos, hle, ho, hu⟩ := hs
  unfold adaptTick Signal.Moves
  rw [if_neg (by simp [ha]; omega)]
  cases hf : sig.fresh with
  | false => refine ⟨⟨hpos, hle, ?_, ?_⟩, rfl⟩ <;> grind
  | true => cases hq : sig.queued || sig.ttftOver <;> refine ⟨⟨?_, ?_, ?_, ?_⟩, ?_⟩ <;> grind

theorem Retune.adapted {s : State} (hs : s.adapts → Adapted s) (op : Retune)
    (h : (op.run s).adapts) : Adapted (op.run s) := by
  cases op with
  | apply m cfg => exact { adaptReset_adapted s.cfg h with }
  | tick sig =>
    have hs' : s.adapts := by
      unfold State.adapts at h
      rwa [Retune.run, adaptTick_cfg] at h
    exact (adaptTick_moves hs' (hs hs') sig).1

/-- After any configuration changes and ticks an adaptive ceiling is within the configured one, and
the next tick moves it as its signal says. -/
theorem adaptive_ceiling (m : Mem) (slots : Nat) (cfg : Cfg) (ops : List Retune) :
    let s := ops.foldl Retune.run (stateInit m slots cfg)
    s.adapts → Adapted s ∧
      ∀ sig, Signal.Moves sig s.cfg.maxOutstanding s.effMax (adaptTick s sig).effMax := by
  have hrun : ∀ s, (s.adapts → Adapted s) →
      (ops.foldl Retune.run s).adapts → Adapted (ops.foldl Retune.run s) := by
    induction ops with
    | nil => exact fun s hs => hs
    | cons op ops ih => exact fun s hs => ih _ (Retune.adapted hs op)
  intro s h
  have hs := hrun _ (Retune.adapted (s := State.zero _) nofun (.apply m cfg)) h
  exact ⟨hs, fun sig => (adaptTick_moves h hs sig).2⟩

theorem adaptive_ceiling_tightened : Adapted ([Retune.tick ⟨true, true, false⟩].foldl Retune.run
      (stateInit Mem.ok 64 { Cfg.zero with adaptive := true, maxOutstanding := 8 })) :=
  (adaptive_ceiling Mem.ok 64 { Cfg.zero with adaptive := true, maxOutstanding := 8 }
    [.tick ⟨true, true, false⟩] ⟨by decide, by decide⟩).1

end Fc
