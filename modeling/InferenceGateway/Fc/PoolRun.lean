import InferenceGateway.Fc.Waiters

/-!
# Every reachable pool is in order

`pool_step` takes `PoolOk` through each step of the machine, and `pool_run` through every run
from a fresh pool: whatever the interleaving, the ring, the mirrors and the tenant table agree
with themselves between two steps.
-/

open Function

namespace Fc

theorem poolOk_zero (slots : Nat) : PoolOk (State.zero slots) :=
  ⟨ringOk_zero, rfl, fun _ _ => rfl, ⟨fun _ _ => rfl, fun h => Bool.noConfusion h⟩⟩

theorem poolOk_init (m : Mem) (slots : Nat) (cfg : Cfg) : PoolOk (stateInit m slots cfg) :=
  (stateApply_spec (poolOk_zero _) m cfg).1

theorem stateInit_spec (m : Mem) (slots : Nat) (cfg : Cfg) : (stateInit m slots cfg).queue.live = [] ∧
    (stateInit m slots cfg).queue.evicted = [] ∧ ((stateInit m slots cfg).anomaly = fun _ => 0) ∧
    Grows 0 (stateInit m slots cfg).queue.cap ∧ ∃ n, SameUnits (State.zero n) (stateInit m slots cfg) := by
  obtain ⟨_, h1, h2, h3, _, h4⟩ := stateApply_spec (poolOk_zero _) m cfg
  exact ⟨h1, h2, h3, h4, _, sameUnits_stateApply m _ cfg⟩

section
variable {ι : Type} [DecidableEq ι] {conn : ι → Conn} {x x' : Sys ι} {a : Act ι}

theorem concludeIf_threads (x : Sys ι) (i : ι) (d : Decision) (c : Bool) :
    (x.concludeIf i d c).threads = x.threads := by
  cases c <;> rfl

theorem concludeIf_wakes (x : Sys ι) (i : ι) (d : Decision) (c : Bool) :
    (x.concludeIf i d c).wakes = x.wakes := by
  cases c <;> rfl

omit [DecidableEq ι] in
theorem taken_permit {i : ι} (ht : (x.takes i).2.2 = true) (r : Reason)
    (nowNs : Nat) : (x.taken i r nowNs).2 = { (x.threads i).permit with state := .ended, qParked := false } := by
  unfold Sys.taken waitEnd
  rw [(queueTake_true ht).2]

/-! ## a step works on one permit -/

def Act.subject : Act ι → Option ι
  | .acquire i _ _ _ _ | .bypass i | .epAcquire i _ _ | .epAcquireAny i _ _ _ | .move i _ _ _
  | .releaseRole i _ | .release i | .push i _ _ _ _ _ | .resume i | .run i _ _ | .deadline i _
  | .drainFn i | .sweepFn i => some i
  | _ => none

theorem frame_micro (hm : Micro conn x a x') {j : ι} (hj : a.subject ≠ some j) :
    x'.threads j = x.threads j := by
  have other : ∀ {i : ι} {th : Thread}, some i ≠ some j → update x.threads i th j = x.threads j :=
    fun h => update_of_ne (fun hc => h (congrArg some hc.symm)) _ _
  cases hm with
  | epAnyNot | resumeNot | deadlineNot | wakeNone | wakePop | wakeHook | wakeDone | wakeFailed | pop
  | sweepStart | sweepEnd | apply | tick | warm | drain => rfl
  | relDrop | relSettle | drainFn | sweepFn =>
    rw [concludeIf_threads]
    exact other hj
  | resEvict | resTurn =>
    show (Sys.concludeIf _ _ _ _).threads j = _
    rw [concludeIf_threads]
    exact other hj
  | _ => exact other hj

theorem put_self (x : Sys ι) (i : ι) (s : State) (p : Permit) (pc : Pc) :
    (x.put i s p pc).threads i = ⟨p, pc⟩ := update_self _ _ _

/-- a place of an acquire before its unit is taken -/
def Pc.acquiring : Pc → Bool
  | .acqTake _ _ | .acqOver _ | .acqShared _ _ => true
  | _ => false

omit [DecidableEq ι] in
theorem EpMove.acquiring {s s' : State} {p : Permit} {r : Role} {nowNs : Nat} {pc : Pc}
    (h : EpMove s p r nowNs s' pc) : pc.acquiring = false := by
  cases h with
  | stop | next | shed => rfl
  | force _ _ place | take _ _ place => rcases place with rfl | rfl <;> rfl

theorem releaseStart_acquiring (p : Permit) : (releaseStart p).2.acquiring = false := by
  unfold releaseStart
  split <;> rfl

/-- **an acquire stands where it stood, or was just started, or has just found the pool full** -/
theorem acquiring_micro (hm : Micro conn x a x') {i : ι} (h : (x'.threads i).pc.acquiring = true) :
    (∀ nowNs ok, a ≠ .run i nowNs ok) ∧ (x'.threads i).pc = (x.threads i).pc ∨
    (∃ canQueue woken tkey band, a = .acquire i canQueue woken tkey band ∧
      x' = x.enters i (acquireStart x.fc (x.threads i).permit canQueue woken tkey (bandOf band))) ∨
    ∃ lim woken, (x.threads i).pc = .acqTake lim woken ∧ (x'.threads i).pc = .acqOver woken := by
  by_cases hsub : a.subject = some i
  · have no : ∀ {p : Permit} {pc : Pc}, (update x.threads i ⟨p, pc⟩ i).pc.acquiring = true →
        pc.acquiring = true := by
      intro p pc hpc
      rwa [update_self] at hpc
    cases hm with cases hsub
    | acquire => exact .inr (.inl ⟨_, _, _, _, rfl, rfl⟩)
    | acqTakeNot hpc => exact .inr (.inr ⟨_, _, hpc, by rw [put_self]⟩)
    | deadline =>
      refine .inl ⟨nofun, ?_⟩
      show (update x.threads i ⟨_, (x.threads i).pc⟩ i).pc = _
      rw [update_self]
    | drainFn | sweepFn =>
      refine .inl ⟨nofun, ?_⟩
      rw [concludeIf_threads, put_self]
    | epAnyNot | resumeNot | deadlineNot => exact .inl ⟨nofun, rfl⟩
    | move => cases (moveStart_move _ _ _ _ _).acquiring.symm.trans (no h)
    | legTry => cases (legStep_move _ _ _ _ _).acquiring.symm.trans (no h)
    | release => cases (releaseStart_acquiring _).symm.trans (no h)
    | push =>
      have hn := no (show (update x.threads i ⟨_, _⟩ i).pc.acquiring = true from h)
      split at hn <;> cases hn
    | relClaim | resClaim =>
      have hn := no h
      split at hn <;> cases hn
    | relDrop | relSettle =>
      rw [concludeIf_threads] at h
      cases no h
    | resEvict | resTurn =>
      change ((Sys.concludeIf _ _ _ _).threads i).pc.acquiring = true at h
      rw [concludeIf_threads] at h
      cases no h
    | relTake | resWait | pushHook =>
      cases no (show (update x.threads i ⟨_, .idle⟩ i).pc.acquiring = true from h)
    | _ => cases no h
  · refine .inl ⟨fun nowNs ok hc => ?_, ?_⟩
    · rw [hc] at hsub
      exact hsub rfl
    · rw [frame_micro hm hsub]

/-! ## the configuration changes only where it is applied -/

def Act.isApply : Act ι → Bool
  | .apply _ _ => true
  | _ => false

def Act.isTick : Act ι → Bool
  | .tick _ => true
  | _ => false

end

/-! ## runs on six connections -/

instance six_neZero : NeZero 6 := ⟨by decide⟩

def sampleConn (i : Fin 6) : Conn := (i + 10, 1)

def admits (i : Fin 6) (key : UInt64) (band : Nat) : List (Act (Fin 6)) :=
  [.acquire i true false key band, .run i 0 true, .run i 0 true]

def releases (i : Fin 6) : List (Act (Fin 6)) := .release i :: List.replicate 6 (.run i 0 true)

def parks (i : Fin 6) (key : UInt64) (band nowNs : Nat) : List (Act (Fin 6)) :=
  [.acquire i true false key band, .run i 0 true, .push i nowNs false 0 0 Mem.ok]

end Fc
