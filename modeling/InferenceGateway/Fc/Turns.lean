import InferenceGateway.Fc.Holds

/-!
# What a step means for the pool

`Micro` has a case for every step of the calls.  The invariants of a pool ask less of a step: which
unit it moves (`UnitMove`), whether a permit sits down on a tenant's slot or gets up, and otherwise
only what becomes of the waiters (`WaitStep`).  `turn_micro` reads this off `Micro` once, and the
invariants are proved from `Turn`.
-/

set_option linter.unusedSectionVars false

open Function

namespace Fc

/-- how a call comes to a place where it tries for a unit, or takes one over the ceiling -/
def Pc.Entered (s : State) : Pc → Prop
  | .acqTake lim woken => ∃ band, acquireLimit s band woken = some lim
  | .legForce _ _ | .moveForce _ _ => s.cfg.mode ≠ .enforce
  | _ => True

/-- a unit moves between the pool and a permit -/
inductive UnitMove (s : State) (th : Thread) (s' : State) : Thread → Prop
  | take {r : Role} {ep : Nat} {pc : Pc} (whole : th.permit.Whole) (plain : th.pc.plain = true)
      (place : pc = .legLand r ep ∨ pc = .moveLand r ep)
      (limit : (∃ nowNs, unitTake (s.epInflight ep r) (epCapNow s ep r nowNs) =
        some (s.epInflight ep r + 1)) ∨ th.pc = .legForce r ep ∨ th.pc = .moveForce r ep)
      (count : s'.epInflight = (setEp s ep r (s.epInflight ep r + 1)).epInflight)
      (calm : s'.anomaly = s.anomaly) (only : OnlyEp s s') : UnitMove s th s' ⟨th.permit, pc⟩
  | give {r : Role} {dst : Option Nat} {q : Permit} {pc : Pc} (whole : th.permit.Whole)
      (place : dst = none ∧ th.pc.plain = true ∨
        ∃ ep, dst = some ep ∧ (th.pc = .legLand r ep ∨ th.pc = .moveLand r ep))
      (plain : pc.plain = true) (next : pc.Entered s) (ok : ThreadOk ⟨q, pc⟩)
      (set : LegSet th.permit q r dst)
      (count : s'.epInflight = (giveLeg s th.permit r).epInflight)
      (calm : s'.anomaly = (giveLeg s th.permit r).anomaly) (only : OnlyEp s s') :
      UnitMove s th s' ⟨q, pc⟩
  | execute {slot : Option Nat} {woken : Bool} (pc : th.pc = .acqBand slot woken)
      (fc : s' = takeBand s th.permit.band) : UnitMove s th s' ⟨th.permit.execute slot woken, .idle⟩
  | svc (pc : th.pc = .relRoles []) (fc : s' = giveInflight s) : UnitMove s th s' ⟨th.permit, .relBand⟩
  | band (pc : th.pc = .relBand) (fc : s' = giveBand s th.permit.band) :
      UnitMove s th s' ⟨{ th.permit with svcHeld := false }, .relTenant⟩

variable {ι : Type} [DecidableEq ι]

/-- what becomes of the waiters in a step that moves no unit -/
inductive WaitStep (conn : ι → Conn) (x : Sys ι) (a : Act ι) (x' : Sys ι) : Prop
  | still (pool : PoolOk x'.fc) (cap : x'.fc.queue.cap = x.fc.queue.cap)
      (live : x'.fc.queue.live = x.fc.queue.live) (ten : x'.fc.ten = x.fc.ten)
      (calm : x'.fc.anomaly .underflow = x.fc.anomaly .underflow) (wakes : x'.wakes = x.wakes)
  | refuse (mem : Bool) (p : Permit) (canQueue woken : Bool) (v : Verdict)
      (no : (acquireShared mem x.fc p canQueue woken).2 = .error v)
      (fc : x'.fc = (acquireShared mem x.fc p canQueue woken).1) (wakes : x'.wakes = x.wakes)
  | leaves (s : State) (e : QueueEnt) (gone : Leaves x.fc s e)
      (cap : s.queue.cap = x.fc.queue.cap) (same : SameQueue s x'.fc)
      (calm : x'.fc.anomaly = s.anomaly) (wakes : x'.wakes = x.wakes)
  | push (i : ι) (nowNs : Nat) (front : Bool) (firstNs ttlMs : Nat) (m : Mem)
      (act : a = .push i nowNs front firstNs ttlMs m)
      (same : SameQueue (pushLocked m x.fc
        (x.asks i firstNs ttlMs) (conn i).1 (conn i).2 nowNs front).fc x'.fc)
      (calm : x'.fc.anomaly = (pushLocked m x.fc
        (x.asks i firstNs ttlMs) (conn i).1 (conn i).2 nowNs front).fc.anomaly) (wakes : x'.wakes = x.wakes)
  | pick (e : QueueEnt) (u : PickUndo) (taken : Picked x.fc x'.fc e)
      (cap : x'.fc.queue.cap = x.fc.queue.cap) (wakes : x'.wakes = x.wakes ++ [⟨e, u, none, x.waitNo⟩])
  | hook (k : Nat) (ok : Bool) (w : Wake ι) (found : x.wakes[k]? = some w) (fc : x'.fc = x.fc)
      (wakes : x'.wakes = x.wakes.set k { w with hook := some ok })
  | done (k : Nat) (w : Wake ι) (found : x.wakes[k]? = some w) (fc : x'.fc = wakeDone x.fc w.ent)
      (wakes : x'.wakes = x.wakes.eraseIdx k)
  | failed (k : Nat) (m : Mem) (w : Wake ι) (found : x.wakes[k]? = some w)
      (fc : x'.fc = wakeFailed m x.fc w.ent w.undo) (wakes : x'.wakes = x.wakes.eraseIdx k)
  | apply (cfg : Cfg) (m : Mem) (fc : x'.fc = stateApply m x.fc cfg) (wakes : x'.wakes = x.wakes)

/-- the take of a call succeeds, or the pool is over and does not enforce its limit -/
def Sys.passes (x : Sys ι) (i : ι) (woken : Bool) : Prop :=
  (∃ lim n, (x.threads i).pc = .acqTake lim woken ∧ unitTake x.fc.inflight lim = some n) ∨
    (x.threads i).pc = .acqOver woken ∧ x.fc.cfg.mode ≠ .enforce

/-- what a step does to the pool, to the permits and to the wakes -/
inductive Turn (conn : ι → Conn) (x : Sys ι) (a : Act ι) (x' : Sys ι) : Prop
  | unit (i : ι) (th : Thread) (threads : x'.threads = update x.threads i th)
      (wakes : x'.wakes = x.wakes) (queue : SameQueue x.fc x'.fc) (cfg : x'.fc.cfg = x.fc.cfg)
      (effMax : x'.fc.effMax = x.fc.effMax)
      (move : ThreadOk (x.threads i) → UnitMove x.fc (x.threads i) x'.fc th)
  | pass (i : ι) (nowNs : Nat) (mem woken : Bool) (act : a = .run i nowNs mem) (ok : x.passes i woken)
      (threads : x'.threads = update x.threads i ⟨(x.threads i).permit, .acqBand none woken⟩)
      (wakes : x'.wakes = x.wakes) (queue : SameQueue x.fc x'.fc) (cfg : x'.fc.cfg = x.fc.cfg)
      (effMax : x'.fc.effMax = x.fc.effMax) (inflight : x'.fc.inflight = x.fc.inflight + 1)
      (bandInflight : x'.fc.bandInflight = x.fc.bandInflight)
      (epInflight : x'.fc.epInflight = x.fc.epInflight) (calm : x'.fc.anomaly = x.fc.anomaly)
  | seat (i : ι) (nowNs : Nat) (mem canQueue woken : Bool) (slot : Option Nat)
      (act : a = .run i nowNs mem) (pc : (x.threads i).pc = .acqShared canQueue woken)
      (ok : (x.shares i mem canQueue woken).2 = .ok slot)
      (threads : x'.threads = update x.threads i ⟨(x.threads i).permit, .acqBand slot woken⟩)
      (wakes : x'.wakes = x.wakes)
      (fc : x'.fc = (x.shares i mem canQueue woken).1)
  | leave (i : ι) (pc : (x.threads i).pc = .relTenant)
      (threads : x'.threads = update x.threads i ⟨(releaseTenant x.fc (x.threads i).permit).2, .idle⟩)
      (wakes : x'.wakes = x.wakes) (fc : x'.fc = (releaseTenant x.fc (x.threads i).permit).1)
  | stay (threads : ∀ j, ThreadOk (x.threads j) → Stays (x.threads j) (x'.threads j))
      (places : ∀ j, (x'.threads j).pc = (x.threads j).pc ∨ (x'.threads j).pc.Entered x.fc)
      (units : SameUnits x.fc x'.fc) (cfg : a.isApply = false → x'.fc.cfg = x.fc.cfg)
      (effMax : a.isApply = false → a.isTick = false → x'.fc.effMax = x.fc.effMax)
      (wait : WaitStep conn x a x')

/-! ## reading it off the steps -/

/-- only the counts of the reasons moved -/
structure SamePool (s s' : State) : Prop where
  gate : SameGate s s'
  queue : SameQueue s s'
  calm : s'.anomaly = s.anomaly

omit [DecidableEq ι] in
theorem SamePool.refl (s : State) : SamePool s s := ⟨SameGate.refl s, SameQueue.refl s, rfl⟩

theorem samePool_ite (s : State) (r : Reason) (c : Prop) [Decidable c] :
    SamePool s (if c then fcCount s r else s) := by
  split
  · exact ⟨(by constructor <;> rfl), ⟨rfl, rfl, rfl, rfl⟩, rfl⟩
  · exact .refl s

theorem Permit.Rests.free {p : Permit} (h : p.Rests) (hf : p.free = true) : p.Bare := by
  refine h.bare fun he => ?_
  simp [Permit.free, he] at hf

theorem acquireStart_entered (s : State) (p : Permit) (canQueue woken : Bool) (tkey : UInt64)
    (band : Band) : (acquireStart s p canQueue woken tkey band).2.Entered s := by
  unfold acquireStart
  split
  · trivial
  split
  · trivial
  split
  · trivial
  split
  · exact ⟨band, ‹_›⟩
  · trivial

theorem stays_release {th : Thread} (h : ThreadOk th) (hpc : th.pc = .idle) :
    Stays th ⟨(releaseStart th.permit).1, (releaseStart th.permit).2⟩ := by
  have hr : th.permit.Rests := h.at hpc
  unfold releaseStart
  cases hs : th.permit.state with
  | none | released => exact .rest h hpc rfl rfl id
  | queued => exact .rest h hpc rfl rfl fun _ => hr.bare (by rw [hs]; exact nofun)
  | executing =>
    refine .rest h hpc rfl rfl fun _ => ⟨hr.whole hs, fun r hn => absurd ?_ hn⟩
    cases r <;> decide
  | bypass | evicted | ended =>
    have hb : th.permit.Bare := hr.bare (by rw [hs]; exact nofun)
    have hb' : ({ th.permit with state := .released } : Permit).Bare :=
      hb.withState nofun rfl rfl rfl
    exact .bare hpc rfl rfl hb hb' (.inr hb')

theorem releaseStart_entered (s : State) (p : Permit) : (releaseStart p).2.Entered s := by
  unfold releaseStart
  split <;> trivial

variable {conn : ι → Conn} {x x' : Sys ι} {a : Act ι} {i : ι} {p : Permit} {pc : Pc}

theorem concludeIf_core (s : State) (d : Decision) (b : Bool) :
    ((x.put i s p pc).concludeIf i d b).fc = s ∧
      ((x.put i s p pc).concludeIf i d b).threads = update x.threads i ⟨p, pc⟩ ∧
      ((x.put i s p pc).concludeIf i d b).wakes = x.wakes := by
  cases b <;> exact ⟨rfl, rfl, rfl⟩

theorem Turn.pool (threads : x'.threads = x.threads) (gate : SameGate x.fc x'.fc)
    (wait : WaitStep conn x a x') : Turn conn x a x' :=
  .stay (fun j _ => .same (by rw [threads])) (fun j => .inl (by rw [threads])) gate.units
    (fun _ => gate.cfg) (fun _ _ => gate.effMax) wait

theorem Turn.goes (threads : x'.threads = update x.threads i ⟨p, pc⟩)
    (stays : ThreadOk (x.threads i) → Stays (x.threads i) ⟨p, pc⟩)
    (place : pc = (x.threads i).pc ∨ pc.Entered x.fc) (gate : SameGate x.fc x'.fc)
    (wait : WaitStep conn x a x') : Turn conn x a x' := by
  refine .stay ?_ ?_ gate.units (fun _ => gate.cfg) (fun _ _ => gate.effMax) wait
  · rw [threads]
    exact Run.update_all (fun j (th : Thread) => ThreadOk (x.threads j) → Stays (x.threads j) th) stays
      fun _ _ => .same rfl
  · rw [threads]
    exact Run.update_all (fun j (th : Thread) => th.pc = (x.threads j).pc ∨ th.pc.Entered x.fc) place
      fun _ => .inl rfl

theorem WaitStep.same (hp : PoolOk x.fc) (h : SamePool x.fc x'.fc) (wakes : x'.wakes = x.wakes) :
    WaitStep conn x a x' :=
  .still (h.queue.pool hp) (by rw [h.queue.queue]) (by rw [h.queue.queue]) h.queue.ten
    (congrFun h.calm _) wakes

theorem WaitStep.quiet (h : Quiet x.fc x'.fc) (cap : x'.fc.queue.cap = x.fc.queue.cap)
    (wakes : x'.wakes = x.wakes) : WaitStep conn x a x' :=
  .still h.pool cap h.live h.ten h.underflow wakes

theorem Turn.quiet {s : State} (hp : PoolOk x.fc) (core : x'.fc = s ∧
    x'.threads = update x.threads i ⟨p, pc⟩ ∧ x'.wakes = x.wakes) (same : SamePool x.fc s)
    (stays : ThreadOk (x.threads i) → Stays (x.threads i) ⟨p, pc⟩)
    (place : pc = (x.threads i).pc ∨ pc.Entered x.fc) : Turn conn x a x' := by
  rw [← core.1] at same
  exact .goes core.2.1 stays place same.gate (.same hp same core.2.2)

theorem EpMove.turn {r : Role} {nowNs : Nat} {s : State} {c : Pc} (hp : PoolOk x.fc)
    (h : EpMove x.fc (x.threads i).permit r nowNs s pc) (hpc : (x.threads i).pc = c)
    (hc : c.plain = true) (rests : ThreadOk (x.threads i) → (x.threads i).permit.Rests) :
    Turn conn x a (x.put i s (x.threads i).permit pc) := by
  have only := h.onlyEp
  cases h with
  | stop | next =>
    exact .quiet hp ⟨rfl, rfl, rfl⟩ (.refl _) (fun h => .rest h hpc hc rfl fun _ => rests h) (.inr trivial)
  | shed =>
    exact .quiet hp ⟨rfl, rfl, rfl⟩ ⟨(by constructor <;> rfl), ⟨rfl, rfl, rfl, rfl⟩, rfl⟩
      (fun h => .rest h hpc hc rfl fun _ => rests h) (.inr trivial)
  | force state mode place =>
    rcases place with rfl | rfl
    all_goals
      exact .quiet hp ⟨rfl, rfl, rfl⟩ (.refl _) (fun h => .rest h hpc hc rfl fun _ => (rests h).whole state)
        (.inr mode)
  | take state unit place =>
    obtain ⟨rfl, _⟩ := unitTake_some unit
    exact .unit i _ rfl rfl only.toSameQueue only.cfg only.effMax fun h =>
      .take ((rests h).whole state) (hpc ▸ hc) place (.inl ⟨nowNs, unit⟩) rfl rfl only

theorem wakePop_cap (s : State) (pend : Band → Nat) : (wakePop s pend).1.queue.cap = s.queue.cap := by
  show (ringPopRunnable s pend).1.queue.cap = _
  unfold ringPopRunnable
  dsimp only
  split
  · unfold ringPopBanded
    dsimp only
    split
    · rfl
    · split <;> rfl
  · split <;> rfl

theorem evictedClaim_cap (s : State) (fd : Int) (gen : Nat) :
    (evictedClaim s fd gen).1.queue.cap = s.queue.cap := by
  unfold evictedClaim
  split <;> rfl

theorem evictedSettle_claim (s : State) (p : Permit) (fd : Int) (gen : Nat) :
    (evictedSettle s p fd gen).1 = (evictedClaim s fd gen).1 := by
  unfold evictedSettle evictedClaim
  split <;> rfl

theorem sameGate_taken (x : Sys ι) (i : ι) (r : Reason) (nowNs : Nat) :
    SameGate x.fc (x.taken i r nowNs).1 :=
  (sameGate_queueTake _ _).trans (by constructor <;> rfl)

/-- a wait that ends before its turn, at the hands of its owner or of the deadline -/
theorem WaitStep.taken (hp : PoolOk x.fc) {r : Reason} {nowNs : Nat}
    (ht : (x.takes i).2.2 = true) (hfc : x'.fc = (x.taken i r nowNs).1)
    (wakes : x'.wakes = x.wakes) : WaitStep conn x a x' := by
  obtain ⟨hq, _, e, _, _, he⟩ := (queueTake_spec hp (x.threads i).permit).1 ht
  have hcap : (x.takes i).1.queue.cap = x.fc.queue.cap := by
    unfold Sys.takes queueTake
    rw [if_pos hq]
    split <;> rfl
  refine .leaves _ e he hcap ?_ ?_ wakes
  · rw [hfc]
    exact ⟨rfl, rfl, rfl, rfl⟩
  · rw [hfc]
    rfl

theorem turn_push (hp : PoolOk x.fc) {nowNs : Nat} {front : Bool} {firstNs ttlMs : Nat} {m : Mem}
    (hpc : (x.threads i).pc = .idle) (hf : (x.threads i).permit.free = true) :
    Turn conn x (.push i nowNs front firstNs ttlMs m) (x.park conn i nowNs front firstNs ttlMs m) := by
  refine .goes rfl (fun h => ?_) (.inr ?_) (sameGate_queuePush _ _ _ _ _ _ _) ?_
  · have hb : (x.threads i).permit.Bare := (show (x.threads i).permit.Rests from h.at hpc).free hf
    have hq := queuePush_bare (s := x.fc) (hb.withState
      (q := x.asks i firstNs ttlMs) hb.state rfl rfl rfl) m
      (conn i).1 (conn i).2 nowNs front
    refine .bare hpc rfl ?_ hb hq ?_
    · split <;> rfl
    · split <;> exact .inr hq
  · split <;> trivial
  · by_cases hfd : (conn i).1 < 0
    · refine .same hp ?_ rfl
      simp only [Sys.park, queuePush_negative hfd]
      exact .refl _
    · exact .push i nowNs front firstNs ttlMs m rfl (queuePush_fields hfd).1 (queuePush_fields hfd).2.1 rfl

/-- **what a step means for the pool** -/
theorem turn_micro (hp : PoolOk x.fc) (hm : Micro conn x a x') : Turn conn x a x' := by
  cases hm with
  | @acquire i canQueue woken tkey band hpc hf =>
    obtain ⟨h1, h2, h3⟩ := acquireStart_ok x.fc (x.threads i).permit canQueue woken tkey (bandOf band)
    exact .quiet hp ⟨rfl, rfl, rfl⟩ (.refl _)
      (fun h => .bare hpc rfl h1 (Permit.Rests.free (h.at hpc) hf) h2 h3)
      (.inr (acquireStart_entered _ _ _ _ _ _))
  | bypass hpc hf =>
    have hb : ({ Permit.bind with state := .bypass } : Permit).Bare :=
      ⟨nofun, rfl, fun _ => rfl, rfl⟩
    exact .quiet hp ⟨rfl, rfl, rfl⟩ (samePool_ite _ _ _)
      (fun h => .bare hpc rfl rfl (Permit.Rests.free (h.at hpc) hf) hb (.inr hb)) (.inr trivial)
  | epAnyNot | resumeNot | deadlineNot | sweepStart =>
    exact .pool rfl (.refl _) (.same hp (.refl _) rfl)
  | epAny hpc =>
    exact .quiet hp ⟨rfl, rfl, rfl⟩ (samePool_ite _ _ _) (fun h => .rest h hpc rfl rfl id)
      (.inr trivial)
  | epAcquire hpc | resume hpc | acqTakeNot hpc | relTakeNot hpc | resHolds hpc | resWait hpc
  | pushHook hpc =>
    exact .quiet hp ⟨rfl, rfl, rfl⟩ (.refl _) (fun h => .rest h hpc rfl rfl id) (.inr trivial)
  | move hpc => exact (moveStart_move _ _ _ _ _).turn hp hpc rfl fun h => h.at hpc
  | legTry hpc => exact (legStep_move _ _ _ _ _).turn hp hpc rfl fun h => h.at hpc
  | @releaseRole i r hpc =>
    by_cases he : (x.threads i).permit.state = .executing
    · have only := onlyEp_releaseRole x.fc (x.threads i).permit r
      refine .unit i _ rfl rfl only.toSameQueue only.cfg only.effMax fun h => ?_
      have hw := Permit.Rests.whole (h.at hpc) he
      obtain ⟨h1, h2⟩ := releaseRole_whole hw r
      exact .give hw (.inl ⟨rfl, hpc ▸ rfl⟩) rfl trivial (.inl h1.whole) h1 (congrArg State.epInflight h2)
        (congrArg State.anomaly h2) only
    · have hidle : releaseRole x.fc (x.threads i).permit r = (x.fc, (x.threads i).permit) :=
        if_pos (.inl he)
      rw [hidle]
      exact .quiet hp ⟨rfl, rfl, rfl⟩ (.refl _) (fun h => .rest h hpc rfl rfl id) (.inr trivial)
  | release hpc =>
    exact .quiet hp ⟨rfl, rfl, rfl⟩ (.refl _) (fun h => stays_release h hpc)
      (.inr (releaseStart_entered _ _))
  | push hpc hf => exact turn_push hp hpc hf
  | @acqTake i nowNs ok lim woken n hpc hn =>
    exact .pass i nowNs ok woken rfl (.inl ⟨lim, n, hpc, hn⟩) rfl rfl ⟨rfl, rfl, rfl, rfl⟩ rfl rfl
      (unitTake_some hn).1 rfl rfl rfl
  | @acqOver i nowNs ok woken hpc hm =>
    exact .pass i nowNs ok woken rfl (.inr ⟨hpc, hm⟩) rfl rfl ⟨rfl, rfl, rfl, rfl⟩ rfl rfl rfl rfl rfl rfl
  | acqRefuse hpc =>
    exact .quiet hp ⟨rfl, rfl, rfl⟩ (.refl _)
      (fun h => .ends h hpc rfl And.left nofun rfl rfl rfl) (.inr trivial)
  | @acqShared i nowNs ok canQueue woken slot hpc hr =>
    exact .seat i nowNs ok canQueue woken slot rfl hpc hr rfl rfl rfl
  | @acqSharedNot i nowNs ok canQueue woken v hpc hr =>
    obtain ⟨hf, t1, _, hres⟩ := acquireShared_spec ok x.fc (x.threads i).permit canQueue woken
    rw [hr] at hres
    exact .goes rfl (fun h => .ends h hpc rfl And.left nofun rfl rfl rfl) (.inr trivial)
      ⟨hf.cfg, hres.1, hf.bandInflight, hf.epInflight, hf.effMax, hf.draining, hf.warmSinceNs⟩
      (.refuse ok (x.threads i).permit canQueue woken v hr rfl rfl)
  | acqBand hpc =>
    exact .unit _ _ rfl rfl ⟨rfl, rfl, rfl, rfl⟩ rfl rfl fun _ => .execute hpc rfl
  | legForce hpc =>
    exact .unit _ _ rfl rfl ⟨rfl, rfl, rfl, rfl⟩ rfl rfl fun h => .take (h.at hpc) (hpc ▸ rfl) (.inl rfl)
      (.inr (.inl hpc)) rfl rfl ⟨⟨rfl, rfl, rfl, rfl⟩, rfl, rfl, rfl, rfl⟩
  | moveForce hpc =>
    exact .unit _ _ rfl rfl ⟨rfl, rfl, rfl, rfl⟩ rfl rfl fun h => .take (h.at hpc) (hpc ▸ rfl) (.inr rfl)
      (.inr (.inr hpc)) rfl rfl ⟨⟨rfl, rfl, rfl, rfl⟩, rfl, rfl, rfl, rfl⟩
  | @legLand i nowNs ok r ep hpc =>
    have only := onlyEp_epLand x.fc (x.threads i).permit ep r nowNs
    refine .unit i _ rfl rfl only.toSameQueue only.cfg only.effMax fun h => ?_
    obtain ⟨h1, h2, h3⟩ := epLand_whole (h.at hpc) ep r nowNs
    exact .give (h.at hpc) (.inr ⟨ep, rfl, .inl hpc⟩) rfl trivial (.inl h1.whole) h1 h2 h3 only
  | @moveLand i nowNs ok r ep hpc =>
    have only := onlyEp_giveLeg x.fc (x.threads i).permit r
    refine .unit i _ rfl rfl only.toSameQueue only.cfg only.effMax fun h => ?_
    have hw : (x.threads i).permit.Whole := h.at hpc
    have hset : LegSet (x.threads i).permit { (x.threads i).permit with
        ep := update (x.threads i).permit.ep r (some ep) } r (some ep) :=
      ⟨{ hw with }, rfl, rfl, rfl, rfl⟩
    exact .give hw (.inr ⟨ep, rfl, .inr hpc⟩) rfl trivial (.inl hset.whole) hset rfl rfl only
  | @relRole i nowNs ok r rs hpc =>
    have only := onlyEp_releaseRole x.fc (x.threads i).permit r
    refine .unit i _ rfl rfl only.toSameQueue only.cfg only.effMax fun h => ?_
    obtain ⟨hw, hn⟩ : (x.threads i).permit.Whole ∧ ∀ y, y ∉ r :: rs → (x.threads i).permit.ep y = none :=
      h.at hpc
    obtain ⟨h1, h2⟩ := releaseRole_whole hw r
    refine .give hw (.inl ⟨rfl, hpc ▸ rfl⟩) rfl trivial ⟨h1.whole, fun y hy => ?_⟩ h1
      (congrArg State.epInflight h2) (congrArg State.anomaly h2) only
    rw [h1.ep]
    by_cases hyr : y = r
    · rw [hyr, update_self]
    · rw [update_of_ne hyr]
      exact hn y fun hc => (List.mem_cons.mp hc).elim hyr hy
  | relSvc hpc => exact .unit _ _ rfl rfl ⟨rfl, rfl, rfl, rfl⟩ rfl rfl fun _ => .svc hpc rfl
  | relSvcNot hpc hs =>
    refine .quiet hp ⟨rfl, rfl, rfl⟩ (.refl _) (fun h => ?_) (.inr trivial)
    exact absurd (hs.symm.trans (h.at hpc).1.svc) Bool.false_ne_true
  | relBand hpc => exact .unit _ _ rfl rfl ⟨rfl, rfl, rfl, rfl⟩ rfl rfl fun _ => .band hpc rfl
  | relTenant hpc => exact .leave _ hpc rfl rfl rfl
  | relTake hpc ht =>
    refine .goes rfl (fun h => .ends h hpc rfl id nofun ?_ ?_ ?_) (.inr trivial)
      (sameGate_taken _ _ _ _) (.taken hp ht rfl rfl)
    all_goals rw [taken_permit ht]
  | relClaim hpc | resClaim hpc =>
    obtain ⟨h1, h2, h3, h4, _⟩ := evictedClaim_spec hp (x.threads _).permit.qFd (x.threads _).permit.qGen
    refine .goes rfl (fun h => ?_) (.inr ?_) (sameGate_evictedClaim _ _ _)
      (.still h1 (evictedClaim_cap _ _ _) h2 h3 (congrFun h4 _) rfl)
    · split <;> exact .rest h hpc rfl rfl id
    · split <;> trivial
  | relDrop hpc | relSettle hpc =>
    exact .quiet hp (concludeIf_core _ _ _) (.refl _)
      (fun h => .ends h hpc rfl id nofun rfl rfl rfl) (.inr trivial)
  | resEvict hpc =>
    exact .quiet hp (concludeIf_core _ _ _) (.refl _)
      (fun h => .settleRest h hpc rfl id (settled_resumed _).2) (.inr trivial)
  | resTurn hpc =>
    exact .quiet hp (concludeIf_core _ _ _) (.refl _)
      (fun h => .settleRest h hpc rfl id (settled_resumed _).1) (.inr trivial)
  | @wakeNone pend hw =>
    have h := wakePop_spec hp pend
    rw [hw] at h
    exact .pool rfl (sameGate_wakePop _ _) (.quiet h (wakePop_cap _ _) rfl)
  | @wakePop pend e u hw =>
    have h := wakePop_spec hp pend
    rw [hw] at h
    exact .pool rfl (sameGate_wakePop _ _) (.pick e u h (wakePop_cap _ _) rfl)
  | wakeHook hw => exact .pool rfl (.refl _) (.hook _ _ _ hw rfl rfl)
  | wakeDone hw => exact .pool rfl (sameGate_wakeDone _ _) (.done _ _ hw rfl rfl)
  | wakeFailed hw => exact .pool rfl (sameGate_wakeFailed _ _ _ _) (.failed _ _ _ hw rfl rfl)
  | deadline ht =>
    refine .goes rfl (fun h => .settle h (.settled (queueTake_true ht).1 ?_ ?_ ?_ ?_ ?_)) (.inl rfl)
      (sameGate_taken _ _ _ _) (.taken hp ht rfl rfl)
    all_goals rw [taken_permit ht]
    exact nofun
  | pop =>
    have h := queuePop_spec hp
    have hcap : (queuePop x.fc).1.queue.cap = x.fc.queue.cap := by
      rw [← (ringPop_frame x.fc.queue).2]
      unfold queuePop
      dsimp only
      split <;> rfl
    refine .pool rfl (sameGate_queuePop _) ?_
    cases hr : (queuePop x.fc).2 with
    | some e =>
      rw [hr] at h
      exact .leaves _ e h hcap (.refl _) rfl rfl
    | none =>
      rw [hr] at h
      exact .quiet h hcap rfl
  | drainFn =>
    exact .quiet hp (concludeIf_core _ _ _) (samePool_ite _ _ _)
      (fun h => .settle h (settled_permitSettle _ nofun)) (.inl rfl)
  | @sweepFn i take e rest hs hc =>
    obtain ⟨c1, c2, c3⟩ := @concludeIf_core ι _ { x with sweep := some (take, rest) } i
      (x.settles i e).2.1 (x.threads i).pc (x.settles i e).1 .evictedPass (x.settles i e).2.2
    replace c1 := c1.trans (evictedSettle_claim _ _ _ _)
    obtain ⟨h1, h2, h3, h4, _⟩ := evictedClaim_spec hp e.fd e.gen
    refine .goes c2 (fun h => .settle h (settled_evictedSettle _ _ _ _)) (.inl rfl) ?_
      (.still ?_ ?_ ?_ ?_ ?_ c3) <;> rw [c1]
    · exact sameGate_evictedClaim _ _ _
    · exact h1
    · exact evictedClaim_cap _ _ _
    · exact h2
    · exact h3
    · rw [h4]
  | sweepEnd =>
    obtain ⟨h1, h2, h3, h4, _, h6⟩ := sweepDrop_spec _ hp
    exact .pool rfl (sameGate_sweepDrop _ _) (.still h1 h6 h2 h3 (congrFun h4 _) rfl)
  | apply =>
    exact .stay (fun _ _ => .same rfl) (fun _ => .inl rfl) (sameUnits_stateApply _ _ _) nofun
      nofun (.apply _ _ rfl rfl)
  | @tick sig =>
    obtain ⟨h1, h2⟩ := adaptTick_queue x.fc sig
    refine .stay (fun _ _ => .same rfl) (fun _ => .inl rfl) (sameUnits_adaptTick _ _) (fun _ => ?_)
      nofun (.still (h1.pool hp) (by rw [h1.queue]) (by rw [h1.queue]) h1.ten (congrFun h2 _) rfl)
    unfold adaptTick
    split
    · rfl
    split
    · rfl
    split <;> rfl
  | warm | drain =>
    exact .stay (fun _ _ => .same rfl) (fun _ => .inl rfl) ⟨rfl, rfl, rfl⟩ (fun _ => rfl)
      (fun _ _ => rfl) (.still (hp.retenant rfl rfl rfl hp.ten) rfl rfl rfl rfl rfl)

/-! ## the pool stays in order, and its ring never shrinks -/

theorem pushLocked_cap (m : Mem) (s : State) (p : Permit) (fd : Int) (gen nowNs : Nat) (front : Bool) :
    Grows s.queue.cap (pushLocked m s p fd gen nowNs front).fc.queue.cap := by
  have hslot : (pushSlot m.table s p.tkey).1.queue = s.queue := by
    unfold pushSlot
    split <;> rfl
  have hins : ∀ (t : State) (e : QueueEnt) (ordered : Bool) (gone : Option QueueEnt),
      Grows t.queue.cap (pushInsert m t e front ordered gone).fc.queue.cap := by
    intro t e ordered gone
    have h := (ringInsert_frame m t.queue e front ordered).cap
    unfold pushInsert
    dsimp only
    split
    · exact h
    · cases gone <;> exact h
  unfold pushLocked
  dsimp only
  split
  · exact .of_eq rfl
  split
  · exact .of_eq (congrArg Queue.cap hslot)
  · have hev : (pushEvicted (pushSlot m.table s p.tkey).1 (pushEvict s p (parkAt s p nowNs front) nowNs
        front) nowNs).queue.cap = s.queue.cap := by
      unfold pushEvicted
      rw [← hslot]
      split <;> rfl
    rw [← hev]
    exact hins _ _ _ _

theorem wakeFailed_cap (m : Mem) (s : State) (e : QueueEnt) (u : PickUndo) :
    Grows s.queue.cap (wakeFailed m s e u).queue.cap := by
  have hundo : ∀ q u, (undoPick q u).cap = q.cap := by
    intro q u
    unfold undoPick
    split <;> rfl
  show Grows _ (undoPick _ _).cap
  rw [hundo]
  split <;> exact (ringInsert_frame m s.queue e true false).cap

theorem WaitStep.pool (hp : PoolOk x.fc) (h : WaitStep conn x a x') :
    PoolOk x'.fc ∧ Grows x.fc.queue.cap x'.fc.queue.cap := by
  cases h with
  | still pool cap => exact ⟨pool, .of_eq cap⟩
  | refuse mem p canQueue woken v no fc =>
    rw [fc]
    exact ⟨acquireShared_pool hp _ _ _ _,
      .of_eq (congrArg Queue.cap (acquireShared_spec _ x.fc _ _ _).1.queue)⟩
  | leaves s e gone cap same =>
    refine ⟨same.pool gone.pool, ?_⟩
    rw [same.queue]
    exact .of_eq cap
  | push i nowNs front firstNs ttlMs m act same =>
    refine ⟨same.pool ?_, ?_⟩
    · rcases pushLocked_spec hp m _ (conn i).1 (conn i).2 nowNs front with h | h
      · rw [h]
        exact hp
      · exact h.pool
    · rw [same.queue]
      exact pushLocked_cap _ _ _ _ _ _ _
  | pick e u taken cap => exact ⟨taken.ok, .of_eq cap⟩
  | hook k ok w found fc =>
    rw [fc]
    exact ⟨hp, .of_eq rfl⟩
  | done k w found fc =>
    rw [fc]
    exact ⟨hp.retenant rfl rfl rfl (edits_dec hp.ten _ _).1.ok, .of_eq rfl⟩
  | failed k m w found fc =>
    rw [fc]
    exact ⟨(wakeFailed_spec hp _ _ _).1, wakeFailed_cap _ _ _ _⟩
  | apply cfg m fc =>
    rw [fc]
    exact ⟨(stateApply_spec hp _ _).1, (stateApply_spec hp _ _).2.2.2.2.2⟩

theorem releaseTenant_spec {s : State} (hp : PoolOk s) (p : Permit) :
    PoolOk (releaseTenant s p).1 ∧ SameGate s (releaseTenant s p).1 ∧
      (releaseTenant s p).1.queue = s.queue := by
  unfold releaseTenant
  split
  · exact ⟨hp.retenant rfl rfl rfl (edits_dec hp.ten _ _).1.ok, sameGate_tenantDec _ _ _, rfl⟩
  · exact ⟨hp, SameGate.refl _, rfl⟩

section
variable (hp : PoolOk x.fc) (hm : Micro conn x a x')
include hp hm

theorem pool_micro : PoolOk x'.fc ∧ Grows x.fc.queue.cap x'.fc.queue.cap := by
  cases turn_micro hp hm with
  | unit i th threads wakes queue => exact ⟨queue.pool hp, .of_eq (congrArg Queue.cap queue.queue)⟩
  | pass i nowNs mem woken act ok threads wakes queue =>
    exact ⟨queue.pool hp, .of_eq (congrArg Queue.cap queue.queue)⟩
  | seat i nowNs mem canQueue woken slot act pc ok threads wakes fc =>
    rw [fc]
    exact ⟨acquireShared_pool hp _ _ _ _,
      .of_eq (congrArg Queue.cap (acquireShared_spec _ x.fc _ _ _).1.queue)⟩
  | leave i pc threads wakes fc =>
    obtain ⟨h1, _, h3⟩ := releaseTenant_spec hp (x.threads i).permit
    rw [fc]
    exact ⟨h1, .of_eq (congrArg Queue.cap h3)⟩
  | stay threads places units cfg effMax wait => exact wait.pool hp

theorem cfg_micro (ha : a.isApply = false) :
    x'.fc.cfg = x.fc.cfg ∧ (a.isTick = false → x'.fc.effMax = x.fc.effMax) := by
  cases turn_micro hp hm with
  | unit _ _ _ _ _ cfg effMax | pass _ _ _ _ _ _ _ _ _ cfg effMax => exact ⟨cfg, fun _ => effMax⟩
  | seat i nowNs mem canQueue woken slot act pc ok threads wakes fc =>
    rw [fc]
    exact ⟨(acquireShared_spec _ x.fc _ _ _).1.cfg, fun _ => (acquireShared_spec _ x.fc _ _ _).1.effMax⟩
  | leave i pc threads wakes fc =>
    obtain ⟨_, h2, _⟩ := releaseTenant_spec hp (x.threads i).permit
    rw [fc]
    exact ⟨h2.cfg, fun _ => h2.effMax⟩
  | stay threads places units cfg effMax wait => exact ⟨cfg ha, effMax ha⟩

def Act.steady (adaptive : Bool) (a : Act ι) : Bool := !a.isApply && (!a.isTick || !adaptive)

theorem steady_micro (ha : a.steady x.fc.cfg.adaptive = true) :
    x'.fc.cfg = x.fc.cfg ∧ svcCap x'.fc = svcCap x.fc := by
  unfold Act.steady at ha
  simp only [Bool.and_eq_true, Bool.not_eq_true', Bool.or_eq_true] at ha
  obtain ⟨h1, h2⟩ := cfg_micro hp hm ha.1
  refine ⟨h1, ?_⟩
  unfold svcCap
  rw [h1]
  rcases ha.2 with ht | hna
  · rw [h2 ht]
  · simp [hna]

/-- the configuration and the ceiling are those of `s0` -/
structure Steady (s0 s : State) : Prop where
  cfg : s.cfg = s0.cfg
  cap : svcCap s = svcCap s0

theorem Steady.micro {s0 : State} (h : Steady s0 x.fc) (ha : a.steady s0.cfg.adaptive = true) :
    Steady s0 x'.fc := by
  obtain ⟨h1, h2⟩ := steady_micro hp hm (h.cfg.symm ▸ ha)
  exact ⟨h1.trans h.cfg, h2.trans h.cap⟩

end

/-- **every step keeps the pool in order** -/
theorem pool_step (x : Sys ι) (a : Act ι) (x' : Sys ι) (hp : PoolOk x.fc)
    (h : step conn x a = some x') : PoolOk x'.fc :=
  (pool_micro hp (step_cases h)).1

theorem pool_run {m : Mem} {slots : Nat} {cfg : Cfg} {as : List (Act ι)}
    (h : Run.exec (step conn) (Sys.init m slots cfg) as = some x) : PoolOk x.fc :=
  Run.inv_of_every_step (P := fun x => PoolOk x.fc) pool_step (poolOk_init m slots cfg) h

end Fc
