import InferenceGateway.Fc.System

/-!
# What one step can do

`Micro` lists the steps of the machine one by one, each with its guard and what it leaves.
`step_cases` says that there are no others; every invariant is proved over this list.
-/

set_option linter.unusedSectionVars false

namespace Fc

variable {ι : Type} [DecidableEq ι]

/-- a call leaves its pool and permit -/
abbrev Sys.lands (x : Sys ι) (i : ι) (y : State × Permit) (pc : Pc) : Sys ι := x.put i y.1 y.2 pc

/-- a call goes on, with its pool -/
abbrev Sys.goes (x : Sys ι) (i : ι) (y : State × Pc) : Sys ι := x.put i y.1 (x.threads i).permit y.2

/-- a call goes on, with its permit -/
abbrev Sys.enters (x : Sys ι) (i : ι) (y : Permit × Pc) : Sys ι := x.put i x.fc y.1 y.2

abbrev Sys.takes (x : Sys ι) (i : ι) : State × Permit × Bool := queueTake x.fc (x.threads i).permit

/-- the wait ends at the hands of the owner or of the deadline -/
abbrev Sys.taken (x : Sys ι) (i : ι) (r : Reason) (nowNs : Nat) : State × Permit :=
  waitEnd (countBand (x.takes i).1 r (x.threads i).permit.band) (x.takes i).2.1 nowNs

abbrev Sys.settles (x : Sys ι) (i : ι) (e : Evicted) : State × Permit × Bool :=
  evictedSettle x.fc (x.threads i).permit e.fd e.gen

abbrev Sys.shares (x : Sys ι) (i : ι) (mem canQueue woken : Bool) :
    State × Except Verdict (Option Nat) :=
  acquireShared mem x.fc (x.threads i).permit canQueue woken

abbrev Sys.claim (x : Sys ι) (i : ι) : State × Bool :=
  evictedClaim x.fc (x.threads i).permit.qFd (x.threads i).permit.qGen

inductive Micro (conn : ι → Conn) (x : Sys ι) : Act ι → Sys ι → Prop
  | acquire {i canQueue woken tkey band} (hpc : (x.threads i).pc = .idle)
      (hf : (x.threads i).permit.free = true) :
      Micro conn x (.acquire i canQueue woken tkey band) (x.enters i
          (acquireStart x.fc (x.threads i).permit canQueue woken tkey (bandOf band)))
  | bypass {i} (hpc : (x.threads i).pc = .idle) (hf : (x.threads i).permit.free = true) :
      Micro conn x (.bypass i)
        (x.put i (if fcActive x.fc then fcCount x.fc .bypassNonInference else x.fc)
          { Permit.bind with state := .bypass } .idle)
  | epAcquire {i r ep} (hpc : (x.threads i).pc = .idle) :
      Micro conn x (.epAcquire i r ep) (x.put i x.fc (x.threads i).permit (.legTry r [(ep, false)]))
  | epAnyNot {i r pref eps} (hpc : (x.threads i).pc = .idle) :
      Micro conn x (.epAcquireAny i r pref eps) x
  | epAny {i r pref eps} (hpc : (x.threads i).pc = .idle)
      (he : (x.threads i).permit.state = .executing) :
      Micro conn x (.epAcquireAny i r pref eps)
        (x.put i (if eps = [] then fcCount x.fc .noHealthyCapacity else x.fc)
          (x.threads i).permit (.legTry r (legOrder pref eps)))
  | move {i r ep nowNs} (hpc : (x.threads i).pc = .idle) : Micro conn x (.move i r ep nowNs)
        (x.goes i (moveStart x.fc (x.threads i).permit r ep nowNs))
  | releaseRole {i r} (hpc : (x.threads i).pc = .idle) :
      Micro conn x (.releaseRole i r) (x.lands i (releaseRole x.fc (x.threads i).permit r) .idle)
  | release {i} (hpc : (x.threads i).pc = .idle) : Micro conn x (.release i)
        (x.put i x.fc (releaseStart (x.threads i).permit).1 (releaseStart (x.threads i).permit).2)
  | push {i nowNs front firstNs ttlMs m} (hpc : (x.threads i).pc = .idle)
      (hf : (x.threads i).permit.free = true) :
      Micro conn x (.push i nowNs front firstNs ttlMs m) (x.park conn i nowNs front firstNs ttlMs m)
  | resume {i} (hpc : (x.threads i).pc = .idle) (hq : (x.threads i).permit.state = .queued) :
      Micro conn x (.resume i) (x.put i x.fc (x.threads i).permit .resClaim)
  | resumeNot {i} (hpc : (x.threads i).pc = .idle)
      (hq : ¬ ((x.threads i).permit.state = .queued ∧ (x.threads i).permit.fc = true)) :
      Micro conn x (.resume i) (x.consume i)
  | acqTake {i nowNs ok lim woken n} (hpc : (x.threads i).pc = .acqTake lim woken)
      (hn : unitTake x.fc.inflight lim = some n) :
      Micro conn x (.run i nowNs ok)
        (x.put i { x.fc with inflight := n } (x.threads i).permit (.acqBand none woken))
  | acqTakeNot {i nowNs ok lim woken} (hpc : (x.threads i).pc = .acqTake lim woken)
      (hn : unitTake x.fc.inflight lim = none) :
      Micro conn x (.run i nowNs ok) (x.put i x.fc (x.threads i).permit (.acqOver woken))
  | acqRefuse {i nowNs ok woken} (hpc : (x.threads i).pc = .acqOver woken)
      (hm : x.fc.cfg.mode = .enforce) :
      Micro conn x (.run i nowNs ok)
        (x.put i x.fc { (x.threads i).permit with state := .none } .idle)
  | acqOver {i nowNs ok woken} (hpc : (x.threads i).pc = .acqOver woken)
      (hm : x.fc.cfg.mode ≠ .enforce) :
      Micro conn x (.run i nowNs ok)
        (x.put i (takeOver x.fc (observeReason x.fc)) (x.threads i).permit (.acqBand none woken))
  | acqShared {i nowNs ok canQueue woken slot} (hpc : (x.threads i).pc = .acqShared canQueue woken)
      (hr : (x.shares i ok canQueue woken).2 = .ok slot) :
      Micro conn x (.run i nowNs ok)
        (x.put i (x.shares i ok canQueue woken).1
          (x.threads i).permit (.acqBand slot woken))
  | acqSharedNot {i nowNs ok canQueue woken v} (hpc : (x.threads i).pc = .acqShared canQueue woken)
      (hr : (x.shares i ok canQueue woken).2 = .error v) :
      Micro conn x (.run i nowNs ok)
        (x.put i (x.shares i ok canQueue woken).1
          { (x.threads i).permit with state := .none } .idle)
  | acqBand {i nowNs ok slot woken} (hpc : (x.threads i).pc = .acqBand slot woken) :
      Micro conn x (.run i nowNs ok) (x.put i (takeBand x.fc (x.threads i).permit.band)
          ((x.threads i).permit.execute slot woken) .idle)
  | legTry {i nowNs ok r eps} (hpc : (x.threads i).pc = .legTry r eps) :
      Micro conn x (.run i nowNs ok) (x.goes i (legStep x.fc (x.threads i).permit r nowNs eps))
  | legForce {i nowNs ok r ep} (hpc : (x.threads i).pc = .legForce r ep) :
      Micro conn x (.run i nowNs ok)
        (x.put i (setEp (fcCount x.fc (observeReason x.fc)) ep r (x.fc.epInflight ep r + 1))
          (x.threads i).permit (.legLand r ep))
  | legLand {i nowNs ok r ep} (hpc : (x.threads i).pc = .legLand r ep) :
      Micro conn x (.run i nowNs ok) (x.lands i (epLand x.fc (x.threads i).permit ep r nowNs) .idle)
  | moveForce {i nowNs ok r ep} (hpc : (x.threads i).pc = .moveForce r ep) :
      Micro conn x (.run i nowNs ok)
        (x.put i (setEp (fcCount x.fc .observeWouldShed) ep r (x.fc.epInflight ep r + 1))
          (x.threads i).permit (.moveLand r ep))
  | moveLand {i nowNs ok r ep} (hpc : (x.threads i).pc = .moveLand r ep) :
      Micro conn x (.run i nowNs ok) (x.put i (giveLeg x.fc (x.threads i).permit r)
          { (x.threads i).permit with ep := Function.update (x.threads i).permit.ep r (some ep) }
          .idle)
  | relRole {i nowNs ok r rs} (hpc : (x.threads i).pc = .relRoles (r :: rs)) :
      Micro conn x (.run i nowNs ok)
        (x.lands i (releaseRole x.fc (x.threads i).permit r) (.relRoles rs))
  | relSvc {i nowNs ok} (hpc : (x.threads i).pc = .relRoles [])
      (hs : (x.threads i).permit.svcHeld = true) :
      Micro conn x (.run i nowNs ok) (x.put i (giveInflight x.fc) (x.threads i).permit .relBand)
  | relSvcNot {i nowNs ok} (hpc : (x.threads i).pc = .relRoles [])
      (hs : (x.threads i).permit.svcHeld = false) :
      Micro conn x (.run i nowNs ok) (x.put i x.fc (x.threads i).permit .relTenant)
  | relBand {i nowNs ok} (hpc : (x.threads i).pc = .relBand) :
      Micro conn x (.run i nowNs ok) (x.put i (giveBand x.fc (x.threads i).permit.band)
          { (x.threads i).permit with svcHeld := false } .relTenant)
  | relTenant {i nowNs ok} (hpc : (x.threads i).pc = .relTenant) :
      Micro conn x (.run i nowNs ok) (x.lands i (releaseTenant x.fc (x.threads i).permit) .idle)
  | relTake {i nowNs ok} (hpc : (x.threads i).pc = .relTake)
      (ht : (x.takes i).2.2 = true) :
      Micro conn x (.run i nowNs ok) ((x.put i (x.taken i .cancelled nowNs).1
          { (x.taken i .cancelled nowNs).2 with state := .released } .idle).conclude i .cancelled)
  | relTakeNot {i nowNs ok} (hpc : (x.threads i).pc = .relTake)
      (ht : (x.takes i).2.2 = false) :
      Micro conn x (.run i nowNs ok) (x.put i x.fc (x.threads i).permit .relClaim)
  | relClaim {i nowNs ok} (hpc : (x.threads i).pc = .relClaim) : Micro conn x (.run i nowNs ok)
        (x.put i (x.claim i).1 (x.threads i).permit (if (x.claim i).2 then .relDrop else .relSettle))
  | relDrop {i nowNs ok} (hpc : (x.threads i).pc = .relDrop) : Micro conn x (.run i nowNs ok)
        ((x.put i x.fc { (x.threads i).permit with state := .released, qParked := false }
          .idle).concludeIf i .evictedDropped (permitSettle (x.threads i).permit .released).2)
  | relSettle {i nowNs ok} (hpc : (x.threads i).pc = .relSettle) : Micro conn x (.run i nowNs ok)
        ((x.put i x.fc { (x.threads i).permit with state := .released } .idle).concludeIf i
          .cancelled (permitSettle (x.threads i).permit .released).2)
  | resClaim {i nowNs ok} (hpc : (x.threads i).pc = .resClaim) : Micro conn x (.run i nowNs ok)
        (x.put i (x.claim i).1 (x.threads i).permit (if (x.claim i).2 then .resEvict else .resHolds))
  | resEvict {i nowNs ok} (hpc : (x.threads i).pc = .resEvict) : Micro conn x (.run i nowNs ok)
        (((x.put i x.fc (resumeEvicted (x.threads i).permit).1 .idle).concludeIf i .evictedOwner
          (permitSettle (x.threads i).permit .none).2).consume i)
  | resWait {i nowNs ok} (hpc : (x.threads i).pc = .resHolds)
      (hh : queueHolds x.fc (x.threads i).permit = true) :
      Micro conn x (.run i nowNs ok) ((x.put i x.fc (x.threads i).permit .idle).consume i)
  | resHolds {i nowNs ok} (hpc : (x.threads i).pc = .resHolds)
      (hh : queueHolds x.fc (x.threads i).permit = false) :
      Micro conn x (.run i nowNs ok) (x.put i x.fc (x.threads i).permit .resTurn)
  | resTurn {i nowNs ok} (hpc : (x.threads i).pc = .resTurn) : Micro conn x (.run i nowNs ok)
        (((x.put i x.fc (queueResumed (x.threads i).permit).1 .idle).concludeIf i .turn
          (permitSettle (x.threads i).permit .none).2).consume i)
  | pushHook {i nowNs ok fd gen} (hpc : (x.threads i).pc = .pushHook fd gen) :
      Micro conn x (.run i nowNs ok)
        ((x.put i x.fc (x.threads i).permit .idle).post conn (fd, gen) ok)
  | wakeNone {pend} (hw : (wakePop x.fc pend).2 = none) :
      Micro conn x (.wakePop pend) { x with fc := (wakePop x.fc pend).1 }
  | wakePop {pend e u} (hw : (wakePop x.fc pend).2 = some (e, u)) : Micro conn x (.wakePop pend)
        { x with fc := (Fc.wakePop x.fc pend).1, wakes := x.wakes ++ [⟨e, u, none, x.waitNo⟩] }
  | wakeHook {k ok w} (hw : x.wakes[k]? = some w) (hh : w.hook = none) :
      Micro conn x (.wakeHook k ok)
        ({ x with wakes := x.wakes.set k { w with hook := some ok } }.post conn
          (w.ent.fd, w.ent.gen) ok)
  | wakeDone {k m w} (hw : x.wakes[k]? = some w) (hh : w.hook = some true) :
      Micro conn x (.wakeEnd k m) { x with fc := wakeDone x.fc w.ent, wakes := x.wakes.eraseIdx k }
  | wakeFailed {k m w} (hw : x.wakes[k]? = some w) (hh : w.hook = some false) :
      Micro conn x (.wakeEnd k m)
        { x with fc := wakeFailed m x.fc w.ent w.undo, wakes := x.wakes.eraseIdx k }
  | deadline {i nowNs} (ht : (x.takes i).2.2 = true) :
      Micro conn x (.deadline i nowNs)
        ((x.lands i (x.taken i .queueTimeout nowNs) (x.threads i).pc).conclude i .ended)
  | deadlineNot {i nowNs} (ht : (x.takes i).2.2 = false) :
      Micro conn x (.deadline i nowNs) x
  | pop : Micro conn x .pop { x with fc := (queuePop x.fc).1 }
  | drainFn {i} : Micro conn x (.drainFn i)
        ((x.put i (if (permitSettle (x.threads i).permit .ended).2 then fcCount x.fc .drained else x.fc)
          (permitSettle (x.threads i).permit .ended).1 (x.threads i).pc).concludeIf i .drained
          (permitSettle (x.threads i).permit .ended).2)
  | sweepStart {beforeNs} (hs : x.sweep = none) : Micro conn x (.sweepStart beforeNs)
        { x with sweep := some (sweepTake x.fc beforeNs, sweepTake x.fc beforeNs) }
  | sweepFn {i take e rest} (hs : x.sweep = some (take, e :: rest)) (hc : conn i = (e.fd, e.gen)) :
      Micro conn x (.sweepFn i) ((({ x with sweep := some (take, rest) } : Sys ι).put i
          (x.settles i e).1 (x.settles i e).2.1 (x.threads i).pc).concludeIf i .evictedPass
          (x.settles i e).2.2)
  | sweepEnd {take} (hs : x.sweep = some (take, [])) :
      Micro conn x .sweepEnd { x with fc := sweepDrop x.fc take, sweep := none }
  | apply {cfg m} : Micro conn x (.apply cfg m) { x with fc := stateApply m x.fc cfg }
  | tick {sig} : Micro conn x (.tick sig) { x with fc := adaptTick x.fc sig }
  | warm {ep nowNs} : Micro conn x (.warm ep nowNs) { x with fc := epWarmStart x.fc ep nowNs }
  | drain {on} : Micro conn x (.drain on) { x with fc := { x.fc with draining := on } }

variable {x x' : Sys ι} {i : ι} {conn : ι → Conn}

theorem start_some {c : Bool} {y : Permit → Sys ι} (h : x.start i c y = some x') :
    (x.threads i).pc = .idle ∧ c = true ∧ x' = y (x.threads i).permit := by
  unfold Sys.start at h
  split at h
  · rename_i hc
    exact ⟨hc.1, hc.2, (Option.some.inj h).symm⟩
  · cases h

theorem runStep_cases {nowNs : Nat} {ok : Bool} (h : x.runStep conn i nowNs ok = some x') :
    Micro conn x (.run i nowNs ok) x' := by
  unfold Sys.runStep at h
  cases hpc : (x.threads i).pc <;> simp only [hpc] at h
  case idle => cases h
  case acqTake lim woken =>
    cases hn : unitTake x.fc.inflight lim with
    | some n =>
      rw [hn] at h
      cases h
      exact .acqTake hpc hn
    | none =>
      rw [hn] at h
      cases h
      exact .acqTakeNot hpc hn
  case acqOver woken =>
    split at h <;> cases h
    · exact .acqRefuse hpc ‹_›
    · exact .acqOver hpc ‹_›
  case acqShared canQueue woken =>
    cases hr : (x.shares i ok canQueue woken).2 with
    | ok slot =>
      rw [hr] at h
      cases h
      exact .acqShared hpc hr
    | error v =>
      rw [hr] at h
      cases h
      exact .acqSharedNot hpc hr
  case relRoles rs =>
    cases rs with
    | nil =>
      dsimp only at h
      split at h <;> cases h
      · exact .relSvc hpc ‹_›
      · rename_i hs
        exact .relSvcNot hpc (by simpa using hs)
    | cons r rs =>
      cases h
      exact .relRole hpc
  case relTake =>
    split at h <;> cases h
    · exact .relTake hpc ‹_›
    · rename_i ht
      exact .relTakeNot hpc (by simpa using ht)
  case resHolds =>
    split at h <;> cases h
    · exact .resWait hpc ‹_›
    · rename_i hh
      exact .resHolds hpc (by simpa using hh)
  all_goals cases h
  case acqBand => exact .acqBand hpc
  case legTry => exact .legTry hpc
  case legForce => exact .legForce hpc
  case legLand => exact .legLand hpc
  case moveForce => exact .moveForce hpc
  case moveLand => exact .moveLand hpc
  case relBand => exact .relBand hpc
  case relTenant => exact .relTenant hpc
  case relClaim => exact .relClaim hpc
  case relDrop => exact .relDrop hpc
  case relSettle => exact .relSettle hpc
  case resClaim => exact .resClaim hpc
  case resEvict => exact .resEvict hpc
  case resTurn => exact .resTurn hpc
  case pushHook => exact .pushHook hpc

/-- **there are no other steps** -/
theorem step_cases {a : Act ι} (h : step conn x a = some x') : Micro conn x a x' := by
  cases a <;> simp only [step] at h
  case acquire i canQueue woken tkey band =>
    obtain ⟨hpc, hf, rfl⟩ := start_some h
    exact .acquire hpc hf
  case bypass i =>
    obtain ⟨hpc, hf, rfl⟩ := start_some h
    exact .bypass hpc hf
  case epAcquire i r ep =>
    obtain ⟨hpc, _, rfl⟩ := start_some h
    exact .epAcquire hpc
  case epAcquireAny i r preferred eps =>
    obtain ⟨hpc, _, rfl⟩ := start_some h
    split
    · exact .epAnyNot hpc
    · rename_i hc
      exact .epAny hpc (by
        by_contra he
        exact hc (.inl he))
  case move i r ep nowNs =>
    obtain ⟨hpc, _, rfl⟩ := start_some h
    exact .move hpc
  case releaseRole i r =>
    obtain ⟨hpc, _, rfl⟩ := start_some h
    exact .releaseRole hpc
  case release i =>
    obtain ⟨hpc, _, rfl⟩ := start_some h
    exact .release hpc
  case push i nowNs front firstNs ttlMs m =>
    obtain ⟨hpc, hf, rfl⟩ := start_some h
    exact .push hpc hf
  case resume i =>
    obtain ⟨hpc, _, rfl⟩ := start_some h
    split
    · rename_i hq
      exact .resume hpc hq.1
    · rename_i hq
      exact .resumeNot hpc hq
  case run i nowNs ok => exact runStep_cases h
  case wakePop pend =>
    cases hw : (wakePop x.fc pend).2 with
    | none =>
      rw [hw] at h
      cases h
      exact .wakeNone hw
    | some eu =>
      rw [hw] at h
      cases h
      exact .wakePop hw
  case wakeHook k ok =>
    split at h
    · split at h
      · cases h
        exact .wakeHook ‹_› ‹_›
      · cases h
    · cases h
  case wakeEnd k m =>
    split at h
    · split at h
      · cases h
        exact .wakeDone ‹_› ‹_›
      · cases h
        exact .wakeFailed ‹_› ‹_›
      · cases h
    · cases h
  case deadline i nowNs =>
    split at h <;> cases h
    · exact .deadline ‹_›
    · rename_i ht
      exact .deadlineNot (by simpa using ht)
  case sweepStart beforeNs =>
    split at h
    · cases h
      exact .sweepStart ‹_›
    · cases h
  case sweepFn i =>
    split at h
    · split at h
      · cases h
        exact .sweepFn ‹_› ‹_›
      · cases h
    · cases h
  case sweepEnd =>
    split at h
    · cases h
      exact .sweepEnd ‹_›
    · cases h
  all_goals cases h
  case pop => exact .pop
  case drainFn => exact .drainFn
  case apply => exact .apply
  case tick => exact .tick
  case warm => exact .warm
  case drain => exact .drain

end Fc
