import InferenceGateway.Fc.PoolRun

/-!
# What a permit holds

Each call on a permit takes and gives back units in separate steps, so between two of them a
unit may be counted that the permit does not show yet, or no longer shows.  `Thread.svc`,
`Thread.inBand` and `Thread.legs` say what a permit and its place in a call stand for, and `ThreadOk`
what it holds at each place.
-/

open Function

namespace Fc

/-! ## what a permit stands for -/

def Thread.svc (th : Thread) : Nat :=
  match th.pc with
  | .acqBand _ _ => 1
  | .relBand => 0
  | _ => if th.permit.state = .executing ∧ th.permit.svcHeld = true then 1 else 0

def Thread.inBand (th : Thread) (b : Band) : Nat :=
  if th.permit.state = .executing ∧ th.permit.svcHeld = true ∧ th.permit.band = b then 1 else 0

/-- a unit of an endpoint that was taken and has not landed on the permit -/
def Pc.landing (pc : Pc) (e : Nat) (r : Role) : Nat :=
  match pc with
  | .legLand r' e' | .moveLand r' e' => if r' = r ∧ e' = e then 1 else 0
  | _ => 0

def Thread.legs (th : Thread) (e : Nat) (r : Role) : Nat :=
  (if th.permit.state = .executing ∧ th.permit.ep r = some e then 1 else 0) + th.pc.landing e r

/-- an executing permit with its service unit -/
structure Permit.Whole (p : Permit) : Prop where
  state : p.state = .executing
  fc : p.fc = true
  svc : p.svcHeld = true

structure Permit.Bare (p : Permit) : Prop where
  state : p.state ≠ .executing
  svc : p.svcHeld = false
  ep : ∀ r, p.ep r = none
  tslot : p.tslot = none

/-- what a permit holds at each place of a call -/
def ThreadOk (th : Thread) : Prop :=
  match th.pc with
  | .acqTake _ _ | .acqOver _ | .acqShared _ _ | .acqBand _ _ =>
    th.permit.Bare ∧ th.permit.state = .none ∧ th.permit.fc = true
  | .legForce _ _ | .legLand _ _ | .moveForce _ _ | .moveLand _ _ => th.permit.Whole
  | .relRoles rs => th.permit.Whole ∧ ∀ r, r ∉ rs → th.permit.ep r = none
  | .relBand => th.permit.Whole ∧ ∀ r, th.permit.ep r = none
  | .relTenant => th.permit.state = .executing ∧ th.permit.fc = true ∧ th.permit.svcHeld = false ∧
      ∀ r, th.permit.ep r = none
  | .relTake | .relClaim | .relDrop | .relSettle => th.permit.Bare
  | _ => th.permit.Whole ∨ th.permit.Bare

/-- a permit at rest: between two calls, or where a call does not depend on what it holds -/
def Permit.Rests (p : Permit) : Prop := p.Whole ∨ p.Bare

variable {s : State} {p q : Permit} {pc : Pc} {b : Band}

theorem Permit.Rests.whole (h : p.Rests) (he : p.state = .executing) : p.Whole :=
  h.resolve_right fun hb => hb.state he

theorem Permit.Rests.bare (h : p.Rests) (he : p.state ≠ .executing) : p.Bare :=
  h.resolve_left fun hw => he hw.state

theorem Permit.Bare.reset : Permit.reset.Bare := ⟨nofun, rfl, fun _ => rfl, rfl⟩

theorem Permit.Bare.withState (h : p.Bare) (hs : q.state ≠ .executing)
    (h1 : q.svcHeld = p.svcHeld) (h2 : q.ep = p.ep) (h3 : q.tslot = p.tslot) : q.Bare :=
  ⟨hs, h1.trans h.svc, fun r => by rw [h2]; exact h.ep r, h3.trans h.tslot⟩

theorem svc_bare (h : p.Bare) (hpc : ∀ slot woken, pc ≠ .acqBand slot woken) :
    (⟨p, pc⟩ : Thread).svc = 0 := by
  unfold Thread.svc
  split
  · rename_i slot woken he
    exact absurd he (hpc slot woken)
  · rfl
  · exact if_neg fun hc => h.state hc.1

theorem inBand_bare (h : p.Bare) (pc : Pc) (b : Band) : (⟨p, pc⟩ : Thread).inBand b = 0 :=
  if_neg fun hc => h.state hc.1

theorem legs_bare (h : p.Bare) (pc : Pc) (e : Nat) (r : Role) :
    (⟨p, pc⟩ : Thread).legs e r = pc.landing e r := by
  unfold Thread.legs
  rw [if_neg fun hc => h.state hc.1, Nat.zero_add]

/-- a place where no unit is on its way -/
def Pc.plain : Pc → Bool
  | .acqBand _ _ | .relBand | .legLand _ _ | .moveLand _ _ => false
  | _ => true

theorem svc_plain (h : pc.plain = true) (p : Permit) :
    (⟨p, pc⟩ : Thread).svc = if p.state = .executing ∧ p.svcHeld = true then 1 else 0 := by
  cases pc <;> first | rfl | cases h

theorem landing_plain (h : pc.plain = true) (e : Nat) (r : Role) : pc.landing e r = 0 := by
  cases pc <;> first | rfl | cases h

/-! ## endpoint counts -/

theorem setEp_epInflight (s : State) (ep : Nat) (r : Role) (n e : Nat) (r' : Role) :
    (setEp s ep r n).epInflight e r' = if e = ep ∧ r' = r then n else s.epInflight e r' := by
  unfold setEp
  dsimp only
  by_cases he : e = ep
  · subst he
    rw [update_self]
    by_cases hr : r' = r
    · subst hr
      rw [update_self, if_pos ⟨rfl, rfl⟩]
    · rw [update_of_ne hr, if_neg fun hc => hr hc.2]
  · rw [update_of_ne he, if_neg fun hc => he hc.1]

theorem giveLeg_epInflight (s : State) (p : Permit) (r : Role) (e : Nat) (r' : Role) :
    (giveLeg s p r).epInflight e r' =
      s.epInflight e r' - if p.ep r = some e ∧ r' = r then 1 else 0 := by
  unfold giveLeg
  cases hp : p.ep r with
  | none => simp
  | some old =>
    show (setEp s old r (s.epInflight old r - 1)).epInflight e r' = _
    rw [setEp_epInflight]
    by_cases hc : e = old ∧ r' = r
    · obtain ⟨rfl, rfl⟩ := hc
      rw [if_pos ⟨rfl, rfl⟩, if_pos ⟨rfl, rfl⟩]
    · rw [if_neg hc, if_neg fun h => hc ⟨(Option.some.inj h.1).symm, h.2⟩, Nat.sub_zero]

theorem legs_whole (h : p.Whole) (pc : Pc) (e : Nat) (r : Role) :
    (⟨p, pc⟩ : Thread).legs e r = (if p.ep r = some e then 1 else 0) + pc.landing e r := by
  unfold Thread.legs
  simp only [h.state, true_and]

theorem svc_whole (h : p.Whole) (hpc : pc ≠ .relBand) : (⟨p, pc⟩ : Thread).svc = 1 := by
  unfold Thread.svc
  split
  · rfl
  · rename_i he
    exact absurd he hpc
  · exact if_pos ⟨h.state, h.svc⟩

theorem takeBand_band (s : State) (y : Band) (hb : bandCounted b = true) :
    (takeBand s y).bandInflight b = s.bandInflight b + if y = b then 1 else 0 := by
  unfold takeBand
  dsimp only
  rw [band_update hb]
  split
  · rw [‹y = b›]
  · rfl

theorem giveBand_band (s : State) (y : Band) (hb : bandCounted b = true) :
    (giveBand s y).bandInflight b = s.bandInflight b - if y = b then 1 else 0 := by
  unfold giveBand State.anomalyIf
  dsimp only
  rw [band_update hb]
  split
  · rw [‹y = b›]
  · rfl

/-! ## what a call leaves of it -/

structure SameHold (p q : Permit) : Prop where
  state : q.state = .executing ↔ p.state = .executing
  svc : q.svcHeld = p.svcHeld
  band : p.state = .executing → q.band = p.band
  ep : ∀ r, q.ep r = p.ep r

theorem SameHold.refl (p : Permit) : SameHold p p := ⟨Iff.rfl, rfl, fun _ => rfl, fun _ => rfl⟩

theorem SameHold.of_bare (hp : p.Bare) (hq : q.Bare) : SameHold p q :=
  ⟨⟨fun h => absurd h hq.state, fun h => absurd h hp.state⟩, hq.svc.trans hp.svc.symm,
    fun h => absurd h hp.state, fun r => (hq.ep r).trans (hp.ep r).symm⟩

theorem acquireStart_ok (s : State) (p : Permit) (canQueue woken : Bool) (tkey : UInt64)
    (band : Band) : (acquireStart s p canQueue woken tkey band).2.plain = true ∧
      (acquireStart s p canQueue woken tkey band).1.Bare ∧
      ThreadOk ⟨(acquireStart s p canQueue woken tkey band).1,
        (acquireStart s p canQueue woken tkey band).2⟩ := by
  have hb : (acquireBind p woken tkey band).Bare := ⟨nofun, rfl, fun _ => rfl, rfl⟩
  unfold acquireStart
  split
  · have hb' : ({ acquireBind p woken tkey band with state := .bypass } : Permit).Bare :=
      hb.withState nofun rfl rfl rfl
    exact ⟨rfl, hb', .inr hb'⟩
  split
  · exact ⟨rfl, hb, .inr hb⟩
  split
  · exact ⟨rfl, hb, hb, rfl, rfl⟩
  split <;> exact ⟨rfl, hb, hb, rfl, rfl⟩

/-- a whole permit after its unit of role `r` was given back, and one of endpoint `dst` came for it -/
structure LegSet (p q : Permit) (r : Role) (dst : Option Nat) : Prop where
  whole : q.Whole
  band : q.band = p.band
  ep : q.ep = update p.ep r dst
  tslot : q.tslot = p.tslot
  tkey : q.tkey = p.tkey

theorem releaseRole_whole (hw : p.Whole) (r : Role) :
    LegSet p (releaseRole s p r).2 r none ∧ (releaseRole s p r).1 = giveLeg s p r := by
  unfold releaseRole
  by_cases hn : p.ep r = none
  · rw [if_pos (.inr hn)]
    refine ⟨⟨hw, rfl, ?_, rfl, rfl⟩, ?_⟩
    · rw [← hn, update_eq_self]
    · unfold giveLeg
      rw [hn]
  · rw [if_neg fun hc => hc.elim (fun h => h hw.state) hn, if_neg (by simp [hw.fc])]
    exact ⟨⟨{ hw with }, rfl, rfl, rfl, rfl⟩, rfl⟩

theorem epLand_whole (hw : p.Whole) (ep : Nat) (r : Role) (nowNs : Nat) :
    LegSet p (epLand s p ep r nowNs).2 r (some ep) ∧
      (epLand s p ep r nowNs).1.epInflight = (giveLeg s p r).epInflight ∧
      (epLand s p ep r nowNs).1.anomaly = (giveLeg s p r).anomaly := by
  unfold epLand
  split <;> exact ⟨⟨{ hw with }, rfl, rfl, rfl, rfl⟩, rfl, rfl⟩

theorem ThreadOk.settled (h : ThreadOk ⟨p, pc⟩) (hp : p.state = .queued) (hs : q.state ≠ .executing)
    (h1 : q.svcHeld = p.svcHeld) (h2 : q.ep = p.ep) (h3 : q.tslot = p.tslot) :
    ThreadOk ⟨q, pc⟩ ∧ p.Bare ∧ q.Bare ∧ pc.plain = true := by
  have bare : p.Rests → q.Bare := by
    intro hr
    exact (hr.bare (by rw [hp]; exact nofun)).withState hs h1 h2 h3
  have pbare : p.Rests → p.Bare := fun hr => hr.bare (by rw [hp]; exact nofun)
  have absurdWhole : p.Whole → False := by
    intro hw
    have := hw.state
    rw [hp] at this
    cases this
  cases pc with
  | acqTake | acqOver | acqShared | acqBand =>
    have h' := h.2.1
    rw [hp] at h'
    cases h'
  | legForce | legLand | moveForce | moveLand => exact (absurdWhole h).elim
  | relRoles | relBand => exact (absurdWhole h.1).elim
  | relTenant =>
    have h' := h.1
    rw [hp] at h'
    cases h'
  | relTake | relClaim | relDrop | relSettle =>
    exact ⟨bare (.inr h), h, bare (.inr h), rfl⟩
  | _ => exact ⟨.inr (bare h), pbare h, bare h, rfl⟩

theorem queuePush_bare (hb : p.Bare) (m : Mem) (fd : Int) (gen nowNs : Nat) (front : Bool) :
    (queuePush m s p fd gen nowNs front).2.1.Bare := by
  by_cases hfd : fd < 0
  · rw [queuePush_negative hfd]
    exact hb
  · rw [(queuePush_fields hfd).2.2.2.2]
    split <;> exact ⟨nofun, rfl, fun _ => rfl, rfl⟩

/-- the permit is as it was, or its wait is over -/
inductive Settled (p : Permit) : Permit → Prop
  | same : Settled p p
  | settled {q : Permit} (queued : p.state = .queued) (state : q.state ≠ .executing)
      (svc : q.svcHeld = p.svcHeld) (ep : q.ep = p.ep) (tslot : q.tslot = p.tslot)
      (time : q.qEnqueueNs = p.qEnqueueNs) : Settled p q

theorem settled_permitSettle (p : Permit) {st : PState} (hs : st ≠ .executing) :
    Settled p (permitSettle p st).1 := by
  unfold permitSettle
  split
  · exact .settled ‹_› hs rfl rfl rfl rfl
  · exact .same

theorem settled_evictedSettle (s : State) (p : Permit) (fd : Int) (gen : Nat) :
    Settled p (evictedSettle s p fd gen).2.1 := by
  unfold evictedSettle
  dsimp only
  split
  · exact settled_permitSettle p nofun
  · exact .same

theorem settled_resumed (p : Permit) :
    Settled p (queueResumed p).1 ∧ Settled p (resumeEvicted p).1 := by
  unfold queueResumed resumeEvicted permitSettle
  by_cases hq : p.state = .queued
  · simp only [hq, if_true]
    exact ⟨.settled hq nofun rfl rfl rfl rfl, .settled hq nofun rfl rfl rfl rfl⟩
  · simp only [if_neg hq, Bool.false_eq_true, if_false]
    exact ⟨.same, .same⟩

/-- the permit goes on with what it holds -/
inductive Stays (th th' : Thread) : Prop
  | same (h : th' = th)
  | goes (ok : ThreadOk th') (plain : th.pc.plain = true) (plain' : th'.pc.plain = true)
      (hold : SameHold th.permit th'.permit)
      (tenant : th.permit.state = .executing →
        th'.permit.tslot = th.permit.tslot ∧ th'.permit.tkey = th.permit.tkey)

variable {th : Thread} {c : Pc}

theorem ThreadOk.at (h : ThreadOk th) (hpc : th.pc = pc) : ThreadOk ⟨th.permit, pc⟩ := hpc ▸ h

variable (h : ThreadOk th) (hpc : th.pc = c) (hc : c.plain = true)
include h hpc hc

theorem Stays.rest (hp : pc.plain = true) (ok : ThreadOk ⟨th.permit, c⟩ → ThreadOk ⟨th.permit, pc⟩) :
    Stays th ⟨th.permit, pc⟩ :=
  .goes (ok (h.at hpc)) (hpc ▸ hc) hp (.refl _) fun _ => ⟨rfl, rfl⟩

omit h in
theorem Stays.bare (hp : pc.plain = true) (old : th.permit.Bare) (new : q.Bare)
    (ok : ThreadOk ⟨q, pc⟩) : Stays th ⟨q, pc⟩ :=
  .goes ok (hpc ▸ hc) hp (.of_bare old new) fun h => absurd h old.state

theorem Stays.ends (bare : ThreadOk ⟨th.permit, c⟩ → th.permit.Bare) (hs : q.state ≠ .executing)
    (h1 : q.svcHeld = th.permit.svcHeld) (h2 : q.ep = th.permit.ep) (h3 : q.tslot = th.permit.tslot) :
    Stays th ⟨q, .idle⟩ := by
  have hb := bare (h.at hpc)
  have hb' : q.Bare := hb.withState hs h1 h2 h3
  exact .bare hpc hc rfl hb hb' (.inr hb')

omit hpc hc in
theorem Stays.settle (hs : Settled th.permit q) : Stays th ⟨q, th.pc⟩ := by
  cases hs with
  | same => exact .same rfl
  | settled queued state svc ep tslot time =>
    obtain ⟨h1, h2, h3, h4⟩ := ThreadOk.settled (show ThreadOk ⟨th.permit, th.pc⟩ from h) queued state svc ep tslot
    exact .bare rfl h4 h4 h2 h3 h1

theorem Stays.settleRest (ok : ThreadOk ⟨th.permit, c⟩ → th.permit.Rests) (hs : Settled th.permit q) :
    Stays th ⟨q, .idle⟩ := by
  cases hs with
  | same => exact .rest h hpc hc rfl ok
  | settled queued state svc ep tslot time =>
    refine .ends h hpc hc (fun hr => (ok hr).bare ?_) state svc ep tslot
    rw [queued]
    exact nofun

end Fc
