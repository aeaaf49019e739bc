import InferenceGateway.Fc.Accounts

/-!
# Units stay under the ceilings

In an enforcing pool whose configuration does not change, a unit is taken only under a limit
between one and the ceiling: `Under` holds in every state, not only between calls.  A release that
has run to its end leaves nothing for a second one (`Releasing`).

* `units_conserved`        the unit counters over whole runs;
* `selfEvict_underflows`   a run with a push that frees its own slot, and the underflow it leads to.
-/

set_option linter.unusedSectionVars false

open Function Finset Run Nat

namespace Fc

/-! ## a unit is taken under a limit -/

theorem svcCap_fixed {s : State} (h : s.cfg.adaptive = false) : svcCap s = s.cfg.maxOutstanding := by
  unfold svcCap
  rw [if_neg fun hc => Bool.false_ne_true (h.symm.trans hc.1)]

theorem bandLimit_some {s : State} {band : Band} {cap lim : Nat} {wait : Option (Band → Bool)}
    (h : bandLimit s band cap wait = some lim) (hc : cap ≠ 0) : lim ≠ 0 ∧ lim ≤ cap := by
  unfold bandLimit at h
  split at h
  · dsimp only at h
    split at h
    · cases h
    · cases h
      omega
  · cases h
    exact ⟨hc, le_refl _⟩

theorem epCapNow_le {s : State} {r : Role} (h : s.cfg.epCap r ≠ 0) (ep nowNs : Nat) :
    epCapNow s ep r nowNs ≠ 0 ∧ epCapNow s ep r nowNs ≤ s.cfg.epCap r := by
  unfold epCapNow
  dsimp only
  split
  · exact ⟨h, le_refl _⟩
  generalize (if nowNs ≤ s.warmSinceNs ep then 0 else (nowNs - s.warmSinceNs ep) / 1000000) = elapsed
  have hfloor : (if s.cfg.epCap r / 4 ≠ 0 then s.cfg.epCap r / 4 else 1) ≠ 0 ∧
      (if s.cfg.epCap r / 4 ≠ 0 then s.cfg.epCap r / 4 else 1) ≤ s.cfg.epCap r := by
    split
    · omega
    · omega
  revert hfloor
  generalize (if s.cfg.epCap r / 4 ≠ 0 then s.cfg.epCap r / 4 else 1) = floor
  rintro ⟨hf1, hf2⟩
  split
  · exact ⟨h, le_refl _⟩
  · rename_i he
    -- the ramp adds at most what is left above the floor
    have hramp : (s.cfg.epCap r - floor) * elapsed / s.cfg.warmupMs ≤ s.cfg.epCap r - floor := by
      refine Nat.div_le_of_le_mul ?_
      rw [Nat.mul_comm s.cfg.warmupMs]
      exact mul_le_mul_left _ (by omega)
    revert hramp
    generalize (s.cfg.epCap r - floor) * elapsed / s.cfg.warmupMs = ramp
    intro hramp
    omega

/-! ## the ceilings over the steps -/

/-- a place of a call that a pool which enforces its ceilings can be in -/
def Pc.Within (c : Cfg) : Pc → Prop
  | .acqTake lim _ => c.maxOutstanding ≠ 0 → lim ≠ 0 ∧ lim ≤ c.maxOutstanding
  | .legForce _ _ => False
  | .moveForce _ _ => False
  | _ => True

section
variable {ι : Type} [DecidableEq ι]

structure Under (x : Sys ι) : Prop where
  inflight : x.fc.cfg.maxOutstanding ≠ 0 → x.fc.inflight ≤ x.fc.cfg.maxOutstanding
  ep : ∀ e r, x.fc.cfg.epCap r ≠ 0 → x.fc.epInflight e r ≤ x.fc.cfg.epCap r
  pc : ∀ i, (x.threads i).pc.Within x.fc.cfg

variable {conn : ι → Conn} {x x' : Sys ι} {a : Act ι}

variable {i : ι} {s : State} {p : Permit} {n ep nowNs : Nat} {r : Role} {y z : Sys ι}
  {bs : List (Act ι)}

theorem Under.put (h : Under x) {th : Thread} (ht : x'.threads = update x.threads i th)
    (hc : x'.fc.cfg = x.fc.cfg)
    (hi : x.fc.cfg.maxOutstanding ≠ 0 → x'.fc.inflight ≤ x.fc.cfg.maxOutstanding)
    (he : ∀ e r, x.fc.cfg.epCap r ≠ 0 → x'.fc.epInflight e r ≤ x.fc.cfg.epCap r)
    (hp : th.pc.Within x.fc.cfg) : Under x' := by
  refine ⟨by rwa [hc], by rwa [hc], ?_⟩
  rw [hc, ht]
  exact update_all (fun _ (th : Thread) => th.pc.Within x.fc.cfg) hp h.pc

theorem Pc.Entered.within {pc : Pc} (h : pc.Entered s) (he : s.cfg.mode = .enforce)
    (hna : s.cfg.adaptive = false) : pc.Within s.cfg := by
  cases pc with
  | acqTake lim woken =>
    obtain ⟨band, hl⟩ := h
    intro h0
    unfold acquireLimit at hl
    split at hl
    · cases hl
    · rw [svcCap_fixed hna] at hl
      exact bandLimit_some hl h0
  | legForce | moveForce => exact h he
  | _ => trivial

theorem shared_under {mem : Bool} {canQueue woken : Bool} {slot : Option Nat}
    (he : s.cfg.mode = .enforce) (hna : s.cfg.adaptive = false)
    (hr : (acquireShared mem s p canQueue woken).2 = .ok slot) (h0 : s.cfg.maxOutstanding ≠ 0) :
    (acquireShared mem s p canQueue woken).1.inflight ≤ s.cfg.maxOutstanding := by
  obtain ⟨_, t1, _, hres⟩ := acquireShared_spec mem s p canQueue woken
  rw [hr] at hres
  obtain ⟨_, h2, _, h4⟩ := hres
  obtain ⟨_, htake⟩ := h4 he
  obtain ⟨a1, a2, _⟩ := sharedAsked_spec mem s p woken
  unfold sharedTaken at htake
  dsimp only at htake
  split at htake
  · cases htake
  · obtain ⟨lim, hl, hn, _⟩ := unitTakeBand_some htake
    have hcap : svcCap (sharedAsked mem s p woken).1 = s.cfg.maxOutstanding := by
      rw [svcCap_fixed (by rw [a1.cfg]; exact hna), a1.cfg]
    rw [hcap] at hl
    have hlim := bandLimit_some hl h0
    have := (unitTake_some hn).2 hlim.1
    omega

theorem UnitMove.under {s' : State} {th : Thread} (h : Under x) (he : x.fc.cfg.mode = .enforce)
    (hna : x.fc.cfg.adaptive = false) (hm : UnitMove x.fc (x.threads i) s' th) :
    s'.inflight ≤ x.fc.inflight ∧
      (∀ e r, x.fc.cfg.epCap r ≠ 0 → s'.epInflight e r ≤ x.fc.cfg.epCap r) ∧ th.pc.Within x.fc.cfg := by
  have hpc := h.pc i
  cases hm with
  | take whole plain place limit count calm only =>
    refine ⟨only.inflight.le, ?_, by rcases place with rfl | rfl <;> trivial⟩
    rw [count]
    rcases limit with ⟨nowNs, hn⟩ | hf | hf
    · intro e r' h0
      rw [setEp_epInflight]
      split
      · rename_i hc
        obtain ⟨rfl, rfl⟩ := hc
        have hcap := epCapNow_le h0 e nowNs
        have := (unitTake_some hn).2 hcap.1
        omega
      · exact h.ep e r' h0
    · rw [hf] at hpc
      exact hpc.elim
    · rw [hf] at hpc
      exact hpc.elim
  | give whole place plain next ok set count calm only =>
    refine ⟨only.inflight.le, fun e r h0 => ?_, next.within he hna⟩
    rw [count, giveLeg_epInflight]
    exact (sub_le _ _).trans (h.ep e r h0)
  | execute pc fc | band pc fc =>
    rw [fc]
    exact ⟨le_refl _, h.ep, trivial⟩
  | svc pc fc =>
    rw [fc]
    exact ⟨sub_le _ _, h.ep, trivial⟩

theorem under_micro (hp : PoolOk x.fc) (hth : ∀ i, ThreadOk (x.threads i))
    (he : x.fc.cfg.mode = .enforce) (hna : x.fc.cfg.adaptive = false) (ha : a.isApply = false)
    (h : Under x) (hm : Micro conn x a x') : Under x' := by
  cases turn_micro hp hm with
  | unit i th threads wakes queue cfg effMax move =>
    obtain ⟨h1, h2, h3⟩ := (move (hth i)).under h he hna
    exact h.put threads cfg (fun h0 => h1.trans (h.inflight h0)) h2 h3
  | pass i nowNs mem woken act ok threads wakes queue cfg effMax inflight bandInflight epInflight =>
    refine h.put threads cfg (fun h0 => ?_) (by rw [epInflight]; exact h.ep) trivial
    rcases ok with ⟨lim, n, hpc, hn⟩ | ⟨_, hmode⟩
    · have hw := h.pc i
      rw [hpc] at hw
      obtain ⟨hlim, hle⟩ : lim ≠ 0 ∧ lim ≤ x.fc.cfg.maxOutstanding := hw h0
      have := (unitTake_some hn).2 hlim
      omega
    · exact absurd he hmode
  | seat i nowNs mem canQueue woken slot act pc ok threads wakes fc =>
    have hf := (acquireShared_spec mem x.fc (x.threads i).permit canQueue woken).1
    rw [← fc] at hf
    refine h.put threads hf.cfg ?_ (by rw [hf.epInflight]; exact h.ep) trivial
    rw [fc]
    exact shared_under he hna ok
  | leave i pc threads wakes fc =>
    have hs := (releaseTenant_spec hp (x.threads i).permit).2.1
    rw [← fc] at hs
    exact h.put threads hs.cfg (by rw [hs.inflight]; exact h.inflight)
      (by rw [hs.epInflight]; exact h.ep) trivial
  | stay threads places units cfg =>
    have hcfg := cfg ha
    refine ⟨?_, ?_, fun j => ?_⟩
    · rw [hcfg, units.inflight]
      exact h.inflight
    · rw [hcfg, units.epInflight]
      exact h.ep
    · rw [hcfg]
      rcases places j with hj | hj
      · rw [hj]
        exact h.pc j
      · exact hj.within he hna

theorem under_init (m : Mem) (slots : Nat) (cfg : Cfg) :
    Under (Sys.init m slots cfg : Sys ι) := by
  obtain ⟨_, _, _, _, n, hu⟩ := stateInit_spec m slots cfg
  refine ⟨fun _ => ?_, fun e r _ => ?_, fun _ => trivial⟩
  · exact (le_of_eq hu.inflight).trans (zero_le _)
  · exact (le_of_eq (congrFun (congrFun hu.epInflight e) r)).trans (zero_le _)

theorem under_run [Fintype ι] {m : Mem} {slots : Nat} {cfg : Cfg} {as : List (Act ι)}
    (h : exec (step conn) (Sys.init m slots cfg) as = some x)
    (ha : ∀ a ∈ as, a.isApply = false) (he : (stateInit m slots cfg).cfg.mode = .enforce)
    (hna : (stateInit m slots cfg).cfg.adaptive = false) :
    x.fc.cfg = (stateInit m slots cfg).cfg ∧ Under x := by
  have hall : along (step conn) (fun _ a => !a.isApply) (Sys.init m slots cfg) as = true :=
    along_all fun a hmem => by rw [ha a hmem]; rfl
  refine (inv_of_step
    (P := fun y => Books y ∧ y.fc.cfg = (stateInit m slots cfg).cfg ∧ Under y) (fun y a y' hy hok hs => ?_)
    ⟨books_init m slots cfg, rfl, under_init m slots cfg⟩ hall h).2
  obtain ⟨hb, hcfg, hu⟩ := hy
  rw [Bool.not_eq_true'] at hok
  have hm := step_cases hs
  refine ⟨books_step y a y' hb hs, (cfg_micro hb.pool hm hok).1.trans hcfg, ?_⟩
  exact under_micro hb.pool hb.units.thread (by rw [hcfg]; exact he) (by rw [hcfg]; exact hna) hok hu hm

/-! ## a second release -/

def Pc.releasing : Pc → Bool
  | .relRoles _ | .relBand | .relTenant | .relTake | .relClaim | .relDrop | .relSettle => true
  | _ => false

/-- a release was started, and no other call since -/
def Thread.Releasing (th : Thread) : Prop :=
  th.pc.releasing = true ∨ th.pc = .idle ∧ (th.permit.state = .none ∨ th.permit.state = .released)

def Act.calls (i : ι) : Act ι → Bool
  | .acquire j _ _ _ _ | .bypass j | .epAcquire j _ _ | .epAcquireAny j _ _ _ | .move j _ _ _
  | .releaseRole j _ | .release j | .push j _ _ _ _ _ | .resume j => j = i
  | _ => false

theorem Thread.Releasing.pc {th : Thread} (h : th.Releasing) {pc : Pc} (hpc : th.pc = pc)
    (hi : pc ≠ .idle) : pc.releasing = true := by
  rcases h with h | h
  · rw [← hpc]
    exact h
  · exact absurd (hpc.symm.trans h.1) hi

theorem Thread.Releasing.settle {th : Thread} (h : th.Releasing) (st : PState) (parked : Bool)
    (hq : th.permit.state = .queued) :
    (⟨{ th.permit with state := st, qParked := parked }, th.pc⟩ : Thread).Releasing := by
  rcases h with h | ⟨_, h | h⟩
  · exact .inl h
  · rw [hq] at h
    cases h
  · rw [hq] at h
    cases h

theorem releasing_micro (h : (x.threads i).Releasing) (ha : a.calls i = false)
    (hm : Micro conn x a x') : (x'.threads i).Releasing := by
  by_cases hsub : a.subject = some i
  · -- a step of the release itself, or of the deadline, the drain or the pass
    have not_self : decide (i = i) ≠ false := by simp
    have out : ∀ {pc : Pc}, (x.threads i).pc = pc → pc.releasing = false → pc ≠ .idle → False :=
      fun hpc hf hne => Bool.false_ne_true (hf.symm.trans (h.pc hpc hne))
    cases hm with cases hsub
    | acquire | bypass | epAcquire | epAnyNot | epAny | move | releaseRole | release | push | resume
    | resumeNot =>
      exact absurd ha not_self
    | relRole | relSvc | relSvcNot | relBand | relTakeNot =>
      rw [put_self]
      exact .inl rfl
    | relTenant =>
      rw [put_self]
      exact .inr ⟨rfl, .inr rfl⟩
    | relTake =>
      show (update x.threads i _ i).Releasing
      rw [update_self]
      exact .inr ⟨rfl, .inr rfl⟩
    | relClaim =>
      rw [put_self]
      refine .inl ?_
      split <;> rfl
    | relDrop | relSettle =>
      rw [concludeIf_threads, put_self]
      exact .inr ⟨rfl, .inr rfl⟩
    | @deadline j nowNs ht =>
      show (update x.threads i _ i).Releasing
      rw [update_self, taken_permit ht]
      exact h.settle .ended false (queueTake_true ht).1
    | deadlineNot => exact h
    | @drainFn j =>
      rw [concludeIf_threads, put_self]
      unfold permitSettle
      split
      · exact h.settle .ended _ ‹_›
      · exact h
    | @sweepFn j take e rest hs hc =>
      rw [concludeIf_threads, put_self]
      unfold Sys.settles evictedSettle permitSettle
      dsimp only
      split
      · split
        · exact h.settle .evicted _ ‹_›
        · exact h
      · exact h
    | acqTake hpc | acqTakeNot hpc | acqRefuse hpc | acqOver hpc | acqShared hpc | acqSharedNot hpc
    | acqBand hpc | legTry hpc | legForce hpc | legLand hpc | moveForce hpc | moveLand hpc
    | resClaim hpc | resEvict hpc | resWait hpc | resHolds hpc | resTurn hpc | pushHook hpc =>
      exact (out hpc rfl nofun).elim
  · rw [frame_micro hm hsub]
    exact h

theorem release_starts (h : step conn x (.release i) = some y) : (y.threads i).Releasing := by
  simp only [step] at h
  obtain ⟨_, _, rfl⟩ := start_some h
  rw [put_self]
  unfold releaseStart
  cases hs : (x.threads i).permit.state with
  | none => exact .inr ⟨rfl, .inl hs⟩
  | released => exact .inr ⟨rfl, .inr hs⟩
  | queued | executing => exact .inl rfl
  | bypass | evicted | ended => exact .inr ⟨rfl, .inr rfl⟩

theorem releasing_run (h : (y.threads i).Releasing) (hb : ∀ b ∈ bs, b.calls i = false)
    (hz : exec (step conn) y bs = some z) :
    (z.threads i).Releasing := by
  induction bs generalizing y with
  | nil =>
    cases hz
    exact h
  | cons b bs ih =>
    obtain ⟨w, hs, hz'⟩ := exec_cons.mp hz
    have hw := releasing_micro h (hb b List.mem_cons_self) (step_cases hs)
    exact ih hw (fun c hc => hb c (List.mem_cons_of_mem _ hc)) hz'

theorem release_again (hy : step conn x (.release i) = some y) (hb : ∀ b ∈ bs, b.calls i = false)
    (hz : exec (step conn) y bs = some z) (hi : (z.threads i).pc = .idle) :
    step conn z (.release i) = some z := by
  have hstate : (z.threads i).permit.state = .none ∨ (z.threads i).permit.state = .released := by
    rcases releasing_run (release_starts hy) hb hz with h | h
    · rw [hi] at h
      cases h
    · exact h.2
  have hstart : releaseStart (z.threads i).permit = ((z.threads i).permit, .idle) := by
    unfold releaseStart
    rcases hstate with h | h <;> rw [h]
  have hsame : (⟨(z.threads i).permit, .idle⟩ : Thread) = z.threads i := by rw [← hi]
  have hput : z.put i z.fc (z.threads i).permit .idle = z := by
    unfold Sys.put
    rw [hsame, update_eq_self]
  simp only [step]
  unfold Sys.start
  rw [if_pos ⟨hi, rfl⟩]
  dsimp only
  rw [hstart, hput]

end

/-! ## the counters over whole runs -/

section
variable {ι : Type} [Fintype ι] [DecidableEq ι] {conn : ι → Conn} {x : Sys ι}

def Sys.holders (x : Sys ι) : Finset ι :=
  univ.filter fun i =>
    (x.threads i).permit.state = .executing ∧ (x.threads i).permit.svcHeld = true

def Sys.legHolders (x : Sys ι) (e : Nat) (r : Role) : Finset ι :=
  univ.filter fun i =>
    (x.threads i).permit.state = .executing ∧ (x.threads i).permit.ep r = some e

theorem svc_idle (h : ∀ i, (x.threads i).pc = .idle) : (∑ i, (x.threads i).svc) = x.holders.card := by
  rw [Sys.holders, card_filter]
  apply sum_congr rfl
  intro i _
  unfold Thread.svc
  rw [h i]

theorem inBand_card (b : Band) : (∑ i, (x.threads i).inBand b) =
    (x.holders.filter fun i => (x.threads i).permit.band = b).card := by
  rw [Sys.holders, filter_filter, card_filter]
  apply sum_congr rfl
  intro i _
  unfold Thread.inBand
  simp only [and_assoc]

theorem legs_idle (h : ∀ i, (x.threads i).pc = .idle) (e : Nat) (r : Role) :
    (∑ i, (x.threads i).legs e r) = (x.legHolders e r).card := by
  rw [Sys.legHolders, card_filter]
  apply sum_congr rfl
  intro i _
  unfold Thread.legs
  rw [h i]
  rfl

/-- **units are conserved**: between calls every counter is the number of permits that hold its
unit, none underflows, and under a fixed enforcing configuration that is not adaptive none is over
its ceiling -/
theorem units_conserved {m : Mem} {slots : Nat} {cfg : Cfg} {as : List (Act ι)}
    (h : exec (step conn) (Sys.init m slots cfg) as = some x)
    (hok : along (step conn) (noSelfEvict conn) (Sys.init m slots cfg) as = true) :
    ((∀ i, (x.threads i).pc = .idle) → x.fc.inflight = x.holders.card ∧
      (∀ b, bandCounted b = true → x.fc.bandInflight b =
        (x.holders.filter fun i => (x.threads i).permit.band = b).card) ∧
      ∀ e r, x.fc.epInflight e r = (x.legHolders e r).card) ∧
    x.fc.anomaly .underflow = 0 ∧
    (∀ i y bs z, step conn x (.release i) = some y → (∀ b ∈ bs, b.calls i = false) →
      exec (step conn) y bs = some z → (z.threads i).pc = .idle →
      step conn z (.release i) = some z) ∧
    ((∀ a ∈ as, a.isApply = false) → (stateInit m slots cfg).cfg.mode = .enforce →
      (stateInit m slots cfg).cfg.adaptive = false → x.fc.cfg = (stateInit m slots cfg).cfg ∧
      (x.fc.cfg.maxOutstanding ≠ 0 → x.fc.inflight ≤ x.fc.cfg.maxOutstanding) ∧
      ∀ e r, x.fc.cfg.epCap r ≠ 0 → x.fc.epInflight e r ≤ x.fc.cfg.epCap r) := by
  have hs := sound_run h hok
  refine ⟨fun hidle => ⟨?_, fun b hb => ?_, fun e r => ?_⟩, hs.calm, ?_, ?_⟩
  · rw [hs.units.inflight, svc_idle hidle]
  · rw [hs.units.band b hb, inBand_card]
  · rw [hs.units.ep e r, legs_idle hidle]
  · intro i y bs z hy hb hz hi
    exact release_again hy hb hz hi
  · intro ha he hna
    obtain ⟨hcfg, hu⟩ := under_run h ha he hna
    exact ⟨hcfg, hu.inflight, hu.ep⟩

end

/-- two units are out and the pool is full -/
theorem units_conserved_shed : ∃ x, exec (step sampleConn) shedStart
        (admits 0 1 0 ++ admits 1 1 0 ++ parks 2 2 0 100) = some x ∧
      x.fc.inflight = 2 ∧ x.fc.inflight = x.holders.card ∧ x.fc.anomaly .underflow = 0 ∧
      x.fc.inflight ≤ x.fc.cfg.maxOutstanding := by
  refine exec_follows (P := fun x => (∀ i, (x.threads i).pc = .idle) ∧ x.fc.inflight = 2 ∧
    x.fc.cfg.maxOutstanding ≠ 0) (by decide +kernel) fun x hx ⟨hidle, h2, h0⟩ => ?_
  obtain ⟨h1, hcalm, _, hcap⟩ := units_conserved hx (by decide +kernel)
  exact ⟨h2, (h1 hidle).1, hcalm, (hcap (by decide) (by decide +kernel) (by decide +kernel)).2.1 h0⟩

def underflowRun : List (Act (Fin 6)) :=
  selfEvictRun ++ [.release 3, .run 3 0 true] ++ releases 1 ++ admits 5 3 0 ++ [.release 4, .run 4 0 true]

theorem selfEvict_underflows : ∃ x, exec (step sampleConn) shedStart underflowRun = some x ∧
      (∀ i, (x.threads i).pc = .idle) ∧ x.fc.anomaly .underflow = 1 :=
  exec_found (by decide +kernel)

end Fc
