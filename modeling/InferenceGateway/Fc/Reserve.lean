import InferenceGateway.Fc.Ceilings

/-!
# The reserve of the critical band

The reserve is nowhere checked: an admission of another band only holds back what critical is
short of it, by the counts it reads.  While an admission or a release is under way the counts and
the holders differ, so the runs here let each finish before anything else happens (`alone`).

* `criticalClaim_le`   the claim of the critical band fits under the ceiling;
* `reserve_kept`       the units of the other bands, over whole runs.
-/

set_option linter.unusedSectionVars false

open Finset Run

namespace Fc

/-! ## the claims fit under the ceiling -/

theorem floorUnits_le (cap pct : Nat) : floorUnits cap pct ≤ cap := by
  unfold floorUnits
  split
  · exact Nat.zero_le _
  split
  · exact Nat.le_refl _
  split <;> omega

theorem criticalClaim_eq (c : Cfg) (cap : Nat) :
    criticalClaim c cap = max (floorClaims c cap .critical) (floorReserve c cap) := by
  show (if floorUnits cap c.criticalReservePct > floorUnits cap (c.bandMinSharePct .critical)
    then _ else _) = max (floorUnits cap (c.bandMinSharePct .critical)) (floorUnits cap c.criticalReservePct)
  split <;> omega

theorem criticalClaim_le (c : Cfg) (cap : Nat) : criticalClaim c cap ≤ cap := by
  rw [criticalClaim_eq]
  exact Nat.max_le.mpr ⟨floorUnits_le _ _, floorUnits_le _ _⟩

theorem floorFit_le (cap pct left : Nat) : floorFit cap pct left ≤ left := by
  unfold floorFit
  split <;> omega

/-! ## what an admission leaves to critical -/

/-- what a band is short of its reserve -/
def FloorView.reserveShort (v : FloorView) (y : Band) : Nat :=
  if y = .critical then v.reserve - v.held y else 0

/-- what a band that waits is short of its floor, as far as it counts against `band` -/
def FloorView.floorShort (v : FloorView) (band y : Band) : Nat :=
  if ¬ v.held band < v.claim band ∧ v.wait y = true then v.floor y - v.held y else 0

section
variable (v : FloorView)

theorem heldBy_self (band : Band) : v.heldBy band band = 0 := if_pos rfl

theorem ite_gt_sub (a b : Nat) : (if a > b then a - b else 0) = a - b := by
  split <;> omega

theorem ite_gt_max (a b : Nat) : (if a > b then a else b) = max a b := by
  split <;> omega

theorem heldBy_other {band y : Band} (h : y ≠ band) :
    v.heldBy band y = max (v.reserveShort y) (v.floorShort band y) := by
  unfold FloorView.heldBy FloorView.reserveShort FloorView.floorShort
  rw [if_neg h]
  simp only [ite_and, ite_gt_sub, ite_gt_max]

theorem heldBack_eq (band : Band) : floorHeldBack v band =
    v.heldBy band .standard + v.heldBy band .critical + v.heldBy band .sheddable := by
  show 0 + v.heldBy band .standard + v.heldBy band .critical + v.heldBy band .sheddable = _
  omega

theorem heldBack_reserve {band : Band} (hb : band ≠ .critical) :
    v.reserve - v.held .critical ≤ floorHeldBack v band := by
  have hcrit : v.reserve - v.held .critical ≤ v.heldBy band .critical := by
    rw [heldBy_other v (Ne.symm hb)]
    exact Nat.le_max_left _ _
  rw [heldBack_eq]
  omega

end

theorem bandLimit_reserve {s : State} {band : Band} {cap lim : Nat} {wait : Option (Band → Bool)}
    (he : s.cfg.mode = .enforce) (hc : cap ≠ 0) (hb : band ≠ .critical)
    (h : bandLimit s band cap wait = some lim) :
    lim ≠ 0 ∧ lim + (floorReserve s.cfg cap - s.bandInflight .critical) ≤ cap := by
  refine ⟨(bandLimit_some h hc).1, ?_⟩
  unfold bandLimit at h
  by_cases hf : floorsApply s cap = true
  · rw [if_pos hf] at h
    have hheld : floorReserve s.cfg cap - (s.bandInflight .critical + 0) ≤
        floorHeldBack (floorViewLoad s cap noPend wait) band :=
      heldBack_reserve (floorViewLoad s cap noPend wait) hb
    dsimp only at h
    split at h
    · cases h
    · cases h
      omega
  · -- without floors there is no reserve
    rw [if_neg hf] at h
    cases h
    have h0 : s.cfg.criticalReservePct = 0 := by
      by_contra hne
      simp [floorsApply, hc, he, floorsOn, hne] at hf
    have : floorReserve s.cfg cap = 0 := by
      unfold floorReserve floorUnits
      rw [if_pos (.inr h0)]
    omega

section
variable {ι : Type} [Fintype ι] [DecidableEq ι] {conn : ι → Conn} {x x' : Sys ι} {a : Act ι}

/-! ## one admission or release at a time -/

/-- a place between an admission's first look at the units, or a release's first unit given back,
and its end -/
def Pc.midUnit : Pc → Bool
  | .acqTake _ _ | .acqOver _ | .acqShared _ _ | .acqBand _ _ | .relRoles _ | .relBand | .relTenant =>
    true
  | _ => false

def Act.runs (i : ι) : Act ι → Bool
  | .run j _ _ => decide (j = i)
  | _ => false

/-- while an admission or a release is under way nothing but its next step happens -/
def alone (x : Sys ι) (a : Act ι) : Bool :=
  decide (∀ i, (x.threads i).pc.midUnit = true → a.runs i = true)

variable {i : ι} {th : Thread} {s : State} {p : Permit} {canQueue woken : Bool} {lim : Nat}
  {slot : Option Nat}

theorem alone_others (h : alone x a = true) {j : ι} {nowNs : Nat} {ok : Bool}
    (ha : a = .run i nowNs ok) (hj : j ≠ i) : (x.threads j).pc.midUnit = false := by
  by_contra hc
  rw [Bool.not_eq_false] at hc
  have := of_decide_eq_true h j hc
  rw [ha] at this
  exact hj (of_decide_eq_true this).symm

def Thread.lower (th : Thread) : Nat := if th.seat.any fun y => y.band ≠ .critical then 1 else 0

theorem lower_none (h : th.seat = none) : th.lower = 0 := by
  unfold Thread.lower
  rw [h]
  rfl

theorem lower_some {y : Seat} (h : th.seat = some y) :
    th.lower = if y.band = .critical then 0 else 1 := by
  unfold Thread.lower
  rw [h]
  simp

theorem lower_add_critical (h : ThreadOk th) (hm : th.pc.midUnit = false) :
    th.lower + th.inBand .critical = th.svc := by
  obtain ⟨p, pc⟩ := th
  have whole : p.Whole → pc ≠ .relBand → (⟨p, pc⟩ : Thread).seat = p.seat →
      (⟨p, pc⟩ : Thread).lower + (⟨p, pc⟩ : Thread).inBand .critical = (⟨p, pc⟩ : Thread).svc := by
    intro hw hpc hs
    have hseat : p.seat = some ⟨p.tslot, p.tkey, p.band⟩ := if_pos hw.state
    rw [lower_some (hs.trans hseat), svc_whole hw hpc]
    unfold Thread.inBand
    simp only [hw.state, hw.svc, true_and]
    split <;> rfl
  have bare : p.Bare → (∀ slot woken, pc ≠ .acqBand slot woken) → (⟨p, pc⟩ : Thread).seat = p.seat →
      (⟨p, pc⟩ : Thread).lower + (⟨p, pc⟩ : Thread).inBand .critical = (⟨p, pc⟩ : Thread).svc := by
    intro hb hpc hs
    rw [lower_none (hs.trans hb.seat), inBand_bare hb, svc_bare hb hpc]
  cases pc with
  | acqTake | acqOver | acqShared | acqBand | relRoles | relBand | relTenant => cases hm
  | legForce | legLand | moveForce | moveLand => exact whole h nofun rfl
  | relTake | relClaim | relDrop | relSettle => exact bare h (fun _ _ => nofun) rfl
  | idle | legTry | resClaim | resEvict | resHolds | resTurn | pushHook =>
    rcases h with hw | hb
    · exact whole hw nofun rfl
    · exact bare hb (fun _ _ => nofun) rfl

/-! ## the reserve over the steps -/

/-- the other bands leave the reserve alone, and an admission under way goes by a limit that does -/
structure ReserveOk (x : Sys ι) : Prop where
  lower : (∑ i, (x.threads i).lower) + floorReserve x.fc.cfg (svcCap x.fc) ≤ svcCap x.fc
  limit : ∀ i lim woken, (x.threads i).pc = .acqTake lim woken →
    (x.threads i).permit.band ≠ .critical →
    lim ≠ 0 ∧ lim + (floorReserve x.fc.cfg (svcCap x.fc) - x.fc.bandInflight .critical) ≤ svcCap x.fc

theorem acquireStart_limit {w : Bool} {tkey : UInt64} {band : Band} (he : s.cfg.mode = .enforce)
    (hc : svcCap s ≠ 0) (h : (acquireStart s p canQueue woken tkey band).2 = .acqTake lim w)
    (hb : (acquireStart s p canQueue woken tkey band).1.band ≠ .critical) :
    lim ≠ 0 ∧ lim + (floorReserve s.cfg (svcCap s) - s.bandInflight .critical) ≤ svcCap s := by
  unfold acquireStart at h hb
  split at h
  · cases h
  split at h
  · cases h
  split at h
  · cases h
  split at h
  · rename_i l hl
    cases h
    have hband : band ≠ .critical := by
      rw [if_neg ‹_›, if_neg ‹_›, if_neg ‹_›, hl] at hb
      exact hb
    unfold acquireLimit at hl
    split at hl
    · cases hl
    · exact bandLimit_reserve he hc hband hl
  · cases h

theorem ReserveOk.seated (hu : UnitsOk x) (h : ReserveOk x) (hs : (x.threads i).seat = none)
    (hi : (x.threads i).permit.Bare) (ho : ∀ j, j ≠ i → (x.threads j).pc.midUnit = false)
    (ht : x'.threads = Function.update x.threads i ⟨(x.threads i).permit, .acqBand slot woken⟩)
    (hl : (x.threads i).permit.band ≠ .critical → ∃ lim, x.fc.inflight < lim ∧
      lim + (floorReserve x.fc.cfg (svcCap x.fc) - x.fc.bandInflight .critical) ≤ svcCap x.fc) :
    (∑ j, (x'.threads j).lower) + floorReserve x.fc.cfg (svcCap x.fc) ≤ svcCap x.fc := by
  have hsum := tally_update Thread.lower x.threads i ⟨(x.threads i).permit, .acqBand slot woken⟩
  rw [lower_none hs, ← ht, lower_some rfl] at hsum
  have hlow := h.lower
  by_cases hb : (x.threads i).permit.band = .critical
  · rw [if_pos hb] at hsum
    omega
  · rw [if_neg hb] at hsum
    obtain ⟨lim, h1, h2⟩ := hl hb
    have hall : (∑ j, (x.threads j).lower) + x.fc.bandInflight .critical ≤ x.fc.inflight := by
      rw [hu.inflight, hu.band .critical rfl, ← sum_add_distrib]
      apply sum_le_sum
      intro j _
      by_cases hj : j = i
      · rw [hj, lower_none hs, show (x.threads i).inBand .critical = 0 from inBand_bare hi _ _]
        exact Nat.zero_le _
      · exact (lower_add_critical (hu.thread j) (ho j hj)).le
    omega

theorem shared_limit {mem : Bool} (he : s.cfg.mode = .enforce) (hc : svcCap s ≠ 0)
    (hb : p.band ≠ .critical) (hr : (acquireShared mem s p canQueue woken).2 = .ok slot) :
    ∃ lim, s.inflight < lim ∧
      lim + (floorReserve s.cfg (svcCap s) - s.bandInflight .critical) ≤ svcCap s := by
  obtain ⟨_, t1, _, hres⟩ := acquireShared_spec mem s p canQueue woken
  rw [hr] at hres
  obtain ⟨_, htake⟩ := hres.2.2.2 he
  obtain ⟨a1, a2, _⟩ := sharedAsked_spec mem s p woken
  unfold sharedTaken at htake
  dsimp only at htake
  split at htake
  · cases htake
  · obtain ⟨lim, hl, hn, _⟩ := unitTakeBand_some htake
    have hcap : svcCap (sharedAsked mem s p woken).1 = svcCap s := by
      unfold svcCap
      rw [a1.cfg, a1.effMax]
    rw [hcap] at hl
    obtain ⟨h1, h2⟩ := bandLimit_reserve (by rw [a1.cfg]; exact he) hc hb hl
    rw [a1.cfg, a1.bandInflight] at h2
    have := (unitTake_some hn).2 h1
    exact ⟨lim, by omega, h2⟩

theorem reserve_limit (he : x.fc.cfg.mode = .enforce) (hc : svcCap x.fc ≠ 0) (ha : alone x a = true)
    (hm : Micro conn x a x') (hpc : (x'.threads i).pc = .acqTake lim woken)
    (hb : (x'.threads i).permit.band ≠ .critical) :
    lim ≠ 0 ∧ lim + (floorReserve x'.fc.cfg (svcCap x'.fc) - x'.fc.bandInflight .critical) ≤
      svcCap x'.fc := by
  rcases acquiring_micro hm (by rw [hpc]; rfl) with ⟨hne, heq⟩ |
    ⟨canQueue, w, tkey, band, _, rfl⟩ | ⟨_, _, _, h1⟩
  · -- the permit is under way, and this is not its step
    have hmid : (x.threads i).pc.midUnit = true := by rw [← heq, hpc]; rfl
    have hrun := of_decide_eq_true ha i hmid
    cases a with
    | run j nowNs ok =>
      have hj : j = i := of_decide_eq_true hrun
      exact absurd (by rw [hj]) (hne nowNs ok)
    | _ => cases hrun
  · rw [put_self] at hpc hb
    exact acquireStart_limit he hc hpc hb
  · rw [hpc] at h1
    cases h1

theorem reserve_micro (hb : Books x) (he : x.fc.cfg.mode = .enforce) (hc : svcCap x.fc ≠ 0)
    (h : ReserveOk x) (ha : alone x a = true) (hst : Steady x.fc x'.fc) (hm : Micro conn x a x') :
    ReserveOk x' := by
  refine ⟨?_, fun i lim woken hpc hband => reserve_limit he hc ha hm hpc hband⟩
  rw [hst.cfg, hst.cap]
  cases seat_micro hb.pool hb.units hm with
  | keep seats ten =>
    have hsame : ∀ i, (x'.threads i).lower = (x.threads i).lower := fun i => by
      unfold Thread.lower
      rw [seats i]
    simp only [hsame]
    exact h.lower
  | pass i nowNs mem woken act ok threads before ten =>
    rcases ok with ⟨lim, n, hpc, hn⟩ | ⟨_, hno⟩
    · refine h.seated hb.units before (hb.units.holds hpc).1 (fun j hj => alone_others ha act hj)
        threads fun hband => ?_
      obtain ⟨h1, h2⟩ := h.limit i lim woken hpc hband
      exact ⟨lim, (unitTake_some hn).2 h1, h2⟩
    · exact absurd he hno
  | take i nowNs mem canQueue woken slot act pc ok threads before ten =>
    exact h.seated hb.units before (hb.units.holds pc).1 (fun j hj => alone_others ha act hj) threads
      fun hband => shared_limit he hc hband ok
  | give i p threads before after ten =>
    have hsum := tally_update Thread.lower x.threads i ⟨p, .idle⟩
    have hgone : (⟨p, .idle⟩ : Thread).lower = 0 :=
      lower_none (show (⟨p, .idle⟩ : Thread).seat = none from after)
    rw [← threads] at hsum
    have := h.lower
    omega

def Sys.lowerHolders (x : Sys ι) : Finset ι :=
  x.holders.filter fun i => (x.threads i).permit.band ≠ .critical

theorem lowerHolders_le (hu : UnitsOk x) : x.lowerHolders.card ≤ ∑ i, (x.threads i).lower := by
  rw [Sys.lowerHolders, Sys.holders, filter_filter, card_filter]
  apply sum_le_sum
  intro i _
  split
  · rename_i hi
    rw [lower_some (hu.seat_executing hi.1.1), if_neg hi.2]
  · exact Nat.zero_le _

theorem reserveOk_init {m : Mem} {slots : Nat} {cfg : Cfg} :
    ReserveOk (Sys.init m slots cfg : Sys ι) := by
  refine ⟨?_, fun i lim woken hpc => by cases hpc⟩
  have h0 : (∑ i, ((Sys.init m slots cfg : Sys ι).threads i).lower) = 0 :=
    sum_eq_zero fun i _ => lower_none rfl
  rw [h0, Nat.zero_add]
  exact floorUnits_le _ _

/-- **the reserve**: with a fixed ceiling and band settings and each call run to its end, the units
of the other bands never reach into critical's reserve, and the claims fit under the ceiling
together -/
theorem reserve_kept {m : Mem} {slots : Nat} {cfg : Cfg} {as : List (Act ι)}
    (h : exec (step conn) (Sys.init m slots cfg) as = some x)
    (he : (stateInit m slots cfg).cfg.mode = .enforce) (h0 : svcCap (stateInit m slots cfg) ≠ 0)
    (hs : ∀ a ∈ as, a.steady (stateInit m slots cfg).cfg.adaptive = true)
    (ha : along (step conn) alone (Sys.init m slots cfg) as = true) :
    x.lowerHolders.card ≤ svcCap (stateInit m slots cfg) -
        floorUnits (svcCap (stateInit m slots cfg)) (stateInit m slots cfg).cfg.criticalReservePct ∧
      ∀ (c : Cfg) (cap : Nat), criticalClaim c cap ≤ cap ∧
        floorClaims c cap .standard ≤ cap - criticalClaim c cap ∧
        max (floorClaims c cap .critical) (floorReserve c cap) + floorClaims c cap .standard +
          floorClaims c cap .sheddable ≤ cap := by
  refine ⟨?_, fun c cap => ?_⟩
  swap
  · have h1 := criticalClaim_le c cap
    have h2 : floorClaims c cap .standard ≤ cap - criticalClaim c cap := floorFit_le _ _ _
    have h3 : floorClaims c cap .sheddable ≤
        cap - criticalClaim c cap - floorClaims c cap .standard := floorFit_le _ _ _
    refine ⟨h1, h2, ?_⟩
    rw [← criticalClaim_eq]
    omega
  have hinv := inv_of_step
    (P := fun y => Books y ∧ Steady (stateInit m slots cfg) y.fc ∧ ReserveOk y)
    (fun y a y' hy hok hstep => by
      obtain ⟨hb, hst, hr⟩ := hy
      rw [Bool.and_eq_true] at hok
      have hm := step_cases hstep
      have hst' := hst.micro hb.pool hm hok.1
      refine ⟨books_step y a y' hb hstep, hst', ?_⟩
      refine reserve_micro hb (by rw [hst.cfg]; exact he) (by rw [hst.cap]; exact h0) hr hok.2 ?_ hm
      exact ⟨hst'.cfg.trans hst.cfg.symm, hst'.cap.trans hst.cap.symm⟩)
    ⟨books_init m slots cfg, ⟨rfl, rfl⟩, reserveOk_init⟩ (along_and (along_all hs) ha) h
  obtain ⟨hb, hst, hr⟩ := hinv
  have hle := hr.lower
  rw [hst.cfg, hst.cap] at hle
  have := lowerHolders_le hb.units
  have hfl : floorReserve (stateInit m slots cfg).cfg (svcCap (stateInit m slots cfg)) =
    floorUnits (svcCap (stateInit m slots cfg)) (stateInit m slots cfg).cfg.criticalReservePct := rfl
  omega

end

def reserveCfg : Cfg :=
  { Cfg.zero with mode := .enforce, maxOutstanding := 4, criticalReservePct := 50 }

/-- the third request of another band is refused with two units free, and critical takes one -/
theorem reserve_kept_half : ∃ x, exec (step sampleConn) (Sys.init Mem.ok 64 reserveCfg)
        (admits 0 1 0 ++ admits 1 1 2 ++ admits 2 1 0 ++ admits 3 1 1) = some x ∧
      x.fc.inflight = 3 ∧ x.lowerHolders.card = 2 ∧
      x.lowerHolders.card ≤ svcCap (stateInit Mem.ok 64 reserveCfg) -
        floorUnits (svcCap (stateInit Mem.ok 64 reserveCfg))
          (stateInit Mem.ok 64 reserveCfg).cfg.criticalReservePct := by
  refine exec_follows (P := fun x => x.fc.inflight = 3 ∧ x.lowerHolders.card = 2)
    (by decide +kernel) fun x hx ⟨h1, h2⟩ => ⟨h1, h2, ?_⟩
  exact (reserve_kept hx (by decide +kernel) (by decide +kernel) (by decide +kernel)
    (by decide +kernel)).1

end Fc
