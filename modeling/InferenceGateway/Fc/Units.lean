import InferenceGateway.Fc.Turns

/-!
# Units are conserved

`UnitsOk` is that the pool's counters are the sums of what the permits and their places in a call
stand for.  Every step moves a counter and the share of the one permit it works on by the same
amount (`Balanced`).
-/

set_option linter.unusedSectionVars false

open Function Finset Run

namespace Fc

/-! ## the sums -/

variable {ι : Type} [Fintype ι] [DecidableEq ι]

/-- every unit the pool counts is held by a permit -/
structure UnitsOk (x : Sys ι) : Prop where
  thread : ∀ i, ThreadOk (x.threads i)
  inflight : x.fc.inflight = ∑ i, (x.threads i).svc
  band : ∀ b, bandCounted b = true → x.fc.bandInflight b = ∑ i, (x.threads i).inBand b
  ep : ∀ e r, x.fc.epInflight e r = ∑ i, (x.threads i).legs e r

/-- a step of one permit that moves the counters and the permit's share alike -/
structure Balanced (s s' : State) (th th' : Thread) : Prop where
  inflight : s'.inflight + th.svc = s.inflight + th'.svc
  band : ∀ b, bandCounted b = true → s'.bandInflight b + th.inBand b = s.bandInflight b + th'.inBand b
  ep : ∀ e r, s'.epInflight e r + th.legs e r = s.epInflight e r + th'.legs e r

variable {conn : ι → Conn} {x x' : Sys ι} {a : Act ι} {i : ι} {s s' : State} {p q : Permit} {pc : Pc} {r : Role}
  {th th' : Thread}

/-- **a balanced step of one permit keeps the sums** -/
theorem UnitsOk.put (h : UnitsOk x) (ht : x'.threads = update x.threads i th)
    (hth : ThreadOk th) (hb : Balanced x.fc x'.fc (x.threads i) th) : UnitsOk x' := by
  refine ⟨?_, ?_, ?_, ?_⟩
  · rw [ht]
    exact update_all (fun _ => ThreadOk) hth h.thread
  · have hs := tally_update Thread.svc x.threads i th
    have hi := h.inflight
    have hbi := hb.inflight
    rw [ht]
    omega
  · intro b hc
    have hs := tally_update (fun th => th.inBand b) x.threads i th
    have hi := h.band b hc
    have hbi := hb.band b hc
    rw [ht]
    omega
  · intro e r
    have hs := tally_update (fun th => th.legs e r) x.threads i th
    have hi := h.ep e r
    have hbi := hb.ep e r
    rw [ht]
    omega

omit [Fintype ι] [DecidableEq ι] in
theorem Stays.units (h : Stays th th') (hok : ThreadOk th) : ThreadOk th' ∧ th'.svc = th.svc ∧
    (∀ b, th'.inBand b = th.inBand b) ∧ ∀ e r, th'.legs e r = th.legs e r := by
  cases h with
  | same h =>
    rw [h]
    exact ⟨hok, rfl, fun _ => rfl, fun _ _ => rfl⟩
  | goes ok plain plain' hold =>
    refine ⟨ok, ?_, fun b => ?_, fun e r => ?_⟩
    · rw [show th'.svc = _ from svc_plain plain' _, show th.svc = _ from svc_plain plain _]
      simp only [hold.state, hold.svc]
    · unfold Thread.inBand
      by_cases he : th.permit.state = .executing
      · simp only [hold.state, hold.svc, hold.band he]
      · have he' : th'.permit.state ≠ .executing := fun hc => he (hold.state.mp hc)
        simp only [he, he', false_and, if_false]
    · unfold Thread.legs
      rw [landing_plain plain', landing_plain plain]
      simp only [hold.state, hold.ep r]

theorem UnitsOk.stay (h : UnitsOk x) (ht : ∀ j, ThreadOk (x.threads j) → Stays (x.threads j) (x'.threads j))
    (hs : SameUnits x.fc x'.fc) : UnitsOk x' := by
  have hu := fun j => (ht j (h.thread j)).units (h.thread j)
  refine ⟨fun j => (hu j).1, ?_, fun b hb => ?_, fun e r => ?_⟩
  · rw [hs.inflight, h.inflight]
    exact sum_congr rfl fun j _ => (hu j).2.1.symm
  · rw [hs.bandInflight, h.band b hb]
    exact sum_congr rfl fun j _ => ((hu j).2.2.1 b).symm
  · rw [hs.epInflight, h.ep e r]
    exact sum_congr rfl fun j _ => ((hu j).2.2.2 e r).symm

theorem UnitsOk.svc_le (h : UnitsOk x) (i : ι) : (x.threads i).svc ≤ x.fc.inflight := by
  rw [h.inflight]
  exact tally_le Thread.svc x.threads i

theorem UnitsOk.band_le (h : UnitsOk x) (i : ι) {b : Band} (hb : bandCounted b = true) :
    (x.threads i).inBand b ≤ x.fc.bandInflight b := by
  rw [h.band b hb]
  exact tally_le (fun th => th.inBand b) x.threads i

theorem UnitsOk.legs_le (h : UnitsOk x) (i : ι) (e : Nat) (r : Role) :
    (x.threads i).legs e r ≤ x.fc.epInflight e r := by
  rw [h.ep e r]
  exact tally_le (fun th => th.legs e r) x.threads i

/-! ## the steps -/

theorem Balanced.admits (hb : th.permit.Bare) (hpc : th.pc.plain = true) (slot : Option Nat) (woken : Bool)
    (h1 : s'.inflight = s.inflight + 1) (h2 : s'.bandInflight = s.bandInflight)
    (h3 : s'.epInflight = s.epInflight) :
    Balanced s s' th ⟨th.permit, .acqBand slot woken⟩ := by
  obtain ⟨p, old⟩ := th
  refine ⟨?_, ?_, ?_⟩
  · rw [h1, svc_plain hpc, if_neg fun hc => hb.state hc.1]
    rfl
  · intro b _
    rw [h2]
    rfl
  · intro e r
    rw [h3, legs_bare hb, legs_bare hb, landing_plain hpc]
    rfl

/-- **a unit moves with the permit that takes it or gives it back** -/
theorem UnitMove.balanced (hok : ThreadOk th) (h : UnitMove s th s' th') (hsvc : th.svc ≤ s.inflight)
    (hband : ∀ b, bandCounted b = true → th.inBand b ≤ s.bandInflight b)
    (hlegs : ∀ e r, th.legs e r ≤ s.epInflight e r) : ThreadOk th' ∧ Balanced s s' th th' := by
  obtain ⟨p, old⟩ := th
  cases h with
  | @take r ep pc hw plain place limit count calm only =>
    have hne : old ≠ .relBand := by
      rintro rfl
      cases plain
    have hland : ∀ e r', pc.landing e r' = if r = r' ∧ ep = e then 1 else 0 := by
      intro e r'
      rcases place with rfl | rfl <;> rfl
    refine ⟨by rcases place with rfl | rfl <;> exact hw, ?_, ?_, ?_⟩
    · rw [only.inflight, svc_whole hw hne]
      rcases place with rfl | rfl <;> exact congrArg _ (svc_whole hw Pc.noConfusion).symm
    · intro b _
      rw [only.bandInflight]
      rfl
    · intro e r'
      rw [count, setEp_epInflight, legs_whole hw, legs_whole hw, landing_plain plain, hland]
      by_cases hc : e = ep ∧ r' = r
      · obtain ⟨rfl, rfl⟩ := hc
        simp only [and_self, if_true]
        omega
      · have hc' : ¬ (r = r' ∧ ep = e) := fun h => hc ⟨h.2.symm, h.1.symm⟩
        simp only [if_neg hc, if_neg hc']
  | @give r dst q pc hw place plain next ok set count calm only =>
    dsimp only at hw set count
    have hland : ∀ e r', old.landing e r' = if r = r' ∧ dst = some e then 1 else 0 := by
      intro e r'
      rcases place with ⟨rfl, hp⟩ | ⟨ep, rfl, rfl | rfl⟩
      · rw [landing_plain hp, if_neg (by simp)]
      all_goals simp only [Pc.landing, Option.some.injEq]
    have hne : old ≠ .relBand := by
      rintro rfl
      rcases place with ⟨_, hp⟩ | ⟨ep, _, hp | hp⟩ <;> cases hp
    refine ⟨ok, ?_, ?_, ?_⟩
    · rw [only.inflight, svc_whole hw hne, svc_plain plain, if_pos ⟨set.whole.state, set.whole.svc⟩]
    · intro b _
      unfold Thread.inBand
      rw [only.bandInflight]
      simp only [hw.state, hw.svc, set.whole.state, set.whole.svc, set.band]
    · intro e r'
      have hle := hlegs e r
      rw [legs_whole hw] at hle
      rw [count, giveLeg_epInflight, legs_whole hw, legs_whole set.whole, landing_plain plain, hland,
        set.ep]
      by_cases hr : r' = r
      · subst hr
        rw [update_self]
        simp only [and_true, true_and]
        omega
      · rw [update_of_ne hr]
        simp only [hr, Ne.symm hr, false_and, and_false, if_false]
        omega
  | @execute slot woken pc fc =>
    obtain rfl : old = .acqBand slot woken := pc
    have hth : p.Bare ∧ _ := hok
    have hw : (p.execute slot woken).Whole := ⟨rfl, hth.2.2, rfl⟩
    rw [fc]
    refine ⟨.inl hw, ?_, ?_, ?_⟩
    · rw [svc_whole hw Pc.noConfusion]
      rfl
    · intro y hy
      rw [inBand_bare hth.1, takeBand_band _ _ hy]
      unfold Thread.inBand
      simp only [hw.state, hw.svc, true_and]
      rfl
    · intro e r
      rw [legs_bare hth.1, legs_whole hw]
      show s.epInflight e r + 0 = s.epInflight e r + ((if p.ep r = some e then 1 else 0) + 0)
      rw [hth.1.ep r]
      rfl
  | svc pc fc =>
    obtain rfl : old = .relRoles [] := pc
    obtain ⟨hw, hn⟩ : p.Whole ∧ ∀ y, y ∉ [] → p.ep y = none := hok
    rw [fc]
    refine ⟨⟨hw, fun y => hn y List.not_mem_nil⟩, ?_, fun _ _ => rfl, ?_⟩
    · rw [svc_whole hw Pc.noConfusion] at hsvc ⊢
      show s.inflight - 1 + 1 = s.inflight + 0
      omega
    · intro e r
      rw [legs_whole hw, legs_whole hw]
      rfl
  | band pc fc =>
    obtain rfl : old = .relBand := pc
    obtain ⟨hw, hn⟩ : p.Whole ∧ ∀ y, p.ep y = none := hok
    rw [fc]
    refine ⟨⟨hw.state, hw.fc, rfl, hn⟩, ?_, ?_, fun _ _ => rfl⟩
    · show s.inflight + 0 = s.inflight + if _ ∧ false = true then 1 else 0
      rw [if_neg fun hc => Bool.false_ne_true hc.2]
    · intro y hy
      have hle := hband y hy
      rw [giveBand_band _ _ hy]
      unfold Thread.inBand at hle ⊢
      simp only [hw.state, hw.svc, true_and, Bool.false_eq_true, false_and, and_false, if_false] at hle ⊢
      omega

theorem UnitsOk.holds (h : UnitsOk x) (hpc : (x.threads i).pc = pc) :
    ThreadOk ⟨(x.threads i).permit, pc⟩ := (h.thread i).at hpc

theorem UnitsOk.leaving (h : UnitsOk x) (hpc : (x.threads i).pc = .relTenant) :
    (x.threads i).permit.state = .executing ∧ (x.threads i).permit.fc = true ∧
      (x.threads i).permit.svcHeld = false ∧ ∀ y, (x.threads i).permit.ep y = none :=
  h.holds hpc

theorem units_micro (hp : PoolOk x.fc) (h : UnitsOk x) (hm : Micro conn x a x') : UnitsOk x' := by
  cases turn_micro hp hm with
  | unit i th threads wakes queue cfg effMax move =>
    obtain ⟨h1, h2⟩ := (move (h.thread i)).balanced (h.thread i) (h.svc_le i) (fun b => h.band_le i)
      (h.legs_le i)
    exact h.put threads h1 h2
  | pass i nowNs mem woken act ok threads wakes queue cfg effMax inflight bandInflight epInflight =>
    obtain ⟨hpl, hok⟩ : (x.threads i).pc.plain = true ∧ (x.threads i).permit.Bare ∧
        (x.threads i).permit.state = .none ∧ (x.threads i).permit.fc = true := by
      rcases ok with ⟨lim, n, hpc, _⟩ | ⟨hpc, _⟩
      all_goals
        refine ⟨?_, h.holds hpc⟩
        rw [hpc]
        rfl
    exact h.put threads hok (.admits hok.1 hpl none woken inflight bandInflight epInflight)
  | seat i nowNs mem canQueue woken slot act pc ok threads wakes fc =>
    obtain ⟨hf, t1, _, hres⟩ := acquireShared_spec mem x.fc (x.threads i).permit canQueue woken
    rw [ok] at hres
    rw [← fc] at hf hres
    have hok : (x.threads i).permit.Bare ∧ _ := h.holds pc
    have hpl : (x.threads i).pc.plain = true := by
      rw [pc]
      rfl
    exact h.put threads hok (.admits hok.1 hpl slot woken hres.2.1 hf.bandInflight hf.epInflight)
  | leave i pc threads wakes fc =>
    obtain ⟨_, _, h3, h4⟩ := h.leaving pc
    have hq : (releaseTenant x.fc (x.threads i).permit).2.Bare := ⟨nofun, h3, h4, rfl⟩
    have hs := (releaseTenant_spec hp (x.threads i).permit).2.1.units
    rw [← fc] at hs
    have hpl : (x.threads i).pc.plain = true := pc ▸ rfl
    refine h.put threads (.inr hq) ⟨?_, ?_, ?_⟩
    · rw [hs.inflight, svc_bare hq (fun _ _ => Pc.noConfusion),
        show (x.threads i).svc = _ from svc_plain hpl _, if_neg (by simp [h3])]
    · intro y _
      rw [hs.bandInflight, inBand_bare hq]
      unfold Thread.inBand
      rw [if_neg (by simp [h3])]
    · intro e r
      rw [hs.epInflight]
      unfold Thread.legs
      rw [landing_plain hpl, if_neg (by simp [h4 r])]
      rfl
  | stay threads places units => exact h.stay threads units

theorem unitsOk_init (m : Mem) (slots : Nat) (cfg : Cfg) :
    UnitsOk (Sys.init m slots cfg : Sys ι) := by
  obtain ⟨_, _, _, _, n, hs⟩ := stateInit_spec m slots cfg
  refine ⟨fun _ => .inr Permit.Bare.reset, ?_, ?_, ?_⟩
  · exact hs.inflight.trans (sum_eq_zero fun _ _ => rfl).symm
  · intro b _
    exact (congrFun hs.bandInflight b).trans (sum_eq_zero fun _ _ => rfl).symm
  · intro e r
    exact (congrFun (congrFun hs.epInflight e) r).trans (sum_eq_zero fun _ _ => rfl).symm

end Fc
