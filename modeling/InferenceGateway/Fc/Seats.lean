import InferenceGateway.Fc.TenantCount

/-!
# Who runs on a tenant's slot

An executing permit runs on the slot of the tenant it was admitted as, from the locked section
that took the slot's unit to the one that gives it back.  `SeatMove` says what a step can do to
these seats: nothing, one permit sits down, under a share or not, or one gets up.  That a slot's
`inflight` is the number of permits seated on it (`RunOk`), and that they all came under its tenant's
key, follow from it.
-/

set_option linter.unusedSectionVars false

open Function Run

namespace Fc

/-- what a permit runs as: its slot, if it was admitted under a share, its tenant and its band -/
structure Seat where
  slot : Option Nat
  key : UInt64
  band : Band
  deriving DecidableEq

def Permit.seat (p : Permit) : Option Seat :=
  if p.state = .executing then some ⟨p.tslot, p.tkey, p.band⟩ else none

/-- the same, for a permit whose unit is taken and that does not show it yet -/
def Thread.seat (th : Thread) : Option Seat :=
  match th.pc with
  | .acqBand slot _ => some ⟨slot, th.permit.tkey, th.permit.band⟩
  | _ => th.permit.seat

/-- the slots run what they ran, and keep their tenant while they do -/
structure Kept (t t' : Tenancy) : Prop where
  inflight : ∀ j, (t'.tenants j).inflight = (t.tenants j).inflight
  key : ∀ j, (t.tenants j).inflight ≠ 0 → (t'.tenants j).key = (t.tenants j).key
  stay : t.table = true → t'.table = true ∧ t'.slots = t.slots

theorem Kept.refl (t : Tenancy) : Kept t t := ⟨fun _ => rfl, fun _ _ => rfl, fun h => ⟨h, rfl⟩⟩
theorem Kept.of_eq {t t' : Tenancy} (h : t' = t) : Kept t t' := h ▸ Kept.refl t

theorem Kept.trans {t t' t'' : Tenancy} (h : Kept t t') (h' : Kept t' t'') : Kept t t'' := by
  refine ⟨fun j => (h'.inflight j).trans (h.inflight j), fun j hj => ?_, fun ht => ?_⟩
  · exact (h'.key j (by rwa [h.inflight j])).trans (h.key j hj)
  · obtain ⟨h1, h2⟩ := h.stay ht
    obtain ⟨h3, h4⟩ := h'.stay h1
    exact ⟨h3, h4.trans h2⟩

theorem Edits.kept {t t' : Tenancy} {slot : Option Nat} {f : Tenant → Tenant}
    (h : Edits t t' slot f)
    (hf : ∀ j, slot = some j → (f (t.tenants j)).inflight = (t.tenants j).inflight)
    (hk : ∀ j, slot = some j → (t.tenants j).inflight ≠ 0 →
      (f (t.tenants j)).key = (t.tenants j).key) : Kept t t' := by
  refine ⟨h.inflight hf, fun j hj => ?_, h.stay⟩
  by_cases hs : slot = some j
  · rw [holds_key (h.self hs)]
    exact hk j hs hj
  · exact holds_key (h.other hs)

section
variable {t : Tenancy}

section
variable (h : TenancyOk t) (slot : Option Nat)
include h

theorem kept_dec_queued : Kept t (tenantDecAt t slot .queued).1 := by
  refine (edits_dec h slot .queued).1.kept (fun j _ => ?_) fun j _ _ => ?_
  · simpa using (dec_counts .queued (t.tenants j)).1
  · unfold Tenant.dec
    split
    · exact (settled_counts _).2.2
    · rfl

theorem kept_put : Kept t (tenantPutAt t slot) :=
  (edits_put h slot).kept (fun _ _ => (settled_counts _).1) fun _ _ _ => (settled_counts _).2.2

theorem Edits.look_kept {t' : Tenancy} {slot : Option Nat} {key : UInt64}
    (he : Edits t t' slot (Tenant.looked · key)) : Kept t t' := by
  refine he.kept (fun j _ => looked_inflight h key j) fun j _ hj => ?_
  unfold Tenant.looked
  rw [if_pos (h.running hj)]

theorem kept_gone (gone : Option QueueEnt) : Kept t (goneTen t gone).1 := by
  cases gone with
  | none => exact Kept.refl t
  | some e => exact kept_dec_queued h e.tslot

end

end

theorem kept_push {s : State} (hp : PoolOk s) (m : Mem) (p : Permit) (fd : Int) (gen nowNs : Nat)
    (front : Bool) : Kept s.ten (pushLocked m s p fd gen nowNs front).fc.ten := by
  rcases pushLocked_spec hp m p fd gen nowNs front with hr | hr
  · rw [hr]
    exact Kept.refl _
  · obtain ⟨_, _, _, g4, g5⟩ := pushSlot_spec hp m.table p.tkey
    have hlook := g4.look_kept hp.ten
    obtain ⟨o1, o2⟩ := goneTen_ok g4.ok (pushLocked m s p fd gen nowNs front).gone
    have hgone := hlook.trans (kept_gone g4.ok (pushLocked m s p fd gen nowNs front).gone)
    rw [hr.ten]
    split
    · refine hgone.trans ((edits_inc o1 _ .queued fun i hi => ?_).kept (fun _ _ => rfl)
        fun _ _ _ => rfl)
      obtain ⟨k1, k2⟩ := o2 (g5 i hi).table
      exact ⟨k1, k2 ▸ (g5 i hi).le, .inr rfl⟩
    · exact hgone.trans (kept_put o1 _)

variable {ι : Type} [DecidableEq ι]

inductive SeatMove (x : Sys ι) (a : Act ι) (x' : Sys ι) : Prop
  | keep (seats : ∀ j, (x'.threads j).seat = (x.threads j).seat) (ten : Kept x.fc.ten x'.fc.ten)
  | pass (i : ι) (nowNs : Nat) (mem woken : Bool) (act : a = .run i nowNs mem) (ok : x.passes i woken)
      (threads : x'.threads = update x.threads i ⟨(x.threads i).permit, .acqBand none woken⟩)
      (before : (x.threads i).seat = none) (ten : Kept x.fc.ten x'.fc.ten)
  | take (i : ι) (nowNs : Nat) (mem canQueue woken : Bool) (slot : Option Nat)
      (act : a = .run i nowNs mem) (pc : (x.threads i).pc = .acqShared canQueue woken)
      (ok : (x.shares i mem canQueue woken).2 = .ok slot)
      (threads : x'.threads = update x.threads i ⟨(x.threads i).permit, .acqBand slot woken⟩)
      (before : (x.threads i).seat = none)
      (ten : x'.fc.ten = (x.shares i mem canQueue woken).1.ten)
  | give (i : ι) (p : Permit) (threads : x'.threads = update x.threads i ⟨p, .idle⟩)
      (before : (x.threads i).seat = some ⟨(x.threads i).permit.tslot, (x.threads i).permit.tkey,
        (x.threads i).permit.band⟩)
      (after : p.seat = none)
      (ten : x'.fc.ten = (tenantDecAt x.fc.ten (x.threads i).permit.tslot .inflight).1)

variable [Fintype ι] {conn : ι → Conn} {x x' : Sys ι} {a : Act ι}

variable {i : ι} {p : Permit} {pc : Pc} {th : Thread} {y : Seat} {j : Nat}

theorem seat_at (h : th.pc = pc) : th.seat = (⟨th.permit, pc⟩ : Thread).seat := by
  rw [← h]

theorem seat_plain (h : pc.plain = true) (p : Permit) : (⟨p, pc⟩ : Thread).seat = p.seat := by
  cases pc <;> first | rfl | cases h

theorem seat_not (h : p.state ≠ .executing) : p.seat = none := if_neg h
theorem Permit.Bare.seat (h : p.Bare) : p.seat = none := seat_not h.state

theorem Stays.seat {th' : Thread} (h : Stays th th') : th'.seat = th.seat := by
  cases h with
  | same h => rw [h]
  | goes ok plain plain' hold tenant =>
    rw [show th'.seat = _ from seat_plain plain' _, show th.seat = _ from seat_plain plain _]
    unfold Permit.seat
    by_cases he : th.permit.state = .executing
    · rw [if_pos he, if_pos (hold.state.mpr he), hold.band he, (tenant he).1, (tenant he).2]
    · rw [if_neg he, if_neg fun hc => he (hold.state.mp hc)]

theorem UnitMove.seat {s s' : State} {th' : Thread} (h : UnitMove s th s' th') : th'.seat = th.seat := by
  cases h with
  | take whole plain place =>
    rw [show th.seat = _ from seat_plain plain _]
    rcases place with rfl | rfl <;> rfl
  | give whole place plain next ok set =>
    have hseat : th.seat = th.permit.seat := by
      rcases place with ⟨_, hpl⟩ | ⟨ep, _, hpc | hpc⟩
      · exact seat_plain hpl _
      · rw [seat_at hpc]
        rfl
      · rw [seat_at hpc]
        rfl
    rw [hseat, seat_plain plain]
    unfold Permit.seat
    rw [set.whole.state, set.band, set.tslot, set.tkey, whole.state]
  | execute pc | svc pc | band pc =>
    rw [seat_at pc]
    rfl

theorem UnitsOk.seat_executing (h : UnitsOk x) (he : (x.threads i).permit.state = .executing) :
    (x.threads i).seat = some ⟨(x.threads i).permit.tslot, (x.threads i).permit.tkey,
      (x.threads i).permit.band⟩ := by
  have hth := h.thread i
  unfold Thread.seat
  split
  · rename_i slot woken hpc
    unfold ThreadOk at hth
    rw [hpc] at hth
    have := hth.2.1
    rw [he] at this
    cases this
  · exact if_pos he

theorem WaitStep.kept (hp : PoolOk x.fc) (h : WaitStep conn x a x') : Kept x.fc.ten x'.fc.ten := by
  cases h with
  | still pool cap live ten => exact .of_eq ten
  | refuse mem p canQueue woken v no fc wakes =>
    obtain ⟨t1, h1, h2, h3⟩ := acquireShared_ten hp mem p canQueue woken
    rw [no] at h3
    rw [fc, h3]
    exact (h1.look_kept hp.ten).trans (kept_put h1.ok _)
  | leaves s e gone cap same =>
    rw [same.ten, gone.ten]
    exact kept_dec_queued hp.ten _
  | push i nowNs front firstNs ttlMs m act same =>
    rw [same.ten]
    exact kept_push hp _ _ _ _ _ _
  | pick e u taken => exact .of_eq taken.ten
  | hook k ok w found fc => exact .of_eq (congrArg State.ten fc)
  | done k w found fc =>
    rw [fc]
    exact kept_dec_queued hp.ten _
  | failed k m w found fc =>
    rw [fc]
    obtain ⟨_, _, ⟨_, h2, _⟩ | ⟨_, _, h2, _⟩⟩ := wakeFailed_spec hp m w.ent w.undo
    · exact .of_eq h2
    · rw [h2]
      exact kept_dec_queued hp.ten _
  | apply cfg m fc =>
    rw [fc]
    exact (stateApply_spec hp m cfg).2.2.2.2.1.kept (fun _ h => by cases h) fun _ h => by cases h

theorem seat_micro (hp : PoolOk x.fc) (hu : UnitsOk x) (hm : Micro conn x a x') : SeatMove x a x' := by
  cases turn_micro hp hm with
  | unit i th threads wakes queue cfg effMax move =>
    refine .keep (fun j => ?_) (.of_eq queue.ten)
    rw [threads]
    exact update_keeps Thread.seat (move (hu.thread i)).seat j
  | pass i nowNs mem woken act ok threads wakes queue =>
    refine .pass i nowNs mem woken act ok threads ?_ (.of_eq queue.ten)
    rcases ok with ⟨lim, n, hpc, _⟩ | ⟨hpc, _⟩
    all_goals
      rw [seat_at hpc]
      exact (hu.holds hpc).1.seat
  | seat i nowNs mem canQueue woken slot act pc ok threads wakes fc =>
    refine .take i nowNs mem canQueue woken slot act pc ok threads ?_ (congrArg State.ten fc)
    rw [seat_at pc]
    exact (hu.holds pc).1.seat
  | leave i pc threads wakes fc =>
    obtain ⟨h1, h2, _⟩ := hu.leaving pc
    refine .give i _ threads ?_ (seat_not nofun) ?_
    · rw [seat_at pc]
      exact if_pos h1
    · rw [fc]
      unfold releaseTenant
      rw [if_pos h2]
      rfl
  | stay threads places units cfg effMax wait =>
    exact .keep (fun j => (threads j (hu.thread j)).seat) (wait.kept hp)

/-! ## a slot's units are its seats -/

def Thread.runs (th : Thread) (j : Nat) : Nat := if th.seat.any fun y => y.slot = some j then 1 else 0
def RunOk (x : Sys ι) : Prop := ∀ j, (x.fc.ten.tenants j).inflight = ∑ i, (x.threads i).runs j

theorem runs_none (h : th.seat = none) (j : Nat) : th.runs j = 0 := by
  unfold Thread.runs
  rw [h]
  rfl

theorem runs_some (h : th.seat = some y) (j : Nat) :
    th.runs j = if y.slot = some j then 1 else 0 := by
  unfold Thread.runs
  rw [h]
  simp

theorem RunOk.runs_le (h : RunOk x) (i : ι) (j : Nat) :
    (x.threads i).runs j ≤ (x.fc.ten.tenants j).inflight := by
  rw [h j]
  exact tally_le (fun th => th.runs j) x.threads i

theorem RunOk.seated (h : RunOk x) (hs : (x.threads i).seat = some y) (hj : y.slot = some j) :
    1 ≤ (x.fc.ten.tenants j).inflight := by
  have hle := h.runs_le i j
  rw [runs_some hs, if_pos hj] at hle
  exact hle

theorem SeatMove.run (hp : PoolOk x.fc) (h : RunOk x) (hm : SeatMove x a x') : RunOk x' := by
  intro j
  cases hm with
  | keep seats ten =>
    rw [ten.inflight j, h j]
    apply Finset.sum_congr rfl
    intro i _
    unfold Thread.runs
    rw [seats i]
  | pass i nowNs mem woken act ok threads before ten =>
    have ht := tally_update (fun th => th.runs j) x.threads i
      ⟨(x.threads i).permit, .acqBand none woken⟩
    rw [runs_none before, ← threads, ← h j] at ht
    rw [ten.inflight j]
    exact ht.symm
  | take i nowNs mem canQueue woken slot act pc ok threads before ten =>
    obtain ⟨t1, h1, h2, h3⟩ := acquireShared_ten hp mem (x.threads i).permit canQueue woken
    rw [ok, ← ten] at h3
    have hinc := h3.2
    have hlook : (t1.tenants j).inflight = (x.fc.ten.tenants j).inflight :=
      (h1.look_kept hp.ten).inflight j
    have ht := tally_update (fun th => th.runs j) x.threads i
      ⟨(x.threads i).permit, .acqBand slot woken⟩
    rw [runs_none before, runs_some rfl, ← threads, ← h j] at ht
    by_cases hj : slot = some j
    · rw [holds_inflight (hinc.self hj)]
      rw [if_pos hj] at ht
      show (t1.tenants j).inflight + 1 = _
      omega
    · rw [holds_inflight (hinc.other hj)]
      rw [if_neg hj] at ht
      omega
  | give i p threads before after ten =>
    obtain ⟨hd, _⟩ := edits_dec hp.ten (x.threads i).permit.tslot .inflight
    have ht := tally_update (fun th => th.runs j) x.threads i ⟨p, .idle⟩
    have hgone : (⟨p, .idle⟩ : Thread).runs j = 0 :=
      runs_none (show (⟨p, .idle⟩ : Thread).seat = none from after) j
    rw [runs_some before, ← threads, ← h j] at ht
    rw [ten]
    by_cases hj : (x.threads i).permit.tslot = some j
    · have hone := h.seated before hj
      have hused : (x.fc.ten.tenants j).used = true := hp.ten.running (by omega)
      rw [holds_inflight (hd.self hj), (dec_counts .inflight _).1, if_pos ⟨rfl, hused⟩]
      rw [if_pos hj] at ht
      omega
    · rw [holds_inflight (hd.other hj)]
      rw [if_neg hj] at ht
      omega

/-- **a seat's slot belongs to the tenant seated on it**, unless it is the shared one -/
structure Seated (t : Tenancy) (j : Nat) (key : UInt64) : Prop where
  table : t.table = true
  le : j ≤ t.slots
  key : j < t.slots → (t.tenants j).key = key

def SeatOk (x : Sys ι) : Prop :=
  ∀ i y j, (x.threads i).seat = some y → y.slot = some j → Seated x.fc.ten j y.key

omit [DecidableEq ι] [Fintype ι] in
theorem Kept.seated {t t' : Tenancy} {key : UInt64} (h : Seated t j key) (hk : Kept t t')
    (hj : (t.tenants j).inflight ≠ 0) : Seated t' j key := by
  obtain ⟨h1, h2⟩ := hk.stay h.table
  refine ⟨h1, h2 ▸ h.le, fun hlt => ?_⟩
  rw [hk.key j hj]
  exact h.key (h2 ▸ hlt)

theorem SeatMove.seats (hp : PoolOk x.fc) (hr : RunOk x) (h : SeatOk x) (hm : SeatMove x a x') :
    SeatOk x' := by
  intro i' y j hs hj
  -- a seat that was there before keeps its slot's tenant
  have old : ∀ {t : Tenancy}, Kept x.fc.ten t → (x.threads i').seat = some y → Seated t j y.key := by
    intro t hk hs'
    refine hk.seated (h i' y j hs' hj) ?_
    have := hr.seated hs' hj
    omega
  cases hm with
  | keep seats ten =>
    rw [seats i'] at hs
    exact old ten hs
  | pass i nowNs mem woken act ok threads before ten =>
    rw [threads] at hs
    by_cases hi : i' = i
    · rw [hi, update_self] at hs
      cases hs
      cases hj
    · rw [update_of_ne hi] at hs
      exact old ten hs
  | take i nowNs mem canQueue woken slot act pc ok threads before ten =>
    obtain ⟨t1, h1, h2, h3⟩ := acquireShared_ten hp mem (x.threads i).permit canQueue woken
    rw [ok, ← ten] at h3
    have hinc := h3.2
    have hkeys : ∀ j, (x'.fc.ten.tenants j).key = (t1.tenants j).key := by
      intro j
      by_cases hj : slot = some j
      · rw [holds_key (hinc.self hj)]
        rfl
      · exact holds_key (hinc.other hj)
    have hlift : ∀ {j key}, Seated t1 j key → Seated x'.fc.ten j key := by
      intro j key hseat
      obtain ⟨k1, k2⟩ := hinc.stay hseat.table
      exact ⟨k1, k2 ▸ hseat.le, fun hlt => (hkeys j).trans (hseat.key (k2 ▸ hlt))⟩
    rw [threads] at hs
    refine hlift ?_
    by_cases hi : i' = i
    · rw [hi, update_self] at hs
      cases hs
      have hl := h2 j (h3.1 ▸ hj)
      exact ⟨hl.table, hl.le, hl.key⟩
    · rw [update_of_ne hi] at hs
      exact old (h1.look_kept hp.ten) hs
  | give i p threads before after ten =>
    obtain ⟨hd, _⟩ := edits_dec hp.ten (x.threads i).permit.tslot .inflight
    rw [threads] at hs
    by_cases hi : i' = i
    · rw [hi, update_self] at hs
      rw [show p.seat = some y from hs] at after
      cases after
    · rw [update_of_ne hi] at hs
      obtain ⟨h1, h2, h3⟩ := h i' y j hs hj
      obtain ⟨k1, k2⟩ := hd.stay h1
      rw [ten]
      refine ⟨k1, k2 ▸ h2, fun hlt => ?_⟩
      rw [← h3 (k2 ▸ hlt)]
      by_cases hj : (x.threads i).permit.tslot = some j
      · rw [holds_key (hd.self hj)]
        unfold Tenant.dec
        split
        · exact (settled_counts _).2.2
        · rfl
      · exact holds_key (hd.other hj)

end Fc
