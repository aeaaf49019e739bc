import InferenceGateway.Fc.Accounts

/-!
# No tenant runs more than its share

While a share is in force every admission is counted on its tenant's slot and refused at the
bound, and a tenant that runs has one slot: the index finds it again (`NamesOk`) and it keeps its
key while it is held (`SeatOk`).

* `tenant_ceiling`   the executing permits of one tenant, over whole runs.
-/

set_option linter.unusedSectionVars false

open Function Finset Run

namespace Fc

/-! ## a share comes with its table -/

theorem applyShare_table {s : State} (hp : PoolOk s) (mem : Bool)
    (h : shareActive (applyShare mem s) = true) : (applyShare mem s).ten.table = true := by
  unfold applyShare at h ⊢
  by_cases hs : shareActive s = true
  · rw [if_pos hs] at h ⊢
    obtain ⟨_, h2, _⟩ := tenantTableEnsure_spec hp.ten mem s.queue.dead
    dsimp only at h ⊢
    rw [h2]
    by_contra hr
    rw [Bool.not_eq_true] at hr
    rw [hr] at h
    simp [shareActive] at h
  · rw [if_neg hs] at h
    exact absurd h hs

theorem stateApply_table {s : State} (hp : PoolOk s) (m : Mem) (cfg : Cfg)
    (h : shareActive (stateApply m s cfg) = true) : (stateApply m s cfg).ten.table = true := by
  have hp1 : PoolOk { s with cfg := cfgClamp cfg } := { hp with }
  have hreset : ∀ t, (adaptReset t s.cfg).cfg = t.cfg ∧ (adaptReset t s.cfg).ten = t.ten := by
    intro t
    unfold adaptReset
    dsimp only
    split <;> exact ⟨rfl, rfl⟩
  have hcfg : (stateApply m s cfg).cfg = (applyShare m.table { s with cfg := cfgClamp cfg }).cfg :=
    (hreset _).1
  have hten : (stateApply m s cfg).ten = (applyShare m.table { s with cfg := cfgClamp cfg }).ten :=
    (hreset _).2
  rw [hten]
  refine applyShare_table hp1 m.table ?_
  unfold shareActive at h ⊢
  rwa [hcfg] at h

theorem tenantGet_named {t : Tenancy} (h : TenancyOk t) (ht : t.table = true) {mem dead : Bool}
    {key : UInt64} {j : Nat} (hg : (tenantGet mem dead t key).2.1 = some j)
    (hf : (tenantGet mem dead t key).2.2 = false) : j < t.slots := by
  obtain ⟨_, ⟨h2, _⟩ | ⟨slot, t0, h2, _, _, h5, h6⟩⟩ := tenantGet_spec h mem dead key
  · rw [h2] at hg
    cases hg
  · rw [h2] at hg
    cases hg
    have hfull := h6.full
    rw [hf, h5 ht] at hfull
    have hne : j ≠ t.slots := fun hc => by simp [hc] at hfull
    have hle := h6.le
    rw [h5 ht] at hle
    omega

section
variable {ι : Type} [Fintype ι] [DecidableEq ι] {conn : ι → Conn} {x x' : Sys ι} {a : Act ι}

/-! ## the bound over the steps -/

/-- no admission is looked up into the shared slot -/
def noOverflow (x : Sys ι) : Act ι → Bool
  | .run i _ mem =>
    match (x.threads i).pc with
    | .acqShared _ _ => !(sharedGet mem x.fc (x.threads i).permit).2.2
    | _ => true
  | _ => true

/-- a place of an acquire that goes by no share -/
def Pc.unshared : Pc → Bool
  | .acqTake _ _ => true
  | .acqOver _ => true
  | _ => false

/-- a pool with a share: everyone who runs is seated on a named slot, and no slot is over the bound -/
structure ShareOk (x : Sys ι) : Prop where
  table : x.fc.ten.table = true
  pc : ∀ i, (x.threads i).pc.unshared = false
  seat : ∀ i y, (x.threads i).seat = some y → ∃ j, y.slot = some j ∧ j < x.fc.ten.slots
  bound : ∀ j, (x.fc.ten.tenants j).inflight ≤ tenantSvcBound x.fc

theorem unshared_micro (hs : shareActive x.fc = true) (h : ∀ i, (x.threads i).pc.unshared = false)
    (hm : Micro conn x a x') (i : ι) : (x'.threads i).pc.unshared = false := by
  by_contra hc
  rw [Bool.not_eq_false] at hc
  have hacq : (x'.threads i).pc.acquiring = true := by
    revert hc
    cases (x'.threads i).pc <;> first | exact fun _ => rfl | exact fun h => by cases h
  rcases acquiring_micro hm hacq with ⟨_, h1⟩ | ⟨canQueue, woken, tkey, band, _, rfl⟩ | ⟨lim, woken, h1, _⟩
  · rw [h1, h i] at hc
    cases hc
  · rw [put_self] at hc
    -- under a share an acquire goes to its locked section
    unfold acquireStart at hc
    split at hc
    · cases hc
    split at hc <;> cases hc
  · have := h i
    rw [h1] at this
    cases this

theorem share_micro (hb : Books x) (h : ShareOk x) (he : x.fc.cfg.mode = .enforce)
    (hs : shareActive x.fc = true) (h0 : tenantSvcBound x.fc ≠ 0)
    (hbound : tenantSvcBound x'.fc = tenantSvcBound x.fc) (hno : noOverflow x a = true)
    (hm : Micro conn x a x') : ShareOk x' := by
  have hpc := unshared_micro hs h.pc hm
  cases seat_micro hb.pool hb.units hm with
  | keep seats ten =>
    obtain ⟨k1, k2⟩ := ten.stay h.table
    refine ⟨k1, hpc, fun i y hy => ?_, fun j => ?_⟩
    · rw [seats i] at hy
      rw [k2]
      exact h.seat i y hy
    · rw [ten.inflight j, hbound]
      exact h.bound j
  | pass i nowNs mem woken act ok threads before ten =>
    exfalso
    have := h.pc i
    rcases ok with ⟨lim, n, h1, _⟩ | ⟨h1, _⟩
    · rw [h1] at this
      cases this
    · rw [h1] at this
      cases this
  | take i nowNs mem canQueue woken slot act pc ok threads before ten =>
    obtain ⟨t1, e1, _, e3⟩ := acquireShared_ten hb.pool mem (x.threads i).permit canQueue woken
    obtain ⟨_, t2, _, hres⟩ := acquireShared_spec mem x.fc (x.threads i).permit canQueue woken
    rw [ok] at e3 hres
    rw [← ten] at e3
    obtain ⟨rfl, hinc⟩ := e3
    obtain ⟨hat, _⟩ := hres.2.2.2 he
    obtain ⟨g1, _, g3⟩ := edits_get hb.pool.ten mem x.fc.queue.dead (x.threads i).permit.tkey
    set g := sharedGet mem x.fc (x.threads i).permit
    have hfull : g.2.2 = false := by
      rw [act] at hno
      simp only [noOverflow, pc] at hno
      simpa using hno
    obtain ⟨j0, hj0⟩ := Option.isSome_iff_exists.mp (g3 h.table)
    have hslot : g.2.1 = some j0 := hj0
    have hnamed : j0 < x.fc.ten.slots := tenantGet_named hb.pool.ten h.table hj0 hfull
    have hkept := e1.look_kept hb.pool.ten
    obtain ⟨k1, k2⟩ := hkept.stay h.table
    obtain ⟨k3, k4⟩ := hinc.stay k1
    refine ⟨k3, hpc, fun i' y hy => ?_, fun j => ?_⟩
    · rw [k4, k2]
      rw [threads] at hy
      by_cases hi : i' = i
      · rw [hi, update_self] at hy
        cases hy
        exact ⟨j0, hslot, hnamed⟩
      · rw [update_of_ne hi] at hy
        exact h.seat i' y hy
    · rw [hbound]
      by_cases hj : g.2.1 = some j
      · -- the slot was below the bound when it was looked up
        rw [holds_inflight (hinc.self hj)]
        show (t1.tenants j).inflight + 1 ≤ _
        have hlt : (g.1.tenants j).inflight < tenantSvcBound x.fc := by
          unfold atShare at hat
          rw [hj] at hat
          simp only [ne_eq, h0, not_false_eq_true, decide_true, Bool.true_and, Option.any_some,
            decide_eq_false_iff_not, not_le] at hat
          exact hat
        have h1 := hkept.inflight j
        have h2 : (g.1.tenants j).inflight = (x.fc.ten.tenants j).inflight :=
          (g1.look_kept hb.pool.ten).inflight j
        omega
      · rw [holds_inflight (hinc.other hj), hkept.inflight j]
        exact h.bound j
  | give i p threads before after ten =>
    obtain ⟨hd, _⟩ := edits_dec hb.pool.ten (x.threads i).permit.tslot .inflight
    obtain ⟨k1, k2⟩ := hd.stay h.table
    refine ⟨by rw [ten]; exact k1, hpc, fun i' y hy => ?_, fun j => ?_⟩
    · rw [ten, k2]
      rw [threads] at hy
      by_cases hi : i' = i
      · rw [hi, update_self] at hy
        rw [show p.seat = some y from hy] at after
        cases after
      · rw [update_of_ne hi] at hy
        exact h.seat i' y hy
    · rw [hbound, ten]
      have hj := h.bound j
      by_cases hs : (x.threads i).permit.tslot = some j
      · rw [holds_inflight (hd.self hs), (dec_counts .inflight _).1]
        omega
      · rw [holds_inflight (hd.other hs)]
        exact hj

/-! ## over whole runs -/

theorem tenantSvcBound_congr {s s' : State} (h1 : s'.cfg = s.cfg) (h2 : svcCap s' = svcCap s) :
    tenantSvcBound s' = tenantSvcBound s := by
  unfold tenantSvcBound shareActive
  rw [h1, h2]

theorem bound_shareActive {s : State} (h : tenantSvcBound s ≠ 0) : shareActive s = true := by
  by_contra hc
  exact h (if_neg hc)

def Sys.ofTenant (x : Sys ι) (key : UInt64) : Finset ι :=
  univ.filter fun i =>
    (x.threads i).permit.state = .executing ∧ (x.threads i).permit.tkey = key

theorem ShareOk.ofTenant_le (hb : Books x) (h : ShareOk x) (key : UInt64) :
    (x.ofTenant key).card ≤ tenantSvcBound x.fc := by
  rcases (x.ofTenant key).eq_empty_or_nonempty with he | ⟨i0, hi0⟩
  · rw [he]
    exact Nat.zero_le _
  -- each of them is on a slot in use whose key is the tenant's, and there is only one
  have hslot : ∀ i ∈ x.ofTenant key, ∃ j, (x.threads i).runs j = 1 ∧ x.fc.ten.named j ∧
      (x.fc.ten.tenants j).key = key := by
    intro i hi
    obtain ⟨_, he, hk⟩ := mem_filter.mp hi
    have hseat := hb.units.seat_executing he
    obtain ⟨j, hj, hlt⟩ := h.seat i _ hseat
    have hone := hb.run.seated hseat hj
    refine ⟨j, ?_, ⟨hlt, hb.pool.ten.running (by omega)⟩, ?_⟩
    · rw [runs_some hseat, if_pos hj]
    · exact ((hb.seat i _ j hseat hj).key hlt).trans hk
  obtain ⟨j, _, hn, hkey⟩ := hslot i0 hi0
  have hsame : ∀ i ∈ x.ofTenant key, (x.threads i).runs j = 1 := by
    intro i hi
    obtain ⟨j', h1, h2, h3⟩ := hslot i hi
    rw [(hb.pool.ten.table h.table).names.keys j j' hn h2 (hkey.trans h3.symm)]
    exact h1
  calc (x.ofTenant key).card = ∑ i ∈ x.ofTenant key, (x.threads i).runs j := by
        rw [card_eq_sum_ones]
        exact sum_congr rfl fun i hi => (hsame i hi).symm
    _ ≤ ∑ i, (x.threads i).runs j := sum_le_univ_sum_of_nonneg fun _ => Nat.zero_le _
    _ = (x.fc.ten.tenants j).inflight := (hb.run j).symm
    _ ≤ tenantSvcBound x.fc := h.bound j

theorem shareOk_init {m : Mem} {slots : Nat} {cfg : Cfg}
    (h : tenantSvcBound (stateInit m slots cfg) ≠ 0) :
    ShareOk (Sys.init m slots cfg : Sys ι) := by
  refine ⟨stateApply_table (poolOk_zero _) m cfg (bound_shareActive h), fun _ => rfl, fun i y hy => ?_,
    fun j => ?_⟩
  · cases hy
  · show ((stateInit m slots cfg).ten.tenants j).inflight ≤ _
    rw [holds_inflight (init_tenants m slots cfg j)]
    exact Nat.zero_le _

/-- **the per-tenant ceiling**: with a fixed ceiling and share, and no admission on the shared
slot, the permits executing under one tenant's key never exceed the tenant's bound -/
theorem tenant_ceiling {m : Mem} {slots : Nat} {cfg : Cfg} {as : List (Act ι)}
    (h : exec (step conn) (Sys.init m slots cfg) as = some x)
    (he : (stateInit m slots cfg).cfg.mode = .enforce)
    (h0 : tenantSvcBound (stateInit m slots cfg) ≠ 0)
    (hs : ∀ a ∈ as, a.steady (stateInit m slots cfg).cfg.adaptive = true)
    (hno : along (step conn) noOverflow (Sys.init m slots cfg) as = true)
    (key : UInt64) : (x.ofTenant key).card ≤ tenantSvcBound (stateInit m slots cfg) := by
  have hinv := inv_of_step (P := fun y => Books y ∧ Steady (stateInit m slots cfg) y.fc ∧ ShareOk y)
    (fun y a y' hy hok hstep => by
      obtain ⟨hb, hst, hsh⟩ := hy
      rw [Bool.and_eq_true] at hok
      have hm := step_cases hstep
      have hst' := hst.micro hb.pool hm hok.1
      have hbound := tenantSvcBound_congr (hst'.cfg.trans hst.cfg.symm) (hst'.cap.trans hst.cap.symm)
      have hne : tenantSvcBound y.fc ≠ 0 := by
        rw [tenantSvcBound_congr hst.cfg hst.cap]
        exact h0
      refine ⟨books_step y a y' hb hstep, hst', ?_⟩
      exact share_micro hb hsh (by rw [hst.cfg]; exact he) (bound_shareActive hne) hne hbound hok.2 hm)
    ⟨books_init m slots cfg, ⟨rfl, rfl⟩, shareOk_init h0⟩ (along_and (along_all hs) hno) h
  obtain ⟨hb, hst, hsh⟩ := hinv
  rw [← tenantSvcBound_congr hst.cfg hst.cap]
  exact hsh.ofTenant_le hb key

end

def halfCfg : Cfg := { Cfg.zero with mode := .enforce, maxOutstanding := 4, tenantSharePct := 50 }

theorem tenant_ceiling_half : ∃ x, exec (step sampleConn) (Sys.init Mem.ok 64 halfCfg)
        (admits 0 1 0 ++ admits 1 1 0 ++ admits 2 2 0 ++
          [.acquire 3 true false 1 0, .run 3 0 true]) = some x ∧
      (x.ofTenant 1).card = 2 ∧ (x.ofTenant 1).card ≤ tenantSvcBound (stateInit Mem.ok 64 halfCfg) := by
  refine exec_follows (by decide +kernel) fun x hx h2 => ⟨h2, ?_⟩
  exact tenant_ceiling hx (by decide +kernel) (by decide +kernel) (by decide +kernel)
    (by decide +kernel) 1

end Fc
