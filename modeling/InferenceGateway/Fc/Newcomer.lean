import InferenceGateway.Fc.Share
import InferenceGateway.Fc.WakeGate

/-!
# A newcomer and the waiters ahead of it

Before a newcomer takes a unit the gate asks whether a waiter that could run is ahead of it.  It
answers from counts where it can: from the mirrors without a share, from the number of tenants that
wait and could run under one, and by a walk of the ring only when these do not tell.  `scanAhead` is
the question itself, put to every live entry.

* `waitersAhead_scan`, `asked_sound`, `asked_complete`   the counts against the walk;
* `newcomer_waits`     what an admission says about the waiters ahead;
* `newcomer_overtakes` a newcomer that passes a waiter that could run.
-/

set_option linter.unusedSectionVars false

open List Run

namespace Fc

/-! ## the question -/

/-- the entry is served before a newcomer of `band`: its own band's below the band's claim, otherwise
everyone's under weighted wake and its own rank's or a better one's under strict -/
def aheadOf (s : State) (band : Band) (e : QueueEnt) : Bool :=
  if bandBelowClaim s band then decide (e.band = band)
  else !wakeStrict s || decide (bandRank e.band ≤ bandRank band)

/-- a live entry that could run is ahead -/
def scanAhead (s : State) (band : Band) : Bool :=
  runnableWaiter s (tenantSvcBound s) (aheadOf s band)

/-- a live entry that was parked without a tenant's slot is ahead -/
def untrackedAhead (s : State) (band : Band) : Bool :=
  s.queue.span.any fun i => (s.queue.ring i).live && aheadOf s band (s.queue.ring i) &&
    (s.queue.ring i).tslot.isNone

def asksAhead (mem : Bool) (s : State) (p : Permit) : Bool :=
  if shareActive s then (sharedAsked mem s p false).2 else waitersAhead s p.band

variable {s : State} {band : Band} {t t' : Tenancy}

theorem scanAhead_iff : scanAhead s band = true ↔ ∃ e ∈ s.queue.live, aheadOf s band e = true ∧
      tenantCanRun s.ten e.tslot (tenantSvcBound s) = true := runnableWaiter_iff

theorem untrackedAhead_iff : untrackedAhead s band = true ↔
    ∃ e ∈ s.queue.live, aheadOf s band e = true ∧ e.tslot = none := by
  unfold untrackedAhead
  rw [any_live_iff (g := fun e => e.tslot.isNone)]
  simp only [Option.isNone_iff_eq_none]

theorem bandRank_le_two (b : Band) : bandRank b ≤ 2 := by
  cases b <;> decide

theorem ahead_of_all (hb : bandBelowClaim s band = false)
    (h : (!wakeStrict s || bandRank band = 2) = true) (e : QueueEnt) : aheadOf s band e = true := by
  unfold aheadOf
  rw [hb, if_neg Bool.false_ne_true]
  rcases Bool.or_eq_true_iff.mp h with hw | hr
  · rw [hw]
    rfl
  · rw [of_decide_eq_true hr, decide_eq_true (bandRank_le_two e.band), Bool.or_true]

theorem aheadOf_strict (hb : bandBelowClaim s band = false)
    (h : (!wakeStrict s || bandRank band = 2) = false) (e : QueueEnt) :
    aheadOf s band e = decide (bandRank e.band ≤ bandRank band) := by
  unfold aheadOf
  rw [hb, if_neg Bool.false_ne_true, (Bool.or_eq_false_iff.mp h).1, Bool.false_or]

theorem any_rank_iff {f : Band → Bool} : bandsByRank.any f = true ↔ ∃ b, f b = true := by
  rw [any_eq_true]
  exact ⟨fun ⟨b, _, h⟩ => ⟨b, h⟩, fun ⟨b, h⟩ => ⟨b, mem_bandsByRank b, h⟩⟩

/-! ## the mirrors answer it without a share -/

theorem waitersAhead_scan (hp : PoolOk s) (hs : shareActive s = false) (band : Band) :
    waitersAhead s band = scanAhead s band := by
  have hscan : scanAhead s band = true ↔ ∃ e ∈ s.queue.live, aheadOf s band e = true := by
    rw [scanAhead_iff]
    simp only [canRun_unshared hs, and_true]
  rw [Bool.eq_iff_iff, hscan]
  unfold waitersAhead
  have hcount : s.queued = s.queue.live.length := by rw [hp.queued, hp.ring.count_eq]
  split
  · rename_i h0
    have hnil : s.queue.live = [] := eq_nil_of_length_eq_zero (hcount.symm.trans h0)
    rw [hnil]
    simp
  by_cases hclaim : bandBelowClaim s band = true
  · rw [if_pos hclaim, decide_eq_true_iff, hp.bandQueued_pos]
    unfold aheadOf
    simp only [hclaim, if_true, decide_eq_true_eq]
  rw [if_neg hclaim]
  rw [Bool.not_eq_true] at hclaim
  cases hall : (!wakeStrict s || bandRank band = 2) with
  | true =>
    obtain ⟨e, he⟩ := exists_mem_of_length_pos (show 0 < s.queue.live.length by omega)
    exact ⟨fun _ => ⟨e, he, ahead_of_all hclaim hall e⟩, fun _ => rfl⟩
  | false =>
    rw [if_neg Bool.false_ne_true, any_rank_iff]
    simp only [Bool.and_eq_true, decide_eq_true_eq, aheadOf_strict hclaim hall, hp.bandQueued_pos]
    constructor
    · rintro ⟨b, hr, e, he, rfl⟩
      exact ⟨e, he, hr⟩
    · rintro ⟨e, he, hr⟩
      exact ⟨e.band, hr, e, he, rfl⟩

/-! ## the tenant count answers it under a share -/

def TenantWaits (t : Tenancy) (bound : Nat) : Prop := ∃ i, (t.tenants i).runnable bound = true

theorem runnable_eq {x y : Tenant} (h : x.holds = y.holds) (bound : Nat) :
    x.runnable bound = y.runnable bound := by
  unfold Tenant.runnable
  rw [holds_used h, holds_queued h, holds_inflight h]

theorem waiterCanRun_iff (h : TenancyOk t) (bound : Nat) :
    (tenantWaiterCanRun t bound).2 = true ↔ TenantWaits t bound := by
  rw [(tenantWaiterCanRun_spec h bound).2.2.2.2]
  constructor
  · rintro ⟨_, i, _, hi⟩
    exact ⟨i, hi⟩
  · rintro ⟨i, hi⟩
    have hu : (t.tenants i).used = true := by
      unfold Tenant.runnable at hi
      simp only [Bool.and_eq_true] at hi
      exact hi.1.1
    exact ⟨(h.used_inside hu).1, i, (h.used_inside hu).2, hi⟩

theorem Edits.looked_runnable {slot : Option Nat} {key : UInt64}
    (h : Edits t t' slot (Tenant.looked · key)) (ht : Tight t) (bound : Nat) :
    TenantWaits t' bound ↔ TenantWaits t bound := by
  have hone : ∀ j, (t'.tenants j).runnable bound = (t.tenants j).runnable bound := by
    intro j
    by_cases hj : slot = some j
    · rw [runnable_eq (h.self hj)]
      by_cases hu : (t.tenants j).used = true
      · unfold Tenant.looked
        rw [if_pos hu]
      · -- a free slot has no waiter, before and after
        have hq : (t.tenants j).queued = 0 := by
          by_contra hc
          exact hu ((ht.at j).mpr (.inr hc))
        have hq' := (looked_queued ht key j).trans hq
        simp [Tenant.runnable, hq, hq']
    · exact runnable_eq (h.other hj) bound
  unfold TenantWaits
  simp only [hone]

theorem canRun_kept (h : TenancyOk t) (hk : Kept t t') (slot : Option Nat) (bound : Nat) :
    tenantCanRun t' slot bound = tenantCanRun t slot bound := by
  rw [Bool.eq_iff_iff]
  refine ⟨hk.canRun, fun hc => ?_⟩
  unfold tenantCanRun at hc ⊢
  cases slot with
  | none => rfl
  | some j =>
    dsimp only at hc ⊢
    rw [hk.inflight j]
    cases ht : t.table with
    | true =>
      rw [(hk.stay ht).1]
      rwa [ht] at hc
    | false =>
      rw [h.none ht j]
      show (decide (bound = 0) || !t'.table || decide (0 < bound)) = true
      by_cases h0 : bound = 0
      · simp [h0]
      · simp [Nat.pos_of_ne_zero h0]

theorem PoolOk.bandLive_ne (hp : PoolOk s) {b : Band} :
    s.queue.bandLive b ≠ 0 ↔ ∃ e ∈ s.queue.live, e.band = b := by
  have heq : s.queue.bandLive b = bandQueued s b := by
    unfold Queue.bandLive bandQueued
    rw [hp.queued, hp.band .critical rfl, hp.band .sheddable rfl]
  rw [← hp.bandQueued_pos]
  omega

section
variable {s : State} {band : Band} {bound : Nat}

theorem runnableWaiter_recount (hp : PoolOk s) (test : QueueEnt → Bool) :
    runnableWaiter { s with ten := (tenantWaiterCanRun s.ten bound).1 } bound test =
      runnableWaiter s bound test := by
  obtain ⟨_, c2, c3, c4, _⟩ := tenantWaiterCanRun_spec hp.ten bound
  have hk : Kept s.ten (tenantWaiterCanRun s.ten bound).1 :=
    ⟨fun j => holds_inflight (c4 j), fun j _ => holds_key (c4 j), fun ht => ⟨c2.trans ht, c3⟩⟩
  unfold runnableWaiter
  simp only [canRun_kept hp.ten hk]

theorem bandWaiterCanRun_iff (hp : PoolOk s) :
    (bandWaiterCanRun s band bound).2 = true ↔ TenantWaits s.ten bound ∧
      (if bandBelowClaim s band then runnableWaiter s bound (aheadOf s band) = true
      else if (!wakeStrict s || bandRank band = 2) = true then True
      else (∃ e ∈ s.queue.live, aheadOf s band e = true) ∧
        ((∀ e ∈ s.queue.live, aheadOf s band e = true) ∨
          runnableWaiter s bound (aheadOf s band) = true)) := by
  have hbelow : bandBelowClaim { s with ten := (tenantWaiterCanRun s.ten bound).1 } band =
      bandBelowClaim s band := rfl
  have hstrict : wakeStrict { s with ten := (tenantWaiterCanRun s.ten bound).1 } = wakeStrict s := rfl
  unfold bandWaiterCanRun
  dsimp only
  rw [hbelow, hstrict, runnableWaiter_recount hp, runnableWaiter_recount hp]
  by_cases hr : (tenantWaiterCanRun s.ten bound).2 = true
  · have hw := (waiterCanRun_iff hp.ten bound).mp hr
    rw [hr]
    by_cases hc : bandBelowClaim s band = true
    · have hfun : (fun e => decide (e.band = band)) = aheadOf s band := by
        funext e
        unfold aheadOf
        rw [if_pos hc]
      rw [if_pos hc, if_pos hc, hfun]
      exact ⟨fun h => ⟨hw, h⟩, fun h => h.2⟩
    · rw [if_neg hc, if_neg hc]
      rw [Bool.not_eq_true] at hc
      cases hall : (!wakeStrict s || bandRank band = 2) with
      | true =>
        exact ⟨fun _ => ⟨hw, trivial⟩, fun _ => rfl⟩
      | false =>
        have hah := aheadOf_strict hc hall
        have hfun : (fun e => decide (bandRank e.band ≤ bandRank band)) = aheadOf s band := by
          funext e
          exact (hah e).symm
        have hahead : (bandsByRank.any fun b => decide (s.queue.bandLive b ≠ 0) &&
            decide (bandRank b ≤ bandRank band)) = true ↔
            ∃ e ∈ s.queue.live, aheadOf s band e = true := by
          rw [any_rank_iff]
          simp only [Bool.and_eq_true, decide_eq_true_eq, hah, hp.bandLive_ne]
          exact ⟨fun ⟨b, ⟨e, he, hb⟩, hr⟩ => ⟨e, he, hb ▸ hr⟩, fun ⟨e, he, hr⟩ => ⟨e.band, ⟨e, he, rfl⟩, hr⟩⟩
        have hnone : (bandsByRank.any fun b => decide (s.queue.bandLive b ≠ 0) &&
            decide (bandRank b > bandRank band)) = false ↔
            ∀ e ∈ s.queue.live, aheadOf s band e = true := by
          rw [← Bool.not_eq_true, any_rank_iff]
          simp only [Bool.and_eq_true, decide_eq_true_eq, hah, hp.bandLive_ne, not_exists, not_and]
          constructor
          · intro h e he
            have := h e.band ⟨e, he, rfl⟩
            omega
          · rintro h b ⟨e, he, rfl⟩
            have := h e he
            omega
        rw [hfun]
        revert hahead hnone
        generalize (bandsByRank.any fun b => decide (s.queue.bandLive b ≠ 0) &&
          decide (bandRank b ≤ bandRank band)) = ahead
        generalize (bandsByRank.any fun b => decide (s.queue.bandLive b ≠ 0) &&
          decide (bandRank b > bandRank band)) = below
        intro hahead hnone
        cases ahead with
        | false =>
          have hno : ¬ ∃ e ∈ s.queue.live, aheadOf s band e = true := fun h => by
            cases hahead.mpr h
          exact ⟨fun h => (by cases h), fun h => absurd h.2.1 hno⟩
        | true =>
          have hex := hahead.mp rfl
          cases below with
          | false => exact ⟨fun _ => ⟨hw, hex, .inl (hnone.mp rfl)⟩, fun _ => rfl⟩
          | true =>
            have hnot : ¬ ∀ e ∈ s.queue.live, aheadOf s band e = true := fun h => by
              cases hnone.mpr h
            exact ⟨fun h => ⟨hw, hex, .inr h⟩, fun h => h.2.2.resolve_left hnot⟩
  · rw [Bool.not_eq_true] at hr
    have hw : ¬ TenantWaits s.ten bound := fun h => by
      rw [(waiterCanRun_iff hp.ten bound).mpr h] at hr
      cases hr
    rw [hr]
    exact ⟨fun h => (by cases h), fun h => absurd h.1 hw⟩

theorem asked_sound (hp : PoolOk s)
    (ht : ∀ e ∈ s.queue.live, tenantCanRun s.ten e.tslot bound = true → e.tslot ≠ none →
      TenantWaits s.ten bound)
    (h : (bandWaiterCanRun s band bound).2 = false) {e : QueueEnt} (he : e ∈ s.queue.live)
    (ha : aheadOf s band e = true) (hr : tenantCanRun s.ten e.tslot bound = true) : e.tslot = none := by
  by_contra hs
  have hscan : runnableWaiter s bound (aheadOf s band) = true := runnableWaiter_iff.mpr ⟨e, he, ha, hr⟩
  have hyes : (bandWaiterCanRun s band bound).2 = true := by
    refine (bandWaiterCanRun_iff hp).mpr ⟨ht e he hr hs, ?_⟩
    split
    · exact hscan
    split
    · trivial
    · exact ⟨⟨e, he, ha⟩, .inr hscan⟩
  rw [h] at hyes
  cases hyes

theorem asked_complete (hp : PoolOk s)
    (ht : TenantWaits s.ten bound → ∃ e ∈ s.queue.live, tenantCanRun s.ten e.tslot bound = true)
    (h : (bandWaiterCanRun s band bound).2 = true) :
    runnableWaiter s bound (aheadOf s band) = true := by
  obtain ⟨hw, hcase⟩ := (bandWaiterCanRun_iff hp).mp h
  obtain ⟨e, he, hr⟩ := ht hw
  by_cases hc : bandBelowClaim s band = true
  · rwa [if_pos hc] at hcase
  · rw [if_neg hc] at hcase
    rw [Bool.not_eq_true] at hc
    cases hall : (!wakeStrict s || bandRank band = 2) with
    | true => exact runnableWaiter_iff.mpr ⟨e, he, ahead_of_all hc hall e, hr⟩
    | false =>
      rw [hall] at hcase
      rcases hcase.2 with ha | hscan
      · exact runnableWaiter_iff.mpr ⟨e, he, ha e he, hr⟩
      · exact hscan

end

/-! ## a refusal is no admission -/

theorem fullVerdict_refuses (s : State) (b : Band) (canQueue : Bool) :
    fullVerdict s b canQueue ≠ .admitted := by
  unfold fullVerdict bandVerdict
  by_cases hq : (canQueue && queueEnabled s) = true
  · rw [if_pos hq]
    split <;> exact nofun
  · rw [if_neg hq]
    split <;> exact nofun

theorem acquireShared_refuses {mem : Bool} {p : Permit} {canQueue woken : Bool} {v : Verdict}
    (h : (acquireShared mem s p canQueue woken).2 = .error v) : v ≠ .admitted := by
  rw [acquireShared_eq] at h
  dsimp only at h
  split at h
  · split at h
    · have hv := Except.error.inj h
      rw [← hv]
      split <;> exact nofun
    · cases h
  · split at h
    · cases h
    · split at h
      · rw [← Except.error.inj h]
        exact fullVerdict_refuses _ _ _
      · cases h

/-! ## in the states a pool can reach -/

section
variable {ι : Type} [Fintype ι] [DecidableEq ι] {conn : ι → Conn} {x : Sys ι}

theorem Sound.tracked (h : Sound x) {bound : Nat} {e : QueueEnt} (he : e ∈ x.fc.queue.live)
    (hr : tenantCanRun x.fc.ten e.tslot bound = true) (hs : e.tslot ≠ none) :
    TenantWaits x.fc.ten bound := by
  obtain ⟨j, hj⟩ := Option.ne_none_iff_exists'.mp hs
  have hq : 0 < (x.fc.ten.tenants j).queued := by
    rw [h.wait.queued j]
    unfold Sys.waiting
    have : 0 < x.fc.queue.live.countP (QueueEnt.onSlot j) :=
      countP_pos_iff.mpr ⟨e, he, decide_eq_true hj⟩
    omega
  have hu : (x.fc.ten.tenants j).used = true := (h.wait.tight.at j).mpr (.inr (by omega))
  refine ⟨j, ?_⟩
  unfold tenantCanRun at hr
  rw [hj, (h.pool.ten.used_inside hu).1] at hr
  simp only [Bool.not_true, Bool.or_false] at hr
  unfold Tenant.runnable
  rw [hu, decide_eq_true hq, hr]
  rfl

theorem Sound.waits_live (h : Sound x) (hw : x.wakes = []) {bound : Nat}
    (ht : TenantWaits x.fc.ten bound) :
    ∃ e ∈ x.fc.queue.live, tenantCanRun x.fc.ten e.tslot bound = true := by
  obtain ⟨j, hj⟩ := ht
  unfold Tenant.runnable at hj
  simp only [Bool.and_eq_true, decide_eq_true_eq] at hj
  obtain ⟨⟨_, hq⟩, hb⟩ := hj
  have hcount := h.wait.queued j
  unfold Sys.waiting at hcount
  rw [hw] at hcount
  obtain ⟨e, he, hon⟩ := countP_pos_iff.mp
    (show 0 < x.fc.queue.live.countP (QueueEnt.onSlot j) by rw [countP_nil] at hcount; omega)
  refine ⟨e, he, ?_⟩
  rw [show e.tslot = some j from of_decide_eq_true hon]
  show (decide (bound = 0) || !x.fc.ten.table || decide ((x.fc.ten.tenants j).inflight < bound)) = true
  rcases Bool.or_eq_true_iff.mp hb with hb | hb
  · rw [hb]
    rfl
  · rw [hb, Bool.or_true]

theorem asked_reached (h : Sound x) (he : x.fc.cfg.mode = .enforce)
    (hq : queueEnabled x.fc = true) (mem : Bool) (p : Permit) :
    ((sharedAsked mem x.fc p false).2 = false → ∀ e ∈ x.fc.queue.live,
      aheadOf x.fc p.band e = true →
      tenantCanRun x.fc.ten e.tslot (tenantSvcBound x.fc) = true → e.tslot = none) ∧
    (x.wakes = [] → (sharedAsked mem x.fc p false).2 = true → scanAhead x.fc p.band = true) := by
  obtain ⟨g1, _, _⟩ := edits_get h.pool.ten mem x.fc.queue.dead p.tkey
  have hpool : PoolOk (sharedLooked mem x.fc p false) := h.pool.retenant rfl rfl rfl g1.ok
  have hk : Kept x.fc.ten (sharedLooked mem x.fc p false).ten := g1.look_kept h.pool.ten
  have hrun := canRun_kept h.pool.ten hk
  have hwaits : ∀ bound, TenantWaits (sharedLooked mem x.fc p false).ten bound ↔
      TenantWaits x.fc.ten bound := g1.looked_runnable h.wait.tight
  have hasked : (sharedAsked mem x.fc p false).2 =
      (bandWaiterCanRun (sharedLooked mem x.fc p false) p.band (tenantSvcBound x.fc)).2 := by
    unfold sharedAsked
    rw [if_pos (by simp only [he, decide_true, Bool.true_and, Bool.not_false, Bool.and_true]; exact hq)]
  rw [hasked]
  constructor
  · intro hno e hl ha hr
    refine asked_sound hpool (fun y hy hc hs => ?_) hno hl ha (by rw [hrun]; exact hr)
    rw [hrun] at hc
    exact (hwaits _).mpr (h.tracked hy hc hs)
  · intro hw hyes
    obtain ⟨e, hl, ha, hr⟩ := runnableWaiter_iff.mp (asked_complete hpool (fun ht => by
      obtain ⟨y, hy, hc⟩ := h.waits_live hw ((hwaits _).mp ht)
      exact ⟨y, hy, by rw [hrun]; exact hc⟩) hyes)
    rw [hrun] at hr
    exact scanAhead_iff.mpr ⟨e, hl, ha, hr⟩

/-- **a newcomer and the waiters ahead of it**: an admission says that no waiter ahead could run
exactly if no share is in force or none ahead was parked without a slot, in every state of an
enforcing pool reached without a push that evicts the last hold on its own slot -/
theorem newcomer_waits {m : Mem} {slots : Nat} {cfg : Cfg} {as : List (Act ι)}
    (h : exec (step conn) (Sys.init m slots cfg) as = some x)
    (hok : along (step conn) (noSelfEvict conn) (Sys.init m slots cfg) as = true)
    (he : x.fc.cfg.mode = .enforce) (hq : queueEnabled x.fc = true) (mem canQueue : Bool) (p : Permit)
    (tkey : UInt64) (band : Band) :
    ((serviceAcquire mem x.fc p canQueue false tkey band).2.2 = .admitted →
      (scanAhead x.fc band = false ↔ shareActive x.fc = false ∨ untrackedAhead x.fc band = false)) ∧
    (x.wakes = [] → shareActive x.fc = false ∨ untrackedAhead x.fc band = false →
      asksAhead mem x.fc (acquireBind p false tkey band) = scanAhead x.fc band) := by
  have hs := sound_run h hok
  obtain ⟨hsound, hcomplete⟩ := asked_reached hs he hq mem (acquireBind p false tkey band)
  -- a waiter the gate let pass is one without a slot
  have hno : (sharedAsked mem x.fc (acquireBind p false tkey band) false).2 = false →
      untrackedAhead x.fc band = false → scanAhead x.fc band = false := by
    intro hasked hun
    by_contra hc
    rw [Bool.not_eq_false] at hc
    obtain ⟨e, hl, ha, hr⟩ := scanAhead_iff.mp hc
    have hslot := hsound hasked e hl ha hr
    rw [untrackedAhead_iff.mpr ⟨e, hl, ha, hslot⟩] at hun
    cases hun
  constructor
  · intro hadm
    by_cases hd : x.fc.draining = true
    · -- a draining pool admits nobody
      exfalso
      unfold serviceAcquire at hadm
      simp [fcActive, he, hd] at hadm
    rw [Bool.not_eq_true] at hd
    rw [serviceAcquire_enforced he hd] at hadm
    cases hsh : shareActive x.fc with
    | false =>
      simp only [true_or, iff_true]
      rw [if_neg (by rw [hsh]; exact Bool.false_ne_true)] at hadm
      rw [← waitersAhead_scan hs.pool hsh]
      by_contra hc
      rw [Bool.not_eq_false] at hc
      have hlim : acquireLimit x.fc band false = none := if_pos ⟨he, hq, rfl, hc⟩
      rw [hlim] at hadm
      exact fullVerdict_refuses _ _ _ hadm
    | true =>
      rw [if_pos hsh] at hadm
      have hasked : (sharedAsked mem x.fc (acquireBind p false tkey band) false).2 = false := by
        obtain ⟨_, t1, _, hres⟩ := acquireShared_spec mem x.fc (acquireBind p false tkey band) canQueue
          false
        unfold serviceAcquireShared at hadm
        dsimp only at hadm
        cases hr : (acquireShared mem x.fc (acquireBind p false tkey band) canQueue false).2 with
        | error v =>
          rw [hr] at hadm
          exact absurd hadm (acquireShared_refuses hr)
        | ok slot =>
          rw [hr] at hres
          obtain ⟨_, htake⟩ := hres.2.2.2 he
          unfold sharedTaken at htake
          by_contra hc
          rw [Bool.not_eq_false] at hc
          rw [if_pos hc] at htake
          cases htake
      simp only [Bool.true_eq_false, false_or]
      refine ⟨fun hscan => ?_, hno hasked⟩
      by_contra hc
      rw [Bool.not_eq_false] at hc
      obtain ⟨e, hl, ha, hn⟩ := untrackedAhead_iff.mp hc
      rw [scanAhead_iff.mpr ⟨e, hl, ha, by rw [hn]; rfl⟩] at hscan
      cases hscan
  · intro hw hcase
    unfold asksAhead
    cases hsh : shareActive x.fc with
    | false => exact waitersAhead_scan hs.pool hsh band
    | true =>
      have hun : untrackedAhead x.fc band = false := by
        rcases hcase with hc | hc
        · rw [hsh] at hc
          cases hc
        · exact hc
      rw [Bool.eq_iff_iff]
      refine ⟨hcomplete hw, fun hscan => ?_⟩
      by_contra hc
      rw [Bool.not_eq_true] at hc
      rw [hno hc hun] at hscan
      cases hscan

end

/-- tenant 1 runs its share of the pool and waits for more: tenant 2 passes it -/
theorem newcomer_waits_share : ∃ x, exec (step sampleConn)
        (Sys.init Mem.ok 64 { halfCfg with maxQueueDepth := 2, maxQueueWaitMs := 1000 })
        (admits 0 1 0 ++ admits 1 1 0 ++ parks 2 1 0 100) = some x ∧ x.fc.queue.live.length = 1 ∧
      (serviceAcquire true x.fc Permit.reset true false 2 .standard).2.2 = .admitted ∧
      scanAhead x.fc .standard = false ∧
      asksAhead true x.fc (acquireBind Permit.reset false 2 .standard) = false := by
  refine exec_follows (P := fun x => x.fc.queue.live.length = 1 ∧ x.fc.cfg.mode = .enforce ∧
    queueEnabled x.fc = true ∧ untrackedAhead x.fc .standard = false ∧ x.wakes = [] ∧
    (serviceAcquire true x.fc Permit.reset true false 2 .standard).2.2 = .admitted)
    (by decide +kernel) fun x hx ⟨h1, he, hq, hun, hw, hadm⟩ => ?_
  obtain ⟨hthm, hasks⟩ := newcomer_waits hx (by decide +kernel) he hq true true Permit.reset 2 .standard
  have hscan := (hthm hadm).mpr (.inr hun)
  exact ⟨h1, hadm, hscan, (hasks hw (.inr hun)).trans hscan⟩

/-- the waiter was parked before the share was turned on: another request of its tenant is admitted
past it, though it could run -/
theorem newcomer_overtakes :
    ∃ x, exec (step sampleConn) (Sys.init Mem.ok 64 openCfg) untrackedRun = some x ∧
      x.fc.cfg.mode = .enforce ∧ queueEnabled x.fc = true ∧ x.wakes = [] ∧
      (serviceAcquire true x.fc Permit.reset true false 1 .standard).2.2 = .admitted ∧
      (serviceAcquire true x.fc Permit.reset true false 1 .standard).2.1.state = .executing ∧
      scanAhead x.fc .standard = true ∧
      asksAhead true x.fc (acquireBind Permit.reset false 1 .standard) = false :=
  exec_found (by decide +kernel)

end Fc
