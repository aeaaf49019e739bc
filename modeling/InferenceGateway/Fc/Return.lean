import InferenceGateway.Fc.Waits

/-!
# A woken request goes back

A request that was popped for its turn and lost it goes back to the head of the ring, and so does an
entry whose wake could not be delivered.  When the allocations succeed both find a place as long as
fewer than `queueDepthMax` waiters stand in the ring: past that the ring does not grow.

* `woken_goes_back`     in every state a pool can reach;
* `queue_published`     what the gate reads of the queue;
* `woken_turned_away`   a pool of the greatest depth, filled by newcomers during the turn.
-/

open Function Option Run

namespace Fc

/-! ## one insertion -/

theorem ringInsert_full {q : Queue} (h : RingOk q) (hmax : q.cap ≤ queueDepthMax)
    (hd : queueDepthMax ≤ q.count) (m : Mem) (e : QueueEnt) (front ordered : Bool) :
    (ringInsert m q e front ordered).2 = none := by
  have hle := count_le_used h
  have hused := h.used_le
  refine Option.not_isSome_iff_eq_none.mp fun hs => ?_
  obtain ⟨_, hroom⟩ := (ringInsert_isSome h m e front ordered).mp hs
  omega

theorem pushLocked_back {s : State} (hd : s.queue.dead = false) (hq : queueEnabled s = true) (m : Mem)
    (p : Permit) (fd : Int) (gen nowNs : Nat) :
    (pushLocked m s p fd gen nowNs true).rc = .parked ↔ (ringInsert m s.queue
      (parkEnt p fd gen (parkAt s p nowNs true) (pushSlot m.table s p.tkey).2) true
      (parkAt s p nowNs true).ordered).2.isSome = true := by
  have hslot : (pushSlot m.table s p.tkey).1.queue = s.queue := by
    unfold pushSlot
    split <;> rfl
  have hroom : pushRoom s p none true = true := by
    simp [pushRoom, hd, hq]
  unfold pushLocked
  dsimp only
  rw [show pushEvict s p (parkAt s p nowNs true) nowNs true = none from rfl, hroom]
  simp only [Bool.not_true, Bool.false_eq_true, if_false, pushOver, Bool.false_and]
  unfold pushInsert pushEvicted
  dsimp only
  rw [hslot]
  cases (ringInsert m s.queue (parkEnt p fd gen (parkAt s p nowNs true) (pushSlot m.table s p.tkey).2) true
    (parkAt s p nowNs true).ordered).2 <;> simp

/-! ## in every state a pool can reach -/

section
variable {ι : Type} [DecidableEq ι] {conn : ι → Conn} {x : Sys ι}

theorem cap_run {m : Mem} {slots : Nat} {cfg : Cfg} {as : List (Act ι)}
    (h : exec (step conn) (Sys.init m slots cfg) as = some x) :
    PoolOk x.fc ∧ x.fc.queue.cap ≤ queueDepthMax := by
  refine inv_of_every_step (P := fun y => PoolOk y.fc ∧ y.fc.queue.cap ≤ queueDepthMax)
    (fun y a y' hy hs => ?_) ⟨poolOk_init m slots cfg, ?_⟩ h
  · obtain ⟨h1, _, h2⟩ := pool_micro hy.1 (step_cases hs)
    exact ⟨h1, by omega⟩
  · obtain ⟨_, _, _, ⟨_, h2⟩, _⟩ := stateInit_spec m slots cfg
    show (stateInit m slots cfg).queue.cap ≤ queueDepthMax
    rcases h2 with h2 | h2
    · rw [h2]
      exact Nat.zero_le _
    · exact h2

/-- **a woken request keeps its place** exactly while fewer than the greatest depth of waiters
stand in the ring, whether it lost its turn or its wake failed -/
theorem woken_goes_back {m0 : Mem} {slots : Nat} {cfg : Cfg} {as : List (Act ι)}
    (h : exec (step conn) (Sys.init m0 slots cfg) as = some x)
    (hlive : x.fc.queue.dead = false) (hq : queueEnabled x.fc = true) {m : Mem}
    (hm : m.compact = true) (hg : m.grow = true) :
    ((∀ p fd gen nowNs, 0 ≤ fd → (queuePush m x.fc p fd gen nowNs true).2.2.1 = .parked) ∧
      ∀ e, (ringInsert m x.fc.queue e true false).2.isSome = true) ↔
      x.fc.queue.count < queueDepthMax := by
  obtain ⟨hp, hmax⟩ := cap_run h
  have hcap : x.fc.queue.cap ≠ 0 := by
    simp only [queueEnabled, Bool.and_eq_true, decide_eq_true_eq] at hq
    omega
  constructor
  · rintro ⟨_, hins⟩
    by_contra hd
    have hsome := hins QueueEnt.zero
    rw [ringInsert_full hp.ring hmax (Nat.le_of_not_lt hd)] at hsome
    cases hsome
  · intro hd
    refine ⟨fun p fd gen nowNs hfd => ?_, fun e => ringInsert_room hp.ring hcap hm hg (.inr ⟨rfl, hd⟩) e _⟩
    rw [(queuePush_fields (Int.not_lt.mpr hfd)).2.2.1]
    exact (pushLocked_back hlive hq m p fd gen nowNs).mpr
      (ringInsert_room hp.ring hcap hm hg (.inr ⟨rfl, hd⟩) _ _)

/-- **the published queue**: in every run the counts and the earliest deadline the gate reads are
those of the waiters, never more than the greatest depth -/
theorem queue_published {m : Mem} {slots : Nat} {cfg : Cfg} {as : List (Act ι)}
    (h : exec (step conn) (Sys.init m slots cfg) as = some x) :
    let ws := x.fc.queue.live
    x.fc.queued = ws.length ∧ x.fc.queued ≤ queueDepthMax ∧
      (∀ b, bandCounted b = true → x.fc.bandQueued b = ws.countP (·.band = b)) ∧
      LeastDeadline ws x.fc.queue.nextDeadlineNs := by
  obtain ⟨hp, hc⟩ := cap_run h
  have hr := hp.ring
  have hu := (count_le_used hr).trans (hr.used_le.trans hc)
  exact ⟨hp.queued.trans hr.count_eq, hp.queued.trans_le hu,
    fun b hb => (hp.band b hb).trans (hr.band_eq b hb), hr.deadline_eq⟩

end

/-! ## a flood of newcomers -/

def deepCfg : Cfg :=
  { Cfg.zero with
    mode := .enforce, maxOutstanding := 1, maxQueueDepth := queueDepthMax, maxQueueWaitMs := 1000 }

def deepConn (i : Nat) : Conn := (i, 1)
def turnRun : List (Act Nat) := [.push 0 100 false 0 0 Mem.ok, .wakePop noPend]

def flood : Nat → Nat → List (Act Nat)
  | _, 0 => []
  | n, k+1 => .push (n + 1) 200 false 0 0 Mem.ok :: flood (n + 1) k

theorem woken_goes_back_deep :
    ∃ x, exec (step deepConn) (Sys.init Mem.ok 64 deepCfg) (turnRun ++ flood 0 2) = some x ∧
      x.wakes.length = 1 ∧ x.fc.queue.count = 2 ∧
      ∀ p fd gen nowNs, 0 ≤ fd → (queuePush Mem.ok x.fc p fd gen nowNs true).2.2.1 = .parked := by
  refine exec_follows (P := fun x => x.fc.queue.dead = false ∧ queueEnabled x.fc = true ∧
    x.fc.queue.count = 2 ∧ x.wakes.length = 1)
    (by decide +kernel) fun x hx ⟨hdead, hq, hcount, hwakes⟩ => ⟨hwakes, hcount, ?_⟩
  have hm : Mem.ok.compact = true ∧ Mem.ok.grow = true := ⟨rfl, rfl⟩
  exact ((woken_goes_back hx hdead hq hm.1 hm.2).mpr (hcount ▸ by decide)).1

theorem turn_published :
    ∃ x, exec (step deepConn) (Sys.init Mem.ok 64 deepCfg) (turnRun ++ flood 0 2) = some x ∧
      x.wakes.length = 1 ∧ x.fc.queue.live.map (·.deadlineNs) = [1000000200, 1000000200] ∧
      x.fc.queued = x.fc.queue.live.length ∧
      LeastDeadline x.fc.queue.live x.fc.queue.nextDeadlineNs := by
  refine exec_follows (P := fun x => x.wakes.length = 1 ∧
    x.fc.queue.live.map (·.deadlineNs) = [1000000200, 1000000200])
    (by decide +kernel) fun x hx ⟨hw, hl⟩ => ⟨hw, hl, ?_⟩
  obtain ⟨hlen, -, -, hleast⟩ := queue_published hx
  exact ⟨hlen, hleast⟩

structure Flooded (n : Nat) (x : Sys Nat) : Prop where
  pool : PoolOk x.fc
  cfg : x.fc.cfg = cfgClamp deepCfg
  dead : x.fc.queue.dead = false
  cap : queueDepthMax ≤ x.fc.queue.cap
  count : x.fc.queue.count = n
  wakes : x.wakes.length = 1
  fresh : ∀ j > n, x.threads j = ⟨Permit.reset, .idle⟩

theorem newcomer_parks {s : State} (hp : PoolOk s) (hcfg : s.cfg = cfgClamp deepCfg)
    (hdead : s.queue.dead = false) (hcap : queueDepthMax ≤ s.queue.cap)
    (hc : s.queue.count < queueDepthMax) (p : Permit) (fd : Int) (gen nowNs : Nat) :
    (pushLocked Mem.ok s p fd gen nowNs false).rc = .parked ∧
      (pushLocked Mem.ok s p fd gen nowNs false).gone = none ∧
      (pushLocked Mem.ok s p fd gen nowNs false).fc.queue.dead = false := by
  unfold pushLocked
  dsimp only
  set w := parkAt s p nowNs false
  have hdepth : s.cfg.maxQueueDepth = queueDepthMax := by rw [hcfg]; rfl
  have hq : queueEnabled s = true := by
    simp only [queueEnabled, Bool.and_eq_true, decide_eq_true_eq, hcfg]
    exact ⟨⟨rfl, by decide⟩, by omega⟩
  have hslot : pushSlot Mem.ok.table s p.tkey = (s, none) := by
    unfold pushSlot tenantsTracked shareActive
    rw [hcfg]
    rfl
  have hev : pushEvict s p w nowNs false = none := by
    simp [pushEvict, hdepth, hc]
  have hroom : pushRoom s p none false = true := by
    have hb : bandQueueBound s p.band = 0 := by
      unfold bandQueueBound
      rw [hcfg]
      rfl
    simp [pushRoom, hdead, hq, hb, hdepth, hc]
  have hsome : (ringInsert Mem.ok s.queue (parkEnt p fd gen w none) false w.ordered).2.isSome = true :=
    ringInsert_room hp.ring (by omega) rfl rfl (.inl (by omega)) _ _
  have hframe := ringInsert_frame Mem.ok s.queue (parkEnt p fd gen w none) false w.ordered
  rw [hev, hroom, hslot]
  simp only [Bool.not_true, Bool.false_eq_true, if_false, pushOver, any_none, Bool.and_false,
    pushEvicted, map_none, pushInsert]
  revert hsome
  cases hr : (ringInsert Mem.ok s.queue (parkEnt p fd gen w none) false w.ordered).2 with
  | none => exact fun h => by cases h
  | some slot => exact fun _ => ⟨rfl, rfl, hframe.dead.trans hdead⟩

theorem Flooded.next {n : Nat} {x : Sys Nat} (h : Flooded n x) (hn : n < queueDepthMax) :
    ∃ x', step deepConn x (.push (n + 1) 200 false 0 0 Mem.ok) = some x' ∧ Flooded (n + 1) x' := by
  have hfresh := h.fresh (n + 1) (Nat.lt_succ_self n)
  have hstep : step deepConn x (.push (n + 1) 200 false 0 0 Mem.ok) =
      some (x.park deepConn (n + 1) 200 false 0 0 Mem.ok) := by
    simp only [step]
    unfold Sys.start
    rw [hfresh]
    rfl
  have hfd : ¬ (deepConn (n + 1)).1 < 0 := Int.not_lt.mpr (Int.natCast_nonneg _)
  have hc : x.fc.queue.count < queueDepthMax := h.count ▸ hn
  obtain ⟨hrc, hgone, hdead⟩ := newcomer_parks h.pool h.cfg h.dead h.cap hc (x.asks (n + 1) 0 0)
    (deepConn (n + 1)).1 (deepConn (n + 1)).2 200
  obtain ⟨hpool, hgrows⟩ := pool_micro h.pool (step_cases hstep)
  have hqueue : (x.park deepConn (n + 1) 200 false 0 0 Mem.ok).fc.queue = (pushLocked Mem.ok x.fc
      (x.asks (n + 1) 0 0) (deepConn (n + 1)).1 (deepConn (n + 1)).2 200 false).fc.queue :=
    (queuePush_fields hfd).1.queue
  refine ⟨_, hstep, hpool, (sameGate_queuePush _ _ _ _ _ _ _).cfg.trans h.cfg, hqueue ▸ hdead,
    h.cap.trans hgrows.1, ?_, h.wakes, fun j hj => ?_⟩
  · rcases pushLocked_spec h.pool Mem.ok (x.asks (n + 1) 0 0) (deepConn (n + 1)).1
      (deepConn (n + 1)).2 200 false with hr | hr
    · rw [hr] at hrc
      cases hrc
    · obtain ⟨l, hl, hlive⟩ := hr.live
      rw [hgone] at hl
      rw [if_pos hrc, show l = x.fc.queue.live from hl, ← hqueue] at hlive
      rw [hpool.ring.count_eq, hlive, (place_perm _ _ _ _).length_eq, List.length_cons,
        ← h.pool.ring.count_eq, h.count]
  · show update x.threads (n + 1) _ j = _
    rw [update_of_ne (by omega)]
    exact h.fresh j (by omega)

theorem Flooded.run {n k : Nat} {x : Sys Nat} (h : Flooded n x) (hk : n + k ≤ queueDepthMax) :
    ∃ x', exec (step deepConn) x (flood n k) = some x' ∧ Flooded (n + k) x' := by
  induction k generalizing n x with
  | zero => exact ⟨x, rfl, h⟩
  | succ k ih =>
    obtain ⟨y, hs, hy⟩ := h.next (by omega)
    obtain ⟨x', hx, hx'⟩ := ih hy (by omega)
    exact ⟨x', exec_cons.mpr ⟨y, hs, hx⟩, by rwa [Nat.add_right_comm] at hx'⟩

/-- **as many newcomers as the ring can hold during one turn**: the request that was popped for it
is turned away -/
theorem woken_turned_away : ∃ x, exec (step deepConn) (Sys.init Mem.ok 64 deepCfg)
        (turnRun ++ flood 0 queueDepthMax) = some x ∧
      x.fc.queue.dead = false ∧ queueEnabled x.fc = true ∧ x.wakes.length = 1 ∧
      (∀ p fd gen nowNs, (queuePush Mem.ok x.fc p fd gen nowNs true).2.2.1 ≠ .parked) ∧
      ∀ e, (ringInsert Mem.ok x.fc.queue e true false).2 = none := by
  obtain ⟨x, hx, hdead, hcap, hcount, hwakes⟩ :
      ∃ x, exec (step deepConn) (Sys.init Mem.ok 64 deepCfg) turnRun = some x ∧
        x.fc.queue.dead = false ∧ queueDepthMax ≤ x.fc.queue.cap ∧ x.fc.queue.count = 0 ∧
        x.wakes.length = 1 := exec_found (by decide +kernel)
  obtain ⟨y, h1, hx⟩ := exec_cons.mp hx
  obtain ⟨x', h2, hx⟩ := exec_cons.mp hx
  obtain rfl : x' = x := Option.some.inj hx
  have hp0 : PoolOk (stateInit Mem.ok 64 deepCfg) := poolOk_init _ _ _
  have hm1 := step_cases h1
  have hm2 := step_cases h2
  have hp1 := (pool_micro hp0 hm1).1
  have hcfg : x'.fc.cfg = cfgClamp deepCfg :=
    (cfg_micro hp1 hm2 rfl).1.trans (cfg_micro hp0 hm1 rfl).1
  have hfresh : ∀ j > 0, x'.threads j = ⟨Permit.reset, .idle⟩ := fun j hj =>
    (frame_micro hm2 (some_ne_none j).symm).trans (frame_micro hm1 fun hc => by
      rw [← Option.some.inj hc] at hj
      exact absurd hj (lt_irrefl 0))
  obtain ⟨z, hz, hfl⟩ := Flooded.run ⟨(pool_micro hp1 hm2).1, hcfg, hdead, hcap, hcount, hwakes, hfresh⟩
    (Nat.zero_add queueDepthMax).le
  have hexec : exec (step deepConn) (Sys.init Mem.ok 64 deepCfg)
      (turnRun ++ flood 0 queueDepthMax) = some z :=
    exec_cons.mpr ⟨y, h1, exec_cons.mpr ⟨x', h2, hz⟩⟩
  have hfull := fun e ordered => ringInsert_full hfl.pool.ring (cap_run hexec).2 hfl.count.ge Mem.ok e true
    ordered
  have hq : queueEnabled z.fc = true := by
    have := hfl.cap
    simp only [queueEnabled, Bool.and_eq_true, decide_eq_true_eq, hfl.cfg]
    exact ⟨⟨rfl, by decide⟩, Nat.lt_of_lt_of_le (by decide) this⟩
  refine ⟨z, hexec, hfl.dead, hq, hfl.wakes, fun p fd gen nowNs => ?_, fun e => hfull e false⟩
  by_cases hfd : fd < 0
  · rw [queuePush_negative hfd]
    exact nofun
  · rw [(queuePush_fields hfd).2.2.1, Ne, pushLocked_back hfl.dead hq, hfull]
    exact Bool.false_ne_true

end Fc
