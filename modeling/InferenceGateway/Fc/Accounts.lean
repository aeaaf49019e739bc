import InferenceGateway.Fc.Seats

/-!
# The books over whole runs

What holds in every state a pool can reach (`Books`): the queue and the tenant table are well
formed, the unit counters are the sums over the permits, and the slots' units are the seats.  In
the runs in which no push evicts the last hold on its own slot, the slots' waiters are counted as
well and no counter ever underflows (`Sound`).

* `tenant_accounting`   the tenant table between calls;
* `selfEvict_breaks`    a run with such a push, after which a free slot has a waiter.
-/

set_option linter.unusedSectionVars false

open Finset Run

namespace Fc

section
variable {ι : Type} [Fintype ι] [DecidableEq ι] {conn : ι → Conn} {x x' : Sys ι} {a : Act ι}

/-! ## in every run -/

structure Books (x : Sys ι) : Prop where
  pool : PoolOk x.fc
  units : UnitsOk x
  run : RunOk x
  seat : SeatOk x

theorem books_step (x : Sys ι) (a : Act ι) (x' : Sys ι) (h : Books x)
    (hs : step conn x a = some x') : Books x' := by
  have hm := step_cases hs
  have hseat := seat_micro h.pool h.units hm
  exact ⟨(pool_micro h.pool hm).1, units_micro h.pool h.units hm, hseat.run h.pool h.run,
    hseat.seats h.pool h.run h.seat⟩

theorem init_tenants (m : Mem) (slots : Nat) (cfg : Cfg) (j : Nat) :
    ((stateInit m slots cfg).ten.tenants j).holds = Tenant.zero.holds :=
  (stateApply_spec (poolOk_zero _) m cfg).2.2.2.2.1.other (Option.some_ne_none j).symm

theorem books_init (m : Mem) (slots : Nat) (cfg : Cfg) :
    Books (Sys.init m slots cfg : Sys ι) := by
  refine ⟨poolOk_init m slots cfg, unitsOk_init m slots cfg, fun j => ?_, fun i y j hs => ?_⟩
  · show ((stateInit m slots cfg).ten.tenants j).inflight = _
    rw [holds_inflight (init_tenants m slots cfg j)]
    exact (sum_eq_zero fun i _ => runs_none rfl j).symm
  · cases hs

variable {m : Mem} {slots : Nat} {cfg : Cfg} {as : List (Act ι)} {r : Role} {i : ι}

/-! ## no counter underflows -/

omit [Fintype ι] [DecidableEq ι] in
theorem giveLeg_calm {s : State} {p : Permit} (h : ∀ e, p.ep r = some e → s.epInflight e r ≠ 0) :
    (giveLeg s p r).anomaly = s.anomaly := by
  unfold giveLeg
  cases hp : p.ep r with
  | none => rfl
  | some e =>
    show (giveEp s e r).anomaly = s.anomaly
    unfold giveEp
    rw [decide_eq_false (h e hp)]
    rfl

theorem UnitsOk.leg_pos (h : UnitsOk x) (hw : (x.threads i).permit.Whole) {e : Nat}
    (he : (x.threads i).permit.ep r = some e) : x.fc.epInflight e r ≠ 0 := by
  have hle := h.legs_le i e r
  have heq : (x.threads i).legs e r = 1 + (x.threads i).pc.landing e r := by
    have := legs_whole hw (x.threads i).pc e r
    rw [if_pos he] at this
    exact this
  omega

theorem giveInflight_calm (h : UnitsOk x) (hs : (x.threads i).svc = 1) :
    (giveInflight x.fc).anomaly = x.fc.anomaly := by
  have hle := h.svc_le i
  have hne : x.fc.inflight ≠ 0 := by omega
  unfold giveInflight
  rw [decide_eq_false hne]
  rfl

theorem giveBand_calm (h : UnitsOk x) (hw : (x.threads i).permit.Whole) :
    (giveBand x.fc (x.threads i).permit.band).anomaly = x.fc.anomaly := by
  have hflag : (bandCounted (x.threads i).permit.band &&
      decide (x.fc.bandInflight (x.threads i).permit.band = 0)) = false := by
    cases hb : bandCounted (x.threads i).permit.band with
    | false => rfl
    | true =>
      have hle := h.band_le i hb
      have hone : (x.threads i).inBand (x.threads i).permit.band = 1 := if_pos ⟨hw.state, hw.svc, rfl⟩
      exact decide_eq_false (by omega)
  unfold giveBand
  rw [hflag]
  rfl

theorem UnitMove.calm {s : State} {th : Thread} (hu : UnitsOk x) (h : UnitMove x.fc (x.threads i) s th) :
    s.anomaly = x.fc.anomaly := by
  cases h with
  | take whole plain place limit count calm => exact calm
  | give whole place plain next ok set count calm =>
    rw [calm]
    exact giveLeg_calm fun e he => hu.leg_pos whole he
  | execute pc fc =>
    rw [fc]
    rfl
  | svc pc fc =>
    obtain ⟨hwh, _⟩ : (x.threads i).permit.Whole ∧ ∀ y, y ∉ [] → (x.threads i).permit.ep y = none :=
      hu.holds pc
    have hone : (x.threads i).svc = 1 := svc_whole hwh (by rw [pc]; exact nofun)
    rw [fc]
    exact giveInflight_calm hu hone
  | band pc fc =>
    obtain ⟨hwh, _⟩ : (x.threads i).permit.Whole ∧ ∀ y, (x.threads i).permit.ep y = none := hu.holds pc
    rw [fc]
    exact giveBand_calm hu hwh

theorem WaitStep.calm (hp : PoolOk x.fc) (hw : WaitOk x) (hok : noSelfEvict conn x a = true)
    (h : WaitStep conn x a x') : x'.fc.anomaly .underflow = x.fc.anomaly .underflow := by
  cases h with
  | still pool cap live ten calm => exact calm
  | refuse mem p canQueue woken v no fc =>
    rw [fc]
    exact (acquireShared_spec _ _ _ _ _).1.underflow
  | leaves s e gone cap same calm =>
    rw [calm]
    exact (hw.leaves hp gone).2
  | push i nowNs front firstNs ttlMs m act same calm =>
    subst act
    rw [calm]
    refine (hw.pushed hp ?_).2
    simpa [noSelfEvict] using hok
  | pick e u taken => exact congrFun taken.anomaly _
  | hook k ok w found fc => rw [fc]
  | done k w found fc =>
    have hflag := (Counted.dec_queued hp.ten w.ent.tslot (hw.woken found)).2
    rw [fc]
    show (x.fc.tenantDec w.ent.tslot .queued).anomaly .underflow = _
    rw [tenantDec_underflow, hflag]
    rfl
  | failed k m w found fc =>
    have hflag := (Counted.dec_queued hp.ten w.ent.tslot (hw.woken found)).2
    rw [fc]
    obtain ⟨_, _, ⟨_, _, h3⟩ | ⟨_, _, _, h3⟩⟩ := wakeFailed_spec hp m w.ent w.undo
    · exact congrFun h3 _
    · rw [h3, hflag]
      rfl
  | apply cfg m fc =>
    rw [fc]
    exact congrFun (stateApply_spec hp m cfg).2.2.2.1 _

theorem calm_micro (hb : Books x) (hw : WaitOk x) (hok : noSelfEvict conn x a = true)
    (hm : Micro conn x a x') : x'.fc.anomaly .underflow = x.fc.anomaly .underflow := by
  have hp := hb.pool
  have hu := hb.units
  cases turn_micro hp hm with
  | unit i th threads wakes queue cfg effMax move => exact congrFun ((move (hu.thread i)).calm hu) _
  | pass i nowNs mem woken act ok threads wakes queue cfg effMax inflight bandInflight epInflight calm =>
    exact congrFun calm _
  | seat i nowNs mem canQueue woken slot act pc ok threads wakes fc =>
    rw [fc]
    exact (acquireShared_spec _ _ _ _ _).1.underflow
  | leave i pc threads wakes fc =>
    obtain ⟨h1, h2, _⟩ := hu.leaving pc
    rw [fc]
    unfold releaseTenant
    rw [if_pos h2, tenantDec_underflow, (edits_dec hp.ten _ _).2]
    cases hj : (x.threads i).permit.tslot with
    | none => rfl
    | some j =>
      have hone := hb.run.seated (hu.seat_executing h1) hj
      have hne : (x.fc.ten.tenants j).get .inflight ≠ 0 := Nat.one_le_iff_ne_zero.mp hone
      simp [hne]
  | stay threads places units cfg effMax wait => exact wait.calm hp hw hok

/-- the books of a run in which no push evicts the last hold on its own slot -/
structure Sound (x : Sys ι) : Prop extends Books x where
  wait : WaitOk x
  calm : x.fc.anomaly .underflow = 0

theorem sound_step (x : Sys ι) (a : Act ι) (x' : Sys ι) (h : Sound x)
    (hok : noSelfEvict conn x a = true) (hs : step conn x a = some x') : Sound x' := by
  have hm := step_cases hs
  exact ⟨books_step x a x' h.toBooks hs, wait_micro h.pool h.wait hok hm,
    (calm_micro h.toBooks h.wait hok hm).trans h.calm⟩

theorem sound_init (m : Mem) (slots : Nat) (cfg : Cfg) :
    Sound (Sys.init m slots cfg : Sys ι) := by
  obtain ⟨h2, _, h4, _⟩ := stateInit_spec m slots cfg
  refine ⟨books_init m slots cfg, ⟨fun j => ?_, fun j _ => ?_⟩, congrFun h4 _⟩
  · show ((stateInit m slots cfg).ten.tenants j).queued =
      (stateInit m slots cfg).queue.live.countP _ + 0
    rw [holds_queued (init_tenants m slots cfg j), h2]
    rfl
  · show ((stateInit m slots cfg).ten.tenants j).used = true ↔
      ((stateInit m slots cfg).ten.tenants j).Holding
    rw [holding_congr (init_tenants m slots cfg j), holds_used (init_tenants m slots cfg j)]
    simp [Tenant.Holding, Tenant.zero]

theorem sound_run (h : exec (step conn) (Sys.init m slots cfg) as = some x)
    (hok : along (step conn) (noSelfEvict conn) (Sys.init m slots cfg) as = true) :
    Sound x :=
  inv_of_step sound_step (sound_init m slots cfg) hok h

/-! ## the tenant table between calls -/

def Sys.atRest (x : Sys ι) : Bool := decide (∀ i, (x.threads i).pc = .idle) && x.wakes.isEmpty

def Sys.runners (x : Sys ι) (j : Nat) : Finset ι :=
  univ.filter fun i =>
    (x.threads i).permit.state = .executing ∧ (x.threads i).permit.tslot = some j

def Tenancy.usedSlots (t : Tenancy) : Finset Nat :=
  (range (t.slots + 1)).filter fun j => (t.tenants j).used = true

theorem atRest_iff : x.atRest = true ↔ (∀ i, (x.threads i).pc = .idle) ∧ x.wakes = [] := by
  unfold Sys.atRest
  rw [Bool.and_eq_true, decide_eq_true_iff, List.isEmpty_iff]

theorem RunOk.runners (h : RunOk x) (hi : ∀ i, (x.threads i).pc = .idle) (j : Nat) :
    (x.fc.ten.tenants j).inflight = (x.runners j).card := by
  rw [h j, Sys.runners, card_filter]
  apply sum_congr rfl
  intro i _
  unfold Thread.runs
  have hseat : (x.threads i).seat = (x.threads i).permit.seat := seat_at (hi i)
  rw [hseat, Permit.seat]
  by_cases he : (x.threads i).permit.state = .executing
  · simp [he]
  · simp [he]

omit [Fintype ι] [DecidableEq ι] in
theorem tally_card (t : Tenancy) : t.tally Tenant.used = t.usedSlots.card := by
  rw [Tenancy.usedSlots, card_filter]
  apply sum_congr rfl
  intro j _
  cases (t.tenants j).used <;> rfl

/-- **the tenant table's books**: between calls a slot's counts are the permits that run on it and
the waiters that name it, it is in use exactly while one is positive, and the free list holds the
others -/
theorem tenant_accounting {m : Mem} {slots : Nat} {cfg : Cfg} {as : List (Act ι)}
    (h : exec (step conn) (Sys.init m slots cfg) as = some x)
    (hok : along (step conn) (noSelfEvict conn) (Sys.init m slots cfg) as = true)
    (hrest : x.atRest = true) :
    (∀ j, (x.fc.ten.tenants j).inflight = (x.runners j).card ∧
      (x.fc.ten.tenants j).queued = x.fc.queue.live.countP (QueueEnt.onSlot j) ∧
      ((x.fc.ten.tenants j).used = true ↔
        0 < (x.fc.ten.tenants j).inflight ∨ 0 < (x.fc.ten.tenants j).queued)) ∧
    (x.fc.ten.table = true → x.fc.ten.used = x.fc.ten.usedSlots.card ∧ x.fc.ten.freeList.Nodup ∧
      ∀ j, j ∈ x.fc.ten.freeList ↔ j < x.fc.ten.slots ∧ (x.fc.ten.tenants j).used = false) ∧
    ∀ j, j < x.fc.ten.slots → ((∃ i, i ∈ x.runners j) ∨ ∃ e ∈ x.fc.queue.live, e.tslot = some j) →
      (∀ i ∈ x.runners j, (x.threads i).permit.tkey = (x.fc.ten.tenants j).key) ∧
      ∀ mem key, (tenantGet mem x.fc.queue.dead x.fc.ten key).2.1 = some j →
        (x.fc.ten.tenants j).key = key := by
  have hs := sound_run h hok
  obtain ⟨hidle, hwakes⟩ := atRest_iff.mp hrest
  have hrun : ∀ j, (x.fc.ten.tenants j).inflight = (x.runners j).card := hs.run.runners hidle
  have hwait : ∀ j, (x.fc.ten.tenants j).queued = x.fc.queue.live.countP (QueueEnt.onSlot j) := by
    intro j
    rw [hs.wait.queued j, Sys.waiting, hwakes]
    rfl
  have hused : ∀ j, (x.fc.ten.tenants j).used = true ↔
      0 < (x.fc.ten.tenants j).inflight ∨ 0 < (x.fc.ten.tenants j).queued := by
    intro j
    rw [hs.wait.tight.at j, Tenant.Holding, Nat.pos_iff_ne_zero, Nat.pos_iff_ne_zero]
  refine ⟨fun j => ⟨hrun j, hwait j, hused j⟩, fun ht => ?_, fun j hj hn => ?_⟩
  · have hfree := (hs.pool.ten.table ht).free
    exact ⟨hfree.used.trans (tally_card _), hfree.freeList_spec⟩
  · have hu : (x.fc.ten.tenants j).used = true := by
      rw [hused j]
      rcases hn with ⟨i, hi⟩ | ⟨e, he, hej⟩
      · left
        rw [hrun j]
        exact card_pos.mpr ⟨i, hi⟩
      · right
        rw [hwait j]
        exact List.countP_pos_iff.mpr ⟨e, he, decide_eq_true hej⟩
    refine ⟨fun i hi => ?_, fun mem key hg => ?_⟩
    · obtain ⟨_, he, ht⟩ := mem_filter.mp hi
      exact ((hs.seat i _ j (hs.units.seat_executing he) ht).key hj).symm
    · obtain ⟨h1, h2, _⟩ := edits_get hs.pool.ten mem x.fc.queue.dead key
      obtain ⟨_, h4⟩ := h1.stay (hs.pool.ten.used_inside hu).1
      rw [← (h2 j hg).key (h4.symm ▸ hj), holds_key (h1.self hg), Tenant.looked, if_pos hu]

end

/-! ## a pool that sheds -/

def shedCfg : Cfg :=
  { Cfg.zero with
    mode := .enforce, maxOutstanding := 2, maxQueueDepth := 2, maxQueueWaitMs := 1000,
    tenantSharePct := 99, shedQueue := true }

def shedStart : Sys (Fin 6) := Sys.init Mem.ok 64 shedCfg

/-- tenant 1 runs twice and waits, tenants 2 and 3 wait -/
theorem tenant_accounting_shed : ∃ x, exec (step sampleConn) shedStart
        (admits 0 1 0 ++ admits 1 1 0 ++ parks 2 2 0 100 ++ parks 3 3 0 200) = some x ∧
      (x.runners 0).card = 2 ∧ (x.fc.ten.tenants 0).inflight = (x.runners 0).card ∧
      (x.fc.ten.tenants 1).queued = x.fc.queue.live.countP (QueueEnt.onSlot 1) := by
  refine exec_follows (P := fun x => x.atRest = true ∧ (x.runners 0).card = 2)
    (by decide +kernel) fun x hx ⟨hrest, h2⟩ => ?_
  have h := (tenant_accounting hx (by decide +kernel) hrest).1
  exact ⟨h2, (h 0).1, (h 1).2.1⟩

def selfEvictRun : List (Act (Fin 6)) :=
  admits 0 1 0 ++ admits 1 1 0 ++ parks 2 2 2 100 ++ parks 3 1 0 200 ++ parks 4 2 1 300 ++
    [.run 4 0 true]

/-- the newcomer's entry names a slot that is free, and that the next tenant gets -/
theorem selfEvict_breaks :
    ∃ x, exec (step sampleConn) shedStart selfEvictRun = some x ∧ x.atRest = true ∧
      x.fc.queue.live.countP (QueueEnt.onSlot 1) = 1 ∧ (x.fc.ten.tenants 1).used = false ∧
      1 ∈ x.fc.ten.freeList ∧ (x.fc.ten.tenants 1).key = 2 ∧
      (tenantGet true x.fc.queue.dead x.fc.ten 3).2.1 = some 1 :=
  exec_found (by decide +kernel)

end Fc
