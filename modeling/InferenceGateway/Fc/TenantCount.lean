import InferenceGateway.Fc.Units

/-!
# The tenant slots count who waits on them

A slot's `queued` is the number of waiters that name it, and a slot is in use exactly while it holds
something (`WaitOk`), in every run in which no push evicts the last hold on the slot it has just
looked up (`noSelfEvict`): that push goes on to count its own entry on a slot that was freed under
it.  `wait_micro` is one step of it.
-/

set_option linter.unusedSectionVars false

namespace Fc

open Walk

/-! ## a slot is in use while it holds something -/

def Tenant.Holding (x : Tenant) : Prop := x.inflight ≠ 0 ∨ x.queued ≠ 0

/-- every slot but `hand` is in use exactly while it holds something -/
def TightBut (hand : Option Nat) (t : Tenancy) : Prop :=
  ∀ j, hand ≠ some j → ((t.tenants j).used = true ↔ (t.tenants j).Holding)

def Tight (t : Tenancy) : Prop := TightBut none t

variable {t : Tenancy} {x : Tenant} {q : Nat → Nat}

theorem Tight.at (h : Tight t) (j : Nat) :
    (t.tenants j).used = true ↔ (t.tenants j).Holding := h j (Option.some_ne_none j).symm

theorem holding_congr {y : Tenant} (h : x.holds = y.holds) : x.Holding ↔ y.Holding := by
  unfold Tenant.Holding
  rw [holds_inflight h, holds_queued h]

theorem settled_tight (h : x.used = true) : x.settled.used = true ↔ x.settled.Holding := by
  unfold Tenant.settled Tenant.spent Tenant.Holding
  split
  · rename_i hc
    have : x.inflight = 0 ∧ x.queued = 0 := by simpa [h] using hc
    simp [this.1, this.2]
  · rename_i hc
    simp only [h, Bool.true_and, Bool.and_eq_true, decide_eq_true_eq] at hc
    simp only [h, true_iff]
    omega

theorem settled_counts (x : Tenant) :
    x.settled.inflight = x.inflight ∧ x.settled.queued = x.queued ∧ x.settled.key = x.key := by
  unfold Tenant.settled
  split <;> exact ⟨rfl, rfl, rfl⟩

theorem dec_counts (c : Hold) (x : Tenant) :
    (x.dec c).inflight = x.inflight - (if c = .inflight ∧ x.used = true then 1 else 0) ∧
      (x.dec c).queued = x.queued - (if c = .queued ∧ x.used = true then 1 else 0) := by
  unfold Tenant.dec
  by_cases hu : x.used = true
  · rw [if_pos hu]
    obtain ⟨h1, h2, _⟩ := settled_counts (x.put c (x.get c - 1))
    rw [h1, h2]
    cases c <;> simp [Tenant.put, Tenant.get, hu]
  · rw [if_neg hu]
    simp [hu]

theorem dec_tight {c : Hold} (h : x.used = true ↔ x.Holding) :
    (x.dec c).used = true ↔ (x.dec c).Holding := by
  unfold Tenant.dec
  by_cases hu : x.used = true
  · rw [if_pos hu]
    exact settled_tight ((put_used x c _).trans hu)
  · rw [if_neg hu]
    exact h

section
variable {t t' : Tenancy} {slot : Option Nat}

variable {f : Tenant → Tenant} {j : Nat}

section
variable (h : Edits t t' slot f)
include h

theorem Edits.other (hj : slot ≠ some j) : (t'.tenants j).holds = (t.tenants j).holds := by
  rw [h.holds j, if_neg hj]

theorem Edits.self (hj : slot = some j) : (t'.tenants j).holds = (f (t.tenants j)).holds := by
  rw [h.holds j, if_pos hj]

theorem Edits.inflight
    (hf : ∀ j, slot = some j → (f (t.tenants j)).inflight = (t.tenants j).inflight) (j : Nat) :
    (t'.tenants j).inflight = (t.tenants j).inflight := by
  by_cases hj : slot = some j
  · rw [holds_inflight (h.self hj)]
    exact hf j hj
  · exact holds_inflight (h.other hj)

theorem Edits.queued (hf : ∀ j, slot = some j → (f (t.tenants j)).queued = (t.tenants j).queued)
    (j : Nat) : (t'.tenants j).queued = (t.tenants j).queued := by
  by_cases hj : slot = some j
  · rw [holds_queued (h.self hj)]
    exact hf j hj
  · exact holds_queued (h.other hj)

omit h in
theorem looked_inflight (ht : TenancyOk t) (key : UInt64) (j : Nat) :
    ((t.tenants j).looked key).inflight = (t.tenants j).inflight := by
  unfold Tenant.looked
  split
  · rfl
  · rename_i hu
    by_contra hne
    exact hu (ht.running fun h0 => hne h0.symm)

omit h in
theorem looked_queued (h : Tight t) (key : UInt64) (j : Nat) :
    ((t.tenants j).looked key).queued = (t.tenants j).queued := by
  unfold Tenant.looked
  split
  · rfl
  · rename_i hu
    by_contra hne
    exact hu ((h.at j).mpr (.inr fun h0 => hne h0.symm))

theorem Edits.tight_at
    (hself : slot = some j → ((f (t.tenants j)).used = true ↔ (f (t.tenants j)).Holding))
    (hother : slot ≠ some j → ((t.tenants j).used = true ↔ (t.tenants j).Holding)) :
    (t'.tenants j).used = true ↔ (t'.tenants j).Holding := by
  by_cases hs : slot = some j
  · rw [holding_congr (h.self hs), holds_used (h.self hs)]
    exact hself hs
  · rw [holding_congr (h.other hs), holds_used (h.other hs)]
    exact hother hs

end

theorem Edits.look {key : UInt64} (h : Edits t t' slot (Tenant.looked · key)) (ht : Tight t) :
    TightBut slot t' :=
  fun j hj => h.tight_at (fun hs => absurd hs hj) fun _ => ht.at j

theorem Edits.hand_inc {c : Hold} (h : Edits t t' slot (Tenant.inc c)) (ht : TightBut slot t)
    (hu : ∀ j, slot = some j → (t.tenants j).used = true) : Tight t' := by
  refine fun j _ => h.tight_at (fun hs => ?_) (ht j)
  have hused : ((t.tenants j).inc c).used = true := (put_used _ _ _).trans (hu j hs)
  have hhold : ((t.tenants j).inc c).Holding := by
    cases c with
    | inflight => exact .inl (Nat.succ_ne_zero _)
    | queued => exact .inr (Nat.succ_ne_zero _)
  exact ⟨fun _ => hhold, fun _ => hused⟩

theorem Edits.hand_put (h : Edits t t' slot Tenant.settled) (ht : TightBut slot t)
    (hu : ∀ j, slot = some j → (t.tenants j).used = true) : Tight t' :=
  fun j _ => h.tight_at (fun hs => settled_tight (hu j hs)) (ht j)

end

/-! ## the sections that move a tenant's counts -/

/-- a slot's `queued` counts, and every slot in use holds something -/
structure Counted (t : Tenancy) (q : Nat → Nat) : Prop where
  queued : ∀ j, (t.tenants j).queued = q j
  tight : Tight t

theorem Counted.edit {t' : Tenancy} {slot : Option Nat} {f : Tenant → Tenant} (hc : Counted t q)
    (h : Edits t t' slot f)
    (hq : ∀ j, slot = some j → (f (t.tenants j)).queued = (t.tenants j).queued)
    (ht : ∀ j, slot = some j → ((f (t.tenants j)).used = true ↔ (f (t.tenants j)).Holding)) :
    Counted t' q := by
  refine ⟨fun j => (h.queued hq j).trans (hc.queued j), fun j _ => ?_⟩
  exact h.tight_at (ht j) fun _ => hc.tight.at j

theorem Counted.share {s : State} (hp : PoolOk s) (hc : Counted s.ten q) (mem : Bool) (p : Permit)
    (canQueue woken : Bool) :
    Counted (acquireShared mem s p canQueue woken).1.ten q := by
  obtain ⟨t1, h1, h2, h3⟩ := acquireShared_ten hp mem p canQueue woken
  have hhand := h1.look hc.tight
  have hq1 : ∀ j, (t1.tenants j).queued = q j := fun j =>
    (h1.queued (fun j _ => looked_queued hc.tight p.tkey j) j).trans (hc.queued j)
  have hused : ∀ j, (sharedGet mem s p).2.1 = some j → (t1.tenants j).used = true :=
    fun j hj => (h2 j hj).used
  cases hr : (acquireShared mem s p canQueue woken).2 with
  | ok slot =>
    rw [hr] at h3
    obtain ⟨rfl, hinc⟩ := h3
    exact ⟨fun j => (hinc.queued (fun _ _ => rfl) j).trans (hq1 j), hinc.hand_inc hhand hused⟩
  | error v =>
    rw [hr] at h3
    have hput := edits_put h1.ok (sharedGet mem s p).2.1
    rw [h3]
    exact ⟨fun j => (hput.queued (fun _ _ => (settled_counts _).2.1) j).trans (hq1 j),
      hput.hand_put hhand hused⟩

theorem Counted.dec_inflight (ht : TenancyOk t) (hc : Counted t q) (slot : Option Nat) :
    Counted (tenantDecAt t slot .inflight).1 q := by
  refine hc.edit (edits_dec ht slot .inflight).1 (fun j _ => ?_) fun j _ => dec_tight (hc.tight.at j)
  simpa using (dec_counts .inflight (t.tenants j)).2

/-- one waiter less on a slot in use -/
theorem dec_queued_spec (ht : TenancyOk t) {slot : Option Nat}
    (hq : ∀ j, (t.tenants j).queued = q j + if slot = some j then 1 else 0)
    (hu : ∀ j, slot = some j → (t.tenants j).used = true) :
    (∀ j, ((tenantDecAt t slot .queued).1.tenants j).queued = q j) ∧
      (tenantDecAt t slot .queued).2 = false := by
  obtain ⟨h1, h2⟩ := edits_dec ht slot .queued
  refine ⟨fun j => ?_, ?_⟩
  · have hj := hq j
    by_cases hs : slot = some j
    · rw [holds_queued (h1.self hs), (dec_counts .queued (t.tenants j)).2, if_pos ⟨rfl, hu j hs⟩]
      rw [if_pos hs] at hj
      omega
    · rw [holds_queued (h1.other hs)]
      rwa [if_neg hs] at hj
  · rw [h2]
    cases slot with
    | none => rfl
    | some i =>
      have hi := hq i
      rw [if_pos rfl] at hi
      have hne : (t.tenants i).get .queued ≠ 0 := by
        show (t.tenants i).queued ≠ 0
        omega
      simp [hne]

theorem Counted.dec_queued (ht : TenancyOk t) (slot : Option Nat)
    (hc : Counted t fun j => q j + if slot = some j then 1 else 0) :
    Counted (tenantDecAt t slot .queued).1 q ∧ (tenantDecAt t slot .queued).2 = false := by
  obtain ⟨h1, h2⟩ := dec_queued_spec ht hc.queued fun j hj => (hc.tight.at j).mpr (.inr (by
    rw [hc.queued, if_pos hj]
    exact Nat.succ_ne_zero _))
  exact ⟨⟨h1, fun j _ => (edits_dec ht slot .queued).1.tight_at (fun _ => dec_tight (hc.tight.at j))
    fun _ => hc.tight.at j⟩, h2⟩

/-! ## a push that evicts -/

/-- a push evicts a waiter whose count is the last hold on the slot the push has looked up -/
def selfEvicts (m : Mem) (s : State) (p : Permit) (fd : Int) (gen nowNs : Nat) (front : Bool) : Bool :=
  (pushLocked m s p fd gen nowNs front).gone.any fun e =>
    e.tslot = (pushSlot m.table s p.tkey).2 &&
      e.tslot.any fun i => decide ((s.ten.tenants i).inflight + (s.ten.tenants i).queued = 1)

theorem Counted.push {t t1 t2 t3 : Tenancy} (ht : TenancyOk t) {q : Nat → Nat} {slot : Option Nat}
    {key : UInt64} {gone : Option QueueEnt} {parked : Bool}
    (hc : Counted t fun j => q j + if gone.any (fun e => e.tslot = some j) then 1 else 0)
    (h1 : Edits t t1 slot (Tenant.looked · key)) (hl : ∀ i, slot = some i → Looked t1 key i)
    (h2 : t2 = (goneTen t1 gone).1)
    (hself : ∀ e i, gone = some e → e.tslot = some i → slot = some i →
      (t.tenants i).inflight + (t.tenants i).queued ≠ 1)
    (h3 : t3 = if parked then tenantIncAt t2 slot .queued else tenantPutAt t2 slot) :
    Counted t3 (fun j => q j + if parked = true ∧ slot = some j then 1 else 0) ∧
      (goneTen t1 gone).2 = false := by
  -- the evicted waiter's slot was in use, so the lookup left it as it was
  have hq1 : ∀ j, (t1.tenants j).queued = q j + if gone.any (fun e => e.tslot = some j) then 1 else 0 :=
    fun j => (h1.queued (fun j _ => looked_queued hc.tight key j) j).trans (hc.queued j)
  have hi1 : ∀ j, (t1.tenants j).inflight = (t.tenants j).inflight :=
    h1.inflight fun j _ => looked_inflight ht key j
  have hhand1 := h1.look hc.tight
  have hu1 : ∀ j, slot = some j → (t1.tenants j).used = true := fun j hj => (hl j hj).used
  have hmid : (∀ j, (t2.tenants j).queued = q j) ∧ TightBut slot t2 ∧
      (∀ j, slot = some j → (t2.tenants j).used = true) ∧ TenancyOk t2 ∧
      (t1.table = true → t2.table = true ∧ t2.slots = t1.slots) ∧ (goneTen t1 gone).2 = false := by
    cases gone with
    | none =>
      subst h2
      exact ⟨hq1, hhand1, hu1, h1.ok, fun h => ⟨h, rfl⟩, rfl⟩
    | some e =>
      obtain ⟨hd, -⟩ := edits_dec h1.ok e.tslot .queued
      have ht2 : t2 = (tenantDecAt t1 e.tslot .queued).1 := h2
      rw [← ht2] at hd
      have hpos : ∀ j, e.tslot = some j → (t1.tenants j).queued = q j + 1 := by
        intro j hj
        rw [hq1 j]
        simp [hj]
      have hused1 : ∀ j, e.tslot = some j → (t1.tenants j).used = true := by
        intro j hj
        by_cases hs : slot = some j
        · exact hu1 j hs
        · refine (hhand1 j hs).mpr (.inr ?_)
          rw [hpos j hj]
          exact Nat.succ_ne_zero _
      obtain ⟨hq2, hflag⟩ := dec_queued_spec h1.ok (fun j => by simpa using hq1 j) hused1
      refine ⟨ht2 ▸ hq2, ?_, ?_, hd.ok, hd.stay, hflag⟩
      · exact fun j hs => hd.tight_at (fun _ => dec_tight (hhand1 j hs)) fun _ => hhand1 j hs
      · intro j hs
        by_cases hj : e.tslot = some j
        · -- something else is still held here, so the slot in hand stays in use
          rw [holds_used (hd.self hj)]
          unfold Tenant.dec
          rw [if_pos (hused1 j hj)]
          have hne := hself e j rfl hj hs
          rw [← hi1 j, show (t.tenants j).queued = (t1.tenants j).queued by
            rw [hq1 j, hc.queued j]] at hne
          have hq := hpos j hj
          have hnot : ((t1.tenants j).put .queued ((t1.tenants j).get .queued - 1)).spent = false := by
            simp only [Tenant.spent, Tenant.put, Tenant.get, hused1 j hj, Bool.true_and,
              Bool.and_eq_false_iff, decide_eq_false_iff_not]
            omega
          unfold Tenant.settled
          rw [hnot]
          exact hused1 j hj
        · rw [holds_used (hd.other hj)]
          exact hu1 j hs
  obtain ⟨m1, m2, m3, m4, m5, m6⟩ := hmid
  refine ⟨?_, m6⟩
  cases parked with
  | true =>
    have hinc := edits_inc m4 slot .queued fun i hi =>
      ⟨(m5 (hl i hi).table).1, by rw [(m5 (hl i hi).table).2]; exact (hl i hi).le, .inr rfl⟩
    rw [h3, if_pos rfl]
    refine ⟨fun j => ?_, hinc.hand_inc m2 m3⟩
    by_cases hj : slot = some j
    · rw [holds_queued (hinc.self hj), if_pos ⟨rfl, hj⟩, ← m1 j]
      rfl
    · rw [holds_queued (hinc.other hj), if_neg fun hc => hj hc.2]
      exact m1 j
  | false =>
    have hput := edits_put m4 slot
    rw [h3]
    refine ⟨fun j => ?_, hput.hand_put m2 m3⟩
    exact (hput.queued (fun _ _ => (settled_counts _).2.1) j).trans (m1 j)

/-! ## the waiters of a slot, over the steps -/

def QueueEnt.onSlot (j : Nat) (e : QueueEnt) : Bool := e.tslot = some j

theorem onSlot_ite (e : QueueEnt) (j : Nat) :
    (if e.onSlot j = true then 1 else 0) = if e.tslot = some j then 1 else 0 := by
  unfold QueueEnt.onSlot
  simp only [decide_eq_true_eq]

variable {ι : Type} [DecidableEq ι]

/-- the waiters of a slot: in the ring, or taken out by a wake that is not over -/
def Sys.waiting (x : Sys ι) (j : Nat) : Nat :=
  x.fc.queue.live.countP (QueueEnt.onSlot j) + x.wakes.countP fun w => w.ent.onSlot j

def WaitOk (x : Sys ι) : Prop := Counted x.fc.ten x.waiting

/-- no push evicts the last hold on its own slot -/
def noSelfEvict (conn : ι → Conn) (x : Sys ι) : Act ι → Bool
  | .push i nowNs front firstNs ttlMs m =>
    !selfEvicts m x.fc (x.asks i firstNs ttlMs) (conn i).1 (conn i).2 nowNs front
  | _ => true

variable {conn : ι → Conn} {x x' : Sys ι} {a : Act ι}

section
variable (hp : PoolOk x.fc) (h : WaitOk x)
include hp h

omit hp in
theorem WaitOk.same (ht : x'.fc.ten = x.fc.ten) (hl : x'.fc.queue.live = x.fc.queue.live)
    (hw : x'.wakes = x.wakes) : WaitOk x' := by
  unfold WaitOk Sys.waiting
  rw [ht, hl, hw]
  exact h

omit hp in
theorem WaitOk.sameQueue (hq : SameQueue x.fc x'.fc) (hw : x'.wakes = x.wakes) : WaitOk x' :=
  h.same hq.ten (by rw [hq.queue]) hw

theorem WaitOk.leaves {s' : State} {e : QueueEnt} (hl : Leaves x.fc s' e) :
    (∀ y : Sys ι, SameQueue s' y.fc → y.wakes = x.wakes → WaitOk y) ∧
      s'.anomaly .underflow = x.fc.anomaly .underflow := by
  have hc : Counted x.fc.ten fun j => (s'.queue.live.countP (QueueEnt.onSlot j) +
      x.wakes.countP fun w => w.ent.onSlot j) + if e.tslot = some j then 1 else 0 := by
    refine ⟨fun j => ?_, h.tight⟩
    rw [h.queued j]
    unfold Sys.waiting
    rw [hl.live.countP, onSlot_ite]
    omega
  obtain ⟨h1, h2⟩ := hc.dec_queued hp.ten e.tslot
  refine ⟨fun y hy hw => ?_, ?_⟩
  · unfold WaitOk Sys.waiting
    rw [hy.ten, hl.ten, hy.queue, hw]
    exact h1
  · rw [hl.underflow, h2]
    rfl

theorem WaitOk.pushed {m : Mem} {p : Permit} {fd : Int} {gen nowNs : Nat} {front : Bool}
    (hok : selfEvicts m x.fc p fd gen nowNs front = false) :
    (∀ y : Sys ι, SameQueue (pushLocked m x.fc p fd gen nowNs front).fc y.fc → y.wakes = x.wakes →
      WaitOk y) ∧
      (pushLocked m x.fc p fd gen nowNs front).fc.anomaly .underflow = x.fc.anomaly .underflow := by
  rcases pushLocked_spec hp m p fd gen nowNs front with hr | hr
  · rw [hr]
    exact ⟨fun y hy hw => h.sameQueue hy hw, rfl⟩
  · revert hok hr
    unfold selfEvicts
    generalize pushLocked m x.fc p fd gen nowNs front = r
    intro hok hr
    obtain ⟨_, _, _, g4, g5⟩ := pushSlot_spec hp m.table p.tkey
    obtain ⟨l, hgone, hlive⟩ := hr.live
    have hc : Counted x.fc.ten fun j => (l.countP (QueueEnt.onSlot j) +
        x.wakes.countP fun w => w.ent.onSlot j) +
        if r.gone.any (fun e => e.tslot = some j) then 1 else 0 := by
      refine ⟨fun j => ?_, h.tight⟩
      rw [h.queued j]
      unfold Sys.waiting
      cases hg : r.gone with
      | none =>
        rw [hg] at hgone
        rw [← (show l = x.fc.queue.live from hgone)]
        simp
      | some e =>
        rw [hg] at hgone
        rw [hgone.1.countP, onSlot_ite]
        simp only [Option.any_some, decide_eq_true_eq]
        omega
    have hself : ∀ e i, r.gone = some e → e.tslot = some i →
        (pushSlot m.table x.fc p.tkey).2 = some i →
        (x.fc.ten.tenants i).inflight + (x.fc.ten.tenants i).queued ≠ 1 := by
      intro e i he hi hs hone
      rw [he] at hok
      simp [hi, hs, hone] at hok
    have hten := hr.ten.trans (if_congr (decide_eq_true_iff).symm rfl rfl)
    obtain ⟨h1, h2⟩ := hc.push hp.ten g4 g5 rfl hself hten
    refine ⟨fun y hy hw => ?_, ?_⟩
    · unfold WaitOk Sys.waiting
      rw [hy.ten, hy.queue, hw, hlive]
      refine ⟨fun j => ?_, h1.tight⟩
      rw [h1.queued j]
      by_cases hpk : r.rc = .parked
      · rw [if_pos hpk, countP_place, onSlot_ite]
        simp only [hpk, decide_true, true_and]
        show _ = l.countP (QueueEnt.onSlot j) +
          (if (pushSlot m.table x.fc p.tkey).2 = some j then 1 else 0) + _
        omega
      · rw [if_neg hpk]
        simp [hpk]
    · rw [hr.underflow, h2]
      rfl

omit hp in
theorem WaitOk.woken {k : Nat} {w : Wake ι} (hw : x.wakes[k]? = some w) :
    Counted x.fc.ten fun j => (x.fc.queue.live.countP (QueueEnt.onSlot j) +
      (x.wakes.eraseIdx k).countP fun w => w.ent.onSlot j) + if w.ent.tslot = some j then 1 else 0 := by
  refine ⟨fun j => ?_, h.tight⟩
  rw [h.queued j]
  unfold Sys.waiting
  rw [Run.countP_eraseIdx hw, onSlot_ite]
  omega

theorem WaitOk.shared {mem : Bool} {p : Permit} {canQueue woken : Bool}
    (hfc : x'.fc = (acquireShared mem x.fc p canQueue woken).1) (hw : x'.wakes = x.wakes) :
    WaitOk x' := by
  have hc := Counted.share hp h mem p canQueue woken
  unfold WaitOk Sys.waiting
  rw [hfc, hw, (acquireShared_spec mem x.fc p canQueue woken).1.queue]
  exact hc

theorem WaitStep.waitOk (hok : noSelfEvict conn x a = true) (hs : WaitStep conn x a x') :
    WaitOk x' := by
  cases hs with
  | still pool cap live ten calm wakes => exact h.same ten live wakes
  | refuse mem p canQueue woken v no fc wakes => exact h.shared hp fc wakes
  | leaves s e gone cap same calm wakes => exact (h.leaves hp gone).1 _ same wakes
  | push i nowNs front firstNs ttlMs m act same calm wakes =>
    subst act
    have hself : selfEvicts m x.fc (x.asks i firstNs ttlMs) (conn i).1 (conn i).2 nowNs front = false := by
      simpa [noSelfEvict] using hok
    exact (h.pushed hp hself).1 _ same wakes
  | pick e u taken cap wakes =>
    unfold WaitOk
    rw [taken.ten]
    refine ⟨fun j => ?_, h.tight⟩
    rw [h.queued j]
    unfold Sys.waiting
    rw [taken.live.countP, wakes, List.countP_append, List.countP_singleton]
    dsimp only
    omega
  | hook k ok w found fc wakes =>
    unfold WaitOk Sys.waiting
    rw [fc, wakes]
    refine ⟨fun j => ?_, h.tight⟩
    have hset := Run.countP_set found { w with hook := some ok } fun w => w.ent.onSlot j
    rw [h.queued j, Nat.add_right_cancel hset]
    rfl
  | done k w found fc wakes =>
    unfold WaitOk Sys.waiting
    rw [fc, wakes]
    exact (Counted.dec_queued hp.ten w.ent.tslot (h.woken found)).1
  | failed k m w found fc wakes =>
    unfold WaitOk Sys.waiting
    rw [fc, wakes]
    obtain ⟨_, _, ⟨h1, h2, _⟩ | ⟨_, h1, h2, _⟩⟩ := wakeFailed_spec hp m w.ent w.undo
    · rw [h1, h2]
      refine ⟨fun j => ?_, h.tight⟩
      rw [h.queued j]
      unfold Sys.waiting
      rw [countP_place, Run.countP_eraseIdx found]
      show _ = x.fc.queue.live.countP _ + (if w.ent.onSlot j = true then 1 else 0) + _
      omega
    · rw [h1, h2]
      exact (Counted.dec_queued hp.ten w.ent.tslot (h.woken found)).1
  | apply cfg m fc wakes =>
    obtain ⟨_, h2, _, _, h5, _⟩ := stateApply_spec hp m cfg
    unfold WaitOk Sys.waiting
    rw [fc, wakes, h2]
    exact Counted.edit h h5 (fun _ _ => rfl) fun j hj => by cases hj

theorem wait_micro (hok : noSelfEvict conn x a = true) (hm : Micro conn x a x') : WaitOk x' := by
  cases turn_micro hp hm with
  | unit _ _ _ wakes queue | pass _ _ _ _ _ _ _ wakes queue => exact h.sameQueue queue wakes
  | seat i nowNs mem canQueue woken slot act pc ok threads wakes fc => exact h.shared hp fc wakes
  | leave i pc threads wakes fc =>
    unfold WaitOk Sys.waiting
    rw [fc, wakes]
    unfold releaseTenant
    split
    · exact Counted.dec_inflight hp.ten h _
    · exact h
  | stay threads places units cfg effMax wait => exact wait.waitOk hp h hok

end

end Fc
