import InferenceGateway.Fc.RingOps
import InferenceGateway.Fc.TenantTable
import InferenceGateway.Fc.Frame

/-!
# The locked sections, on the list of waiters

A pool between two locked sections has a good ring, mirrors that say what the ring holds and a
tenant table with its books right (`PoolOk`).  Each locked section keeps that, and is described
here by what it does to the list of waiters, to the evicted list and to the tenants' slots; the
steps of the machine are proved from these descriptions and not from the ring.
-/

open List Option

namespace Fc

open Walk

/-- a pool between two locked sections -/
structure PoolOk (s : State) : Prop where
  ring : RingOk s.queue
  queued : s.queued = s.queue.count
  band : ∀ b, bandCounted b = true → s.bandQueued b = s.queue.bandCount b
  ten : TenancyOk s.ten

variable {q : Queue} {s s' : State} {p : Permit} {nowNs : Nat} {front : Bool}

theorem RingOk.reframe (h : RingOk q) (ev : List Evicted) (credit next : Band → Nat) :
    RingOk { q with evicted := ev, drrCredit := credit, rrNext := next } :=
  ⟨{ h with }, h.count_eq, h.band_eq, h.deadline_eq⟩

theorem queuePublish_ok (hr : RingOk s.queue) (ht : TenancyOk s.ten) : PoolOk (queuePublish s) := by
  refine ⟨hr, rfl, ?_, ht⟩
  intro b hb
  exact if_pos hb

/-- the mirrors stay right while the same waiters stay in the ring -/
theorem PoolOk.of_live (hp : PoolOk s) (hr : RingOk s'.queue) (hl : s'.queue.live = s.queue.live)
    (hn : s'.queued = s.queued) (hb : s'.bandQueued = s.bandQueued) (ht : TenancyOk s'.ten) :
    PoolOk s' := by
  refine ⟨hr, ?_, fun b hc => ?_, ht⟩
  · rw [hn, hp.queued, hp.ring.count_eq, hr.count_eq, hl]
  · rw [hb, hp.band b hc, hp.ring.band_eq b hc, hr.band_eq b hc, hl]

theorem PoolOk.retenant (hp : PoolOk s) (hq : s'.queue = s.queue) (hn : s'.queued = s.queued)
    (hb : s'.bandQueued = s.bandQueued) (ht : TenancyOk s'.ten) : PoolOk s' :=
  hp.of_live (hq ▸ hp.ring) (congrArg Queue.live hq) hn hb ht

theorem SameQueue.pool (h : SameQueue s s') (hp : PoolOk s) : PoolOk s' :=
  hp.retenant h.queue h.queued h.bandQueued (h.ten ▸ hp.ten)

/-! ## the evicted list -/

theorem evictedErase_ok (hp : PoolOk s) (test : Evicted → Bool) :
    PoolOk (s.evictedErase test) ∧ (s.evictedErase test).queue.live = s.queue.live :=
  ⟨⟨hp.ring.reframe _ _ _, hp.queued, hp.band, hp.ten⟩, rfl⟩

theorem evictedClaim_spec (hp : PoolOk s) (fd : Int) (gen : Nat) :
    PoolOk (evictedClaim s fd gen).1 ∧ (evictedClaim s fd gen).1.queue.live = s.queue.live ∧
      (evictedClaim s fd gen).1.ten = s.ten ∧
      (evictedClaim s fd gen).1.anomaly = s.anomaly ∧
      (evictedClaim s fd gen).2 = (decide (fd ≥ 0) && s.queue.evicted.any (·.names fd gen)) ∧
      (evictedClaim s fd gen).1.queue.evicted =
        if (evictedClaim s fd gen).2 then s.queue.evicted.eraseP (·.names fd gen)
        else s.queue.evicted := by
  unfold evictedClaim
  by_cases hc : fd ≥ 0 ∧ s.queue.evicted.any (·.names fd gen) = true
  · rw [if_pos hc]
    obtain ⟨h1, h2⟩ := evictedErase_ok hp (·.names fd gen)
    exact ⟨h1, h2, rfl, rfl, by simp [hc], rfl⟩
  · rw [if_neg hc]
    refine ⟨hp, rfl, rfl, rfl, ?_, rfl⟩
    simpa using hc

theorem sweepDrop_spec (take : List Evicted) : ∀ {s : State}, PoolOk s →
    PoolOk (sweepDrop s take) ∧ (sweepDrop s take).queue.live = s.queue.live ∧
      (sweepDrop s take).ten = s.ten ∧ (sweepDrop s take).anomaly = s.anomaly ∧
      (sweepDrop s take).queue.evicted =
        take.foldl (fun l x => l.eraseP (fun y => decide (y = x))) s.queue.evicted ∧
      (sweepDrop s take).queue.cap = s.queue.cap := by
  induction take with
  | nil => exact fun hp => ⟨hp, rfl, rfl, rfl, rfl, rfl⟩
  | cons x take ih =>
    intro s hp
    obtain ⟨h1, h2⟩ := evictedErase_ok hp (fun y => decide (y = x))
    obtain ⟨h3, h4, h5, h6, h7, h8⟩ := ih h1
    exact ⟨h3, h4.trans h2, h5, h6, h7, h8⟩

/-! ## a waiter leaves -/

theorem tenantDec_underflow (s : State) (slot : Option Nat) (c : Hold) :
    (s.tenantDec slot c).anomaly .underflow =
      s.anomaly .underflow + (tenantDecAt s.ten slot c).2.toNat := by
  unfold State.tenantDec State.anomalyIf
  cases (tenantDecAt s.ten slot c).2 with
  | false => rfl
  | true =>
    simp only [if_true]
    exact Function.update_self _ _ _

/-- a section that moves no waiter -/
structure Quiet (s s' : State) : Prop where
  pool : PoolOk s'
  live : s'.queue.live = s.queue.live
  evicted : s'.queue.evicted = s.queue.evicted
  ten : s'.ten = s.ten
  underflow : s'.anomaly .underflow = s.anomaly .underflow

/-- what a section that takes entry `e` off the ring and off its tenant's count leaves -/
structure Leaves (s s' : State) (e : QueueEnt) : Prop where
  pool : PoolOk s'
  live : Deletes e s.queue.live s'.queue.live
  evicted : s'.queue.evicted = s.queue.evicted
  ten : s'.ten = (tenantDecAt s.ten e.tslot .queued).1
  underflow : s'.anomaly .underflow =
    s.anomaly .underflow + (tenantDecAt s.ten e.tslot .queued).2.toNat

theorem queueTake_spec (hp : PoolOk s) (p : Permit) :
    ((queueTake s p).2.2 = true → p.state = .queued ∧ (queueTake s p).2.1 = { p with state := .ended } ∧
      ∃ e, e.fd = p.qFd ∧ e.gen = p.qGen ∧ Leaves s (queueTake s p).1 e) ∧
    ((queueTake s p).2.2 = false → queueTake s p = (s, p, false) ∧
      (p.state = .queued → ∀ e ∈ s.queue.live, ¬ (e.fd = p.qFd ∧ e.gen = p.qGen))) := by
  by_cases hc : p.state = .queued ∧ (ringFind s.queue p.qFd p.qGen p.qSlot).isSome
  · obtain ⟨slot, hf⟩ := isSome_iff_exists.mp hc.2
    obtain ⟨hs, hl, hfd, hgen⟩ := ringFind_some hp.ring hf
    obtain ⟨h1, h2⟩ := ringRemove_spec hp.ring hs hl
    rw [queueTake_some hc.1 hf]
    refine ⟨fun _ => ⟨hc.1, rfl, s.queue.ring slot, hfd, hgen, ?_⟩, nofun⟩
    refine ⟨queuePublish_ok h1 (edits_dec hp.ten _ _).1.ok, h2, rfl, rfl, ?_⟩
    exact tenantDec_underflow { s with queue := ringRemove s.queue slot } _ _
  · rw [queueTake_none hc]
    refine ⟨nofun, fun _ => ⟨rfl, fun hq => ?_⟩⟩
    exact ringFind_none hp.ring (Option.not_isSome_iff_eq_none.mp fun hf => hc ⟨hq, hf⟩)

theorem queueHolds_spec (hp : PoolOk s) (hq : p.state = .queued) :
    queueHolds s p = true ↔ ∃ e ∈ s.queue.live, e.fd = p.qFd ∧ e.gen = p.qGen := by
  unfold queueHolds
  simp only [hq, decide_true, Bool.true_and]
  constructor
  · intro h
    obtain ⟨slot, hf⟩ := isSome_iff_exists.mp h
    obtain ⟨hs, hl, hfd, hgen⟩ := ringFind_some hp.ring hf
    exact ⟨s.queue.ring slot, mem_live_iff.mpr ⟨slot, hs, rfl, hl⟩, hfd, hgen⟩
  · rintro ⟨e, he, hn⟩
    cases hf : ringFind s.queue p.qFd p.qGen p.qSlot with
    | none => exact absurd hn (ringFind_none hp.ring hf e he)
    | some slot => rfl

theorem ringPop_frame (q : Queue) :
    (ringPop q).1.evicted = q.evicted ∧ (ringPop q).1.cap = q.cap := by
  unfold ringPop
  generalize q.used = n
  induction n generalizing q with
  | zero => exact ⟨rfl, rfl⟩
  | succ n ih =>
    unfold ringPopLoop
    split
    · exact ⟨rfl, rfl⟩
    · dsimp only
      split
      · exact ⟨rfl, rfl⟩
      · exact ih _

theorem queuePop_spec (hp : PoolOk s) :
    match (queuePop s).2 with
    | some e => Leaves s (queuePop s).1 e
    | none => Quiet s (queuePop s).1 := by
  obtain ⟨h1, h2⟩ := ringPop_spec hp.ring
  unfold queuePop
  dsimp only
  cases hr : (ringPop s.queue).2 with
  | some e =>
    rw [hr] at h2
    refine ⟨queuePublish_ok h1 (edits_dec hp.ten _ _).1.ok, ⟨[], _, h2, rfl⟩,
      (ringPop_frame s.queue).1, rfl, ?_⟩
    exact tenantDec_underflow { s with queue := (ringPop s.queue).1 } _ _
  | none =>
    rw [hr] at h2
    exact ⟨queuePublish_ok h1 hp.ten, h2.2.trans h2.1.symm, (ringPop_frame s.queue).1, rfl, rfl⟩

/-! ## whom a wake picks -/

section
variable {key : Nat → Nat} {l : List Nat}

/-- the first of the slots with the lowest key -/
def Lowest (key : Nat → Nat) (l : List Nat) : Option (Nat × Nat) → Prop
  | none => l = []
  | some x => (∀ j ∈ l, key x.1 ≤ key j) ∧ l.find? (key · == key x.1) = some x.1 ∧ x.2 = key x.1

theorem Lowest.keep {best : Option (Nat × Nat)} (h : Lowest key l best) (i : Nat) :
    Lowest key (l ++ [i]) (keepLower best i (key i)) := by
  cases best with
  | none =>
    cases (h : l = [])
    exact ⟨by simp, by simp, rfl⟩
  | some b =>
    obtain ⟨hle, hfind, heq⟩ := h
    unfold keepLower
    dsimp only
    rw [heq]
    split
    case isTrue hlt =>
      have hnone : l.find? (key · == key i) = none :=
        find?_eq_none.mpr fun j hj hc => absurd (hle j hj) (by rw [beq_iff_eq.mp hc]; omega)
      refine ⟨fun j hj => ?_, by simp [find?_append, hnone], rfl⟩
      obtain hj | hj := mem_append.mp hj
      · exact hlt.le.trans (hle j hj)
      · rw [mem_singleton.mp hj]
    case isFalse hge =>
      refine ⟨fun j hj => ?_, by rw [find?_append, hfind]; rfl, heq⟩
      obtain hj | hj := mem_append.mp hj
      · exact hle j hj
      · rw [mem_singleton.mp hj]; omega

theorem see_fold {cursor : Nat} {r : RrPick}
    (hr : l.foldl (fun r i => RrPick.see cursor r i (key i)) ⟨none, none⟩ = r) :
    Lowest key (l.filter (cursor ≤ key ·)) r.after ∧ Lowest key l r.wrapped := by
  subst hr
  induction l using reverseRecOn with
  | nil => exact ⟨rfl, rfl⟩
  | append_singleton l i ih =>
    rw [foldl_append]
    refine ⟨?_, ih.2.keep i⟩
    show Lowest key _ (if key i ≥ cursor then _ else _)
    split
    case isTrue h => simpa [h] using ih.1.keep i
    case isFalse h => simpa [h] using ih.1

end

def candidates (s : State) (band : Band) (bound : Nat) : List Nat :=
  s.queue.span.filter (candidate s band bound)

def State.keyAt (s : State) (i : Nat) : Nat := rrKey (s.queue.ring i)

/-- **the tenant in turn: the first candidate of the lowest key from the cursor on, of all keys if
there is none** -/
theorem rrPick_spec (hrr : s.cfg.tenantWake = .rr) (band : Band) (bound : Nat) :
    match ringPickInBand s band bound with
    | none => candidates s band bound = []
    | some i =>
      (candidates s band bound).find? (s.keyAt · == s.keyAt i) = some i ∧
      ∀ j ∈ candidates s band bound,
        (s.queue.rrNext band ≤ s.keyAt j → s.queue.rrNext band ≤ s.keyAt i ∧ s.keyAt i ≤ s.keyAt j) ∧
        (s.queue.rrNext band ≤ s.keyAt i ∨ s.keyAt i ≤ s.keyAt j) := by
  generalize hr : (candidates s band bound).foldl
    (fun r i => RrPick.see (s.queue.rrNext band) r i (s.keyAt i)) ⟨none, none⟩ = r
  have h := see_fold hr
  have hpick : ringPickInBand s band bound = (r.after.map Prod.fst).or (r.wrapped.map Prod.fst) := by
    subst hr
    unfold ringPickInBand candidates State.keyAt
    rw [if_pos hrr]
    dsimp only
    split <;> simp [*]
  rw [hpick]
  cases ha : r.after with
  | some x =>
    rw [ha] at h
    obtain ⟨⟨hle, hfind, -⟩, -⟩ := h
    have hx := of_decide_eq_true (mem_filter.mp (mem_of_find?_eq_some hfind)).2
    refine ⟨?_, fun j hj => ⟨fun hc => ⟨hx, hle j (mem_filter.mpr ⟨hj, decide_eq_true hc⟩)⟩, .inl hx⟩⟩
    rw [find?_filter] at hfind
    rw [← hfind]
    congr 1
    funext j
    by_cases hk : s.keyAt j = s.keyAt x.1 <;> simp [hk, hx]
  | none =>
    rw [ha] at h
    cases hw : r.wrapped with
    | none => rw [hw] at h; exact h.2
    | some x =>
      rw [hw] at h
      obtain ⟨hnone, hle, hfind, -⟩ := h
      refine ⟨hfind, fun j hj => ⟨fun hc => ?_, .inr (hle j hj)⟩⟩
      exact absurd (decide_eq_true hc) (filter_eq_nil_iff.mp hnone j hj)

/-- **the pick inside a band is a candidate, and there is one if there is any** -/
theorem ringPickInBand_spec (s : State) (band : Band) (bound : Nat) :
    (∀ i, ringPickInBand s band bound = some i →
      i ∈ s.queue.span ∧ candidate s band bound i = true) ∧
    (ringPickInBand s band bound = none → ∀ i ∈ s.queue.span, candidate s band bound i = false) := by
  by_cases hrr : s.cfg.tenantWake = .rr
  · have h := rrPick_spec hrr band bound
    refine ⟨fun i hi => ?_, fun hn i hi => ?_⟩
    · rw [hi] at h
      exact mem_filter.mp (mem_of_find?_eq_some h.1)
    · rw [hn] at h
      simpa using filter_eq_nil_iff.mp h i hi
  · unfold ringPickInBand
    rw [if_neg hrr]
    refine ⟨fun i hi => ?_, fun hn i hi => ?_⟩
    · exact ⟨mem_of_find?_eq_some hi, find?_some hi⟩
    · simpa using find?_eq_none.mp hn i hi

/-- the entry at a slot is live and its tenant could take a unit now -/
def ready (s : State) (bound : Nat) (i : Nat) : Bool :=
  (s.queue.ring i).live && tenantCanRun s.ten (s.queue.ring i).tslot bound

/-- the rank the plain wake goes by -/
def wakeRank (s : State) (banded : Bool) (i : Nat) : Nat :=
  if banded then bandRank (s.queue.ring i).band else 0

/-- **the plain wake takes the first of the best rank** -/
theorem bestLoop_spec (s : State) (bound : Nat) (banded : Bool) (path : List Nat) :
    ∀ best, match bestLoop s bound banded path best with
      | none => best = none ∧ ∀ j ∈ path, ready s bound j = false
      | some x =>
        (best = some x ∧ ∀ j ∈ path, ready s bound j = true → x.2 ≤ wakeRank s banded j) ∨
        (∃ pre post, path = pre ++ x.1 :: post ∧ ready s bound x.1 = true ∧
          x.2 = wakeRank s banded x.1 ∧
          (∀ j ∈ pre, ready s bound j = true → x.2 < wakeRank s banded j) ∧
          (∀ j ∈ post, ready s bound j = true → x.2 ≤ wakeRank s banded j) ∧
          ∀ b, best = some b → x.2 < b.2) := by
  induction path with
  | nil =>
    intro best
    cases best with
    | none => exact ⟨rfl, nofun⟩
    | some x => exact .inl ⟨rfl, nofun⟩
  | cons i path ih =>
    intro best
    have hun : bestLoop s bound banded (i :: path) best =
        if (ready s bound i && best.all (fun b => decide (wakeRank s banded i < b.2))) = true then
          if wakeRank s banded i = 0 then some (i, wakeRank s banded i)
          else bestLoop s bound banded path (some (i, wakeRank s banded i))
        else bestLoop s bound banded path best := rfl
    rw [hun]
    by_cases hc : (ready s bound i && best.all (fun b => decide (wakeRank s banded i < b.2))) = true
    · rw [if_pos hc]
      obtain ⟨hr, hb⟩ := Bool.and_eq_true_iff.mp hc
      have hbest : ∀ b, best = some b → wakeRank s banded i < b.2 := by
        rintro b rfl
        simpa using hb
      by_cases h0 : wakeRank s banded i = 0
      · rw [if_pos h0]
        refine .inr ⟨[], path, rfl, hr, rfl, nofun, ?_, hbest⟩
        intro j _ _
        omega
      · rw [if_neg h0]
        have h := ih (some (i, wakeRank s banded i))
        cases hres : bestLoop s bound banded path (some (i, wakeRank s banded i)) with
        | none =>
          rw [hres] at h
          exact absurd h.1 (by simp)
        | some x =>
          rw [hres] at h
          rcases h with ⟨hx, hall⟩ | ⟨pre, post, h1, h2, h3, h4, h5, h6⟩
          · cases hx
            exact .inr ⟨[], path, rfl, hr, rfl, nofun, hall, hbest⟩
          · have hlt : x.2 < wakeRank s banded i := h6 _ rfl
            exact .inr ⟨i :: pre, post, congrArg (List.cons i) h1, h2, h3,
              forall_mem_cons.mpr ⟨fun _ => hlt, h4⟩, h5, fun b hb => Nat.lt_trans hlt (hbest b hb)⟩
    · rw [if_neg hc]
      have h := ih best
      have hskip : ready s bound i = true → ∃ b, best = some b ∧ b.2 ≤ wakeRank s banded i := by
        intro hr
        cases best with
        | none => exact absurd hc (by simp [hr])
        | some b =>
          refine ⟨b, rfl, ?_⟩
          by_contra hlt
          exact hc (by simp [hr]; omega)
      cases hres : bestLoop s bound banded path best with
      | none =>
        rw [hres] at h
        refine ⟨h.1, forall_mem_cons.mpr ⟨?_, h.2⟩⟩
        rw [← Bool.not_eq_true]
        intro hr
        obtain ⟨b, hb, _⟩ := hskip hr
        rw [h.1] at hb
        cases hb
      | some x =>
        rw [hres] at h
        rcases h with ⟨hx, hall⟩ | ⟨pre, post, h1, h2, h3, h4, h5, h6⟩
        · refine .inl ⟨hx, forall_mem_cons.mpr ⟨fun hr => ?_, hall⟩⟩
          obtain ⟨b, hb, hle⟩ := hskip hr
          rw [hx] at hb
          cases hb
          exact hle
        · refine .inr ⟨i :: pre, post, congrArg (List.cons i) h1, h2, h3,
            forall_mem_cons.mpr ⟨fun hr => ?_, h4⟩, h5, h6⟩
          obtain ⟨b, hb, hle⟩ := hskip hr
          exact Nat.lt_of_lt_of_le (h6 b hb) hle

/-- what a pick that took entry `e` leaves: the tenant's count stays until the wake is over -/
structure PickedBy (Ok : State → Prop) (s s' : State) (e : QueueEnt) : Prop where
  ok : Ok s'
  live : Deletes e s.queue.live s'.queue.live
  evicted : s'.queue.evicted = s.queue.evicted
  ten : s'.ten = s.ten
  anomaly : s'.anomaly = s.anomaly
  canRun : tenantCanRun s.ten e.tslot (tenantSvcBound s) = true

abbrev Picked := PickedBy PoolOk

/-- after the pop, before the mirrors follow -/
abbrev RingPicked := PickedBy (RingOk ·.queue)

theorem candidate_iff {b : Band} {bound i : Nat} :
    candidate s b bound i = true ↔ (s.queue.ring i).live = true ∧ (s.queue.ring i).band = b ∧
      tenantCanRun s.ten (s.queue.ring i).tslot bound = true := by
  simp [candidate, and_assoc]

section
variable (hp : PoolOk s) (pend : Band → Nat)
include hp

theorem takeInBand_spec {b : Band} {i : Nat} (hi : i ∈ s.queue.span)
    (hc : candidate s b (tenantSvcBound s) i = true) (spent : Bool) :
    RingPicked s (takeInBand s b i spent).1 (s.queue.ring i) := by
  obtain ⟨hl, -, hrun⟩ := candidate_iff.mp hc
  obtain ⟨h1, h2⟩ := ringRemove_spec hp.ring hi hl
  exact ⟨h1.reframe _ _ _, h2, rfl, rfl, rfl, hrun⟩

theorem ringPopBanded_spec (floors : Bool) :
    match (ringPopBanded s pend floors).2.1 with
    | some e => RingPicked s (ringPopBanded s pend floors).1 e
    | none => Quiet s (ringPopBanded s pend floors).1 := by
  unfold ringPopBanded
  dsimp only
  set s1 := pickCharged s (pickBand s pend floors)
  have hquiet : Quiet s s1 :=
    ⟨⟨hp.ring.reframe _ _ _, hp.queued, hp.band, hp.ten⟩, rfl, rfl, rfl, rfl⟩
  have hbound : tenantSvcBound s1 = tenantSvcBound s := rfl
  have hten : s1.ten = s.ten := rfl
  have hanom : s1.anomaly = s.anomaly := rfl
  cases (pickBand s pend floors).band with
  | none => exact hquiet
  | some b =>
    dsimp only
    cases hi : ringPickInBand s1 b (tenantSvcBound s1) with
    | none => exact hquiet
    | some i =>
      obtain ⟨hspan, hcand⟩ := (ringPickInBand_spec s1 b (tenantSvcBound s1)).1 i hi
      have h2 := takeInBand_spec hquiet.pool hspan hcand (pickBand s pend floors).spent
      refine ⟨h2.ok, hquiet.live ▸ h2.live, h2.evicted.trans hquiet.evicted, h2.ten.trans hten,
        h2.anomaly.trans hanom, ?_⟩
      rw [← hten, ← hbound]
      exact h2.canRun

/-- the policy under which a wake takes the first of the best band -/
def plainWake (s : State) : Bool :=
  !(floorsApply s (svcCap s) || !wakeStrict s || s.cfg.tenantWake = .rr)

/-- whether the ring holds a band beside standard -/
def Queue.banded (q : Queue) : Bool := q.bandCount .critical ≠ 0 || q.bandCount .sheddable ≠ 0

omit hp in
theorem ringPopRunnable_banded (h : plainWake s = false) :
    ringPopRunnable s pend = ringPopBanded s pend (floorsApply s (svcCap s)) := by
  unfold plainWake at h
  rw [Bool.not_eq_false'] at h
  exact if_pos h

omit hp in
theorem ringPopRunnable_plain (h : plainWake s = true) : ringPopRunnable s pend =
      match bestLoop s (tenantSvcBound s) s.queue.banded s.queue.span none with
      | none => (s, none, PickUndo.none)
      | some x =>
        ({ s with queue := ringRemove s.queue x.1 }, some (s.queue.ring x.1), PickUndo.none) := by
  unfold plainWake at h
  rw [Bool.not_eq_true'] at h
  exact if_neg (by rw [h]; exact Bool.false_ne_true)

theorem ringPopRunnable_spec :
    match (ringPopRunnable s pend).2.1 with
    | some e => RingPicked s (ringPopRunnable s pend).1 e
    | none => Quiet s (ringPopRunnable s pend).1 := by
  cases hpl : plainWake s with
  | false =>
    rw [ringPopRunnable_banded _ hpl]
    exact ringPopBanded_spec hp pend _
  | true =>
    rw [ringPopRunnable_plain _ hpl]
    have hbest := bestLoop_spec s (tenantSvcBound s) s.queue.banded s.queue.span none
    cases hr : bestLoop s (tenantSvcBound s) s.queue.banded s.queue.span none with
    | none => exact ⟨hp, rfl, rfl, rfl, rfl⟩
    | some x =>
      rw [hr] at hbest
      rcases hbest with ⟨hc, _⟩ | ⟨pre, post, h1, h2, _⟩
      · cases hc
      · have hspan : x.1 ∈ s.queue.span := by
          rw [h1]
          exact mem_append_right _ mem_cons_self
        obtain ⟨hl, hrun⟩ := Bool.and_eq_true_iff.mp h2
        obtain ⟨h3, h4⟩ := ringRemove_spec hp.ring hspan hl
        exact ⟨h3, h4, rfl, rfl, rfl, hrun⟩

theorem wakePop_spec :
    match (wakePop s pend).2 with
    | some (e, _) => Picked s (wakePop s pend).1 e
    | none => Quiet s (wakePop s pend).1 := by
  have h := ringPopRunnable_spec hp pend
  unfold wakePop
  dsimp only
  cases hr : (ringPopRunnable s pend).2.1 with
  | none =>
    rw [hr] at h
    exact ⟨queuePublish_ok h.pool.ring h.pool.ten, h.live, h.evicted, h.ten, h.underflow⟩
  | some e =>
    rw [hr] at h
    refine ⟨queuePublish_ok h.ok ?_, h.live, h.evicted, h.ten, h.anomaly, h.canRun⟩
    rw [h.ten]
    exact hp.ten

end

/-- a ring keeps its size, or grows up to the greatest depth -/
def Grows (c c' : Nat) : Prop := c ≤ c' ∧ (c' = c ∨ c' ≤ queueDepthMax)
theorem Grows.of_eq {c c' : Nat} (h : c' = c) : Grows c c' := ⟨h.symm.le, .inl h⟩

/-- an insertion leaves the evicted list, the pool's life and the tenants' turns alone -/
structure RingFrame (q q' : Queue) : Prop where
  evicted : q'.evicted = q.evicted
  dead : q'.dead = q.dead
  rrNext : q'.rrNext = q.rrNext
  cap : Grows q.cap q'.cap

theorem RingFrame.refl (q : Queue) : RingFrame q q := ⟨rfl, rfl, rfl, .of_eq rfl⟩

theorem ringGrow_frame (mem : Bool) (q : Queue) (want : Nat) : RingFrame q (ringGrow mem q want) := by
  have hmax : (if want > queueDepthMax then queueDepthMax else want) ≤ queueDepthMax := by
    split <;> omega
  unfold ringGrow
  revert hmax
  generalize (if want > queueDepthMax then queueDepthMax else want) = w
  intro hmax
  by_cases hw : w ≤ q.cap
  · rw [if_pos hw]
    exact .refl q
  rw [if_neg hw]
  split
  · exact .refl q
  split <;> exact ⟨rfl, rfl, rfl, Nat.le_of_not_le hw, .inr hmax⟩

theorem ringInsert_frame (m : Mem) (q : Queue) (e : QueueEnt) (front ordered : Bool) :
    RingFrame q (ringInsert m q e front ordered).1 := by
  have hroom : RingFrame q (ringMakeRoom m q front) := by
    have hfirst : ∀ y, y = (if q.used ≥ q.cap ∧ q.count < q.cap then ringCompact m.compact q else q) →
        RingFrame q y ∧ y.cap = q.cap := by
      rintro y rfl
      unfold ringCompact
      split
      · split
        · exact ⟨.refl q, rfl⟩
        split <;> exact ⟨⟨rfl, rfl, rfl, .of_eq rfl⟩, rfl⟩
      · exact ⟨.refl q, rfl⟩
    unfold ringMakeRoom
    dsimp only
    generalize (if q.used ≥ q.cap ∧ q.count < q.cap then ringCompact m.compact q else q) = y at hfirst ⊢
    obtain ⟨hy, hcap⟩ := hfirst y rfl
    split
    · have hg := ringGrow_frame m.grow y (y.cap + growBy y.cap)
      exact ⟨hg.evicted.trans hy.evicted, hg.dead.trans hy.dead, hg.rrNext.trans hy.rrNext,
        hcap ▸ hg.cap⟩
    · exact hy
  unfold ringInsert
  dsimp only
  split
  · exact .refl q
  split
  · exact hroom
  split
  · exact { hroom with }
  split <;> exact { hroom with }

theorem undoPick_ring (h : RingOk q) (u : PickUndo) :
    RingOk (undoPick q u) ∧ (undoPick q u).live = q.live ∧ (undoPick q u).evicted = q.evicted := by
  unfold undoPick
  cases u.band with
  | none => exact ⟨h, rfl, rfl⟩
  | some b => exact ⟨h.reframe _ _ _, rfl, rfl⟩

/-- **a wake that failed puts its entry back, or drops it with its tenant's count** -/
theorem wakeFailed_spec (hp : PoolOk s) (m : Mem) (e : QueueEnt) (u : PickUndo) :
    PoolOk (wakeFailed m s e u) ∧ (wakeFailed m s e u).queue.evicted = s.queue.evicted ∧
      ((wakeFailed m s e u).queue.live = place true false { e with live := true } s.queue.live ∧
          (wakeFailed m s e u).ten = s.ten ∧ (wakeFailed m s e u).anomaly = s.anomaly ∨
        (ringInsert m s.queue e true false).2 = none ∧
          (wakeFailed m s e u).queue.live = s.queue.live ∧
          (wakeFailed m s e u).ten = (tenantDecAt s.ten e.tslot .queued).1 ∧
          (wakeFailed m s e u).anomaly .underflow =
            s.anomaly .underflow + (tenantDecAt s.ten e.tslot .queued).2.toNat) := by
  obtain ⟨h1, h2⟩ := ringInsert_spec hp.ring m e true false
  have h3 := (ringInsert_frame m s.queue e true false).evicted
  obtain ⟨h4, h5, h6⟩ := undoPick_ring h1 u
  unfold wakeFailed
  dsimp only
  cases hr : (ringInsert m s.queue e true false).2 with
  | some slot =>
    rw [hr] at h2
    exact ⟨queuePublish_ok h4 hp.ten, h6.trans h3, .inl ⟨h5.trans h2.1, rfl, rfl⟩⟩
  | none =>
    rw [hr] at h2
    simp only [isSome_none, Bool.false_eq_true, if_false]
    refine ⟨queuePublish_ok h4 (edits_dec hp.ten _ _).1.ok, h6.trans h3,
      .inr ⟨trivial, h5.trans h2, rfl, ?_⟩⟩
    exact tenantDec_underflow { s with queue := (ringInsert m s.queue e true false).1 } _ _

/-! ## a request parks -/

/-- the tenants after the waiter a park takes the place of left, and whether its count was zero -/
def goneTen (t : Tenancy) : Option QueueEnt → Tenancy × Bool
  | some e => tenantDecAt t e.tslot .queued
  | none => (t, false)

def pushEnt (m : Mem) (s : State) (p : Permit) (fd : Int) (gen nowNs : Nat) (front : Bool) :
    QueueEnt :=
  parkEnt p fd gen (parkAt s p nowNs front) (pushSlot m.table s p.tkey).2

/-- what the locked section of a push that went past its first check leaves -/
structure Parks (m : Mem) (s : State) (p : Permit) (fd : Int) (gen nowNs : Nat) (front : Bool)
    (r : Pushed) : Prop where
  pool : PoolOk r.fc
  live : ∃ l, (match r.gone with
      | some e => Deletes e s.queue.live l ∧ e.band = .sheddable
      | none => l = s.queue.live) ∧
    r.fc.queue.live = if r.rc = .parked
      then place front (parkAt s p nowNs front).ordered (pushEnt m s p fd gen nowNs front) l else l
  evicted : r.fc.queue.evicted =
    s.queue.evicted ++ (r.gone.map fun e => (⟨e.fd, e.gen, nowNs⟩ : Evicted)).toList
  slot : r.rc = .parked → r.slot ∈ r.fc.queue.span ∧
    r.fc.queue.ring r.slot = pushEnt m s p fd gen nowNs front
  gone : r.gone = none ∨ ∃ k, pushEvict s p (parkAt s p nowNs front) nowNs front = some k ∧
    r.gone = some (s.queue.ring k)
  ten : r.fc.ten = if r.rc = .parked
    then tenantIncAt (goneTen (pushSlot m.table s p.tkey).1.ten r.gone).1
      (pushSlot m.table s p.tkey).2 .queued
    else tenantPutAt (goneTen (pushSlot m.table s p.tkey).1.ten r.gone).1
      (pushSlot m.table s p.tkey).2
  underflow : r.fc.anomaly .underflow = s.anomaly .underflow +
    (goneTen (pushSlot m.table s p.tkey).1.ten r.gone).2.toNat

theorem pushSlot_spec (hp : PoolOk s) (mem : Bool) (tkey : UInt64) :
    PoolOk (pushSlot mem s tkey).1 ∧ (pushSlot mem s tkey).1.queue = s.queue ∧
      (pushSlot mem s tkey).1.anomaly .underflow = s.anomaly .underflow ∧
      Edits s.ten (pushSlot mem s tkey).1.ten (pushSlot mem s tkey).2 (Tenant.looked · tkey) ∧
      ∀ i, (pushSlot mem s tkey).2 = some i → Looked (pushSlot mem s tkey).1.ten tkey i := by
  unfold pushSlot
  split
  · obtain ⟨h1, h2, _⟩ := edits_get hp.ten mem s.queue.dead tkey
    refine ⟨hp.retenant rfl rfl rfl h1.ok, rfl, ?_, h1, h2⟩
    exact anomalyIf_full_underflow _ _
  · exact ⟨hp, rfl, rfl, Edits.refl hp.ten _, nofun⟩

theorem pushEvict_some (hp : PoolOk s) {at' : ParkAt} {k : Nat}
    (h : pushEvict s p at' nowNs front = some k) :
    k ∈ s.queue.span ∧ (s.queue.ring k).live = true ∧ (s.queue.ring k).band = .sheddable := by
  unfold pushEvict at h
  split at h
  · exact ringEvictPick_spec hp.ring h
  · cases h

theorem goneTen_ok {t : Tenancy} (h : TenancyOk t) (gone : Option QueueEnt) :
    TenancyOk (goneTen t gone).1 ∧
      (t.table = true → (goneTen t gone).1.table = true ∧ (goneTen t gone).1.slots = t.slots) := by
  cases gone with
  | none => exact ⟨h, fun ht => ⟨ht, rfl⟩⟩
  | some e => exact ⟨(edits_dec h e.tslot .queued).1.ok, (edits_dec h e.tslot .queued).1.stay⟩

theorem pushEvicted_spec (hp : PoolOk s) {evict : Option Nat} {nowNs : Nat} {s1 : State}
    {gone : Option QueueEnt} (hs : pushEvicted s evict nowNs = s1) (hg : evict.map s.queue.ring = gone)
    (he : ∀ k, evict = some k → k ∈ s.queue.span ∧ (s.queue.ring k).live = true ∧
      (s.queue.ring k).band = .sheddable) :
    RingOk s1.queue ∧
    (∀ e, gone = some e → Deletes e s.queue.live s1.queue.live ∧ e.band = .sheddable) ∧
    (gone = none → s1 = s) ∧
    s1.queue.evicted = s.queue.evicted ++
      (gone.map fun e => (⟨e.fd, e.gen, nowNs⟩ : Evicted)).toList ∧
    s1.ten = (goneTen s.ten gone).1 ∧
    s1.anomaly .underflow = s.anomaly .underflow + (goneTen s.ten gone).2.toNat := by
  subst hs hg
  cases evict with
  | none => exact ⟨hp.ring, nofun, fun _ => rfl, by simp [pushEvicted], rfl, rfl⟩
  | some k =>
    obtain ⟨hk, hl, hb⟩ := he k rfl
    obtain ⟨h1, h2⟩ := ringRemove_spec hp.ring hk hl
    refine ⟨h1.reframe _ _ _, ?_, nofun, rfl, rfl, tenantDec_underflow _ _ _⟩
    rintro _ ⟨⟩
    exact ⟨h2, hb⟩

theorem pushInsert_spec (hr : RingOk s.queue) (ht : TenancyOk s.ten) (m : Mem) {e : QueueEnt}
    (hl : e.live = true) (front ordered : Bool) (gone : Option QueueEnt)
    (hpub : gone = none → PoolOk s)
    (hs : ∀ i, e.tslot = some i → s.ten.table = true ∧ i ≤ s.ten.slots) :
    let r := pushInsert m s e front ordered gone
    PoolOk r.fc ∧ r.gone = gone ∧ r.rc ≠ .share ∧
      r.fc.queue.live = (if r.rc = .parked then place front ordered e s.queue.live else s.queue.live) ∧
      r.fc.queue.evicted = s.queue.evicted ∧
      (r.rc = .parked → r.slot ∈ r.fc.queue.span ∧ r.fc.queue.ring r.slot = e) ∧
      r.fc.ten = (if r.rc = .parked then tenantIncAt s.ten e.tslot .queued
        else tenantPutAt s.ten e.tslot) ∧
      r.fc.anomaly = s.anomaly := by
  obtain ⟨i1, i2⟩ := ringInsert_spec hr m e front ordered
  have i3 := (ringInsert_frame m s.queue e front ordered).evicted
  have he : ({ e with live := true } : QueueEnt) = e := by
    cases e
    cases hl
    rfl
  unfold pushInsert
  dsimp only
  cases hres : (ringInsert m s.queue e front ordered).2 with
  | some slot =>
    rw [hres] at i2
    rw [he] at i2
    have hinc : TenancyOk (tenantIncAt s.ten e.tslot .queued) :=
      (edits_inc ht _ _ fun i hi => ⟨(hs i hi).1, (hs i hi).2, .inr rfl⟩).ok
    exact ⟨queuePublish_ok i1 hinc, rfl, by simp, i2.1, i3, fun _ => i2.2, rfl, rfl⟩
  | none =>
    rw [hres] at i2
    have hput : TenancyOk (tenantPutAt s.ten e.tslot) := (edits_put ht _).ok
    cases gone with
    | some g =>
      exact ⟨queuePublish_ok i1 hput, rfl, by simp, i2, i3, nofun, rfl, rfl⟩
    | none =>
      -- nothing is published here, and nothing the mirrors say has changed
      exact ⟨(hpub rfl).of_live i1 i2 rfl rfl hput, rfl, by simp, i2, i3, nofun, rfl, rfl⟩

/-- **the locked section of a push** -/
theorem pushLocked_spec (hp : PoolOk s) (m : Mem) (p : Permit) (fd : Int) (gen nowNs : Nat)
    (front : Bool) :
    pushLocked m s p fd gen nowNs front = ⟨s, .full, 0, none⟩ ∨
      Parks m s p fd gen nowNs front (pushLocked m s p fd gen nowNs front) := by
  obtain ⟨g1, g2, g3, _, g5⟩ := pushSlot_spec hp m.table p.tkey
  unfold pushLocked
  dsimp only
  set s0 := (pushSlot m.table s p.tkey).1
  set w := pushEvict s p (parkAt s p nowNs front) nowNs front
  have hevict : ∀ k, w = some k → k ∈ s0.queue.span ∧
      (s0.queue.ring k).live = true ∧ (s0.queue.ring k).band = .sheddable := by
    intro k hk
    rw [g2]
    exact pushEvict_some hp hk
  split
  · exact .inl rfl
  refine .inr ?_
  split
  · -- the tenant holds its share of the queue
    refine ⟨g1.retenant rfl rfl rfl (edits_put g1.ten _).ok, ⟨s.queue.live, rfl, ?_⟩, ?_,
      nofun, .inl rfl, rfl, g3⟩
    · show s0.queue.live = _
      rw [g2]
      rfl
    · show s0.queue.evicted = _
      rw [g2]
      exact (append_nil _).symm
  · have hgone : w.map s0.queue.ring = none ∨
        ∃ k, w = some k ∧ w.map s0.queue.ring = some (s.queue.ring k) := by
      rw [g2]
      cases w with
      | none => exact .inl rfl
      | some k => exact .inr ⟨k, rfl, rfl⟩
    revert hgone
    generalize hg : w.map s0.queue.ring = gone
    generalize hs1 : pushEvicted s0 w nowNs = s1
    intro hgone
    obtain ⟨e1, e2, e0, e3, e4, e5⟩ := pushEvicted_spec g1 hs1 hg hevict
    obtain ⟨t1, t2⟩ := goneTen_ok g1.ten gone
    rw [← e4] at t1 t2
    have hpub : gone = none → PoolOk s1 := by
      intro hnone
      rw [e0 hnone]
      exact g1
    have hslot : ∀ i, (pushEnt m s p fd gen nowNs front).tslot = some i →
        s1.ten.table = true ∧ i ≤ s1.ten.slots := by
      intro i hi
      have hlk := g5 i hi
      refine ⟨(t2 hlk.table).1, ?_⟩
      rw [(t2 hlk.table).2]
      exact hlk.le
    obtain ⟨i1, i2, i3, i4, i5, i6, i7, i8⟩ := pushInsert_spec e1 t1 m
      rfl front (parkAt s p nowNs front).ordered gone hpub hslot
    change Parks m s p fd gen nowNs front (pushInsert m s1 (pushEnt m s p fd gen nowNs front) front
      (parkAt s p nowNs front).ordered gone)
    rw [g2] at e2 e3
    refine ⟨i1, ⟨s1.queue.live, ?_, i4⟩, ?_, i6, ?_, ?_, ?_⟩
    · rw [i2]
      cases gone with
      | some e => exact e2 e rfl
      | none => rw [e0 rfl, g2]
    · rw [i5, i2]
      exact e3
    · rw [i2]
      exact hgone
    · rw [i7, i2, e4]
      rfl
    · rw [i8, i2, e5, g3]

theorem queuePush_fields {m : Mem} {s : State} {p : Permit} {fd : Int} {gen nowNs : Nat}
    {front : Bool} (hfd : ¬ fd < 0) :
    let r := pushLocked m s p fd gen nowNs front
    let y := queuePush m s p fd gen nowNs front
    SameQueue r.fc y.1 ∧ y.1.anomaly = r.fc.anomaly ∧ y.2.2.1 = r.rc ∧ y.2.2.2 = r.gone ∧
      y.2.1 = if r.rc = .parked
        then { parkBind p fd gen (parkAt s p nowNs front) front with qSlot := r.slot }
        else { Permit.bind with tkey := p.tkey, band := p.band, qParked := front && p.qParked } := by
  unfold queuePush
  rw [if_neg hfd]
  dsimp only
  generalize pushLocked m s p fd gen nowNs front = r
  have hgone : SameQueue r.fc (countGone r.fc r.gone nowNs) ∧
      (countGone r.fc r.gone nowNs).anomaly = r.fc.anomaly := by
    unfold countGone
    split <;> exact ⟨⟨rfl, rfl, rfl, rfl⟩, rfl⟩
  obtain ⟨hq, ha⟩ := hgone
  cases hrc : r.rc with
  | parked =>
    simp only [if_true]
    refine ⟨hq.trans ?_, ?_, trivial, trivial, trivial⟩
    · cases front <;> exact ⟨rfl, rfl, rfl, rfl⟩
    · cases front <;> exact ha
  | full | share => exact ⟨hq.trans ⟨rfl, rfl, rfl, rfl⟩, ha, rfl, rfl, rfl⟩

theorem queuePush_negative {m : Mem} {fd : Int} {gen : Nat} (hfd : fd < 0) :
    queuePush m s p fd gen nowNs front = (s, p, .full, none) :=
  if_pos hfd

/-! ## a configuration is applied -/

theorem adaptReset_queue (s : State) (old : Cfg) :
    SameQueue s (adaptReset s old) ∧ (adaptReset s old).anomaly = s.anomaly := by
  unfold adaptReset
  dsimp only
  split <;> exact ⟨⟨rfl, rfl, rfl, rfl⟩, rfl⟩

variable (hp : PoolOk s) (mem : Bool) (p : Permit) (canQueue woken : Bool)
include hp

theorem applyShare_spec : PoolOk (applyShare mem s) ∧ (applyShare mem s).queue = s.queue ∧
      (applyShare mem s).anomaly = s.anomaly ∧ Edits s.ten (applyShare mem s).ten none id := by
  unfold applyShare
  split
  · have h := edits_ensure hp.ten mem s.queue.dead
    exact ⟨hp.retenant rfl rfl rfl h.ok, rfl, rfl, h⟩
  · exact ⟨hp, rfl, rfl, Edits.refl hp.ten id⟩

/-- **a configuration change moves no waiter** -/
theorem stateApply_spec (m : Mem) (cfg : Cfg) :
    PoolOk (stateApply m s cfg) ∧ (stateApply m s cfg).queue.live = s.queue.live ∧
      (stateApply m s cfg).queue.evicted = s.queue.evicted ∧
      (stateApply m s cfg).anomaly = s.anomaly ∧
      Edits s.ten (stateApply m s cfg).ten none id ∧
      Grows s.queue.cap (stateApply m s cfg).queue.cap := by
  have hp1 : PoolOk { s with cfg := cfgClamp cfg } := { hp with }
  obtain ⟨a1, a2, a3, a4⟩ := applyShare_spec hp1 m.table
  unfold stateApply
  dsimp only
  revert a1 a2 a3 a4
  generalize applyShare m.table { s with cfg := cfgClamp cfg } = s1
  intro a1 a2 a3 a4
  have hreset := adaptReset_queue
    { s1 with warmSinceNs := if s1.cfg.warmupMs = 0 then fun _ => 0 else s1.warmSinceNs } s.cfg
  revert hreset
  generalize adaptReset
    { s1 with warmSinceNs := if s1.cfg.warmupMs = 0 then fun _ => 0 else s1.warmSinceNs } s.cfg = s2
  rintro ⟨⟨r1, r2, r3, r4⟩, r5⟩
  -- the policy's own counters are no part of the ring's books
  have hring : RingOk s2.queue := r1.symm ▸ a1.ring
  have q1 := hring.reframe s2.queue.evicted (if s.cfg.wakePolicy ≠ s2.cfg.wakePolicy ∨
        bandsByNumber.any (fun b => s.cfg.bandWeight b ≠ s2.cfg.bandWeight b) = true
      then fun _ => 0 else s2.queue.drrCredit)
    (if s.cfg.tenantWake ≠ s2.cfg.tenantWake then fun _ => 0 else s2.queue.rrNext)
  have hlive : s2.queue.live = s.queue.live := by rw [r1, a2]
  have hev : s2.queue.evicted = s.queue.evicted := by rw [r1, a2]
  have hsame : s2.queue.live = s1.queue.live := congrArg Queue.live r1
  have hten : Edits s.ten s2.ten none id := r4 ▸ a4
  have hcap : s.queue.cap = s2.queue.cap := by rw [r1, a2]
  have hgrow : ∀ y, y.cap = s.queue.cap →
      Grows s.queue.cap (ringGrow m.grow y s2.cfg.maxQueueDepth).cap :=
    fun y hy => hy ▸ (ringGrow_frame _ y _).cap
  split
  · obtain ⟨g1, g2⟩ := ringGrow_spec q1 m.grow s2.cfg.maxQueueDepth
    exact ⟨a1.of_live g1 (g2.trans hsame) r2 r3 hten.ok, g2.trans hlive,
      (ringGrow_frame _ _ _).evicted.trans hev, r5.trans a3, hten, hgrow _ hcap.symm⟩
  · exact ⟨a1.of_live q1 hsame r2 r3 hten.ok, hlive, hev, r5.trans a3, hten, .of_eq hcap.symm⟩

omit hp in
theorem adaptTick_queue (s : State) (sig : Signal) :
    SameQueue s (adaptTick s sig) ∧ (adaptTick s sig).anomaly = s.anomaly := by
  unfold adaptTick
  split
  · exact ⟨SameQueue.refl s, rfl⟩
  split
  · exact ⟨⟨rfl, rfl, rfl, rfl⟩, rfl⟩
  split <;> exact ⟨⟨rfl, rfl, rfl, rfl⟩, rfl⟩

/-! ## the locked section of an acquire -/

theorem acquireShared_ten : ∃ t1, Edits s.ten t1 (sharedGet mem s p).2.1 (Tenant.looked · p.tkey) ∧
      (∀ i, (sharedGet mem s p).2.1 = some i → Looked t1 p.tkey i) ∧
      match (acquireShared mem s p canQueue woken).2 with
      | .ok slot => slot = (sharedGet mem s p).2.1 ∧
          Edits t1 (acquireShared mem s p canQueue woken).1.ten slot (Tenant.inc .inflight)
      | .error _ => (acquireShared mem s p canQueue woken).1.ten =
          tenantPutAt t1 (sharedGet mem s p).2.1 := by
  obtain ⟨_, t1, ht1, hres⟩ := acquireShared_spec mem s p canQueue woken
  obtain ⟨g1, g2, _⟩ := edits_get hp.ten mem s.queue.dead p.tkey
  change Edits s.ten (sharedGet mem s p).1 (sharedGet mem s p).2.1 (Tenant.looked · p.tkey) at g1
  have hboth : Edits s.ten t1 (sharedGet mem s p).2.1 (Tenant.looked · p.tkey) ∧
      ∀ i, (sharedGet mem s p).2.1 = some i → Looked t1 p.tkey i := by
    rcases ht1 with rfl | rfl
    · exact ⟨g1, g2⟩
    · obtain ⟨c1, c2, c3, c4, _⟩ := tenantWaiterCanRun_spec g1.ok (tenantSvcBound s)
      refine ⟨⟨c1, fun ht => ?_, fun j => (c4 j).trans (g1.holds j)⟩, ?_⟩
      · rw [c2, c3]
        exact g1.stay ht
      · intro i hi
        obtain ⟨l1, l2, l3, l4⟩ := g2 i hi
        refine ⟨c2.trans l1, by rw [c3]; exact l2, (holds_used (c4 i)).trans l3, ?_⟩
        intro hlt
        rw [c3] at hlt
        exact (holds_key (c4 i)).trans (l4 hlt)
  refine ⟨t1, hboth.1, hboth.2, ?_⟩
  cases hr : (acquireShared mem s p canQueue woken).2 with
  | ok slot =>
    rw [hr] at hres
    obtain ⟨rfl, _, h3, _⟩ := hres
    rw [h3]
    exact ⟨rfl, edits_inc hboth.1.ok _ _ fun i hi =>
      ⟨(hboth.2 i hi).table, (hboth.2 i hi).le, .inl (hboth.2 i hi).used⟩⟩
  | error v =>
    rw [hr] at hres
    exact hres.2

theorem acquireShared_pool : PoolOk (acquireShared mem s p canQueue woken).1 := by
  obtain ⟨hf, _⟩ := acquireShared_spec mem s p canQueue woken
  obtain ⟨t1, h1, h2, h3⟩ := acquireShared_ten hp mem p canQueue woken
  refine hp.retenant hf.queue hf.queued hf.bandQueued ?_
  cases hr : (acquireShared mem s p canQueue woken).2 with
  | ok slot =>
    rw [hr] at h3
    exact h3.2.ok
  | error v =>
    rw [hr] at h3
    rw [h3]
    exact (edits_put h1.ok _).ok

end Fc
