import InferenceGateway.Fc.Turns

/-!
# Waiters stand in the order they arrived

A request parks at the tail with the time of its park, or between the waiters by an earlier time it
brings along; one that was woken in vain, and one whose wake could not be delivered, goes back by
the time it was first given.  As long as the parks that read the clock read it in order, the ring
is sorted by arrival (`FifoOk`), and the plain wake takes the first waiter of the best band.

* `place_inOrder`   one insertion;
* `fifo_micro`      one step;
* `fifo_kept`       whole runs, and what the plain wake takes.
-/

set_option linter.unusedSectionVars false

open Function List Run

namespace Fc

open Walk

/-! ## one insertion -/

def InOrder (l : List QueueEnt) : Prop := l.Pairwise fun e y => e.enqueueNs ≤ y.enqueueNs

variable {y e : QueueEnt} {l : List QueueEnt}

theorem stopFront_live (h : y.live = true) (e : QueueEnt) :
    stopFront y e = decide (e.enqueueNs ≤ y.enqueueNs) := by
  unfold stopFront
  rw [h, Bool.true_and]

theorem stopBack_live (h : y.live = true) (e : QueueEnt) :
    stopBack y e = decide (OrderDual.toDual e.enqueueNs ≤ OrderDual.toDual y.enqueueNs) := by
  unfold stopBack
  rw [h]
  exact decide_eq_decide.mpr OrderDual.toDual_le_toDual.symm

theorem place_inOrder {front ordered : Bool} (h : InOrder l) (hl : ∀ y ∈ l, y.live = true)
    (he : front = false → ordered = false → ∀ y ∈ l, y.enqueueNs ≤ e.enqueueNs) :
    InOrder (place front ordered e l) := by
  cases front with
  | true => exact sift_sorted QueueEnt.enqueueNs stopFront e l (fun y hy => stopFront_live (hl y hy) e) h
  | false =>
    cases ordered with
    | true =>
      -- from the tail the list is read backwards, and the order with it
      have hrev : (sift stopBack e l.reverse).Pairwise fun y z =>
          OrderDual.toDual y.enqueueNs ≤ OrderDual.toDual z.enqueueNs := by
        refine sift_sorted (fun y => OrderDual.toDual y.enqueueNs) stopBack e l.reverse ?_ ?_
        · intro y hy
          exact stopBack_live (hl y (mem_reverse.mp hy)) e
        · exact pairwise_reverse.mpr h
      exact pairwise_reverse.mpr hrev
    | false =>
      refine pairwise_append.mpr ⟨h, pairwise_singleton _ _, ?_⟩
      intro y hy z hz
      rw [mem_singleton.mp hz]
      exact he rfl rfl y hy

theorem InOrder.deletes {l' : List QueueEnt} (h : InOrder l) (hd : Deletes e l l') :
    InOrder l' := by
  obtain ⟨a, b, rfl, rfl⟩ := hd
  exact h.sublist (Sublist.append_left (sublist_cons_self e b) a)

theorem parkAt_le (s : State) (p : Permit) (nowNs : Nat) (front : Bool) :
    (goesBack p front = true → (parkAt s p nowNs front).enqueueNs = p.qEnqueueNs) ∧
      (goesBack p front = false → (parkAt s p nowNs front).enqueueNs ≤ nowNs ∧
        ((parkAt s p nowNs front).ordered = false → (parkAt s p nowNs front).enqueueNs = nowNs)) := by
  unfold parkAt
  refine ⟨fun hg => if_pos hg, fun hg => ?_⟩
  rw [hg]
  by_cases hf : firstParked p nowNs front = true
  · rw [if_pos hf]
    have hlt : p.qFirstNs < nowNs := by
      exact of_decide_eq_true (Bool.and_eq_true_iff.mp hf).2
    exact ⟨hlt.le, fun hc => absurd (hf.symm.trans hc) nofun⟩
  · rw [if_neg hf]
    exact ⟨le_refl _, fun _ => rfl⟩

section
variable {ι : Type} [DecidableEq ι]

/-- a park that reads the clock reads no earlier a time than the last one did -/
def parksInOrder (conn : ι → Conn) (x : Sys ι) : Act ι → Bool
  | .push i nowNs front firstNs ttlMs m =>
    let p := x.asks i firstNs ttlMs
    let r := queuePush m x.fc p (conn i).1 (conn i).2 nowNs front
    !(r.2.2.1 = .parked && firstPark p front) || decide (x.parkNs ≤ nowNs)
  | _ => true

/-- the ring is sorted by arrival, and no time the pool still holds is past the last park's -/
structure FifoOk (x : Sys ι) : Prop where
  sorted : InOrder x.fc.queue.live
  live : ∀ e ∈ x.fc.queue.live, e.enqueueNs ≤ x.parkNs
  wakes : ∀ w ∈ x.wakes, w.ent.enqueueNs ≤ x.parkNs
  permits : ∀ i, (x.threads i).permit.qEnqueueNs ≤ x.parkNs

variable {conn : ι → Conn} {x x' : Sys ι} {a : Act ι}

theorem FifoOk.pool (h : FifoOk x) (ht : ∀ j, (x'.threads j).permit.qEnqueueNs ≤ x.parkNs)
    (hs : InOrder x'.fc.queue.live) (hl : ∀ e ∈ x'.fc.queue.live, e ∈ x.fc.queue.live)
    (hw : ∀ w ∈ x'.wakes, w.ent.enqueueNs ≤ x.parkNs) (hn : x'.parkNs = x.parkNs) : FifoOk x' := by
  refine ⟨hs, fun e he => ?_, ?_, ?_⟩
  · rw [hn]
    exact h.live e (hl e he)
  · rw [hn]
    exact hw
  · rw [hn]
    exact ht

theorem concludeIf_parkNs (x : Sys ι) (i : ι) (d : Decision) (c : Bool) :
    (x.concludeIf i d c).parkNs = x.parkNs := by
  unfold Sys.concludeIf
  split <;> rfl

/-! ## the times a permit carries -/

theorem acquireStart_enqueueNs (s : State) (p : Permit) (canQueue woken : Bool) (tkey : UInt64)
    (band : Band) : (acquireStart s p canQueue woken tkey band).1.qEnqueueNs ≤ p.qEnqueueNs := by
  have hbind : (acquireBind p woken tkey band).qEnqueueNs ≤ p.qEnqueueNs := by
    show (if woken then p.qEnqueueNs else 0) ≤ _
    split
    · exact le_refl _
    · exact Nat.zero_le _
  unfold acquireStart
  split
  · exact hbind
  split
  · exact hbind
  split
  · exact hbind
  split <;> exact hbind

theorem permitSettle_enqueueNs (p : Permit) (st : PState) :
    (permitSettle p st).1.qEnqueueNs = p.qEnqueueNs := by
  unfold permitSettle
  split <;> rfl

theorem resumed_enqueueNs (p : Permit) : (queueResumed p).1.qEnqueueNs = p.qEnqueueNs ∧
    (resumeEvicted p).1.qEnqueueNs = p.qEnqueueNs := by
  have h := permitSettle_enqueueNs p .none
  unfold queueResumed resumeEvicted
  dsimp only
  constructor
  · split
    · exact h
    · rfl
  · split
    · exact h
    · rfl

theorem evictedSettle_enqueueNs (s : State) (p : Permit) (fd : Int) (gen : Nat) :
    (evictedSettle s p fd gen).2.1.qEnqueueNs = p.qEnqueueNs := by
  unfold evictedSettle
  dsimp only
  split
  · exact permitSettle_enqueueNs p .evicted
  · rfl

/-! ## the steps -/

section
variable (hp : PoolOk x.fc) (h : FifoOk x)
  (ha : ∀ i nowNs front firstNs ttlMs m, a ≠ .push i nowNs front firstNs ttlMs m)
include hp h ha

omit ha in
theorem FifoOk.parks {i : ι} {nowNs firstNs ttlMs : Nat} {front : Bool} {m : Mem}
    (hok : parksInOrder conn x (.push i nowNs front firstNs ttlMs m) = true) :
    FifoOk (x.park conn i nowNs front firstNs ttlMs m) := by
  simp only [parksInOrder] at hok
  unfold Sys.park
  dsimp only
  generalize hperm : x.asks i firstNs ttlMs = p at hok ⊢
  have henq : p.qEnqueueNs ≤ x.parkNs := by
    rw [← hperm]
    exact h.permits i
  by_cases hfd : (conn i).1 < 0
  · rw [queuePush_negative hfd]
    exact ⟨h.sorted, h.live, h.wakes,
      update_all (fun _ (th : Thread) => th.permit.qEnqueueNs ≤ x.parkNs) henq h.permits⟩
  obtain ⟨hq, _, hrc, hgone, hpm⟩ := @queuePush_fields m x.fc p (conn i).1 (conn i).2 nowNs front hfd
  have hspec := pushLocked_spec hp m p (conn i).1 (conn i).2 nowNs front
  generalize queuePush m x.fc p (conn i).1 (conn i).2 nowNs front = g at hq hrc hgone hpm hok ⊢
  generalize pushLocked m x.fc p (conn i).1 (conn i).2 nowNs front = r at hq hrc hgone hpm hspec
  rw [hrc] at hok
  have hlive : g.1.queue.live = r.fc.queue.live := by rw [hq.queue]
  -- what a park that did not go ahead leaves
  have rest : ∀ {y : Sys ι} {pc : Pc}, y.fc.queue.live = r.fc.queue.live →
      InOrder r.fc.queue.live → (∀ e ∈ r.fc.queue.live, e.enqueueNs ≤ y.parkNs) →
      x.parkNs ≤ y.parkNs → y.wakes = x.wakes →
      y.threads = update x.threads i ⟨g.2.1, pc⟩ →
      g.2.1.qEnqueueNs ≤ y.parkNs → FifoOk y := by
    intro y pc y1 y2 y3 y4 y5 y6 y7
    refine ⟨y1 ▸ y2, y1 ▸ y3, ?_, ?_⟩
    · rw [y5]
      exact fun w hw => (h.wakes w hw).trans y4
    · rw [y6]
      exact update_all (fun _ (th : Thread) => th.permit.qEnqueueNs ≤ y.parkNs) y7 fun j =>
        (h.permits j).trans y4
  rcases hspec with hr | hr
  · have hno : g.2.2.1 ≠ .parked := by
      rw [hrc, hr]
      exact nofun
    rw [if_neg (c := g.2.2.1 = .parked ∧ firstPark p front = true) fun hc => hno hc.1]
    refine rest hlive (hr ▸ h.sorted) (hr ▸ h.live) (le_refl _) rfl rfl ?_
    rw [hpm, if_neg (hrc ▸ hno)]
    exact Nat.zero_le _
  · obtain ⟨l, hl, hlv⟩ := hr.live
    -- the ring without the waiter the park took the place of
    have hsub : InOrder l ∧ ∀ y ∈ l, y ∈ x.fc.queue.live := by
      cases hg : r.gone with
      | none =>
        rw [hg] at hl
        rw [show l = x.fc.queue.live from hl]
        exact ⟨h.sorted, fun _ hy => hy⟩
      | some e =>
        rw [hg] at hl
        exact ⟨h.sorted.deletes hl.1, fun _ hy => hl.1.mem hy⟩
    by_cases hparked : r.rc = .parked
    · rw [if_pos hparked] at hlv hpm
      obtain ⟨hback, hfirst⟩ := parkAt_le x.fc p nowNs front
      -- the time of the entry, and of the last park after it
      generalize hnew : (if g.2.2.1 = .parked ∧ firstPark p front = true then nowNs else x.parkNs) = parkNs
      have htime : (parkAt x.fc p nowNs front).enqueueNs ≤ parkNs ∧ x.parkNs ≤ parkNs ∧
          (front = false → (parkAt x.fc p nowNs front).ordered = false →
            x.parkNs ≤ (parkAt x.fc p nowNs front).enqueueNs) := by
        cases hg : goesBack p front with
        | true =>
          rw [if_neg (by simp [firstPark, hg])] at hnew
          rw [hback hg, ← hnew]
          refine ⟨henq, le_refl _, fun hf => ?_⟩
          rw [hf] at hg
          cases hg
        | false =>
          have hfp : firstPark p front = true := by rw [firstPark, hg, Bool.not_false]
          rw [if_pos ⟨hrc.trans hparked, hfp⟩] at hnew
          rw [hparked, hfp] at hok
          simp only [decide_true, Bool.and_self, Bool.not_true, Bool.false_or,
            decide_eq_true_eq] at hok
          rw [← hnew]
          refine ⟨(hfirst hg).1, hok, fun _ ho => ?_⟩
          rw [(hfirst hg).2 ho]
          exact hok
      refine rest hlive ?_ ?_ htime.2.1 rfl rfl ?_
      · rw [hlv]
        refine place_inOrder hsub.1 (fun y hy => live_mem (hsub.2 y hy)) fun hf ho y hy => ?_
        exact (h.live y (hsub.2 y hy)).trans (htime.2.2 hf ho)
      · rw [hlv]
        intro e he
        rcases mem_place.mp he with rfl | he
        · exact htime.1
        · exact (h.live e (hsub.2 e he)).trans htime.2.1
      · rw [hpm]
        exact htime.1
    · rw [if_neg hparked] at hlv hpm
      rw [if_neg (c := g.2.2.1 = .parked ∧ firstPark p front = true) fun hc => hparked (hrc ▸ hc.1)]
      refine rest hlive ?_ ?_ (le_refl _) rfl rfl ?_
      · rw [hlv]
        exact hsub.1
      · rw [hlv]
        exact fun e he => h.live e (hsub.2 e he)
      · rw [hpm]
        exact Nat.zero_le _

omit hp h in
theorem times_micro (hm : Micro conn x a x') : x'.parkNs = x.parkNs ∧
      ∀ j, (x'.threads j).permit.qEnqueueNs ≤ (x.threads j).permit.qEnqueueNs := by
  have put : ∀ {y : Sys ι} {i : ι} {p : Permit} {pc : Pc}, y.parkNs = x.parkNs →
      y.threads = update x.threads i ⟨p, pc⟩ →
      p.qEnqueueNs ≤ (x.threads i).permit.qEnqueueNs → y.parkNs = x.parkNs ∧
        ∀ j, (y.threads j).permit.qEnqueueNs ≤ (x.threads j).permit.qEnqueueNs := by
    intro y i p pc hn ht hq
    rw [ht]
    exact ⟨hn, update_all (fun j (th : Thread) => th.permit.qEnqueueNs ≤ (x.threads j).permit.qEnqueueNs) hq
      fun _ => le_rfl⟩
  cases hm with
  | push => exact absurd rfl (ha _ _ _ _ _ _)
  | acquire => exact put rfl rfl (acquireStart_enqueueNs _ _ _ _ _ _)
  | bypass => exact put rfl rfl (Nat.zero_le _)
  | epAcquire | acqTake | acqTakeNot | acqRefuse | acqOver | acqBand | legForce | moveForce | relSvc
  | relSvcNot | relBand | relTakeNot | resume | resHolds | epAny | move | acqShared | acqSharedNot
  | legTry | moveLand | relTenant | relClaim | resClaim | resWait | pushHook =>
    exact put rfl rfl (le_refl _)
  | releaseRole | relRole =>
    refine put rfl rfl ?_
    unfold Fc.releaseRole
    repeat' split
    all_goals exact le_refl _
  | release =>
    refine put rfl rfl ?_
    unfold releaseStart
    split <;> exact le_refl _
  | legLand =>
    refine put rfl rfl ?_
    unfold epLand
    split <;> exact le_refl _
  | relTake hpc ht | deadline ht => exact put rfl rfl (by rw [taken_permit ht])
  | relDrop | relSettle =>
    exact put (concludeIf_parkNs _ _ _ _) (concludeIf_threads _ _ _ _) (le_refl _)
  | resEvict =>
    exact put (concludeIf_parkNs _ _ _ _) (concludeIf_threads _ _ _ _) (resumed_enqueueNs _).2.le
  | resTurn =>
    exact put (concludeIf_parkNs _ _ _ _) (concludeIf_threads _ _ _ _) (resumed_enqueueNs _).1.le
  | drainFn =>
    exact put (concludeIf_parkNs _ _ _ _) (concludeIf_threads _ _ _ _) (permitSettle_enqueueNs _ _).le
  | sweepFn =>
    exact put (concludeIf_parkNs _ _ _ _) (concludeIf_threads _ _ _ _) (evictedSettle_enqueueNs _ _ _ _).le
  | epAnyNot | deadlineNot | resumeNot | wakeNone | wakePop | wakeHook | wakeDone | wakeFailed | pop
  | sweepStart | sweepEnd | apply | tick | warm | drain => exact ⟨rfl, fun _ => le_refl _⟩

theorem WaitStep.fifo (hn : x'.parkNs = x.parkNs)
    (ht : ∀ j, (x'.threads j).permit.qEnqueueNs ≤ x.parkNs) (hs : WaitStep conn x a x') :
    FifoOk x' := by
  have quiet : x'.fc.queue.live = x.fc.queue.live → x'.wakes = x.wakes → FifoOk x' :=
    fun hl hw => h.pool ht (hl ▸ h.sorted) (fun e he => hl ▸ he) (hw ▸ h.wakes) hn
  cases hs with
  | still pool cap live ten calm wakes => exact quiet live wakes
  | refuse mem p canQueue woken v no fc wakes =>
    exact quiet (by rw [fc, (acquireShared_spec _ x.fc _ _ _).1.queue]) wakes
  | leaves s e gone cap same calm wakes =>
    have hd := gone.live
    rw [← same.queue] at hd
    exact h.pool ht (h.sorted.deletes hd) (fun e he => hd.mem he) (wakes ▸ h.wakes) hn
  | push i nowNs front firstNs ttlMs m act => exact absurd act (ha _ _ _ _ _ _)
  | pick e u taken cap wakes =>
    refine h.pool ht (h.sorted.deletes taken.live) (fun y hy => taken.live.mem hy) ?_ hn
    rw [wakes]
    intro w hw
    rcases mem_append.mp hw with hw | hw
    · exact h.wakes w hw
    · rw [mem_singleton.mp hw]
      exact h.live e taken.live.mem_self
  | hook k ok w found fc wakes =>
    refine h.pool ht (fc ▸ h.sorted) (fun y hy => fc ▸ hy) ?_ hn
    rw [wakes]
    intro v hv
    rcases mem_or_eq_of_mem_set hv with hv | rfl
    · exact h.wakes v hv
    · exact h.wakes w (mem_of_getElem? found)
  | done k w found fc wakes =>
    have hl : x'.fc.queue.live = x.fc.queue.live := by
      rw [fc]
      rfl
    refine h.pool ht (hl ▸ h.sorted) (fun y hy => hl ▸ hy) ?_ hn
    rw [wakes]
    exact fun v hv => h.wakes v (mem_of_mem_eraseIdx hv)
  | failed k m w found fc wakes =>
    have hwakes : ∀ v ∈ x'.wakes, v.ent.enqueueNs ≤ x'.parkNs := by
      rw [wakes, hn]
      exact fun v hv => h.wakes v (mem_of_mem_eraseIdx hv)
    obtain ⟨_, _, ⟨hl, _⟩ | ⟨_, hl, _⟩⟩ := wakeFailed_spec hp m w.ent w.undo
    · rw [← fc] at hl
      refine ⟨?_, ?_, hwakes, hn ▸ ht⟩
      · rw [hl]
        exact place_inOrder h.sorted (fun y hy => live_mem hy) fun hc => by cases hc
      · rw [hl, hn]
        intro e he
        rcases mem_place.mp he with rfl | he
        · exact h.wakes w (mem_of_getElem? found)
        · exact h.live e he
    · rw [← fc] at hl
      exact h.pool ht (hl ▸ h.sorted) (fun y hy => hl ▸ hy) (hn ▸ hwakes) hn
  | apply cfg m fc wakes => exact quiet (by rw [fc, (stateApply_spec hp _ _).2.1]) wakes

omit ha in
theorem fifo_micro (hok : parksInOrder conn x a = true) (hm : Micro conn x a x') : FifoOk x' := by
  by_cases ha : ∀ i nowNs front firstNs ttlMs m, a ≠ .push i nowNs front firstNs ttlMs m
  · obtain ⟨hn, ht⟩ := times_micro ha hm
    have ht' : ∀ j, (x'.threads j).permit.qEnqueueNs ≤ x.parkNs := fun j => (ht j).trans (h.permits j)
    have quiet : x'.fc.queue = x.fc.queue → x'.wakes = x.wakes → FifoOk x' :=
      fun hq hw => h.pool ht' (hq ▸ h.sorted) (fun e he => hq ▸ he) (hw ▸ h.wakes) hn
    cases turn_micro hp hm with
    | unit _ _ _ wakes queue | pass _ _ _ _ _ _ _ wakes queue => exact quiet queue.queue wakes
    | seat i nowNs mem canQueue woken slot act pc ok threads wakes fc =>
      exact quiet (by rw [fc, (acquireShared_spec _ x.fc _ _ _).1.queue]) wakes
    | leave i pc threads wakes fc =>
      exact quiet (by rw [fc, (releaseTenant_spec hp (x.threads i).permit).2.2]) wakes
    | stay threads places units cfg effMax wait => exact wait.fifo hp h ha hn ht'
  · simp only [not_forall, not_not] at ha
    obtain ⟨i, nowNs, front, firstNs, ttlMs, m, rfl⟩ := ha
    cases hm with
    | push => exact h.parks hp hok

end

/-! ## what the plain wake takes -/

/-- the entry a wake should take: of the best band among the waiters whose tenant may run, and the
oldest of them in it -/
structure FirstToRun (s : State) (e : QueueEnt) : Prop where
  live : e ∈ s.queue.live
  canRun : tenantCanRun s.ten e.tslot (tenantSvcBound s) = true
  rank : ∀ y ∈ s.queue.live, tenantCanRun s.ten y.tslot (tenantSvcBound s) = true →
    bandRank e.band ≤ bandRank y.band
  oldest : ∀ y ∈ s.queue.live, tenantCanRun s.ten y.tslot (tenantSvcBound s) = true →
    bandRank y.band = bandRank e.band → e.enqueueNs ≤ y.enqueueNs

theorem standard_of_not_banded {q : Queue} (h : RingOk q) (hb : q.banded = false) {e : QueueEnt}
    (he : e ∈ q.live) : e.band = .standard := by
  have hzero : ∀ b, bandCounted b = true → q.bandCount b = 0 → e.band ≠ b := by
    intro b hc h0 heq
    rw [h.band_eq b hc, countP_eq_zero] at h0
    exact h0 e he (decide_eq_true heq)
  obtain ⟨h1, h2⟩ := Bool.or_eq_false_iff.mp hb
  have hcrit := hzero .critical rfl (by simpa using h1)
  have hshed := hzero .sheddable rfl (by simpa using h2)
  cases hband : e.band with
  | standard => rfl
  | critical => exact absurd hband hcrit
  | sheddable => exact absurd hband hshed

theorem wakeRank_rank {s : State} (h : RingOk s.queue) {i j : Nat} (hi : s.queue.ring i ∈ s.queue.live)
    (hj : s.queue.ring j ∈ s.queue.live) :
    wakeRank s s.queue.banded i ≤ wakeRank s s.queue.banded j ↔
      bandRank (s.queue.ring i).band ≤ bandRank (s.queue.ring j).band := by
  cases hb : s.queue.banded with
  | true => exact Iff.rfl
  | false =>
    rw [standard_of_not_banded h hb hi, standard_of_not_banded h hb hj]
    exact ⟨fun _ => le_refl _, fun _ => le_refl _⟩

theorem plain_takes_first {s : State} (hp : PoolOk s) (ho : InOrder s.queue.live)
    (hpl : plainWake s = true) (pend : Band → Nat) :
    match (wakePop s pend).2 with
    | some (e, _) => FirstToRun s e
    | none => ∀ y ∈ s.queue.live, tenantCanRun s.ten y.tslot (tenantSvcBound s) = false := by
  have hbest := bestLoop_spec s (tenantSvcBound s) s.queue.banded s.queue.span none
  unfold wakePop
  rw [ringPopRunnable_plain _ hpl]
  cases hr : bestLoop s (tenantSvcBound s) s.queue.banded s.queue.span none with
  | none =>
    rw [hr] at hbest
    intro y hy
    obtain ⟨j, hj, rfl, hl⟩ := mem_live_iff.mp hy
    have hnot := hbest.2 j hj
    unfold ready at hnot
    rw [hl] at hnot
    exact hnot
  | some w =>
    rw [hr] at hbest
    rcases hbest with ⟨hc, _⟩ | ⟨pre, post, hspan, hready, hrank, hpre, hpost, _⟩
    · cases hc
    obtain ⟨hl, hrun⟩ := Bool.and_eq_true_iff.mp hready
    have hmem : s.queue.ring w.1 ∈ s.queue.live := by
      refine mem_live_iff.mpr ⟨w.1, ?_, rfl, hl⟩
      rw [hspan]
      exact mem_append_right _ mem_cons_self
    have hready' : ∀ {j}, s.queue.ring j ∈ s.queue.live →
        tenantCanRun s.ten (s.queue.ring j).tslot (tenantSvcBound s) = true →
        ready s (tenantSvcBound s) j = true :=
      fun hj hc => Bool.and_eq_true_iff.mpr ⟨live_mem hj, hc⟩
    -- the slots before the one taken hold worse bands only, those behind it none better
    have hcmp : ∀ {j}, j ∈ s.queue.span → s.queue.ring j ∈ s.queue.live →
        tenantCanRun s.ten (s.queue.ring j).tslot (tenantSvcBound s) = true →
        bandRank (s.queue.ring w.1).band ≤ bandRank (s.queue.ring j).band := by
      intro j hj hjl hc
      refine (wakeRank_rank hp.ring hmem hjl).mp ?_
      rw [← hrank]
      rw [hspan] at hj
      rcases mem_append.mp hj with hj | hj
      · exact (hpre j hj (hready' hjl hc)).le
      · rcases mem_cons.mp hj with rfl | hj
        · exact hrank.le
        · exact hpost j hj (hready' hjl hc)
    refine ⟨hmem, hrun, fun y hy hc => ?_, fun y hy hc hband => ?_⟩
    · obtain ⟨j, hj, rfl, _⟩ := mem_live_iff.mp hy
      exact hcmp hj hy hc
    · obtain ⟨j, hj, rfl, hjl⟩ := mem_live_iff.mp hy
      rw [hspan] at hj
      rcases mem_append.mp hj with hj | hj
      · have hlt := hpre j hj (hready' hy hc)
        rw [hrank] at hlt
        exact absurd ((wakeRank_rank hp.ring hy hmem).mpr hband.le) (not_le.mpr hlt)
      · rcases mem_cons.mp hj with rfl | hj
        · exact le_refl _
        · -- behind it in the ring, so behind it in the order
          have hsplit : s.queue.live = (pre.map s.queue.ring).filter QueueEnt.live ++
              s.queue.ring w.1 :: (post.map s.queue.ring).filter QueueEnt.live := by
            unfold Queue.live Queue.seg
            rw [hspan, map_append, map_cons, filter_append, filter_cons_of_pos hl]
          unfold InOrder at ho
          rw [hsplit, pairwise_append, pairwise_cons] at ho
          exact ho.2.1.1 _ (mem_filter.mpr ⟨mem_map.mpr ⟨j, hj, rfl⟩, hjl⟩)

/-! ## over whole runs -/

theorem fifoOk_init (m : Mem) (slots : Nat) (cfg : Cfg) :
    FifoOk (Sys.init m slots cfg : Sys ι) := by
  have hl := (stateInit_spec m slots cfg).1
  refine ⟨?_, ?_, ?_, fun _ => le_refl _⟩
  · show InOrder (stateInit m slots cfg).queue.live
    rw [hl]
    exact List.Pairwise.nil
  · intro e he
    rw [show (Sys.init m slots cfg : Sys ι).fc.queue.live = [] from hl] at he
    cases he
  · intro w hw
    cases hw

/-- **first come, first served** in every run whose parks read the clock in order; a plain wake
takes the oldest waiter of the best band among those whose tenant may run -/
theorem fifo_kept {m : Mem} {slots : Nat} {cfg : Cfg} {as : List (Act ι)}
    (h : exec (step conn) (Sys.init m slots cfg) as = some x)
    (ho : along (step conn) (parksInOrder conn) (Sys.init m slots cfg) as = true) :
    InOrder x.fc.queue.live ∧ (plainWake x.fc = true → (∀ pend, match (wakePop x.fc pend).2 with
          | some (e, _) => FirstToRun x.fc e
          | none => ∀ y ∈ x.fc.queue.live,
              tenantCanRun x.fc.ten y.tslot (tenantSvcBound x.fc) = false) ∧
        ∀ m' hook e, (wakeOne m' x.fc hook).2 = some e → FirstToRun x.fc e) := by
  have hinv := inv_of_step (P := fun y => PoolOk y.fc ∧ FifoOk y) (fun y a y' hy hok hstep =>
      ⟨pool_step y a y' hy.1 hstep, fifo_micro hy.1 hy.2 hok (step_cases hstep)⟩)
    ⟨poolOk_init m slots cfg, fifoOk_init m slots cfg⟩ ho h
  refine ⟨hinv.2.sorted, fun hpl => ?_⟩
  have htake := plain_takes_first hinv.1 hinv.2.sorted hpl
  refine ⟨htake, fun m' hook e he => ?_⟩
  have hnone := htake noPend
  unfold wakeOne at he
  split at he
  · cases he
  unfold wakeHead at he
  dsimp only at he
  cases hw : (wakePop x.fc noPend).2 with
  | none =>
    rw [hw] at he
    cases he
  | some r =>
    rw [hw] at he hnone
    dsimp only at he
    split at he
    · cases he
      exact hnone
    · cases he

end

def lineCfg : Cfg :=
  { Cfg.zero with mode := .enforce, maxOutstanding := 1, maxQueueDepth := 4, maxQueueWaitMs := 1000 }

def lineRun : List (Act (Fin 6)) :=
  admits 0 1 0 ++
    [.push 1 100 false 0 0 Mem.ok, .push 2 200 false 0 0 Mem.ok, .push 3 300 false 150 0 Mem.ok,
      .wakePop noPend, .wakeHook 0 false, .wakeEnd 0 Mem.ok,
      .wakePop noPend, .wakeHook 0 true, .wakeEnd 0 Mem.ok,
      .resume 1, .run 1 0 true, .run 1 0 true, .run 1 0 true,
      .acquire 1 true true 1 0, .run 1 0 true, .run 1 0 true, .push 1 400 true 0 0 Mem.ok]

theorem fifo_kept_line :
    ∃ x, exec (step sampleConn) (Sys.init Mem.ok 64 lineCfg) lineRun = some x ∧
      x.fc.queue.live.map (fun e => (e.fd, e.enqueueNs)) = [(11, 100), (13, 150), (12, 200)] ∧
      InOrder x.fc.queue.live ∧
      ∀ m hook e, (wakeOne m x.fc hook).2 = some e → FirstToRun x.fc e := by
  refine exec_follows (P := fun x => plainWake x.fc = true ∧
    x.fc.queue.live.map (fun e => (e.fd, e.enqueueNs)) = [(11, 100), (13, 150), (12, 200)])
    (by decide +kernel) fun x hx ⟨hplain, hlive⟩ => ?_
  obtain ⟨h3, h4⟩ := fifo_kept hx (by decide +kernel)
  exact ⟨hlive, h3, (h4 hplain).2⟩

end Fc
