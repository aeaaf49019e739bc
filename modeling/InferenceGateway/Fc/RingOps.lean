import InferenceGateway.Fc.RingList
import InferenceGateway.Fc.Queue

/-!
# Removals from the ring, and the ring operations together

* `ringRemove_spec`    one entry is deleted;
* `ringPop_spec`       the first entry is deleted;
* `ringFind_some`, `ringFind_none`, `ringEvictPick_spec`   what the lookups find;
* `ring_refines_list`  every ring operation keeps the invariant and acts on the list of live
                       entries as the list operation it stands for.
-/

open Function List Nat

namespace Fc

open Walk

/-! ## removal -/

theorem ringTrim_spec (ring : Nat → QueueEnt) (cap : Nat) (used : Nat) :
    ∀ head, head < cap → used ≤ cap →
      ∃ n ≤ used, ringTrim ring cap used head = ((head + n) % cap, used - n) ∧
        ∀ i ∈ walk cap n head, (ring i).live = false := by
  induction used with
  | zero =>
    intro head hh _
    refine ⟨0, le_refl 0, ?_, fun _ h => absurd h not_mem_nil⟩
    rw [add_zero, mod_eq_of_lt hh]
    rfl
  | succ used ih =>
    intro head hh hu
    unfold ringTrim
    by_cases hl : (ring head).live = true
    · rw [if_pos hl]
      refine ⟨0, zero_le _, ?_, fun _ h => absurd h not_mem_nil⟩
      show (head, used + 1) = (head % cap, used + 1)
      rw [mod_eq_of_lt hh]
    · rw [if_neg hl]
      obtain ⟨n, hn, h1, h2⟩ := ih (wrap cap (head + 1)) (wrap_lt (by omega)) (by omega)
      refine ⟨n + 1, by omega, ?_, ?_⟩
      · rw [h1, wrap_eq_mod (by omega), mod_add_mod, add_assoc, add_comm 1 n, Nat.add_sub_add_right]
      · intro i hi
        rcases mem_cons.mp hi with rfl | hi'
        · simpa using hl
        · exact h2 i hi'

variable {q : Queue} {e : QueueEnt} {l l' : List QueueEnt} {slot gen hint i : Nat} {fd : Int}
  {s : State} {p : Permit}

theorem trim_ok (h : RingOk q) : RingOk { q with
      head := (ringTrim q.ring q.cap q.used q.head).1
      used := (ringTrim q.ring q.cap q.used q.head).2 } ∧
    Queue.live { q with
      head := (ringTrim q.ring q.cap q.used q.head).1
      used := (ringTrim q.ring q.cap q.used q.head).2 } = q.live := by
  by_cases hc : 0 < q.cap
  · have hh := h.head_lt hc
    obtain ⟨n, hn, h1, h2⟩ := ringTrim_spec q.ring q.cap q.used q.head hh h.used_le
    rw [h1]
    have hspan : q.span = walk q.cap n q.head ++ walk q.cap (q.used - n) ((q.head + n) % q.cap) := by
      rw [← walk_append _ _ _ _ hh, Nat.add_sub_cancel' hn]
      rfl
    have hlive : Queue.live { q with head := (q.head + n) % q.cap, used := q.used - n } = q.live := by
      show (map q.ring (walk q.cap (q.used - n) ((q.head + n) % q.cap))).filter _ =
        (map q.ring q.span).filter _
      rw [hspan, map_append, filter_append]
      have h3 : (map q.ring (walk q.cap n q.head)).filter QueueEnt.live = [] := by
        rw [filter_eq_nil_iff]
        intro x hx
        obtain ⟨i, hi, rfl⟩ := mem_map.mp hx
        simp [h2 i hi]
      rw [h3, nil_append]
    have hu := h.used_le
    refine ⟨⟨⟨fun _ => mod_lt _ hc, ?_, fun _ => ?_, ?_⟩, ⟨?_, ?_, ?_⟩⟩, hlive⟩
    · show q.used - n ≤ q.cap
      omega
    · rw [h.tail_eq hc, Nat.mod_add_mod, Nat.add_assoc, Nat.add_sub_cancel' hn]
    · intro i hi hni
      by_cases hm : i ∈ q.span
      · rw [hspan] at hm
        rcases mem_append.mp hm with h3 | h3
        · exact h2 i h3
        · exact absurd h3 hni
      · exact h.outside i hi hm
    · rw [hlive]
      exact h.count_eq
    · rw [hlive]
      exact h.band_eq
    · rw [hlive]
      exact h.deadline_eq
  · have hu : q.used = 0 := by have := h.used_le; omega
    have h1 : ringTrim q.ring q.cap q.used q.head = (q.head, q.used) := by
      rw [hu]
      rfl
    rw [h1]
    exact ⟨h, rfl⟩

/-- the ring with the entry at `slot` cleared and counted out, before the head is trimmed -/
def ringClear (q : Queue) (slot : Nat) : Queue :=
  ringDeadlineGone (ringBandSub { q with
        ring := update q.ring slot { q.ring slot with live := false }
        count := q.count - 1 }
      (q.ring slot).band)
    (q.ring slot).deadlineNs

theorem cleared_counts {q' : Queue} (h : RingOk q) (hperm : q.live.Perm (e :: l))
    (hlive : q'.live = l) (hcount : q'.count = q.count - 1)
    (hband : q'.bandCount = (ringBandSub q e.band).bandCount)
    (hdead : q'.nextDeadlineNs = if e.deadlineNs ≠ 0 ∧ e.deadlineNs = q.nextDeadlineNs
      then ringDeadlineRescan q' else q.nextDeadlineNs) : RingCounts q' where
  count_eq := by
    rw [hcount, hlive, h.count_eq, hperm.length_eq, length_cons]
    omega
  band_eq := by
    intro b hb
    have h1 := h.band_eq b hb
    rw [hperm.countP_eq] at h1
    rw [hlive, hband]
    show (if bandCounted e.band ∧ q.bandCount e.band > 0
      then update q.bandCount e.band (q.bandCount e.band - 1) else q.bandCount) b = _
    by_cases hbe : e.band = b
    · subst hbe
      simp at h1
      rw [if_pos ⟨hb, by omega⟩, update_self]
      omega
    · have hne : b ≠ e.band := fun h => hbe h.symm
      simp [hbe] at h1
      split
      · rw [update_of_ne hne, h1]
      · exact h1
  deadline_eq := by
    rw [hdead]
    by_cases hd : e.deadlineNs ≠ 0 ∧ e.deadlineNs = q.nextDeadlineNs
    · rw [if_pos hd]
      exact rescan_spec q'
    · rw [if_neg hd, hlive]
      exact h.deadline_eq.remove (fun x => by rw [hperm.mem_iff, mem_cons]) hd

section
variable (h : RingOk q) (hs : slot ∈ q.span) (hl : (q.ring slot).live = true)
include h hs hl

theorem ringClear_spec : RingOk (ringClear q slot) ∧
      ∃ a b, q.live = a ++ q.ring slot :: b ∧ (ringClear q slot).live = a ++ b := by
  obtain ⟨p, r, hpr⟩ := append_of_mem hs
  have hnd : (p ++ slot :: r).Nodup := hpr ▸ h.nodup
  have hp : slot ∉ p := fun hm =>
    (nodup_append.mp hnd).2.2 _ hm _ (mem_cons_self ..) rfl
  have hr : slot ∉ r := (nodup_cons.mp (nodup_append.mp hnd).2.1).1
  have h1 : q.live = (p.map q.ring).filter QueueEnt.live ++
      q.ring slot :: (r.map q.ring).filter QueueEnt.live := by
    unfold Queue.live Queue.seg
    rw [hpr, map_append, map_cons, filter_append, filter_cons_of_pos hl]
  have h2 : (ringClear q slot).live = (p.map q.ring).filter QueueEnt.live ++
      (r.map q.ring).filter QueueEnt.live := by
    show (q.span.map (update q.ring slot { q.ring slot with live := false })).filter _ = _
    rw [hpr, map_append, map_cons, filter_append, filter_cons_of_neg (by simp), map_update hp,
      map_update hr]
  refine ⟨⟨⟨h.head_lt, h.used_le, h.tail_eq, ?_⟩, ?_⟩, _, _, h1, h2⟩
  · intro i hi hn
    have hne : i ≠ slot := fun h' => hn (h' ▸ hs)
    show (update q.ring slot { q.ring slot with live := false } i).live = false
    rw [update_of_ne hne]
    exact h.outside i hi hn
  · refine cleared_counts h ?_ h2 rfl rfl rfl
    rw [h1]
    exact perm_middle

/-- **a removal deletes exactly the entry at its slot** -/
theorem ringRemove_spec : RingOk (ringRemove q slot) ∧
      ∃ a b, q.live = a ++ q.ring slot :: b ∧ (ringRemove q slot).live = a ++ b := by
  obtain ⟨h1, a, b, h2, h3⟩ := ringClear_spec h hs hl
  obtain ⟨h4, h5⟩ := trim_ok h1
  exact ⟨h4, a, b, h2, h5.trans h3⟩

end

/-- one round of the pop loop: the head slot is cleared and left behind -/
def ringShift (q : Queue) : Queue :=
  { q with
    ring := update q.ring q.head { q.ring q.head with live := false }
    head := wrap q.cap (q.head + 1)
    used := q.used - 1 }

theorem ringShift_seg (h : RingShape q) (hu : q.used ≠ 0) :
    q.seg = q.ring q.head :: (ringShift q).seg ∧ q.span = q.head :: (ringShift q).span := by
  obtain ⟨n, hn⟩ : ∃ n, q.used = n + 1 := ⟨q.used - 1, by omega⟩
  have hsp : q.span = q.head :: (ringShift q).span := by
    show walk q.cap q.used q.head = q.head :: walk q.cap (q.used - 1) (wrap q.cap (q.head + 1))
    rw [hn]
    rfl
  have hni : q.head ∉ (ringShift q).span := by
    have h1 := h.nodup
    rw [hsp] at h1
    exact (nodup_cons.mp h1).1
  refine ⟨?_, hsp⟩
  show q.span.map q.ring = q.ring q.head :: (ringShift q).span.map
    (update q.ring q.head { q.ring q.head with live := false })
  rw [hsp, map_cons, map_update hni]

theorem ringShift_shape (h : RingShape q) (hu : q.used ≠ 0) : RingShape (ringShift q) := by
  have hule := h.used_le
  have hc : 0 < q.cap := by omega
  have hh := h.head_lt hc
  refine ⟨fun _ => wrap_lt (by omega), ?_, fun _ => ?_, ?_⟩
  · show q.used - 1 ≤ q.cap
    omega
  · show q.tail = (wrap q.cap (q.head + 1) + (q.used - 1)) % q.cap
    rw [h.tail_eq hc, wrap_eq_mod (by omega), mod_add_mod]
    congr 1
    omega
  · intro i hi hn
    show (update q.ring q.head { q.ring q.head with live := false } i).live = false
    by_cases hne : i = q.head
    · rw [hne, update_self]
    · rw [update_of_ne hne]
      refine h.outside i hi (fun hm => ?_)
      rw [(ringShift_seg h hu).2] at hm
      rcases mem_cons.mp hm with h1 | h1
      · exact hne h1
      · exact hn h1

theorem ringPopLoop_spec (n : Nat) : ∀ q : Queue, RingOk q → q.used ≤ n →
    RingOk (ringPopLoop n q).1 ∧
      match (ringPopLoop n q).2 with
      | some e => q.live = e :: (ringPopLoop n q).1.live
      | none => q.live = [] ∧ (ringPopLoop n q).1.live = [] := by
  induction n with
  | zero =>
    intro q h hn
    have h1 : q.live = [] := live_of_unused (by omega)
    exact ⟨h, h1, h1⟩
  | succ n ih =>
    intro q h hn
    by_cases hu : q.used = 0
    · have h1 := live_of_unused hu
      have h2 : ringPopLoop (n + 1) q = (q, none) := by
        unfold ringPopLoop
        rw [if_pos hu]
      rw [h2]
      exact ⟨h, h1, h1⟩
    · obtain ⟨hseg, hsp⟩ := ringShift_seg h.toRingShape hu
      have hsh := ringShift_shape h.toRingShape hu
      cases hl : (q.ring q.head).live with
      | true =>
        have h2 : ringPopLoop (n + 1) q =
            (ringDeadlineGone (ringBandSub { ringShift q with count := q.count - 1 }
              (q.ring q.head).band) (q.ring q.head).deadlineNs, some (q.ring q.head)) := by
          rw [ringPopLoop, if_neg hu]
          simp only [hl, if_true]
          rfl
        rw [h2]
        have hlive : q.live = q.ring q.head :: (ringShift q).live := by
          unfold Queue.live
          rw [hseg, filter_cons_of_pos hl]
        refine ⟨⟨{ hsh with }, ?_⟩, hlive⟩
        exact cleared_counts h (Perm.of_eq hlive) rfl rfl rfl rfl
      | false =>
        have h2 : ringPopLoop (n + 1) q = ringPopLoop n (ringShift q) := by
          rw [ringPopLoop, if_neg hu]
          simp only [hl]
          rfl
        have hlive : (ringShift q).live = q.live := by
          unfold Queue.live
          rw [hseg, filter_cons_of_neg (by simp [hl])]
        have hok : RingOk (ringShift q) := by
          refine ⟨hsh, ?_, ?_, ?_⟩
          · rw [hlive]
            exact h.count_eq
          · rw [hlive]
            exact h.band_eq
          · rw [hlive]
            exact h.deadline_eq
        rw [h2, ← hlive]
        refine ih (ringShift q) hok ?_
        show q.used - 1 ≤ n
        omega

/-- **a pop deletes the first entry** -/
theorem ringPop_spec (h : RingOk q) : RingOk (ringPop q).1 ∧
      match (ringPop q).2 with
      | some e => q.live = e :: (ringPop q).1.live
      | none => q.live = [] ∧ (ringPop q).1.live = [] :=
  ringPopLoop_spec q.used q h (le_refl _)

/-! ## looking entries up -/

theorem ringFind_some (h : RingOk q) (hf : ringFind q fd gen hint = some i) :
    i ∈ q.span ∧ (q.ring i).live = true ∧ (q.ring i).fd = fd ∧ (q.ring i).gen = gen := by
  have names : ∀ j, (q.ring j).names fd gen = true →
      (q.ring j).live = true ∧ (q.ring j).fd = fd ∧ (q.ring j).gen = gen := by
    intro j hj
    simpa [QueueEnt.names, and_assoc] using hj
  unfold ringFind at hf
  by_cases hc : q.cap = 0
  · rw [if_pos hc] at hf
    cases hf
  rw [if_neg hc] at hf
  by_cases hh : hint < q.cap ∧ (q.ring hint).names fd gen = true
  · rw [if_pos hh] at hf
    cases hf
    exact ⟨h.mem_span hh.1 (names _ hh.2).1, names _ hh.2⟩
  · rw [if_neg hh] at hf
    exact ⟨mem_of_find?_eq_some hf, names _ (find?_some (p := fun i => (q.ring i).names fd gen) hf)⟩

theorem ringFind_none (h : RingOk q) (hf : ringFind q fd gen hint = none) :
    ∀ e ∈ q.live, ¬ (e.fd = fd ∧ e.gen = gen) := by
  intro e he hn
  obtain ⟨i, hi, rfl, hl⟩ := mem_live_iff.mp he
  have hc : q.cap ≠ 0 := by
    have := h.span_lt hi
    omega
  unfold ringFind at hf
  rw [if_neg hc] at hf
  by_cases hh : hint < q.cap ∧ (q.ring hint).names fd gen = true
  · rw [if_pos hh] at hf
    cases hf
  · rw [if_neg hh] at hf
    have h1 := find?_eq_none.mp hf i hi
    exact h1 (by simp [QueueEnt.names, hl, hn.1, hn.2])

theorem ringEvictPick_spec (h : RingOk s.queue) {band : Band} (hp : ringEvictPick s band = some i) :
    i ∈ s.queue.span ∧ (s.queue.ring i).live = true ∧ (s.queue.ring i).band = .sheddable := by
  unfold ringEvictPick at hp
  dsimp only at hp
  split at hp
  · cases hp
  have hule := h.used_le
  have hcap : 0 < s.queue.cap := by omega
  have hh := h.head_lt hcap
  have hstart : wrap s.queue.cap (s.queue.head + s.queue.used - 1) =
      prev s.queue.cap ((s.queue.head + s.queue.used) % s.queue.cap) := by
    have hl : (s.queue.head + s.queue.used - 1) % s.queue.cap < s.queue.cap := mod_lt _ hcap
    rw [wrap_eq_mod (by omega), ← prev_wrap hl, wrap_eq_mod (by omega), mod_add_mod]
    congr 2
    omega
  rw [hstart, back_eq _ _ _ hh] at hp
  have hi : (s.queue.ring i).live = true ∧ (s.queue.ring i).band = .sheddable := by
    simpa using find?_some hp
  exact ⟨mem_reverse.mp (mem_of_find?_eq_some hp), hi⟩

/-! ## the ring operations -/

inductive RingOp
  | insert (m : Mem) (e : QueueEnt) (front ordered : Bool)
  | pop
  | takeAt (slot : Nat)
  | evict (slot nowNs : Nat)
  | take (p : Permit)
  | compact (mem : Bool)
  | grow (mem : Bool) (want : Nat)
  | relayout (dstCap : Nat)

def RingOp.run (s : State) : RingOp → State
  | .insert m e front ordered => { s with queue := (ringInsert m s.queue e front ordered).1 }
  | .pop => { s with queue := (ringPop s.queue).1 }
  | .takeAt slot => { s with queue := (ringTakeAt s.queue slot).1 }
  | .evict slot nowNs => ringEvict s slot nowNs
  | .take p => (queueTake s p).1
  | .compact mem => { s with queue := ringCompact mem s.queue }
  | .grow mem want => { s with queue := ringGrow mem s.queue want }
  | .relayout dstCap => { s with queue := ringRelayout s.queue dstCap }

/-- what the callers see to: an entry is taken where one is live, and a buffer the ring is laid
out in again holds every live entry -/
def RingOp.enabled (s : State) : RingOp → Prop
  | .takeAt slot | .evict slot _ => slot < s.queue.cap ∧ (s.queue.ring slot).live = true
  | .relayout dstCap => s.queue.count ≤ dstCap
  | _ => True

/-- `l'` is `l` without one occurrence of `e` -/
def Deletes (e : QueueEnt) (l l' : List QueueEnt) : Prop := ∃ a b, l = a ++ e :: b ∧ l' = a ++ b

theorem Deletes.mem {y : QueueEnt} (hd : Deletes e l l') (hy : y ∈ l') : y ∈ l := by
  obtain ⟨a, b, rfl, rfl⟩ := hd
  rcases mem_append.mp hy with h | h
  · exact mem_append_left _ h
  · exact mem_append_right _ (mem_cons_of_mem _ h)

theorem Deletes.mem_self (hd : Deletes e l l') : e ∈ l := by
  obtain ⟨a, b, rfl, rfl⟩ := hd
  exact mem_append_right _ mem_cons_self

theorem Deletes.countP (h : Deletes e l l') (p : QueueEnt → Bool) :
    l.countP p = l'.countP p + if p e then 1 else 0 := by
  obtain ⟨a, b, rfl, rfl⟩ := h
  rw [countP_append, countP_append, countP_cons]
  omega

theorem countP_place (front ordered : Bool) (e : QueueEnt) (l : List QueueEnt)
    (p : QueueEnt → Bool) :
    (place front ordered e l).countP p = l.countP p + if p e then 1 else 0 := by
  rw [(place_perm front ordered e l).countP_eq, countP_cons]

/-- there is a slot for one entry more: the ring has one left, or tombstones that a compaction
drops, or it grows for an entry that goes to the front -/
def Queue.Room (m : Mem) (q : Queue) (front : Bool) : Prop :=
  q.cap ≠ 0 ∧ (q.used < q.cap ∨ q.count < q.cap ∧ m.compact = true ∨
    front = true ∧ m.grow = true ∧ q.cap < queueDepthMax)

instance (m : Mem) (q : Queue) (front : Bool) : Decidable (q.Room m front) :=
  inferInstanceAs (Decidable (_ ∧ _))

/-- the list operation an operation on the ring stands for: an insertion is refused only when
there is no room, and a waiting permit's entry is taken whenever one is there -/
def RingOp.onList (s : State) (l l' : List QueueEnt) : RingOp → Prop
  | .insert m e front ordered =>
    if s.queue.Room m front then
      (ringInsert m s.queue e front ordered).2.isSome ∧
        l' = place front ordered { e with live := true } l ∧
        ∃ a b, l = a ++ b ∧ l' = a ++ { e with live := true } :: b
    else (ringInsert m s.queue e front ordered).2 = none ∧ l' = l
  | .pop => l' = l.tail ∧ (ringPop s.queue).2 = l.head?
  | .takeAt slot => Deletes (ringTakeAt s.queue slot).2 l l'
  | .evict slot _ => Deletes (s.queue.ring slot) l l'
  | .take p =>
    if p.state = .queued ∧ ∃ e ∈ l, e.fd = p.qFd ∧ e.gen = p.qGen then
      (queueTake s p).2.2 = true ∧ ∃ e, e.fd = p.qFd ∧ e.gen = p.qGen ∧ Deletes e l l'
    else (queueTake s p).2.2 = false ∧ l' = l
  | .compact _ | .grow _ _ | .relayout _ => l' = l

theorem queueTake_some (hp : p.state = .queued)
    (hf : ringFind s.queue p.qFd p.qGen p.qSlot = some slot) :
    queueTake s p = (queuePublish (State.tenantDec { s with queue := ringRemove s.queue slot }
      (s.queue.ring slot).tslot .queued), { p with state := .ended }, true) := by
  unfold queueTake
  rw [if_pos hp, hf]

theorem queueTake_none (h : ¬ (p.state = .queued ∧
    (ringFind s.queue p.qFd p.qGen p.qSlot).isSome)) :
    queueTake s p = (s, p, false) := by
  unfold queueTake
  by_cases hp : p.state = .queued
  · rw [if_pos hp, Option.not_isSome_iff_eq_none.mp fun hf => h ⟨hp, hf⟩]
  · rw [if_neg hp]

theorem queueTake_true (h : (queueTake s p).2.2 = true) :
    p.state = .queued ∧ (queueTake s p).2.1 = { p with state := .ended } := by
  by_cases hc : p.state = .queued ∧ (ringFind s.queue p.qFd p.qGen p.qSlot).isSome
  · obtain ⟨slot, hf⟩ := Option.isSome_iff_exists.mp hc.2
    rw [queueTake_some hc.1 hf]
    exact ⟨hc.1, rfl⟩
  · rw [queueTake_none hc] at h
    cases h

theorem ringGrow_room (h : RingOk q) (hc : q.cap ≠ 0) (hu : q.used ≥ q.cap) (mem : Bool) :
    (ringGrow mem q (q.cap + growBy q.cap)).used < (ringGrow mem q (q.cap + growBy q.cap)).cap ↔
      mem = true ∧ q.cap < queueDepthMax := by
  have hle := count_le_used h
  have hlen := h.count_eq
  have hused := h.used_le
  have hgrow : growBy q.cap ≥ 16 := by
    unfold growBy
    split <;> omega
  unfold ringGrow
  generalize hw : (if q.cap + growBy q.cap > queueDepthMax then queueDepthMax
    else q.cap + growBy q.cap) = want
  have hwant : want ≤ q.cap ↔ queueDepthMax ≤ q.cap := by
    rw [← hw]
    split <;> omega
  by_cases hmax : want ≤ q.cap
  · rw [if_pos hmax]
    omega
  rw [if_neg hmax]
  cases mem with
  | false => simp [hu]
  | true =>
    rw [if_neg (by simp), if_pos hc]
    have hrel := (@ringRelayout_spec q h want (by omega)).2.2
    have hcap : (ringRelayout q want).cap = want := rfl
    refine iff_of_true (by omega) ⟨rfl, by omega⟩

theorem ringMakeRoom_room (h : RingOk q) (hc : q.cap ≠ 0) (m : Mem) (front : Bool) :
    (ringMakeRoom m q front).used < (ringMakeRoom m q front).cap ↔ q.Room m front := by
  have hlen := h.count_eq
  -- without a compaction, only growth makes a slot
  have kept : (q.count < q.cap → q.used ≥ q.cap → m.compact = false) →
      ((if q.used ≥ q.cap ∧ front then ringGrow m.grow q (q.cap + growBy q.cap) else q).used <
        (if q.used ≥ q.cap ∧ front then ringGrow m.grow q (q.cap + growBy q.cap) else q).cap ↔
      q.Room m front) := by
    intro hno
    by_cases hu : q.used ≥ q.cap
    · have hnc : ¬ (q.count < q.cap ∧ m.compact = true) := fun hx =>
        absurd (hno hx.1 hu) (by simp [hx.2])
      cases front with
      | false => simp [Queue.Room, hc, hu, hnc]
      | true =>
        rw [if_pos ⟨hu, rfl⟩, ringGrow_room h hc hu]
        simp [Queue.Room, hc, hu, hnc]
    · rw [if_neg fun hx => hu hx.1]
      exact iff_of_true (by omega) ⟨hc, .inl (by omega)⟩
  unfold ringMakeRoom
  by_cases h1 : q.used ≥ q.cap ∧ q.count < q.cap
  · rw [if_pos h1]
    unfold ringCompact
    rw [if_neg hc]
    cases hm : m.compact with
    | false => exact kept fun _ _ => hm
    | true =>
      -- tombstones go
      have hused := (@ringRelayout_spec q h q.cap (by omega)).2.2
      have hcap : (ringRelayout q q.cap).cap = q.cap := rfl
      rw [if_pos rfl]
      rw [if_neg (by omega)]
      exact iff_of_true (by omega) ⟨hc, .inr (.inl ⟨h1.2, hm⟩)⟩
  · rw [if_neg h1]
    exact kept fun hx hu => absurd ⟨hu, hx⟩ h1

/-- an insertion takes a slot exactly when there is room for it -/
theorem ringInsert_isSome (h : RingOk q) (m : Mem) (e : QueueEnt) (front ordered : Bool) :
    (ringInsert m q e front ordered).2.isSome = true ↔ q.Room m front := by
  unfold ringInsert
  by_cases hc : q.cap = 0
  · rw [if_pos hc]
    exact iff_of_false (by simp) fun hr => hr.1 hc
  rw [if_neg hc, ← ringMakeRoom_room h hc]
  by_cases hu : (ringMakeRoom m q front).used ≥ (ringMakeRoom m q front).cap
  · rw [if_pos hu]
    exact iff_of_false (by simp) (not_lt.mpr hu)
  · rw [if_neg hu]
    exact iff_of_true rfl (not_le.mp hu)

theorem ringInsert_room (h : RingOk q) (hc : q.cap ≠ 0) {m : Mem} (hm : m.compact = true)
    (hg : m.grow = true) {front : Bool} (hd : q.count < q.cap ∨ front = true ∧ q.count < queueDepthMax)
    (e : QueueEnt) (ordered : Bool) : (ringInsert m q e front ordered).2.isSome = true := by
  refine (ringInsert_isSome h m e front ordered).mpr ⟨hc, .inr ?_⟩
  by_cases hlt : q.count < q.cap
  · exact .inl ⟨hlt, hm⟩
  · obtain ⟨hf, hd⟩ := hd.resolve_left hlt
    exact .inr ⟨hf, hg, by omega⟩

theorem queueTake_onList (h : RingOk s.queue) (p : Permit) : RingOk (queueTake s p).1.queue ∧
      RingOp.onList s s.queue.live (queueTake s p).1.queue.live (.take p) := by
  simp only [RingOp.onList]
  by_cases hp : p.state = .queued ∧ (ringFind s.queue p.qFd p.qGen p.qSlot).isSome
  · obtain ⟨slot, hf⟩ := Option.isSome_iff_exists.mp hp.2
    obtain ⟨hs, hl, hfd, hgen⟩ := ringFind_some h hf
    obtain ⟨h1, h2⟩ := ringRemove_spec h hs hl
    rw [queueTake_some hp.1 hf, if_pos ⟨hp.1, _, mem_live_iff.mpr ⟨slot, hs, rfl, hl⟩, hfd, hgen⟩]
    exact ⟨h1, rfl, s.queue.ring slot, hfd, hgen, h2⟩
  · rw [queueTake_none hp, if_neg]
    · exact ⟨h, rfl, rfl⟩
    · rintro ⟨hq, e, he, hn⟩
      have hf : ringFind s.queue p.qFd p.qGen p.qSlot = none := by
        rw [← Option.not_isSome_iff_eq_none]
        exact fun hf => hp ⟨hq, hf⟩
      exact ringFind_none h hf e he hn

/-- **the queue ring refines a list** -/
theorem ring_refines_list (s : State) (op : RingOp) (h : RingOk s.queue) (he : op.enabled s) :
    RingOk (op.run s).queue ∧ op.onList s s.queue.live (op.run s).queue.live := by
  cases op with
  | insert m e front ordered =>
    obtain ⟨h1, h2⟩ := ringInsert_spec h m e front ordered
    refine ⟨h1, ?_⟩
    have hroom := ringInsert_isSome h m e front ordered
    simp only [RingOp.onList]
    cases hr : (ringInsert m s.queue e front ordered).2 with
    | some slot =>
      rw [hr] at h2 hroom
      obtain ⟨a, b, h3, h4⟩ := place_split front ordered { e with live := true } s.queue.live
      rw [if_pos (hroom.mp rfl)]
      exact ⟨rfl, h2.1, a, b, h3, h2.1.trans h4⟩
    | none =>
      rw [hr] at h2 hroom
      rw [if_neg (by simp [← hroom])]
      exact ⟨rfl, h2⟩
  | pop =>
    obtain ⟨h1, h2⟩ := ringPop_spec h
    refine ⟨h1, ?_⟩
    show (ringPop s.queue).1.live = s.queue.live.tail ∧ (ringPop s.queue).2 = s.queue.live.head?
    cases hr : (ringPop s.queue).2 with
    | some e =>
      rw [hr] at h2
      rw [show s.queue.live = e :: (ringPop s.queue).1.live from h2]
      exact ⟨rfl, rfl⟩
    | none =>
      rw [hr] at h2
      rw [h2.1, h2.2]
      exact ⟨rfl, rfl⟩
  | takeAt slot => exact ringRemove_spec h (h.mem_span he.1 he.2) he.2
  | evict slot nowNs =>
    obtain ⟨h1, h2⟩ := ringRemove_spec h (h.mem_span he.1 he.2) he.2
    exact ⟨⟨{ h1 with }, { h1 with }⟩, h2⟩
  | take p => exact queueTake_onList h p
  | compact mem => exact ringCompact_spec h mem
  | grow mem want => exact ringGrow_spec h mem want
  | relayout dstCap =>
    have hd : s.queue.live.length ≤ dstCap := h.count_eq ▸ he
    obtain ⟨h1, h2, _⟩ := ringRelayout_spec h hd
    exact ⟨h1, h2⟩

def ringEnter (fd : Int) (band : Band) (deadlineNs : Nat) (front : Bool) : RingOp :=
  .insert Mem.ok { QueueEnt.zero with fd := fd, band := band, deadlineNs := deadlineNs } front false

def ringSample : State :=
  [.grow true 3, ringEnter 7 .critical 0 false, ringEnter 8 .standard 90 false,
    ringEnter 9 .standard 0 false, .takeAt 1].foldl RingOp.run (State.zero 64)

-- the last slot is used and the second a tombstone: the tail entry compacts the ring, the front
-- entry then makes it grow, and a permit takes an entry out of the middle
theorem ring_refines_list_sample :
    let op1 := ringEnter 10 .standard 0 false
    let op2 := ringEnter 11 .standard 0 true
    let op3 := RingOp.take { Permit.reset with state := .queued, qFd := 9 }
    let s1 := RingOp.run ringSample op1
    let s2 := RingOp.run s1 op2
    (ringSample.queue.used = 3 ∧ ringSample.queue.count = 2 ∧ s1.queue.cap = 3 ∧
        s1.queue.count = 3 ∧ s2.queue.cap = 19 ∧ s2.queue.live.map (·.fd) = [11, 7, 9, 10]) ∧
      op1.onList ringSample ringSample.queue.live s1.queue.live ∧
      op2.onList s1 s1.queue.live s2.queue.live ∧
      op3.onList s2 s2.queue.live (RingOp.run s2 op3).queue.live ∧ RingOk (RingOp.run s2 op3).queue := by
  have ok := fun s op h he => (ring_refines_list s op h he).1
  have h1 := ok (State.zero 64) (.grow true 3) ringOk_zero trivial
  have h2 := ok _ (ringEnter 7 .critical 0 false) h1 trivial
  have h3 := ok _ (ringEnter 8 .standard 90 false) h2 trivial
  have h4 := ok _ (ringEnter 9 .standard 0 false) h3 trivial
  have h5 : RingOk ringSample.queue := ok _ (.takeAt 1) h4 ⟨by decide +kernel, by decide +kernel⟩
  intro op1 op2 op3 s1 s2
  obtain ⟨h6, hop1⟩ := ring_refines_list ringSample op1 h5 trivial
  obtain ⟨h7, hop2⟩ := ring_refines_list s1 op2 h6 trivial
  obtain ⟨h8, hop3⟩ := ring_refines_list s2 op3 h7 trivial
  exact ⟨by decide +kernel, hop1, hop2, hop3, h8⟩

end Fc
