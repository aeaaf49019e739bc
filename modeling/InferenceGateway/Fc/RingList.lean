import InferenceGateway.Fc.Ring

/-!
# The ring is a list

Under `RingOk` the live entries of the ring, read from the head on, are a list `Queue.live`, and
every ring function acts on it as the list operation it stands for.  Here are the functions that
lay the ring out again and the ones that insert.

* `ringRelayout_spec`, `ringCompact_spec`, `ringGrow_spec`   nothing changes;
* `ringInsert_spec`    one entry is added, in the place its kind of insertion gives it.
-/

open Function List Nat

namespace Fc

open Walk Relay

/-! ## the list and the invariant -/

/-- the entries in use, tombstones included -/
def Queue.seg (q : Queue) : List QueueEnt := q.span.map q.ring

/-- the waiting requests, from the head on -/
def Queue.live (q : Queue) : List QueueEnt := q.seg.filter QueueEnt.live

/-- `d` is the least deadline that is not zero, and zero when there is none -/
def LeastDeadline (l : List QueueEnt) (d : Nat) : Prop :=
  (∀ e ∈ l, e.deadlineNs ≠ 0 → d ≠ 0 ∧ d ≤ e.deadlineNs) ∧ (d ≠ 0 → ∃ e ∈ l, e.deadlineNs = d)

/-- the slots from the head over `used` positions hold the entries -/
structure RingShape (q : Queue) : Prop where
  head_lt : 0 < q.cap → q.head < q.cap
  used_le : q.used ≤ q.cap
  tail_eq : 0 < q.cap → q.tail = (q.head + q.used) % q.cap
  outside : ∀ i < q.cap, i ∉ q.span → (q.ring i).live = false

/-- the counts and the earliest deadline are those of the live entries -/
structure RingCounts (q : Queue) : Prop where
  count_eq : q.count = q.live.length
  band_eq : ∀ b, bandCounted b = true → q.bandCount b = q.live.countP (fun e => e.band = b)
  deadline_eq : LeastDeadline q.live q.nextDeadlineNs

structure RingOk (q : Queue) : Prop extends RingShape q, RingCounts q

theorem ringOk_zero : RingOk Queue.zero where
  head_lt := fun h => absurd h (lt_irrefl 0)
  used_le := le_refl 0
  tail_eq := fun h => absurd h (lt_irrefl 0)
  outside := fun _ _ _ => rfl
  count_eq := rfl
  band_eq := fun _ _ => rfl
  deadline_eq := ⟨fun _ h => absurd h not_mem_nil, fun h => absurd rfl h⟩

variable {q : Queue} {e : QueueEnt} {l : List QueueEnt} {d : Nat}

theorem live_mem (h : e ∈ q.live) : e.live = true := (mem_filter.mp h).2

theorem mem_live_iff : e ∈ q.live ↔ ∃ i ∈ q.span, q.ring i = e ∧ e.live = true := by
  unfold Queue.live Queue.seg
  rw [mem_filter, mem_map]
  constructor
  · rintro ⟨⟨i, hi, he⟩, hl⟩
    exact ⟨i, hi, he, hl⟩
  · rintro ⟨i, hi, he, hl⟩
    exact ⟨⟨i, hi, he⟩, hl⟩

theorem count_le_used (h : RingOk q) : q.count ≤ q.used := by
  have h1 : q.live.length ≤ q.seg.length := length_filter_le _ _
  rw [Queue.seg, length_map, Queue.span, walk_length] at h1
  rw [h.count_eq]
  exact h1

section
variable {q : Queue}

theorem span_of_unused (hu : q.used = 0) : q.span = [] := by
  unfold Queue.span
  rw [hu]
  rfl

theorem live_of_unused (hu : q.used = 0) : q.live = [] := by
  unfold Queue.live Queue.seg
  rw [span_of_unused hu]
  rfl

variable (h : RingShape q)
include h

theorem RingShape.span_nil (hc : ¬ 0 < q.cap) : q.span = [] :=
  span_of_unused (by have := h.used_le; omega)

theorem RingShape.nodup : q.span.Nodup := by
  by_cases hc : 0 < q.cap
  · exact walk_nodup (h.head_lt hc) h.used_le
  · rw [h.span_nil hc]
    exact nodup_nil

theorem RingShape.span_lt {i : Nat} (hi : i ∈ q.span) : i < q.cap := by
  by_cases hc : 0 < q.cap
  · exact walk_lt (h.head_lt hc) hi
  · rw [h.span_nil hc] at hi
    exact absurd hi not_mem_nil

theorem RingShape.mem_span {i : Nat} (hi : i < q.cap) (hl : (q.ring i).live = true) :
    i ∈ q.span := by
  by_contra hn
  rw [h.outside i hi hn] at hl
  exact absurd hl (by simp)

end

/-! ## deadlines -/

theorem leastDeadline_nil : LeastDeadline [] 0 :=
  ⟨fun _ h => absurd h not_mem_nil, fun h => absurd rfl h⟩

theorem LeastDeadline.add (h : LeastDeadline l d) (l' : List QueueEnt)
    (hl : ∀ x, x ∈ l' ↔ x = e ∨ x ∈ l) :
    LeastDeadline l' (if e.deadlineNs ≠ 0 ∧ (d = 0 ∨ e.deadlineNs < d) then e.deadlineNs else d) := by
  by_cases hc : e.deadlineNs ≠ 0 ∧ (d = 0 ∨ e.deadlineNs < d)
  · rw [if_pos hc]
    refine ⟨fun x hx hx0 => ⟨hc.1, ?_⟩, fun _ => ⟨e, (hl e).mpr (.inl rfl), rfl⟩⟩
    rcases (hl x).mp hx with rfl | hx'
    · exact le_refl _
    · have h2 := h.1 x hx' hx0
      omega
  · rw [if_neg hc]
    refine ⟨fun x hx hx0 => ?_, fun hd => ?_⟩
    · rcases (hl x).mp hx with rfl | hx'
      · omega
      · exact h.1 x hx' hx0
    · obtain ⟨y, hy, h1⟩ := h.2 hd
      exact ⟨y, (hl y).mpr (.inr hy), h1⟩

theorem LeastDeadline.remove {l' : List QueueEnt} (h : LeastDeadline l d)
    (hl : ∀ x, x ∈ l ↔ x = e ∨ x ∈ l') (hne : ¬ (e.deadlineNs ≠ 0 ∧ e.deadlineNs = d)) :
    LeastDeadline l' d := by
  refine ⟨fun x hx => h.1 x ((hl x).mpr (.inr hx)), fun hd => ?_⟩
  obtain ⟨y, hy, h1⟩ := h.2 hd
  rcases (hl y).mp hy with rfl | hy'
  · exact absurd ⟨by omega, h1⟩ hne
  · exact ⟨y, hy', h1⟩

theorem foldl_earlier_spec (l : List QueueEnt) :
    ∀ (seen : List QueueEnt) (m : Nat), LeastDeadline seen m →
      LeastDeadline (seen ++ l.filter QueueEnt.live) (l.foldl earlier m) := by
  induction l with
  | nil => intro seen m h; simpa using h
  | cons e l ih =>
    intro seen m h
    rw [foldl_cons]
    by_cases he : e.live = true
    · have h1 : LeastDeadline (seen ++ [e]) (earlier m e) := by
        have h2 := h.add (seen ++ [e]) (e := e) (fun x => by simp [or_comm])
        have e1 : earlier m e =
            if e.deadlineNs ≠ 0 ∧ (m = 0 ∨ e.deadlineNs < m) then e.deadlineNs else m := by
          unfold earlier
          simp [he]
        rw [e1]
        exact h2
      have h3 := ih _ _ h1
      rwa [append_assoc, singleton_append, ← filter_cons_of_pos he] at h3
    · have e1 : earlier m e = m := by
        unfold earlier
        simp [he]
      rw [e1, filter_cons_of_neg he]
      exact ih _ _ h

theorem rescan_spec (q : Queue) : LeastDeadline q.live (q.seg.foldl earlier 0) := by
  have h := foldl_earlier_spec q.seg [] 0 leastDeadline_nil
  rwa [nil_append] at h

/-! ## laying the ring out again -/

/-- the copied entries, in order -/
def Relay.list (r : Relay) : List QueueEnt := (range r.n).map r.dst

theorem relay_copy_live (dstCap : Nat) (r : Relay) (he : e.live = true) (hn : r.n < dstCap) :
    (copy dstCap r e).list = r.list ++ [e] := by
  unfold copy list
  rw [if_pos ⟨he, hn⟩, range_succ, map_append]
  show map (update r.dst r.n e) (range r.n) ++ [update r.dst r.n e r.n]
    = map r.dst (range r.n) ++ [e]
  rw [update_self]
  congr 1
  apply map_congr_left
  intro k hk
  have hk' : k < r.n := mem_range.mp hk
  exact update_of_ne (by omega) _ _

theorem relay_copy_dead (dstCap : Nat) (r : Relay) (he : e.live = false) : copy dstCap r e = r := by
  unfold copy
  rw [if_neg (by simp [he])]

/-- a copy loop with enough slots copies every live entry, and leaves the slots after them
as they were -/
theorem relay_spec (dstCap : Nat) (l : List QueueEnt) :
    ∀ r : Relay, r.n + (l.filter QueueEnt.live).length ≤ dstCap →
      (l.foldl (copy dstCap) r).list = r.list ++ l.filter QueueEnt.live ∧
      (l.foldl (copy dstCap) r).n = r.n + (l.filter QueueEnt.live).length ∧
      (∀ i, r.n + (l.filter QueueEnt.live).length ≤ i → (l.foldl (copy dstCap) r).dst i = r.dst i) ∧
      (∀ b, bandCounted b = true → (l.foldl (copy dstCap) r).bandCount b =
        r.bandCount b + (l.filter QueueEnt.live).countP (fun e => e.band = b)) := by
  induction l with
  | nil => intro r _; simp
  | cons e l ih =>
    intro r hr
    rw [foldl_cons]
    by_cases he : e.live = true
    · rw [filter_cons_of_pos he, length_cons] at hr
      have hn : r.n < dstCap := by omega
      have hl := relay_copy_live dstCap r he hn
      have hc : copy dstCap r e = ⟨update r.dst r.n e, r.n + 1, if bandCounted e.band
          then update r.bandCount e.band (r.bandCount e.band + 1) else r.bandCount⟩ := by
        unfold copy
        rw [if_pos ⟨he, hn⟩]
      obtain ⟨h1, h2, h3, h4⟩ := ih (copy dstCap r e) (by rw [hc]; show r.n + 1 + _ ≤ _; omega)
      rw [filter_cons_of_pos he, length_cons]
      refine ⟨by rw [h1, hl, append_assoc, singleton_append], ?_, ?_, ?_⟩
      · rw [h2, hc]
        show r.n + 1 + _ = _
        omega
      · intro i hi
        rw [h3 i (by rw [hc]; show r.n + 1 + _ ≤ _; omega), hc]
        exact update_of_ne (by omega) _ _
      · intro b hb
        rw [h4 b hb, hc]
        dsimp only
        rw [band_update hb]
        by_cases hbe : e.band = b
        · simp [hbe]
          omega
        · simp [hbe]
    · have he' : e.live = false := by simpa using he
      rw [filter_cons_of_neg he, relay_copy_dead dstCap r he']
      exact ih r (by rwa [filter_cons_of_neg he] at hr)

theorem span_from_zero {cap n : Nat} (h : n ≤ cap) : walk cap n 0 = range n := by
  by_cases hc : 0 < cap
  · rw [walk_eq cap n 0 hc]
    conv_rhs => rw [← map_id (range n)]
    apply map_congr_left
    intro k hk
    have hk' : k < n := mem_range.mp hk
    rw [zero_add, mod_eq_of_lt (by omega)]
    rfl
  · have hn : n = 0 := by omega
    subst hn
    rfl

/-- **a re-layout with enough slots changes nothing** -/
theorem ringRelayout_spec {q : Queue} (h : RingOk q) {dstCap : Nat} (hd : q.live.length ≤ dstCap) :
    RingOk (ringRelayout q dstCap) ∧ (ringRelayout q dstCap).live = q.live ∧
      (ringRelayout q dstCap).used = q.live.length := by
  obtain ⟨h1, h2, h3, h4⟩ := relay_spec dstCap q.seg empty
    (by rw [show empty.n = 0 from rfl, zero_add]; exact hd)
  set c := q.seg.foldl (copy dstCap) empty
  have hn : c.n = q.live.length := by
    rw [h2, show empty.n = 0 from rfl, zero_add]
    rfl
  have hseg : (ringRelayout q dstCap).seg = q.live := by
    show (walk dstCap c.n 0).map c.dst = q.live
    rw [span_from_zero (by rw [hn]; exact hd)]
    exact h1
  have hlive : (ringRelayout q dstCap).live = q.live := by
    unfold Queue.live at *
    rw [hseg]
    simp
  refine ⟨⟨⟨fun hc => hc, ?_, fun hc => ?_, ?_⟩, ⟨?_, ?_, ?_⟩⟩, hlive, hn⟩
  · show c.n ≤ dstCap
    rw [hn]
    exact hd
  · show (if c.n = dstCap then 0 else c.n) = (0 + c.n) % dstCap
    rw [hn, zero_add]
    by_cases he : q.live.length = dstCap
    · rw [if_pos he, he, mod_self]
    · rw [if_neg he, mod_eq_of_lt (by omega)]
  · intro i _ hi
    have hi' : q.live.length ≤ i := by
      by_contra hlt
      apply hi
      show i ∈ walk dstCap c.n 0
      rw [hn, span_from_zero hd]
      exact mem_range.mpr (by omega)
    show (c.dst i).live = false
    rw [h3 i (by rw [show empty.n = 0 from rfl, zero_add]; exact hi')]
    rfl
  · rw [hlive]
    exact hn
  · intro b hb
    rw [hlive]
    show c.bandCount b = _
    rw [h4 b hb, show empty.bandCount b = 0 from rfl, zero_add]
    rfl
  · rw [hlive]
    exact h.deadline_eq

theorem ringCompact_spec (h : RingOk q) (mem : Bool) :
    RingOk (ringCompact mem q) ∧ (ringCompact mem q).live = q.live := by
  unfold ringCompact
  by_cases hc : q.cap = 0
  · rw [if_pos hc]
    exact ⟨h, rfl⟩
  · rw [if_neg hc]
    cases mem with
    | false => exact ⟨h, rfl⟩
    | true =>
      have hl : q.live.length ≤ q.cap := by
        rw [← h.count_eq]
        exact (count_le_used h).trans h.used_le
      obtain ⟨h1, h2, _⟩ := ringRelayout_spec h hl
      exact ⟨h1, h2⟩

theorem ringGrow_spec (h : RingOk q) (mem : Bool) (want : Nat) :
    RingOk (ringGrow mem q want) ∧ (ringGrow mem q want).live = q.live := by
  unfold ringGrow
  generalize hw : (if want > queueDepthMax then queueDepthMax else want) = w
  by_cases h1 : w ≤ q.cap
  · rw [if_pos h1]
    exact ⟨h, rfl⟩
  rw [if_neg h1]
  cases mem with
  | false => exact ⟨h, rfl⟩
  | true =>
    by_cases hc : q.cap ≠ 0
    · rw [if_pos hc]
      have hl : q.live.length ≤ w := by
        have := count_le_used h
        have := h.used_le
        rw [← h.count_eq]
        omega
      obtain ⟨h2, h3, _⟩ := ringRelayout_spec h hl
      exact ⟨h2, h3⟩
    · rw [if_neg hc]
      have hlive : q.live = [] := live_of_unused (by have := h.used_le; omega)
      have hd : q.nextDeadlineNs = 0 := by
        by_contra hne
        obtain ⟨e, he, _⟩ := h.deadline_eq.2 hne
        rw [hlive] at he
        exact not_mem_nil he
      rw [hlive]
      refine ⟨⟨⟨fun hp => hp, zero_le _, fun _ => (zero_mod _).symm, fun _ _ _ => rfl⟩,
        ⟨rfl, fun _ _ => rfl, ?_⟩⟩, rfl⟩
      rw [hd]
      exact leastDeadline_nil

theorem ringMakeRoom_spec (h : RingOk q) (m : Mem) (front : Bool) :
    RingOk (ringMakeRoom m q front) ∧ (ringMakeRoom m q front).live = q.live := by
  unfold ringMakeRoom
  have step1 : ∀ p, ∀ _ : Decidable p, RingOk (if p then ringCompact m.compact q else q) ∧
        (if p then ringCompact m.compact q else q).live = q.live := by
    intro p hp
    by_cases hp' : p
    · rw [if_pos hp']
      exact ringCompact_spec h _
    · rw [if_neg hp']
      exact ⟨h, rfl⟩
  obtain ⟨h1, h2⟩ := step1 (q.used ≥ q.cap ∧ q.count < q.cap) _
  revert h1 h2
  generalize (if q.used ≥ q.cap ∧ q.count < q.cap then ringCompact m.compact q else q) = q1
  intro h1 h2
  by_cases hf : q1.used ≥ q1.cap ∧ front = true
  · rw [if_pos hf]
    obtain ⟨h3, h4⟩ := ringGrow_spec h1 m.grow (q1.cap + growBy q1.cap)
    exact ⟨h3, h4.trans h2⟩
  · rw [if_neg hf]
    exact ⟨h1, h2⟩

/-! ## insertion -/

/-- the list an insertion leaves: back at the head, ordered from the tail, or at the tail -/
def place (front ordered : Bool) (e : QueueEnt) (l : List QueueEnt) : List QueueEnt :=
  if front then sift stopFront e l
  else if ordered then (sift stopBack e l.reverse).reverse
  else l ++ [e]

section
variable (front ordered : Bool) (e : QueueEnt) (l : List QueueEnt)

theorem place_perm : (place front ordered e l).Perm (e :: l) := by
  cases front with
  | true => exact sift_perm _ _ _
  | false =>
    cases ordered with
    | true =>
      refine (reverse_perm _).trans ((sift_perm _ _ _).trans ?_)
      exact (reverse_perm l).cons e
    | false => exact (perm_append_comm : (l ++ [e]).Perm ([e] ++ l))

theorem place_split : ∃ a b, l = a ++ b ∧ place front ordered e l = a ++ e :: b := by
  cases front with
  | true => exact sift_split _ _ _
  | false =>
    cases ordered with
    | true =>
      obtain ⟨a, b, h1, h2⟩ := sift_split stopBack e l.reverse
      refine ⟨b.reverse, a.reverse, ?_, ?_⟩
      · rw [← reverse_append, ← h1, reverse_reverse]
      · show (sift stopBack e l.reverse).reverse = _
        rw [h2]
        simp
    | false => exact ⟨l, [], (append_nil l).symm, rfl⟩

end

theorem mem_place {front ordered : Bool} {x : QueueEnt} :
    x ∈ place front ordered e l ↔ x = e ∨ x ∈ l := by
  rw [(place_perm front ordered e l).mem_iff, mem_cons]

theorem ringPlaced_counts {slot : Nat} (hcount : q.count = l.length)
    (hband : ∀ b, bandCounted b = true → q.bandCount b = l.countP (fun x => x.band = b))
    (hdead : LeastDeadline l q.nextDeadlineNs) (hlive : (ringPlaced q slot e).live.Perm (e :: l)) :
    RingCounts (ringPlaced q slot e) where
  count_eq := by
    rw [hlive.length_eq, length_cons, ← hcount]
    rfl
  band_eq := by
    intro b hb
    rw [hlive.countP_eq, countP_cons, ← hband b hb]
    show (if bandCounted e.band then update q.bandCount e.band (q.bandCount e.band + 1)
      else q.bandCount) b = _
    rw [band_update hb]
    by_cases hbe : e.band = b
    · simp [hbe]
    · simp [hbe]
  deadline_eq := hdead.add _ (fun x => by rw [hlive.mem_iff, mem_cons])

section
variable {q : Queue} {e : QueueEnt}

/-- what every insertion that found a slot leaves -/
structure Inserted (q q' : Queue) (slot : Nat) (e : QueueEnt) (l : List QueueEnt) : Prop where
  ok : RingOk q'
  live_eq : q'.live = l
  slot_mem : slot ∈ q'.span
  slot_eq : q'.ring slot = e
  cap_eq : q'.cap = q.cap

/-- a list as read from its first or from its last place -/
def facing {α : Type} (rev : Bool) (l : List α) : List α := if rev then l.reverse else l

section
variable {α β : Type} (rev : Bool) (l : List α)

theorem facing_facing : facing rev (facing rev l) = l := by
  cases rev <;> simp [facing]

theorem facing_perm : (facing rev l).Perm l := by
  cases rev <;> simp [facing]

theorem facing_map (f : α → β) : (facing rev l).map f = facing rev (l.map f) := by
  cases rev <;> simp [facing]

theorem facing_filter (p : α → Bool) : (facing rev l).filter p = facing rev (l.filter p) := by
  cases rev <;> simp [facing]

end

/-- **an entry goes in at one end of the ring** and moves past those it may not stand before -/
theorem ringPlaced_spec (rev : Bool) {stop : QueueEnt → QueueEnt → Bool} {head tail slot : Nat}
    {path : List Nat} (h : RingOk q) (hu : q.used < q.cap) (hhead : head < q.cap)
    (hspan : walk q.cap (q.used + 1) head = facing rev (slot :: path)) (hold : q.span = facing rev path)
    (htail : tail = (head + (q.used + 1)) % q.cap)
    (hsift : (sift stop e (facing rev q.seg)).filter QueueEnt.live = sift stop e (facing rev q.live))
    {b : (Nat → QueueEnt) × Nat} (hb : bubble stop (update q.ring slot e) slot path = b) :
    Inserted q (ringPlaced { q with ring := b.1, head := head, tail := tail } b.2 e) b.2 e
      (facing rev (sift stop e (facing rev q.live))) := by
  have hnd : (slot :: path).Nodup := by
    rw [← (facing_perm rev _).nodup_iff, ← hspan]
    exact walk_nodup hhead hu
  have hni : slot ∉ path := (nodup_cons.mp hnd).1
  have hrest : b.1 b.2 = e := by
    rw [← hb, bubble_rest stop path _ _ hnd, update_self]
  have hring : update b.1 b.2 e = b.1 := by
    rw [← hrest]
    exact update_eq_self b.2 b.1
  generalize hg : ringPlaced { q with ring := b.1, head := head, tail := tail } b.2 e = q'
  have hsp : q'.span = facing rev (slot :: path) := by
    rw [← hg]
    exact hspan
  have hri : q'.ring = b.1 := by
    rw [← hg]
    exact hring
  have hmem : ∀ i, i ∈ q'.span ↔ i = slot ∨ i ∈ path := by
    intro i
    rw [hsp, (facing_perm rev _).mem_iff, mem_cons]
  have hseg : q'.seg = facing rev (sift stop e (facing rev q.seg)) := by
    have h1 := bubble_map stop path (update q.ring slot e) slot hnd
    rw [hb, update_self, map_update hni] at h1
    unfold Queue.seg
    rw [hsp, hri, facing_map, h1, hold, facing_map, facing_facing]
  have hlive : q'.live = facing rev (sift stop e (facing rev q.live)) := by
    unfold Queue.live
    rw [hseg, facing_filter, hsift]
    rfl
  refine ⟨⟨⟨fun _ => ?_, ?_, fun _ => ?_, fun i hi hn => ?_⟩, ?_⟩, hlive, ?_, ?_, ?_⟩
  · rw [← hg]
    exact hhead
  · rw [← hg]
    exact hu
  · rw [← hg]
    exact htail
  · rw [hmem, not_or] at hn
    rw [← hg] at hi
    rw [hri, ← hb, bubble_other stop path _ _ _ hn.1 hn.2, update_of_ne hn.1]
    refine h.outside i hi fun hc => hn.2 ?_
    rwa [hold, (facing_perm rev _).mem_iff] at hc
  · rw [← hg]
    refine ringPlaced_counts h.count_eq h.band_eq h.deadline_eq ?_
    rw [hg, hlive]
    exact (facing_perm rev _).trans ((sift_perm _ _ _).trans ((facing_perm rev _).cons e))
  · rw [hmem, ← mem_cons, ← hb]
    exact bubble_rest_mem _ _ _ _
  · rw [hri, hrest]
  · rw [← hg]
    rfl

theorem tail_span (h : RingOk q) (hc : 0 < q.cap) :
    walk q.cap (q.used + 1) q.head = q.span ++ [q.tail] := by
  rw [walk_snoc _ _ _ (h.head_lt hc), h.tail_eq hc]
  rfl

theorem tail_next (h : RingOk q) (hc : 0 < q.cap) :
    wrap q.cap (q.tail + 1) = (q.head + (q.used + 1)) % q.cap := by
  have ht : q.tail < q.cap := by
    rw [h.tail_eq hc]
    exact mod_lt _ hc
  rw [wrap_eq_mod (by omega), h.tail_eq hc, mod_add_mod, add_assoc]

theorem facing_span (q : Queue) : q.span = facing true q.span.reverse := q.span.reverse_reverse.symm

theorem backTo_eq (cap head n u : Nat) (hh : head < cap) (hu : u < cap) (hn : u ≤ n) :
    backTo cap head n ((head + u) % cap) = back cap u (prev cap ((head + u) % cap)) := by
  induction u generalizing n with
  | zero =>
    cases n with
    | zero => rfl
    | succ n =>
      unfold backTo
      rw [if_pos (by rw [add_zero, mod_eq_of_lt hh])]
      rfl
  | succ u ih =>
    obtain ⟨m, rfl⟩ : ∃ m, n = m + 1 := ⟨n - 1, by omega⟩
    have hne : (head + (u + 1)) % cap ≠ head := by
      intro h'
      have h1 : (head + (u + 1)) % cap = (head + 0) % cap := by
        rw [h', add_zero, mod_eq_of_lt hh]
      have := add_mod_inj hu (by omega) h1
      omega
    have hp : prev cap ((head + (u + 1)) % cap) = (head + u) % cap := by
      have hl : (head + u) % cap < cap := mod_lt _ (by omega)
      rw [← prev_wrap hl, wrap_eq_mod (by omega), mod_add_mod, add_assoc]
    rw [backTo, if_neg hne, back_succ, hp, ih m (by omega) (by omega)]

variable (h : RingOk q) (hu : q.used < q.cap) (he : e.live = true)
include h hu he

theorem ringPutFront_spec :
    Inserted q (ringPutFront q e).1 (ringPutFront q e).2 e (sift stopFront e q.live) := by
  have hc : 0 < q.cap := by omega
  have hh := h.head_lt hc
  refine ringPlaced_spec false h hu (prev_lt hh) ?_ rfl ?_
    (sift_filter _ _ _ he (fun x hx => by simp [stopFront, hx]) _) rfl
  · rw [walk_succ, wrap_prev hh]
    rfl
  · have h1 : (prev q.cap q.head + 1) % q.cap = q.head := by
      have := prev_lt hh
      rw [← wrap_eq_mod (by omega), wrap_prev hh]
    rw [h.tail_eq hc, show prev q.cap q.head + (q.used + 1) = prev q.cap q.head + 1 + q.used by omega,
      ← mod_add_mod (prev q.cap q.head + 1), h1]

theorem ringPutTail_spec :
    Inserted q (ringPutTail q e).1 (ringPutTail q e).2 e (q.live ++ [e]) := by
  have hc : 0 < q.cap := by omega
  -- it moves past nobody
  have hstay : ∀ l, sift (fun _ _ => true) e l = e :: l := by
    intro l
    cases l <;> rfl
  have hb : bubble (fun _ _ => true) (update q.ring q.tail e) q.tail q.span.reverse =
      (update q.ring q.tail e, q.tail) := by
    cases q.span.reverse <;> rfl
  have hput := ringPlaced_spec true h hu (h.head_lt hc) ((tail_span h hc).trans (by simp [facing]))
    (facing_span q) (tail_next h hc) (by rw [hstay, hstay, filter_cons_of_pos he, facing_filter]; rfl) hb
  rw [hstay] at hput
  simpa [ringPutTail, ringPlaced, facing] using hput

theorem ringPutOrdered_spec : Inserted q (ringPutOrdered q e).1 (ringPutOrdered q e).2 e
      (sift stopBack e q.live.reverse).reverse := by
  have hc : 0 < q.cap := by omega
  have hpath : backTo q.cap q.head q.cap q.tail = q.span.reverse := by
    rw [h.tail_eq hc, backTo_eq _ _ _ _ (h.head_lt hc) hu h.used_le, back_eq _ _ _ (h.head_lt hc)]
    rfl
  unfold ringPutOrdered
  rw [hpath]
  refine ringPlaced_spec true h hu (h.head_lt hc) ((tail_span h hc).trans (by simp [facing]))
    (facing_span q) (tail_next h hc) ?_ rfl
  rw [sift_filter _ _ _ he (fun x hx => by simp [stopBack, hx]), facing_filter]
  rfl

end

/-- **an insertion adds one entry in its place, or finds no slot and changes nothing** -/
theorem ringInsert_spec (h : RingOk q) (m : Mem) (e : QueueEnt) (front ordered : Bool) :
    RingOk (ringInsert m q e front ordered).1 ∧
      match (ringInsert m q e front ordered).2 with
      | some slot => (ringInsert m q e front ordered).1.live =
            place front ordered { e with live := true } q.live ∧
          slot ∈ (ringInsert m q e front ordered).1.span ∧
          (ringInsert m q e front ordered).1.ring slot = { e with live := true }
      | none => (ringInsert m q e front ordered).1.live = q.live := by
  obtain ⟨h1, h2⟩ := ringMakeRoom_spec h m front
  unfold ringInsert
  by_cases hc : q.cap = 0
  · rw [if_pos hc]
    exact ⟨h, rfl⟩
  rw [if_neg hc]
  revert h1 h2
  generalize ringMakeRoom m q front = q1
  intro h1 h2
  by_cases hu : q1.used ≥ q1.cap
  · simp only [if_pos hu]
    exact ⟨h1, h2⟩
  · simp only [if_neg hu]
    have hu' : q1.used < q1.cap := by omega
    set e1 : QueueEnt := { e with live := true }
    have hi : let y := if front then ringPutFront q1 e1
          else if ordered then ringPutOrdered q1 e1 else ringPutTail q1 e1
        Inserted q1 y.1 y.2 e1 (place front ordered e1 q1.live) := by
      cases front with
      | true => exact ringPutFront_spec h1 hu' rfl
      | false =>
        cases ordered with
        | true => exact ringPutOrdered_spec h1 hu' rfl
        | false => exact ringPutTail_spec h1 hu' rfl
    rw [h2] at hi
    exact ⟨hi.ok, hi.live_eq, hi.slot_mem, hi.slot_eq⟩

end Fc
