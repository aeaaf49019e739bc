import InferenceGateway.Lib.Run
import InferenceGateway.Lib.Walk

/-!
# Open addressing with tombstones

An index of `nb` buckets finds an item by its key.  A key's probe run starts at its home bucket
and goes round the circle; it passes over tombstones and over other keys' items, and it ends at
an empty bucket.

`Index` is the invariant: the buckets hold exactly the live items, each once, and no empty bucket
stands between an item's home and its bucket.

* `Index.find_spec`     a lookup finds the live item it looks for, and misses only what is not there;
* `Index.find_unused`   a lookup that misses meets a bucket a new item can go in (`Index.put`);
* `Index.erase`         a bucket becomes a tombstone, or empty where the next one is;
* `Index.sweep`         the tombstones before an empty bucket may be emptied;
* `Index.lay`           a new item goes in the first empty bucket of its run;
* `Index.lookup_lay`    items that were laid are found in the order they were laid.
-/

open Function List Finset

namespace Probe

open Walk

/-- a bucket: never used, left behind by a dropped item, or an item's number -/
inductive Bucket
  | empty | tomb | slot (n : Nat)
  deriving DecidableEq, Repr

def Bucket.num : Bucket → Nat
  | .slot n => n
  | _ => 0

/-- the loop of a lookup over the buckets of a path: the bucket that holds a hit, or `nb` and
the first bucket met that is free (`nb` for none) -/
def find (idx : Nat → Bucket) (hit : Nat → Bool) (nb : Nat) : List Nat → Nat → Nat × Nat
  | [], free => (nb, free)
  | b :: path, free =>
    match idx b with
    | .empty => (nb, if free = nb then b else free)
    | .tomb => find idx hit nb path (if free = nb then b else free)
    | .slot n => if hit n then (b, free) else find idx hit nb path free

def firstEmpty (idx : Nat → Bucket) (path : List Nat) : Option Nat :=
  path.find? (fun b => decide (idx b = .empty))

/-- the loop that empties the tombstones of a path up to the first bucket that is none: the
index and how many were emptied -/
def sweep (idx : Nat → Bucket) : List Nat → (Nat → Bucket) × Nat
  | [] => (idx, 0)
  | b :: path =>
    if idx b = .tomb then
      let r := sweep (update idx b .empty) path
      (r.1, r.2 + 1)
    else (idx, 0)

/-- how many of the buckets are tombstones -/
def tombs (nb : Nat) (idx : Nat → Bucket) : Nat := {b ∈ Finset.range nb | idx b = .tomb}.card

/-! ## what the loops find -/

variable {idx : Nat → Bucket} {hit : Nat → Bool} {nb free : Nat} {path : List Nat}

theorem find_hit (h : (find idx hit nb path free).1 ≠ nb) :
    ∃ pre post n, path = pre ++ (find idx hit nb path free).1 :: post ∧
      idx (find idx hit nb path free).1 = .slot n ∧ hit n = true := by
  induction path generalizing free with
  | nil => exact absurd rfl h
  | cons b path ih =>
    unfold find at h ⊢
    cases hb : idx b with
    | empty =>
      rw [hb] at h
      exact absurd rfl h
    | tomb =>
      simp only [hb] at h ⊢
      obtain ⟨pre, post, n, h1, h2⟩ := ih h
      exact ⟨b :: pre, post, n, congrArg (cons b) h1, h2⟩
    | slot n =>
      simp only [hb] at h ⊢
      by_cases hn : hit n = true
      · simp only [hn, if_true]
        exact ⟨[], path, n, rfl, hb, hn⟩
      · simp only [if_neg hn] at h ⊢
        obtain ⟨pre, post, m, h1, h2⟩ := ih h
        exact ⟨b :: pre, post, m, congrArg (cons b) h1, h2⟩

/-- a lookup that misses saw no hit up to the first empty bucket of the path -/
theorem find_miss (hp : ∀ c ∈ path, c < nb) (h : (find idx hit nb path free).1 = nb)
    {pre post : List Nat} {b n : Nat} (hs : path = pre ++ b :: post)
    (hpre : ∀ c ∈ pre, idx c ≠ .empty) (hb : idx b = .slot n) : hit n = false := by
  induction path generalizing free pre with
  | nil => exact absurd hs (by simp)
  | cons c path ih =>
    unfold find at h
    have hp' : ∀ d ∈ path, d < nb := fun d hd => hp d (mem_cons_of_mem _ hd)
    cases pre with
    | nil =>
      obtain ⟨rfl, rfl⟩ := cons.inj hs
      simp only [hb] at h
      by_contra hn
      rw [Bool.not_eq_false] at hn
      simp only [hn, if_true] at h
      exact absurd h (Nat.ne_of_lt (hp c mem_cons_self))
    | cons d pre =>
      obtain ⟨rfl, hs'⟩ := cons.inj hs
      have hpre' : ∀ d ∈ pre, idx d ≠ .empty := fun d hd => hpre d (mem_cons_of_mem _ hd)
      cases hc : idx c with
      | empty => exact absurd hc (hpre c mem_cons_self)
      | tomb =>
        simp only [hc] at h
        exact ih hp' h hs' hpre'
      | slot m =>
        simp only [hc] at h
        by_cases hm : hit m = true
        · simp only [hm, if_true] at h
          exact absurd h (Nat.ne_of_lt (hp c mem_cons_self))
        · simp only [if_neg hm] at h
          exact ih hp' h hs' hpre'

theorem find_keeps_free (h : free ≠ nb) : (find idx hit nb path free).2 = free := by
  induction path with
  | nil => rfl
  | cons b path ih =>
    unfold find
    cases idx b with
    | empty => exact if_neg h
    | tomb =>
      rw [if_neg h]
      exact ih
    | slot n =>
      by_cases hn : hit n = true
      · simp only [hn, if_true]
      · simp only [if_neg hn]
        exact ih

/-- the free bucket a missed lookup reports is the first of its path that holds no item -/
theorem find_free (hp : ∀ c ∈ path, c < nb) (h : (find idx hit nb path nb).1 = nb) :
    (∃ pre post, path = pre ++ (find idx hit nb path nb).2 :: post ∧
      (∀ n, idx (find idx hit nb path nb).2 ≠ .slot n) ∧ ∀ c ∈ pre, idx c ≠ .empty) ∨
      ∀ c ∈ path, ∃ n, idx c = .slot n := by
  induction path with
  | nil => exact .inr (forall_mem_nil _)
  | cons b path ih =>
    unfold find at h ⊢
    have hp' : ∀ d ∈ path, d < nb := fun d hd => hp d (mem_cons_of_mem _ hd)
    have hbn : b ≠ nb := Nat.ne_of_lt (hp b mem_cons_self)
    cases hb : idx b with
    | empty =>
      simp only [if_true]
      exact .inl ⟨[], path, rfl, by simp [hb], forall_mem_nil _⟩
    | tomb =>
      simp only [if_true, find_keeps_free hbn]
      exact .inl ⟨[], path, rfl, by simp [hb], forall_mem_nil _⟩
    | slot n =>
      simp only [hb] at h
      by_cases hn : hit n = true
      · simp only [hn, if_true] at h
        exact absurd h hbn
      · simp only [if_neg hn] at h ⊢
        rcases ih hp' h with ⟨pre, post, h1, h2, h3⟩ | hall
        · exact .inl ⟨b :: pre, post, congrArg (cons b) h1, h2,
            forall_mem_cons.mpr ⟨by simp [hb], h3⟩⟩
        · exact .inr (forall_mem_cons.mpr ⟨⟨n, hb⟩, hall⟩)

theorem tombs_update (idx : Nat → Bucket) {b : Nat} (hb : b < nb) (v : Bucket) :
    tombs nb (update idx b v) + (if idx b = .tomb then 1 else 0) =
      tombs nb idx + if v = .tomb then 1 else 0 := by
  unfold tombs
  rw [card_filter, card_filter]
  exact Run.sum_update _ (fun v => if v = Bucket.tomb then 1 else 0) idx (mem_range.mpr hb) v

theorem tombs_eq_zero (h : ∀ b, b < nb → idx b ≠ .tomb) : tombs nb idx = 0 :=
  Finset.card_eq_zero.mpr (Finset.filter_eq_empty_iff.mpr fun b hb => h b (Finset.mem_range.mp hb))

theorem tombs_sweep (idx : Nat → Bucket) (hp : ∀ b ∈ path, b < nb) :
    tombs nb (sweep idx path).1 + (sweep idx path).2 = tombs nb idx := by
  induction path generalizing idx with
  | nil => rfl
  | cons b path ih =>
    unfold sweep
    split
    · rename_i hb
      have hu := tombs_update idx (hp b mem_cons_self) .empty
      rw [if_pos hb, if_neg nofun] at hu
      rw [← Nat.add_assoc, ih _ fun c hc => hp c (mem_cons_of_mem _ hc), hu, Nat.add_zero]
    · rfl

/-! ## the invariant -/

/-- item `n` stands on the lap from `h`, with no empty bucket before it -/
def Reach (nb : Nat) (idx : Nat → Bucket) (h n : Nat) : Prop :=
  ∃ pre b post, walk nb nb h = pre ++ b :: post ∧ idx b = .slot n ∧ ∀ c ∈ pre, idx c ≠ .empty

/-- the index of the live items, whose probe runs start at `home` -/
structure Index (nb : Nat) (home : Nat → Nat) (live : Nat → Prop) (idx : Nat → Bucket) : Prop where
  home_lt : ∀ n, live n → home n < nb
  sound : ∀ b n, b < nb → idx b = .slot n → live n
  inj : ∀ b c n, b < nb → c < nb → idx b = .slot n → idx c = .slot n → b = c
  reach : ∀ n, live n → Reach nb idx (home n) n

variable {nb : Nat} {home : Nat → Nat} {live : Nat → Prop} {idx : Nat → Bucket}

theorem index_empty (nb : Nat) (home : Nat → Nat) :
    Index nb home (fun _ => False) (fun _ => .empty) where
  home_lt := fun _ h => h.elim
  sound := fun _ _ _ h => Bucket.noConfusion h
  inj := fun _ _ _ _ _ h => Bucket.noConfusion h
  reach := fun _ h => h.elim

theorem Index.congr {home' : Nat → Nat} {live' : Nat → Prop} (h : Index nb home live idx)
    (hl : ∀ n, live' n ↔ live n) (hh : ∀ n, live n → home' n = home n) :
    Index nb home' live' idx where
  home_lt := by
    intro n hn
    rw [hh n ((hl n).mp hn)]
    exact h.home_lt n ((hl n).mp hn)
  sound := fun b n hb hn => (hl n).mpr (h.sound b n hb hn)
  inj := h.inj
  reach := by
    intro n hn
    rw [hh n ((hl n).mp hn)]
    exact h.reach n ((hl n).mp hn)

variable {items : Finset Nat} {s n b : Nat} {pre post path : List Nat} {hit : Nat → Bool}

theorem lt_of_split (hs : s < nb) (hw : walk nb nb s = pre ++ b :: post) : b < nb := by
  apply walk_lt hs
  rw [hw]
  exact mem_append_right _ mem_cons_self

section
variable (h : Index nb home live idx)
include h

theorem Index.card_le {S : Finset Nat} (hS : ∀ b ∈ S, b < nb ∧ ∃ n, idx b = .slot n)
    (hm : ∀ n, live n → n ∈ items) : S.card ≤ items.card := by
  refine card_le_card_of_injOn (fun b => (idx b).num) (fun b hb => ?_) fun b hb c hc he => ?_
  · obtain ⟨hb', n, hn⟩ := hS b hb
    have hmem := hm n (h.sound b n hb' hn)
    simpa [hn, Bucket.num] using hmem
  · obtain ⟨hb', n, hn⟩ := hS b hb
    obtain ⟨hc', k, hk⟩ := hS c hc
    have hnk : n = k := by simpa [hn, hk, Bucket.num] using he
    exact h.inj b c n hb' hc' hn (hnk ▸ hk)

theorem Index.exists_unused (hm : ∀ n, live n → n ∈ items)
    (hnb : items.card < nb) : ∃ b, b < nb ∧ ∀ n, idx b ≠ .slot n := by
  by_contra! hall
  have hcard := h.card_le (fun b hb => ⟨Finset.mem_range.mp hb, hall b (Finset.mem_range.mp hb)⟩) hm
  rw [card_range] at hcard
  omega

/-- fewer live items and tombstones than buckets leave one empty -/
theorem Index.exists_empty (hm : ∀ n, live n → n ∈ items) (hnb : items.card + tombs nb idx < nb) :
    ∃ b, b < nb ∧ idx b = .empty := by
  by_contra! hall
  have hcard := h.card_le (S := Finset.range nb \ {b ∈ Finset.range nb | idx b = .tomb}) (fun b hb => ?_) hm
  · have hle := le_card_sdiff {b ∈ range nb | idx b = .tomb} (range nb)
    rw [card_range] at hle
    unfold tombs at hnb
    omega
  · obtain ⟨hb', ht⟩ := mem_sdiff.mp hb
    have hlt := Finset.mem_range.mp hb'
    refine ⟨hlt, ?_⟩
    cases hv : idx b with
    | empty => exact absurd hv (hall b hlt)
    | tomb => exact absurd (Finset.mem_filter.mpr ⟨hb', hv⟩) ht
    | slot n => exact ⟨n, rfl⟩

/-- **a lookup from `s` finds a live item that hits, or there is none whose run starts there** -/
theorem Index.find_spec (hs : s < nb) (hit : Nat → Bool) :
    (∃ n, (find idx hit nb (walk nb nb s) nb).1 < nb ∧
      idx (find idx hit nb (walk nb nb s) nb).1 = .slot n ∧ live n ∧ hit n = true) ∨
    ((find idx hit nb (walk nb nb s) nb).1 = nb ∧ ∀ n, live n → home n = s → hit n = false) := by
  by_cases hf : (find idx hit nb (walk nb nb s) nb).1 = nb
  · refine .inr ⟨hf, ?_⟩
    intro n hn hh
    obtain ⟨pre, b, post, h1, h2, h3⟩ := h.reach n hn
    rw [hh] at h1
    exact find_miss (fun c hc => walk_lt hs hc) hf h1 h3 h2
  · obtain ⟨pre, post, n, h1, h2, h3⟩ := find_hit hf
    have hlt := lt_of_split hs h1
    exact .inl ⟨n, hlt, h2, h.sound _ n hlt h2, h3⟩

/-- a lookup that missed met a bucket to take -/
theorem Index.find_unused (hs : s < nb) (hm : ∀ k, live k → k ∈ items) (hnb : items.card < nb)
    (hf : (find idx hit nb (walk nb nb s) nb).1 = nb) :
    ∃ pre post, walk nb nb s = pre ++ (find idx hit nb (walk nb nb s) nb).2 :: post ∧
      (∀ n, idx (find idx hit nb (walk nb nb s) nb).2 ≠ .slot n) ∧ ∀ c ∈ pre, idx c ≠ .empty := by
  refine (find_free (fun c hc => walk_lt hs hc) hf).resolve_right fun hall => ?_
  obtain ⟨b, hb, hno⟩ := h.exists_unused hm hnb
  obtain ⟨k, hk⟩ := hall b (mem_walk_lap hs hb)
  exact hno k hk

/-- an item is put in a bucket of its run that holds none, with no empty bucket before it -/
theorem Index.put (hn : ¬ live n) (hh : home n < nb)
    (hw : walk nb nb (home n) = pre ++ b :: post) (hb : ∀ m, idx b ≠ .slot m)
    (hpre : ∀ c ∈ pre, idx c ≠ .empty) :
    Index nb home (fun m => live m ∨ m = n) (update idx b (.slot n)) := by
  have hkeep : ∀ c, idx c ≠ .empty → update idx b (.slot n) c ≠ .empty := by
    intro c hc
    by_cases hcb : c = b
    · rw [hcb, update_self]
      exact nofun
    · rwa [update_of_ne hcb]
  refine ⟨?_, ?_, ?_, ?_⟩
  · rintro m (hm | rfl)
    · exact h.home_lt m hm
    · exact hh
  · intro c m hc hm
    by_cases hcb : c = b
    · rw [hcb, update_self] at hm
      exact .inr (Bucket.slot.inj hm).symm
    · rw [update_of_ne hcb] at hm
      exact .inl (h.sound c m hc hm)
  · intro c d m hc hd hmc hmd
    by_cases hcb : c = b <;> by_cases hdb : d = b
    · rw [hcb, hdb]
    · rw [hcb, update_self] at hmc
      rw [update_of_ne hdb] at hmd
      exact absurd (h.sound d n hd (Bucket.slot.inj hmc ▸ hmd)) hn
    · rw [hdb, update_self] at hmd
      rw [update_of_ne hcb] at hmc
      exact absurd (h.sound c n hc (Bucket.slot.inj hmd ▸ hmc)) hn
    · rw [update_of_ne hcb] at hmc
      rw [update_of_ne hdb] at hmd
      exact h.inj c d m hc hd hmc hmd
  · rintro m (hm | rfl)
    · obtain ⟨pre', c, post', h1, h2, h3⟩ := h.reach m hm
      have hcb : c ≠ b := by
        rintro rfl
        exact hb m h2
      exact ⟨pre', c, post', h1, by rwa [update_of_ne hcb], fun d hd => hkeep d (h3 d hd)⟩
    · exact ⟨pre, b, post, hw, update_self b _ idx, fun d hd => hkeep d (hpre d hd)⟩

/-- **a bucket is cleared**: to a tombstone, or to empty where the next bucket is empty -/
theorem Index.erase (hb : b < nb) {v : Bucket}
    (hv : v = .tomb ∨ v = .empty ∧ idx (wrap nb (b + 1)) = .empty) :
    Index nb home (fun n => live n ∧ idx b ≠ .slot n) (update idx b v) := by
  have hvs : ∀ n, v ≠ .slot n := by
    rintro n rfl
    rcases hv with hv | ⟨hv, _⟩ <;> cases hv
  have hslot : ∀ c n, update idx b v c = .slot n → c ≠ b ∧ idx c = .slot n := by
    intro c n hc
    by_cases hcb : c = b
    · rw [hcb, update_self] at hc
      exact absurd hc (hvs n)
    · rw [update_of_ne hcb] at hc
      exact ⟨hcb, hc⟩
  refine ⟨fun n hn => h.home_lt n hn.1, ?_, ?_, ?_⟩
  · intro c n hc hcn
    obtain ⟨hcb, hcn'⟩ := hslot c n hcn
    exact ⟨h.sound c n hc hcn', fun hbn => hcb (h.inj c b n hc hb hcn' hbn)⟩
  · intro c d n hc hd hcn hdn
    exact h.inj c d n hc hd (hslot c n hcn).2 (hslot d n hdn).2
  · rintro n ⟨hn, hbn⟩
    obtain ⟨pre, c, post, h1, h2, h3⟩ := h.reach n hn
    have hcb : c ≠ b := by
      rintro rfl
      exact hbn h2
    refine ⟨pre, c, post, h1, by rwa [update_of_ne hcb], ?_⟩
    intro d hd
    by_cases hdb : d = b
    · rw [hdb, update_self]
      rcases hv with rfl | ⟨rfl, hnext⟩
      · exact nofun
      · -- the bucket after `b` on the run would be passed too, and it is empty
        exfalso
        obtain ⟨p1, p2, rfl⟩ := append_of_mem (hdb ▸ hd)
        cases p2 with
        | nil =>
          have hc : c = wrap nb (b + 1) := walk_next p1 post (by simpa using h1)
          rw [← hc, h2] at hnext
          cases hnext
        | cons e p2 =>
          have he : e = wrap nb (b + 1) := walk_next p1 (p2 ++ c :: post) (by simpa using h1)
          exact h3 e (by simp) (he ▸ hnext)
    · rw [update_of_ne hdb]
      exact h3 d hd

end

theorem Index.sweep (n : Nat) : ∀ {idx : Nat → Bucket} {b : Nat}, Index nb home live idx → b < nb →
    idx (wrap nb (b + 1)) = .empty → Index nb home live (Probe.sweep idx (back nb n b)).1 := by
  induction n with
  | zero => exact fun h _ _ => h
  | succ n ih =>
    intro idx b h hb hnext
    rw [back_succ]
    unfold Probe.sweep
    by_cases ht : idx b = .tomb
    · simp only [ht, if_true]
      have h' := h.erase hb (.inr ⟨rfl, hnext⟩)
      refine ih (h'.congr (fun n => ?_) fun _ _ => rfl) (prev_lt hb) ?_
      · simp [ht]
      · rw [wrap_prev hb, update_self]
    · simp only [if_neg ht]
      exact h

theorem firstEmpty_split (he : ∃ b ∈ path, idx b = .empty) :
    ∃ pre c post, firstEmpty idx path = some c ∧ path = pre ++ c :: post ∧ idx c = .empty ∧
      ∀ d ∈ pre, idx d ≠ .empty := by
  obtain ⟨b, hb, hbe⟩ := he
  cases hf : firstEmpty idx path with
  | none =>
    have hall := find?_eq_none.mp hf b hb
    simp [hbe] at hall
  | some c =>
    obtain ⟨hc, pre, post, hw, hpre⟩ := find?_eq_some_iff_append.mp hf
    refine ⟨pre, c, post, rfl, hw, of_decide_eq_true hc, ?_⟩
    intro d hd hde
    have := hpre d hd
    simp [hde] at this

section
variable (h : Index nb home live idx) (ht : ∀ b, b < nb → idx b ≠ .tomb) (hn : ¬ live n)
  (hh : home n < nb)
include h ht hn hh

/-- **a new item goes in the first empty bucket of its run** -/
theorem Index.lay (hm : ∀ k, live k → k ∈ items) (hnb : items.card < nb) :
    ∃ b, firstEmpty idx (walk nb nb (home n)) = some b ∧
      Index nb home (fun k => live k ∨ k = n) (update idx b (.slot n)) := by
  obtain ⟨b, hb, hbe⟩ := h.exists_empty hm (by rwa [tombs_eq_zero ht, Nat.add_zero])
  obtain ⟨pre, c, post, hf, hw, hc, hpre⟩ := firstEmpty_split ⟨b, mem_walk_lap hh hb, hbe⟩
  refine ⟨c, hf, h.put hn hh hw ?_ hpre⟩
  intro k hk
  rw [hc] at hk
  cases hk

end

/-! ## looking up in the order of laying -/

/-- the loop of a lookup that ends at an empty bucket: the first item on the path that hits -/
def lookup (idx : Nat → Bucket) (hit : Nat → Bool) : List Nat → Option Nat
  | [] => none
  | b :: path =>
    match idx b with
    | .empty => none
    | .tomb => lookup idx hit path
    | .slot n => if hit n then some n else lookup idx hit path

theorem lookup_congr {idx idx' : Nat → Bucket} (h : ∀ b ∈ path, idx' b = idx b) :
    lookup idx' hit path = lookup idx hit path := by
  induction path with
  | nil => rfl
  | cons b path ih =>
    unfold lookup
    rw [h b mem_cons_self, ih fun c hc => h c (mem_cons_of_mem _ hc)]

theorem lookup_append (h : ∀ b ∈ pre, idx b ≠ .empty) :
    lookup idx hit (pre ++ path) = (lookup idx hit pre).or (lookup idx hit path) := by
  induction pre with
  | nil => simp [lookup]
  | cons b pre ih =>
    have ih := ih fun c hc => h c (mem_cons_of_mem _ hc)
    rw [cons_append, lookup, lookup]
    cases hb : idx b with
    | empty => exact absurd hb (h b mem_cons_self)
    | tomb => exact ih
    | slot n =>
      by_cases hn : hit n = true
      · simp [hn]
      · simpa [hn] using ih

theorem lookup_none (h : ∀ b ∈ path, ∀ n, idx b = .slot n → hit n = false) :
    lookup idx hit path = none := by
  induction path with
  | nil => rfl
  | cons b path ih =>
    have ih := ih fun c hc => h c (mem_cons_of_mem _ hc)
    unfold lookup
    cases hb : idx b with
    | empty => rfl
    | tomb => exact ih
    | slot n => simpa [h b mem_cons_self n hb] using ih

/-- past the first empty bucket of its run an item is not found -/
theorem Index.beyond (h : Index nb home live idx) {c : Nat} (hs : s < nb)
    (hw : walk nb nb s = pre ++ c :: post) (hc : idx c = .empty) (hb : b ∈ post)
    (hn : idx b = .slot n) : home n ≠ s := by
  rintro rfl
  have hmem : b ∈ walk nb nb (home n) := by
    rw [hw]
    exact mem_append_right _ (mem_cons_of_mem _ hb)
  have hbn := walk_lt hs hmem
  obtain ⟨pre', b', post', hw', hb', hpre'⟩ := h.reach n (h.sound b n hbn hn)
  obtain rfl : b' = b := h.inj b' b n (lt_of_split hs hw') hbn hb' hn
  have hnd := walk_nodup hs le_rfl
  -- `c` comes before the item's bucket, so it was passed
  rw [hw] at hw' hnd
  rcases append_eq_append_iff.mp hw' with ⟨as, hpre, has⟩ | ⟨bs, hpre, hbs⟩
  · cases as with
    | nil =>
      obtain ⟨rfl, -⟩ := cons.inj has
      rw [hc] at hn
      cases hn
    | cons a as =>
      obtain ⟨rfl, -⟩ := cons.inj has
      exact hpre' c (hpre ▸ mem_append_right _ mem_cons_self) hc
  · cases bs with
    | nil =>
      obtain ⟨rfl, -⟩ := cons.inj hbs
      rw [hc] at hn
      cases hn
    | cons a bs =>
      obtain ⟨rfl, -⟩ := cons.inj hbs
      have hin : b' ∈ pre := hpre ▸ mem_append_right _ mem_cons_self
      exact disjoint_of_nodup_append hnd hin (mem_cons_of_mem _ hb)

/-- **a lookup finds what it found before the item was laid, and else the item** -/
theorem Index.lookup_lay (h : Index nb home live idx) (hs : s < nb)
    (hhit : ∀ k, (live k ∨ k = n) → hit k = true → home k = s)
    (hf : firstEmpty idx (walk nb nb (home n)) = some b) (he : ∃ c, c < nb ∧ idx c = .empty) :
    lookup (update idx b (.slot n)) hit (walk nb nb s) =
      (lookup idx hit (walk nb nb s)).or (if hit n then some n else none) := by
  obtain ⟨c0, hc0, hce⟩ := he
  obtain ⟨pre, c, post, hfc, hw, hc, hpre⟩ := firstEmpty_split ⟨c0, mem_walk_lap hs hc0, hce⟩
  have hb : idx b = .empty := by simpa using find?_some hf
  have hbpre : ∀ d ∈ pre, update idx b (.slot n) d = idx d := by
    intro d hd
    have hdb : d ≠ b := by
      rintro rfl
      exact hpre d hd hb
    exact update_of_ne hdb ..
  have hpre' : ∀ d ∈ pre, update idx b (.slot n) d ≠ .empty := by
    intro d hd
    rw [hbpre d hd]
    exact hpre d hd
  rw [hw, lookup_append hpre, lookup_append hpre', lookup_congr hbpre]
  by_cases hbc : b = c
  · -- the item is met where the run used to end
    subst hbc
    have hpost : lookup (update idx b (.slot n)) hit post = none := by
      apply lookup_none
      intro d hd k hk
      have hdb : d ≠ b := by
        rintro rfl
        have hnd := walk_nodup hs le_rfl
        rw [hw] at hnd
        exact (nodup_cons.mp hnd.of_append_right).1 hd
      rw [update_of_ne hdb] at hk
      have hlt : d < nb := by
        apply walk_lt hs
        rw [hw]
        exact mem_append_right _ (mem_cons_of_mem _ hd)
      by_contra hh
      exact h.beyond hs hw hc hd hk (hhit k (.inl (h.sound d k hlt hk)) (by simpa using hh))
    simp [lookup, hc, hpost]
  · -- the run still ends where it did, and the item's own run is another
    have hn : hit n = false := by
      by_contra hh
      have hhome := hhit n (.inr rfl) (by simpa using hh)
      rw [hhome, hfc] at hf
      exact hbc (Option.some.inj hf).symm
    simp [lookup, hc, hn, update_of_ne (Ne.symm hbc)]

end Probe
