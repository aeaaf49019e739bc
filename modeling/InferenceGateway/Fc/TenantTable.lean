import InferenceGateway.Lib.Chain
import InferenceGateway.Fc.Tenants

/-!
# The tenant table keeps its books

What holds of the tenant table between two locked sections, in parts that different operations
touch: the free list and the count of slots in use (`FreeOk`), the index (`NamesOk`), the count of
tenants that wait and could run (`MarksOk`), and that a free slot runs nothing.  `TableOk` is all
of them; each operation on the table keeps it and says what it does to the slots' counts.
-/

open Function List Run

namespace Fc

open Probe Chain

/-! ## the invariant -/

def Tenancy.named (t : Tenancy) (n : Nat) : Prop := n < t.slots ∧ (t.tenants n).used = true

/-- where the probe run of slot `n`'s key starts -/
def Tenancy.home (t : Tenancy) (n : Nat) : Nat := tidxHome (tidxBuckets t) (t.tenants n).key

def Tenancy.freeList (t : Tenancy) : List Nat :=
  follow (fun i => (t.tenants i).nextFree) t.slots (t.slots + 1) t.free

/-- how many slots, the shared one included, pass a test -/
def Tenancy.tally (t : Tenancy) (f : Tenant → Bool) : Nat :=
  ∑ i ∈ Finset.range (t.slots + 1), (f (t.tenants i)).toNat

/-- the free list holds the named slots that are not in use, each once -/
structure FreeOk (t : Tenancy) : Prop where
  list : ∃ l, Linked (fun i => (t.tenants i).nextFree) t.slots t.free l ∧ l.Nodup ∧
    ∀ i, i ∈ l ↔ i < t.slots ∧ (t.tenants i).used = false
  used : t.used = t.tally Tenant.used

/-- the index finds every named slot by its key, and no key has two -/
structure NamesOk (t : Tenancy) : Prop where
  index : Index (tidxBuckets t) t.home t.named t.index
  keys : ∀ n m, t.named n → t.named m → (t.tenants n).key = (t.tenants m).key → n = m

/-- the marks say which tenants wait and could run, and their number is kept -/
structure MarksOk (t : Tenancy) : Prop where
  mark : ∀ i, i ≤ t.slots → (t.tenants i).waitingRunnable = (t.tenants i).runnable t.bound
  count : t.runnableWaiting = t.tally Tenant.waitingRunnable

structure TableOk (t : Tenancy) : Prop where
  pos : 0 < t.slots
  free : FreeOk t
  names : NamesOk t
  marks : MarksOk t
  idle : ∀ i, (t.tenants i).used = false → (t.tenants i).inflight = 0
  inside : ∀ i, (t.tenants i).used = true → i ≤ t.slots

/-- before the table is made every slot is as in zeroed memory -/
structure TenancyOk (t : Tenancy) : Prop where
  none : t.table = false → ∀ i, t.tenants i = Tenant.zero
  table : t.table = true → TableOk t

variable {t t' : Tenancy} {i : Nat} {x y : Tenant}

theorem TenancyOk.used_inside (h : TenancyOk t) (hu : (t.tenants i).used = true) :
    t.table = true ∧ i ≤ t.slots := by
  cases ht : t.table with
  | false =>
    rw [h.none ht i] at hu
    cases hu
  | true => exact ⟨rfl, (h.table ht).inside i hu⟩

theorem TenancyOk.running (h : TenancyOk t) (hi : (t.tenants i).inflight ≠ 0) :
    (t.tenants i).used = true := by
  by_contra hu
  have hu' : (t.tenants i).used = false := by simpa using hu
  cases ht : t.table with
  | false =>
    rw [h.none ht i] at hi
    exact hi rfl
  | true => exact hi ((h.table ht).idle i hu')

theorem FreeOk.freeList_spec (h : FreeOk t) :
    t.freeList.Nodup ∧ ∀ i, i ∈ t.freeList ↔ i < t.slots ∧ (t.tenants i).used = false := by
  obtain ⟨l, hl, hn, hm⟩ := h.list
  have hsub : l ⊆ range t.slots := fun i hi => mem_range.mpr ((hm i).mp hi).1
  have hlen : l.length ≤ t.slots := by
    have := (subperm_of_subset hn hsub).length_le
    rwa [length_range] at this
  have heq : t.freeList = l := hl.follow_eq (by omega)
  rw [heq]
  exact ⟨hn, hm⟩

theorem tidxHome_lt (h : 0 < t.slots) (key : UInt64) : tidxHome (tidxBuckets t) key < tidxBuckets t :=
  Nat.mod_lt _ (by unfold tidxBuckets; omega)

/-! ## one slot changes -/

theorem set_self (t : Tenancy) (i : Nat) (x : Tenant) : (t.set i x).tenants i = x := by
  exact update_self i x t.tenants

theorem set_of_ne (t : Tenancy) {j : Nat} (h : j ≠ i) (x : Tenant) :
    (t.set i x).tenants j = t.tenants j := by
  exact update_of_ne h x t.tenants

theorem tally_set (t : Tenancy) (f : Tenant → Bool) (hi : i ≤ t.slots) (x : Tenant) :
    (t.set i x).tally f + (f (t.tenants i)).toNat = t.tally f + (f x).toNat :=
  sum_update (Finset.range (t.slots + 1)) (fun x => (f x).toNat) t.tenants
    (Finset.mem_range.mpr (by omega)) x

theorem tally_congr (f : Tenant → Bool) (hs : t'.slots = t.slots)
    (h : ∀ i, f (t'.tenants i) = f (t.tenants i)) : t'.tally f = t.tally f := by
  unfold Tenancy.tally
  rw [hs]
  exact Finset.sum_congr rfl fun i _ => by rw [h i]

theorem tally_unused (hi : i ≤ t.slots) (hu : (t.tenants i).used = true) (hx : x.used = false) :
    t.tally Tenant.used - 1 = (t.set i x).tally Tenant.used := by
  have h := tally_set t Tenant.used hi x
  rw [hu, hx] at h
  exact (Nat.eq_sub_of_add_eq h).symm

theorem MarksOk.set (h : MarksOk t) (hi : i ≤ t.slots) (hr : (t.tenants i).runnable t.bound = false)
    (hx : x.runnable t.bound = false) (hw : x.waitingRunnable = false) : MarksOk (t.set i x) := by
  have hwr : (t.tenants i).waitingRunnable = false := (h.mark i hi).trans hr
  constructor
  · exact update_all (fun j (y : Tenant) => j ≤ t.slots → y.waitingRunnable = y.runnable t.bound)
      (fun _ => hw.trans hx.symm) h.mark
  · have htally : (t.set i x).tally Tenant.waitingRunnable = t.tally Tenant.waitingRunnable :=
      tally_congr Tenant.waitingRunnable rfl (update_keeps Tenant.waitingRunnable (hw.trans hwr.symm))
    exact h.count.trans htally.symm

theorem TableOk.idle_set (h : TableOk t) (hx : x.used = false → x.inflight = 0) :
    ∀ j, ((t.set i x).tenants j).used = false → ((t.set i x).tenants j).inflight = 0 :=
  update_all (fun _ (y : Tenant) => y.used = false → y.inflight = 0) hx h.idle

theorem TableOk.inside_set (h : TableOk t) (hi : i ≤ t.slots) :
    ∀ j, ((t.set i x).tenants j).used = true → j ≤ t.slots :=
  update_all (fun j (y : Tenant) => y.used = true → j ≤ t.slots) (fun _ => hi) h.inside

theorem FreeOk.congr (h : FreeOk t) (hs : t'.slots = t.slots) (hf : t'.free = t.free)
    (hc : t'.used = t.used) (hu : ∀ i, (t'.tenants i).used = (t.tenants i).used)
    (hn : ∀ i, (t'.tenants i).nextFree = (t.tenants i).nextFree) : FreeOk t' := by
  obtain ⟨l, hl, hnd, hm⟩ := h.list
  refine ⟨⟨l, ?_, hnd, ?_⟩, ?_⟩
  · rw [hs, hf]
    exact hl.congr fun i _ => hn i
  · intro i
    rw [hs, hu i]
    exact hm i
  · rw [hc, h.used]
    exact (tally_congr Tenant.used hs hu).symm

theorem NamesOk.congr (h : NamesOk t) (hs : t'.slots = t.slots) (hi : t'.index = t.index)
    (hu : ∀ i, i < t.slots → (t'.tenants i).used = (t.tenants i).used)
    (hk : ∀ i, i < t.slots → (t'.tenants i).key = (t.tenants i).key) : NamesOk t' := by
  have hnamed : ∀ n, t'.named n ↔ t.named n := by
    intro n
    unfold Tenancy.named
    rw [hs]
    refine and_congr_right fun hn => ?_
    rw [hu n hn]
  have hb : tidxBuckets t' = tidxBuckets t := congrArg (2 * ·) hs
  refine ⟨?_, ?_⟩
  · rw [hb, hi]
    refine h.index.congr hnamed fun n hn => ?_
    unfold Tenancy.home
    rw [hb, hk n hn.1]
  · intro n m hn hm
    have hn' := (hnamed n).mp hn
    have hm' := (hnamed m).mp hm
    rw [hk n hn'.1, hk m hm'.1]
    exact h.keys n m hn' hm'

/-! ## the index -/

theorem tidxFind_hit (hp : 0 < t.slots) {key : UInt64} (h : (tidxFind t key).1 ≠ tidxBuckets t) :
    ∃ s, (tidxFind t key).1 < tidxBuckets t ∧ t.index (tidxFind t key).1 = .slot s ∧
      (t.tenants s).key = key := by
  obtain ⟨pre, post, s, hw, hs, hk⟩ := find_hit h
  exact ⟨s, lt_of_split (tidxHome_lt hp key) hw, hs, of_decide_eq_true hk⟩

/-- **a lookup finds the bucket of a slot if the slot is in use with the key**, and of no other -/
theorem NamesOk.find_iff (h : NamesOk t) (hp : 0 < t.slots) {key : UInt64} {s : Nat} :
    ((tidxFind t key).1 < tidxBuckets t ∧ t.index (tidxFind t key).1 = .slot s) ↔
      t.named s ∧ (t.tenants s).key = key := by
  constructor
  · rintro ⟨hlt, hb⟩
    obtain ⟨m, -, hm, hk⟩ := tidxFind_hit hp (ne_of_lt hlt)
    cases hb.symm.trans hm
    exact ⟨h.index.sound _ s hlt hb, hk⟩
  · rintro ⟨hs, hk⟩
    rcases h.index.find_spec (tidxHome_lt hp key) (fun m => (t.tenants m).key = key) with
      ⟨m, h1, h2, h3, h4⟩ | ⟨-, h2⟩
    · have hms := h.keys m s h3 hs ((of_decide_eq_true h4).trans hk.symm)
      exact ⟨h1, hms ▸ h2⟩
    · have := h2 s hs (congrArg (tidxHome _) hk)
      simp [hk] at this

theorem tidxLay_spec (hp : 0 < t.slots) {k : Nat} (hk : k < t.slots) {idx : Nat → Bucket}
    (ht : ∀ b, idx b ≠ .tomb)
    (h : Index (tidxBuckets t) t.home (fun n => n < k ∧ (t.tenants n).used = true) idx) :
    (∀ b, tidxLay t idx k b ≠ .tomb) ∧
      Index (tidxBuckets t) t.home (fun n => n < k + 1 ∧ (t.tenants n).used = true)
        (tidxLay t idx k) := by
  have hbuckets : t.slots < tidxBuckets t := by
    unfold tidxBuckets
    omega
  have hsucc : ∀ n, n < k + 1 ∧ (t.tenants n).used = true ↔
      (n < k ∧ (t.tenants n).used = true) ∨ n = k ∧ (t.tenants k).used = true := by
    intro n
    rw [Nat.lt_succ_iff_lt_or_eq, or_and_right]
    refine or_congr_right (and_congr_right fun hn => ?_)
    rw [hn]
  unfold tidxLay
  by_cases hu : (t.tenants k).used = true
  · have hfree : ¬ (k < k ∧ (t.tenants k).used = true) := fun hc => lt_irrefl k hc.1
    obtain ⟨b, hb, hi⟩ := h.lay (fun b _ => ht b) hfree (tidxHome_lt hp _)
      (fun n hn => Finset.mem_range.mpr (lt_trans hn.1 hk)) (by rwa [Finset.card_range])
    have hb' : firstEmpty idx (tidxRun t (t.tenants k).key) = some b := hb
    simp only [hu, if_true, hb']
    refine ⟨?_, hi.congr ?_ fun _ _ => rfl⟩
    · exact update_all (fun _ c => c ≠ Bucket.tomb) nofun ht
    · exact fun n => (hsucc n).trans (or_congr_right (and_iff_left hu))
  · simp only [if_neg hu]
    exact ⟨ht, h.congr (fun n => (hsucc n).trans (or_iff_left fun hc => hu hc.2)) fun _ _ => rfl⟩

theorem tidxRelay_laid (hp : 0 < t.slots) : ∀ k, k ≤ t.slots →
    (∀ b, (range k).foldl (tidxLay t) (fun _ => .empty) b ≠ .tomb) ∧
      Index (tidxBuckets t) t.home (fun n => n < k ∧ (t.tenants n).used = true)
        ((range k).foldl (tidxLay t) (fun _ => .empty)) := by
  intro k
  induction k with
  | zero =>
    refine fun _ => ⟨fun _ => nofun, (index_empty _ t.home).congr ?_ fun _ h => h.elim⟩
    exact fun n => ⟨fun h => Nat.not_lt_zero n h.1, fun h => h.elim⟩
  | succ k ih =>
    intro hks
    obtain ⟨h1, h2⟩ := ih (by omega)
    rw [range_succ, foldl_append]
    exact tidxLay_spec hp hks h1 h2

theorem tidxRelay_names (hp : 0 < t.slots)
    (hk : ∀ n m, t.named n → t.named m → (t.tenants n).key = (t.tenants m).key → n = m) :
    NamesOk (tidxRelay t) :=
  ⟨(tidxRelay_laid hp _ (le_refl _)).2, hk⟩

/-- slot `n` goes out of use, and is still in the index -/
def Tenancy.unused (t : Tenancy) (n : Nat) : Tenancy :=
  { t.set n { t.tenants n with used := false } with used := t.used - 1 }

theorem unused_named {m n : Nat} : (t.unused n).named m ↔ t.named m ∧ m ≠ n := by
  show m < t.slots ∧ ((t.set n { t.tenants n with used := false }).tenants m).used = true ↔ _
  by_cases hm : m = n
  · rw [hm, set_self]
    simp
  · rw [set_of_ne t hm]
    exact (and_iff_left hm).symm

theorem unused_key (t : Tenancy) (n : Nat) : ∀ j, ((t.unused n).tenants j).key = (t.tenants j).key :=
  update_keeps Tenant.key rfl

theorem tidxDrop_names (h : NamesOk t) (hp : 0 < t.slots) {n : Nat} (hn : t.named n) :
    NamesOk (tidxDrop (t.unused n) (t.tenants n).key) := by
  have hk := unused_key t n
  have hkeys : ∀ m k, (t.unused n).named m → (t.unused n).named k →
      ((t.unused n).tenants m).key = ((t.unused n).tenants k).key → m = k := by
    intro m k hm hk'
    rw [hk m, hk k]
    exact h.keys m k (unused_named.mp hm).1 (unused_named.mp hk').1
  have hidx : Index (tidxBuckets t) (t.unused n).home t.named t.index :=
    h.index.congr (fun _ => Iff.rfl) fun m _ => congrArg (tidxHome (tidxBuckets t)) (hk m)
  -- the lookup reads the index and the keys
  have hfind : tidxFind (t.unused n) (t.tenants n).key = tidxFind t (t.tenants n).key := by
    unfold tidxFind
    simp only [hk]
    rfl
  obtain ⟨hlt, hslot⟩ := (h.find_iff hp).mpr ⟨hn, rfl⟩
  have hlive : ∀ m, (t.unused n).named m ↔
      t.named m ∧ t.index (tidxFind t (t.tenants n).key).1 ≠ .slot m := by
    intro m
    rw [unused_named, hslot]
    refine and_congr_right fun _ => ?_
    exact ⟨fun hm hc => hm (Bucket.slot.inj hc).symm, fun hc hm => hc (congrArg _ hm.symm)⟩
  unfold tidxDrop
  rw [hfind]
  dsimp only
  split
  · exact absurd ‹_› (ne_of_lt hlt)
  split
  · rename_i hnext
    refine ⟨?_, hkeys⟩
    have h1 := hidx.erase hlt (.inr ⟨rfl, hnext⟩)
    have h2 := h1.sweep (tidxBuckets t) (Walk.prev_lt hlt) (by rw [Walk.wrap_prev hlt, update_self])
    exact h2.congr hlive fun _ _ => rfl
  · split
    · exact tidxRelay_names hp hkeys
    · exact ⟨(hidx.erase hlt (.inl rfl)).congr hlive fun _ _ => rfl, hkeys⟩

theorem tidxDrop_eq (t : Tenancy) (key : UInt64) :
    ∃ idx n, tidxDrop t key = { t with index := idx, tombs := n } := by
  unfold tidxDrop
  dsimp only
  split
  · exact ⟨t.index, t.tombs, rfl⟩
  · split
    · exact ⟨_, _, rfl⟩
    · split
      · exact ⟨_, _, rfl⟩
      · exact ⟨_, _, rfl⟩

/-! ## the counts of one slot move -/

/-- what a slot says of its tenant, without the links and the mark -/
def Tenant.holds (x : Tenant) : Tenant := { x with waitingRunnable := false, nextFree := 0 }

section
variable {x y : Tenant} (h : x.holds = y.holds)
include h

theorem holds_key : x.key = y.key := (congrArg Tenant.key h :)
theorem holds_inflight : x.inflight = y.inflight := (congrArg Tenant.inflight h :)
theorem holds_queued : x.queued = y.queued := (congrArg Tenant.queued h :)
theorem holds_used : x.used = y.used := (congrArg Tenant.used h :)

theorem holds_runnable (bound : Nat) : x.runnable bound = y.runnable bound :=
  (congrArg (fun z => z.runnable bound) h :)

end

def Tenant.spent (x : Tenant) : Bool := x.used && x.inflight = 0 && x.queued = 0

theorem spent_iff : x.spent = true ↔ x.used = true ∧ x.inflight = 0 ∧ x.queued = 0 := by
  simp [Tenant.spent, and_assoc]

abbrev Tenancy.marked (t : Tenancy) (i : Nat) : Tenant :=
  { t.tenants i with waitingRunnable := (t.tenants i).runnable t.bound }

theorem tenantMark_tenants (t : Tenancy) (i j : Nat) : (tenantMark t i).tenants j =
      if j = i then t.marked i else t.tenants j :=
  update_apply t.tenants i _ j

theorem tenantMark_holds (t : Tenancy) (i j : Nat) :
    ((tenantMark t i).tenants j).holds = (t.tenants j).holds := by
  rw [tenantMark_tenants]
  split
  · rename_i h
    rw [h]
    rfl
  · rfl

theorem tenantMark_marks (hi : i ≤ t.slots)
    (hm : ∀ j, j ≤ t.slots → j ≠ i → (t.tenants j).waitingRunnable = (t.tenants j).runnable t.bound)
    (hc : t.runnableWaiting = t.tally Tenant.waitingRunnable) : MarksOk (tenantMark t i) := by
  constructor
  · intro j hj
    rw [tenantMark_tenants]
    by_cases hji : j = i
    · rw [if_pos hji]
      rfl
    · rw [if_neg hji]
      exact hm j hj hji
  · have hset := tally_set t Tenant.waitingRunnable hi (t.marked i)
    show (if (t.tenants i).runnable t.bound = (t.tenants i).waitingRunnable then t.runnableWaiting
      else if (t.tenants i).runnable t.bound then t.runnableWaiting + 1 else t.runnableWaiting - 1) =
      (t.set i (t.marked i)).tally Tenant.waitingRunnable
    dsimp only [Tenancy.marked] at hset ⊢
    cases hr : (t.tenants i).runnable t.bound <;> cases hw : (t.tenants i).waitingRunnable <;>
      rw [hr, hw] at hset <;> simp at hset ⊢ <;> omega

/-- an operation on slot `i`: the table keeps its books and only this slot's counts change -/
structure SlotSpec (t t' : Tenancy) (i : Nat) (x : Tenant) : Prop where
  ok : TableOk t'
  table : t'.table = t.table
  slots : t'.slots = t.slots
  self : (t'.tenants i).holds = x.holds
  other : ∀ j, j ≠ i → (t'.tenants j).holds = (t.tenants j).holds

/-- **one slot's counts move and its mark follows** -/
theorem TableOk.bump (h : TableOk t) (hi : i ≤ t.slots) (hk : x.key = (t.tenants i).key)
    (hu : x.used = (t.tenants i).used) (hn : x.nextFree = (t.tenants i).nextFree)
    (hw : x.waitingRunnable = (t.tenants i).waitingRunnable)
    (hx : x.used = false → x.inflight = 0) :
    SlotSpec t (tenantMark (t.set i x) i) i x := by
  have field : ∀ {β : Type} (f : Tenant → β), f x = f (t.tenants i) →
      ∀ j, f ((t.set i x).tenants j) = f (t.tenants j) := fun f hf => update_keeps f hf
  have mark : ∀ {β : Type} (f : Tenant → β), (∀ y b, f { y with waitingRunnable := b } = f y) →
      f x = f (t.tenants i) → ∀ j, f ((tenantMark (t.set i x) i).tenants j) = f (t.tenants j) :=
    fun f hb hf j => (update_keeps f (hb _ _) j).trans (field f hf j)
  refine ⟨⟨h.pos, ?_, ?_, ?_, ?_, ?_⟩, rfl, rfl,
    (tenantMark_holds _ i i).trans (congrArg Tenant.holds (set_self t i x)),
    fun j hj => (tenantMark_holds _ i j).trans (congrArg Tenant.holds (set_of_ne t hj x))⟩
  · exact h.free.congr rfl rfl rfl (mark Tenant.used (fun _ _ => rfl) hu)
      (mark Tenant.nextFree (fun _ _ => rfl) hn)
  · exact h.names.congr rfl rfl (fun j _ => mark Tenant.used (fun _ _ => rfl) hu j)
      fun j _ => mark Tenant.key (fun _ _ => rfl) hk j
  · refine tenantMark_marks hi ?_ ?_
    · intro j hj hji
      rw [set_of_ne t hji x]
      exact h.marks.mark j hj
    · have htally : (t.set i x).tally Tenant.waitingRunnable = t.tally Tenant.waitingRunnable :=
        tally_congr Tenant.waitingRunnable rfl (field Tenant.waitingRunnable hw)
      exact h.marks.count.trans htally.symm
  · intro j hj
    have hmark := tenantMark_holds (t.set i x) i j
    rw [holds_used hmark] at hj
    rw [holds_inflight hmark]
    exact h.idle_set hx j hj
  · intro j hj
    rw [mark Tenant.used (fun _ _ => rfl) hu] at hj
    exact h.inside j hj

theorem put_used (x : Tenant) (h : Hold) (n : Nat) : (x.put h n).used = x.used := by
  cases h <;> rfl

theorem SlotSpec.of_set (ok : TableOk t') (table : t'.table = t.table) (slots : t'.slots = t.slots)
    (hset : t'.tenants = (t.set i y).tenants) (hy : y.holds = x.holds) : SlotSpec t t' i x := by
  refine ⟨ok, table, slots, ?_, fun j hj => ?_⟩
  · rw [hset, set_self, hy]
  · rw [hset, set_of_ne t hj]

theorem tenantInc_spec (h : TableOk t) (hi : i ≤ t.slots) (c : Hold)
    (hx : (t.tenants i).used = true ∨ c = .queued) :
    SlotSpec t (tenantInc t i c) i ((t.tenants i).put c ((t.tenants i).get c + 1)) := by
  have hidle : ((t.tenants i).put c ((t.tenants i).get c + 1)).used = false →
      ((t.tenants i).put c ((t.tenants i).get c + 1)).inflight = 0 := by
    intro hf
    rw [put_used] at hf
    rcases hx with hx | rfl
    · exact absurd hf (by simp [hx])
    · exact h.idle i hf
  cases c <;> exact h.bump hi rfl rfl rfl rfl hidle

/-! ## a slot is handed back -/

/-- the slot `i` freed: what is left beside the index -/
def Tenancy.freed (t : Tenancy) (i : Nat) : Tenancy :=
  { t.set i { t.tenants i with used := false, nextFree := t.free } with
    used := t.used - 1, free := i }

theorem freed_free (h : FreeOk t) (hi : i < t.slots) (hu : (t.tenants i).used = true) :
    FreeOk (t.freed i) := by
  obtain ⟨l, hl, hnd, hm⟩ := h.list
  have hil : i ∉ l := by
    intro hc
    have := ((hm i).mp hc).2
    rw [hu] at this
    cases this
  have hnext : (fun j => ((t.freed i).tenants j).nextFree) =
      update (fun j => (t.tenants j).nextFree) i t.free :=
    comp_update Tenant.nextFree t.tenants i _
  refine ⟨⟨i :: l, ?_, nodup_cons.mpr ⟨hil, hnd⟩, ?_⟩, ?_⟩
  · rw [hnext]
    exact hl.push hi hil
  · intro j
    rw [mem_cons]
    by_cases hji : j = i
    · have : ((t.freed i).tenants j).used = false := by
        rw [hji]
        exact congrArg Tenant.used (set_self t i _)
      exact ⟨fun _ => ⟨hji ▸ hi, this⟩, fun _ => .inl hji⟩
    · have : ((t.freed i).tenants j).used = (t.tenants j).used :=
        congrArg Tenant.used (set_of_ne t hji _)
      rw [this]
      exact ⟨fun hj => (hm j).mp (hj.resolve_left hji), fun hj => .inr ((hm j).mpr hj)⟩
  · exact (congrArg (· - 1) h.used).trans (tally_unused (le_of_lt hi) hu rfl)

theorem tenantPut_named (h : TableOk t) (ht : t.table = true) (hi : i < t.slots)
    (hs : (t.tenants i).spent = true) :
    ∃ idx n, tenantPut t i = { t.freed i with index := idx, tombs := n } ∧
      NamesOk (tenantPut t i) := by
  obtain ⟨hu, hinf, hq⟩ := spent_iff.mp hs
  have hnames := tidxDrop_names h.names h.pos ⟨hi, hu⟩
  obtain ⟨idx, n, hdrop⟩ := tidxDrop_eq (t.unused i) (t.tenants i).key
  have hlink : (tidxDrop (t.unused i) (t.tenants i).key).link i =
      { t.freed i with index := idx, tombs := n } := by
    rw [hdrop]
    simp only [Tenancy.freed, Tenancy.link, Tenancy.unused, Tenancy.set, update_self, update_idem]
  have hlinked : NamesOk { t.freed i with index := idx, tombs := n } := by
    have hfreed : ∀ j, ((t.freed i).tenants j).used = ((t.unused i).tenants j).used ∧
        ((t.freed i).tenants j).key = ((t.unused i).tenants j).key := by
      intro j
      simp only [Tenancy.freed, Tenancy.unused, Tenancy.set, update_apply]
      split <;> exact ⟨rfl, rfl⟩
    rw [hdrop] at hnames
    exact hnames.congr rfl rfl (fun j _ => (hfreed j).1) fun j _ => (hfreed j).2
  have hput : tenantPut t i = tidxTidy { t.freed i with index := idx, tombs := n } := by
    unfold tenantPut
    rw [if_neg (by simp [ht]; omega), if_neg (by simp [hu, hinf, hq]),
      if_neg (by exact ne_of_lt hi), ← hlink]
    rfl
  rw [hput]
  unfold tidxTidy
  split
  · exact ⟨_, 0, rfl, tidxRelay_names h.pos hlinked.keys⟩
  · exact ⟨idx, n, rfl, hlinked⟩

/-- a slot after it was looked at for a last time: free if it holds nothing -/
def Tenant.settled (x : Tenant) : Tenant := if x.spent then { x with used := false } else x

theorem settled_holds (h : x.holds = y.holds) : x.settled.holds = y.settled.holds := by
  have hs : x.spent = y.spent := by
    show x.holds.spent = y.holds.spent
    rw [h]
  unfold Tenant.settled
  rw [hs]
  split
  · exact congrArg (fun z => { z with used := false }) h
  · exact h

/-- **the shared slot changes hands**: neither the free list nor the index has it -/
theorem TableOk.set_shared (h : TableOk t) (hm : MarksOk (t.set t.slots x))
    (hx : x.used = false → x.inflight = 0) {n : Nat} (hn : n = (t.set t.slots x).tally Tenant.used) :
    TableOk { t.set t.slots x with used := n } := by
  have hother : ∀ j, j < t.slots → (t.set t.slots x).tenants j = t.tenants j :=
    fun j hj => set_of_ne t (ne_of_lt hj) _
  obtain ⟨l, hl, hnd, hmem⟩ := h.free.list
  refine ⟨h.pos, ⟨⟨l, ?_, hnd, ?_⟩, hn⟩, ?_, ⟨hm.mark, hm.count⟩, h.idle_set hx,
    h.inside_set (le_refl _)⟩
  · exact hl.congr fun j hj => congrArg Tenant.nextFree (hother j ((hmem j).mp hj).1)
  · intro j
    rw [hmem j]
    refine and_congr_right fun hj => ?_
    rw [← hother j hj]
  · exact h.names.congr rfl rfl (fun j hj => congrArg Tenant.used (hother j hj))
      fun j hj => congrArg Tenant.key (hother j hj)

theorem tenantPut_same (hs : ¬ (t.tenants i).spent = true) : tenantPut t i = t := by
  unfold tenantPut
  split
  · rfl
  rw [if_pos]
  simp only [Tenant.spent, Bool.and_eq_true, decide_eq_true_eq, not_and_or] at hs
  rcases hs with (hs | hs) | hs
  · exact .inl (by simpa using hs)
  · exact .inr (.inl hs)
  · exact .inr (.inr hs)

/-- **a slot is handed back**: it goes out of use if it holds nothing -/
theorem tenantPut_spec (h : TableOk t) (ht : t.table = true) (hi : i ≤ t.slots) :
    SlotSpec t (tenantPut t i) i (t.tenants i).settled := by
  by_cases hs : (t.tenants i).spent = true
  · have hset : (t.tenants i).settled = { t.tenants i with used := false } := if_pos hs
    obtain ⟨hu, hinf, hq⟩ := spent_iff.mp hs
    have hstill : (t.tenants i).runnable t.bound = false := by simp [Tenant.runnable, hq]
    have hmark : (t.tenants i).waitingRunnable = false := (h.marks.mark i hi).trans hstill
    rw [hset]
    rcases lt_or_eq_of_le hi with hlt | rfl
    · obtain ⟨idx, n, heq, hnames⟩ := tenantPut_named h ht hlt hs
      have hfree := freed_free h.free hlt hu
      have hm : MarksOk (t.set i { t.tenants i with used := false, nextFree := t.free }) :=
        h.marks.set hi hstill rfl hmark
      rw [heq] at hnames ⊢
      exact .of_set ⟨h.pos, ⟨hfree.list, hfree.used⟩, hnames, ⟨hm.mark, hm.count⟩,
        h.idle_set fun _ => hinf, h.inside_set hi⟩ rfl rfl rfl rfl
    · have heq : tenantPut t t.slots =
          { t.set t.slots { t.tenants t.slots with used := false } with used := t.used - 1 } := by
        unfold tenantPut
        rw [if_neg (by simp [ht]), if_neg (by simp [hu, hinf, hq]), if_pos (by exact rfl)]
      rw [heq]
      have hm : MarksOk (t.set t.slots { t.tenants t.slots with used := false }) :=
        h.marks.set hi hstill rfl hmark
      exact .of_set (h.set_shared hm (fun _ => hinf)
        ((congrArg (· - 1) h.free.used).trans (tally_unused hi hu rfl))) rfl rfl rfl rfl
  · have hset : (t.tenants i).settled = t.tenants i := if_neg hs
    rw [tenantPut_same hs, hset]
    exact ⟨h, rfl, rfl, rfl, fun _ _ => rfl⟩

/-- **one count of a slot in use moves down**; the anomaly is that it was zero -/
theorem tenantDec_spec (h : TableOk t) (ht : t.table = true) (hi : i ≤ t.slots)
    (hu : (t.tenants i).used = true) (c : Hold) :
    SlotSpec t (tenantDec t i c).1 i ((t.tenants i).put c ((t.tenants i).get c - 1)).settled ∧
      (tenantDec t i c).2 = decide ((t.tenants i).get c = 0) := by
  have heq : tenantDec t i c =
      (tenantPut (tenantMark (t.set i ((t.tenants i).put c ((t.tenants i).get c - 1))) i) i,
        decide ((t.tenants i).get c = 0)) := by
    unfold tenantDec
    rw [if_neg]
    simp only [ht, hu, not_or]
    exact ⟨by simp, by omega, by simp⟩
  rw [heq]
  refine ⟨?_, rfl⟩
  set x := (t.tenants i).put c ((t.tenants i).get c - 1) with hx
  have hbump : SlotSpec t (tenantMark (t.set i x) i) i x := by
    have hidle : x.used = false → x.inflight = 0 := by
      intro hf
      rw [put_used, hu] at hf
      cases hf
    cases c <;> exact h.bump hi rfl rfl rfl rfl hidle
  have hput := tenantPut_spec hbump.ok ht hi
  exact ⟨hput.ok, hput.table, hput.slots, hput.self.trans (settled_holds hbump.self),
    fun j hj => (hput.other j hj).trans (hbump.other j hj)⟩

/-! ## a slot is looked up -/

theorem taken_marks (h : MarksOk t) (hi : i ≤ t.slots) (hu : (t.tenants i).used = false)
    (key : UInt64) :
    MarksOk (t.set i ((t.tenants i).taken key)) :=
  h.set hi (by simp [Tenant.runnable, hu]) (by simp [Tenant.runnable, Tenant.taken]) rfl

theorem tally_taken (hi : i ≤ t.slots) (hu : (t.tenants i).used = false) (key : UInt64) :
    t.tally Tenant.used + 1 = (t.set i ((t.tenants i).taken key)).tally Tenant.used := by
  have h := tally_set t Tenant.used hi ((t.tenants i).taken key)
  rw [hu] at h
  exact h.symm

theorem TableOk.find_unused (h : TableOk t) {key : UInt64} (hm : (tidxFind t key).1 = tidxBuckets t) :
    ∃ pre post, tidxRun t key = pre ++ (tidxFind t key).2 :: post ∧
      (∀ n, t.index (tidxFind t key).2 ≠ .slot n) ∧ ∀ c ∈ pre, t.index c ≠ .empty := by
  refine h.names.index.find_unused (tidxHome_lt h.pos key) (fun k hk => Finset.mem_range.mpr hk.1) ?_ hm
  have := h.pos
  rw [Finset.card_range]
  unfold tidxBuckets
  omega

theorem tenantTake_new (h : TableOk t) {key : UInt64} (hf : t.free < t.slots)
    (hm : (tidxFind t key).1 = tidxBuckets t) (tombs : Nat) :
    (t.tenants t.free).used = false ∧
    TableOk { t.set t.free ((t.tenants t.free).taken key) with
      free := (t.tenants t.free).nextFree
      used := t.used + 1
      tombs := tombs
      index := update t.index (tidxFind t key).2 (.slot t.free) } := by
  set slot := t.free with hslot
  set x := (t.tenants slot).taken key with hx
  obtain ⟨l, hl, hnd, hmem⟩ := h.free.list
  obtain ⟨l', rfl⟩ : ∃ l', l = slot :: l' := by
    cases l with
    | nil => exact absurd hf (not_lt.mpr hl)
    | cons b l' => exact ⟨l', by rw [hslot, hl.1]⟩
  have hu : (t.tenants slot).used = false := ((hmem slot).mp mem_cons_self).2
  obtain ⟨hnl, hnd'⟩ := nodup_cons.mp hnd
  have hother : ∀ j, j ≠ slot → (t.set slot x).tenants j = t.tenants j := fun j hj => set_of_ne t hj x
  have hself : (t.set slot x).tenants slot = x := set_self t slot x
  refine ⟨hu, ?_⟩
  refine ⟨h.pos, ⟨⟨l', ?_, hnd', ?_⟩, ?_⟩, ⟨?_, ?_⟩, ?_, h.idle_set fun _ => rfl,
    h.inside_set (le_of_lt hf)⟩
  · refine hl.2.2.congr fun j hj => ?_
    have hjs : j ≠ slot := fun hc => hnl (hc ▸ hj)
    exact congrArg Tenant.nextFree (hother j hjs)
  · intro j
    show j ∈ l' ↔ j < t.slots ∧ ((t.set slot x).tenants j).used = false
    by_cases hjs : j = slot
    · rw [hjs, hself]
      exact ⟨fun hc => absurd hc hnl, fun hc => absurd hc.2 (by simp [hx, Tenant.taken])⟩
    · rw [hother j hjs, ← hmem j, mem_cons]
      exact ⟨.inr, fun hj => hj.resolve_left hjs⟩
  · exact (congrArg (· + 1) h.free.used).trans (tally_taken (le_of_lt hf) hu key)
  · -- the lookup that missed left the bucket to use
    have hnot : ¬ t.named slot := by
      rintro ⟨_, hc⟩
      rw [hu] at hc
      cases hc
    have hhome : ∀ n, t.named n → tidxHome (tidxBuckets t) ((t.set slot x).tenants n).key = t.home n := by
      intro n hn
      have hns : n ≠ slot := fun hc => hnot (hc ▸ hn)
      rw [hother n hns]
      rfl
    have hkey : tidxHome (tidxBuckets t) ((t.set slot x).tenants slot).key =
        tidxHome (tidxBuckets t) key := by
      rw [hself]
      rfl
    obtain ⟨pre, post, h1, h2, h3⟩ := h.find_unused hm
    have hidx := (h.names.index.congr (fun _ => Iff.rfl) hhome).put hnot
      (by rw [hkey]; exact tidxHome_lt h.pos key) (by rw [hkey]; exact h1) h2 h3
    refine hidx.congr ?_ fun _ _ => rfl
    intro n
    show n < t.slots ∧ ((t.set slot x).tenants n).used = true ↔ t.named n ∨ n = slot
    by_cases hns : n = slot
    · rw [hns, hself]
      exact ⟨fun _ => .inr rfl, fun _ => ⟨hf, rfl⟩⟩
    · rw [hother n hns]
      exact ⟨.inl, fun hc => hc.resolve_right hns⟩
  · -- no named slot has this key
    have hmiss : ∀ n, t.named n → (t.tenants n).key ≠ key := fun n hn hc =>
      ne_of_lt ((h.names.find_iff h.pos).mpr ⟨hn, hc⟩).1 hm
    have hnamed : ∀ n, n ≠ slot → n < t.slots ∧ ((t.set slot x).tenants n).used = true → t.named n := by
      intro n hns hn
      rw [hother n hns] at hn
      exact hn
    intro n m hn hm' hk
    by_cases hns : n = slot <;> by_cases hms : m = slot
    · rw [hns, hms]
    · rw [hns, hself, hother m hms] at hk
      exact absurd hk.symm (hmiss m (hnamed m hms hm'))
    · rw [hms, hself, hother n hns] at hk
      exact absurd hk (hmiss n (hnamed n hns hn))
    · rw [hother n hns, hother m hms] at hk
      exact h.names.keys n m (hnamed n hns hn) (hnamed m hms hm') hk
  · have hmk := taken_marks h.marks (le_of_lt hf) hu key
    exact ⟨hmk.mark, hmk.count⟩

/-- a slot that was looked up for `key`: as it was, or newly taken -/
def Tenant.looked (x : Tenant) (key : UInt64) : Tenant := if x.used then x else x.taken key

/-- what a lookup for `key` leaves: the slot, in use, and named by the key unless it is the
shared one -/
structure LookSpec (t t' : Tenancy) (key : UInt64) (slot : Nat) (full : Bool) : Prop
    extends SlotSpec t t' slot ((t.tenants slot).looked key) where
  le : slot ≤ t.slots
  used : (t'.tenants slot).used = true
  full : full = decide (slot = t.slots)
  key : slot < t.slots → (t'.tenants slot).key = key

theorem tenantTake_spec (h : TableOk t) (key : UInt64) :
    LookSpec t (tenantTake t key).1 key (tenantTake t key).2.1 (tenantTake t key).2.2 := by
  unfold tenantTake
  by_cases hf : (tidxFind t key).1 ≠ tidxBuckets t
  · rw [if_pos hf]
    obtain ⟨n, hlt, hslot, hk⟩ := tidxFind_hit h.pos hf
    have hnamed := h.names.index.sound _ n hlt hslot
    have hn : (t.index (tidxFind t key).1).num = n := congrArg Bucket.num hslot
    have hlook : (t.tenants n).looked key = t.tenants n := if_pos hnamed.2
    rw [hn]
    refine ⟨⟨h, rfl, rfl, ?_, fun _ _ => rfl⟩, le_of_lt hnamed.1, hnamed.2, ?_, fun _ => hk⟩
    · rw [hlook]
    · exact (decide_eq_false (ne_of_lt hnamed.1)).symm
  · rw [if_neg hf]
    rw [not_not] at hf
    by_cases hfull : t.free ≥ t.slots
    · rw [if_pos hfull]
      by_cases hu : (t.tenants t.slots).used = true
      · have hlook : (t.tenants t.slots).looked key = t.tenants t.slots := if_pos hu
        rw [if_pos hu]
        refine ⟨⟨h, rfl, rfl, ?_, fun _ _ => rfl⟩, le_refl _, hu, by simp, ?_⟩
        · rw [hlook]
        · exact fun hc => absurd hc (lt_irrefl _)
      · have hu' : (t.tenants t.slots).used = false := by simpa using hu
        have hlook : (t.tenants t.slots).looked key = (t.tenants t.slots).taken key := if_neg hu
        have hself : (t.set t.slots ((t.tenants t.slots).taken key)).tenants t.slots =
            (t.tenants t.slots).taken key := set_self t _ _
        rw [if_neg hu]
        exact ⟨.of_set (h.set_shared (taken_marks h.marks (le_refl _) hu' key) (fun _ => rfl)
            ((congrArg (· + 1) h.free.used).trans (tally_taken (le_refl _) hu' key))) rfl rfl rfl
            (congrArg Tenant.holds hlook.symm),
          le_refl _, congrArg Tenant.used hself, by simp, fun hc => absurd hc (lt_irrefl _)⟩
    · rw [if_neg hfull]
      have hlt : t.free < t.slots := not_le.mp hfull
      obtain ⟨hu, hok⟩ := tenantTake_new h hlt hf
        (if t.index (tidxFind t key).2 = .tomb then t.tombs - 1 else t.tombs)
      have hlook : (t.tenants t.free).looked key = (t.tenants t.free).taken key :=
        if_neg (by simp [hu])
      have hself : (t.set t.free ((t.tenants t.free).taken key)).tenants t.free =
          (t.tenants t.free).taken key := set_self t _ _
      refine ⟨.of_set hok rfl rfl rfl (congrArg Tenant.holds hlook.symm), le_of_lt hlt, ?_, ?_, ?_⟩
      · exact congrArg Tenant.used hself
      · exact (decide_eq_false (ne_of_lt hlt)).symm
      · exact fun _ => congrArg Tenant.key hself

/-! ## the table is made -/

theorem ensure_fresh (t : Tenancy) (hp : 0 < t.slots) : TableOk { t with
      table := true
      tenants := fun i => { Tenant.zero with nextFree := if i < t.slots then i + 1 else 0 }
      index := fun _ => .empty
      free := 0
      used := 0
      tombs := 0
      runnableWaiting := 0
      bound := 0 } := by
  refine ⟨hp, ⟨⟨(range t.slots).map (0 + ·), ?_, ?_, ?_⟩, ?_⟩, ⟨?_, ?_⟩, ⟨?_, ?_⟩, fun _ _ => rfl,
    fun i hi => absurd hi Bool.false_ne_true⟩
  · refine (linked_succ t.slots t.slots 0 (zero_add _)).congr ?_
    intro i hi
    have : i < t.slots := by simpa using hi
    exact if_pos this
  · exact nodup_range.map fun a b h => by simpa using h
  · intro i
    simp [Tenant.zero]
  · exact (Finset.sum_eq_zero fun _ _ => rfl).symm
  · refine (index_empty _ fun _ => 0).congr (fun n => ?_) fun _ h => h.elim
    exact ⟨fun h => Bool.false_ne_true h.2, fun h => h.elim⟩
  · exact fun n m hn => absurd hn.2 Bool.false_ne_true
  · exact fun _ _ => rfl
  · exact (Finset.sum_eq_zero fun _ _ => rfl).symm

theorem tenantTableEnsure_spec (h : TenancyOk t) (mem dead : Bool) :
    TenancyOk (tenantTableEnsure mem dead t).1 ∧
      (tenantTableEnsure mem dead t).1.table = (tenantTableEnsure mem dead t).2 ∧
      (∀ i, ((tenantTableEnsure mem dead t).1.tenants i).holds = (t.tenants i).holds) ∧
      (t.table = true → (tenantTableEnsure mem dead t) = (t, true)) := by
  unfold tenantTableEnsure
  by_cases ht : t.table = true
  · rw [if_pos ht]
    exact ⟨h, ht, fun _ => rfl, fun _ => rfl⟩
  · have ht' : t.table = false := by simpa using ht
    rw [if_neg ht]
    have hnone : ∀ n, TenancyOk { t with slots := n } := fun n => ⟨h.none, fun hc => absurd hc ht⟩
    split
    · exact ⟨h, ht', fun _ => rfl, fun hc => absurd hc ht⟩
    · dsimp only
      split
      · refine ⟨⟨fun hc => Bool.noConfusion hc, fun _ => ?_⟩, rfl, ?_, fun hc => absurd hc ht⟩
        · refine ensure_fresh { t with slots := if t.slots = 0 then tenantSlotsMin else t.slots } ?_
          dsimp only
          split
          · decide
          · omega
        · intro i
          rw [h.none ht' i]
          rfl
      · exact ⟨hnone _, ht', fun _ => rfl, fun hc => absurd hc ht⟩

/-- **a lookup**: the tenant's slot, in use, or none where the pool can have no table -/
theorem tenantGet_spec (h : TenancyOk t) (mem dead : Bool) (key : UInt64) :
    TenancyOk (tenantGet mem dead t key).1 ∧ ((tenantGet mem dead t key).2.1 = none ∧
          (tenantGet mem dead t key).1.table = false ∧
          (∀ i, ((tenantGet mem dead t key).1.tenants i).holds = (t.tenants i).holds) ∨
        ∃ slot t0, (tenantGet mem dead t key).2.1 = some slot ∧
          (tenantGet mem dead t key).1.table = true ∧
          (∀ i, (t0.tenants i).holds = (t.tenants i).holds) ∧ (t.table = true → t0 = t) ∧
          LookSpec t0 (tenantGet mem dead t key).1 key slot (tenantGet mem dead t key).2.2) := by
  obtain ⟨h1, h2, h3, h4⟩ := tenantTableEnsure_spec h mem dead
  unfold tenantGet
  dsimp only
  split
  · rename_i hr
    rw [hr] at h2
    have hl := tenantTake_spec (h1.table h2) key
    have ht : (tenantTake (tenantTableEnsure mem dead t).1 key).1.table = true := hl.table.trans h2
    refine ⟨⟨fun hc => absurd hc (by simp [ht]), fun _ => hl.ok⟩, .inr ?_⟩
    exact ⟨_, (tenantTableEnsure mem dead t).1, rfl, ht, h3, fun hc => congrArg Prod.fst (h4 hc), hl⟩
  · rename_i hr
    exact ⟨h1, .inl ⟨rfl, by simpa [h2] using hr, h3⟩⟩

/-! ## the waiting tenants are counted again -/

theorem tenantRecount_eq (t : Tenancy) (i : Nat) : tenantRecount t i =
      { t.set i (t.marked i) with
        runnableWaiting := t.runnableWaiting + ((t.tenants i).runnable t.bound).toNat } := by
  have hself : (t.set i { t.tenants i with waitingRunnable := false }).tenants i =
      { t.tenants i with waitingRunnable := false } := set_self t i _
  unfold tenantRecount tenantMark
  dsimp only
  rw [hself]
  have hr : ({ t.tenants i with waitingRunnable := false } : Tenant).runnable
      (t.set i { t.tenants i with waitingRunnable := false }).bound =
      (t.tenants i).runnable t.bound := rfl
  rw [hr]
  unfold Tenancy.set Tenancy.marked
  cases (t.tenants i).runnable t.bound <;> simp [update_idem]

/-- the marks of the slots below `k` are taken again -/
def Tenancy.remarked (t : Tenancy) (k : Nat) : Tenancy :=
  { t with
    tenants := fun i => if i < k then t.marked i else t.tenants i
    runnableWaiting := t.runnableWaiting +
      ∑ i ∈ Finset.range k, ((t.tenants i).runnable t.bound).toNat }

theorem recount_fold (t : Tenancy) (k : Nat) : (range k).foldl tenantRecount t = t.remarked k := by
  induction k with
  | zero => rfl
  | succ k ih =>
    rw [range_succ, foldl_append, ih, foldl_cons, foldl_nil, tenantRecount_eq]
    have hk : (t.remarked k).tenants k = t.tenants k := if_neg (lt_irrefl k)
    rw [Tenancy.marked, hk]
    unfold Tenancy.remarked Tenancy.set
    simp only [Finset.sum_range_succ, add_assoc]
    congr 1
    funext i
    by_cases hik : i = k
    · rw [hik, update_self, if_pos (Nat.lt_succ_self k)]
    · rw [update_of_ne hik]
      by_cases hlt : i < k
      · rw [if_pos hlt, if_pos (Nat.lt_succ_of_lt hlt)]
      · rw [if_neg hlt, if_neg (by omega)]

/-- all marks are taken again, for another bound -/
def Tenancy.recounted (t : Tenancy) (bound : Nat) : Tenancy :=
  ({ t with bound := bound, runnableWaiting := 0 } : Tenancy).remarked (t.slots + 1)

theorem recounted_field {β : Type} (f : Tenant → β) (hf : ∀ y b, f { y with waitingRunnable := b } = f y)
    (bound j : Nat) : f ((t.recounted bound).tenants j) = f (t.tenants j) := by
  unfold Tenancy.recounted Tenancy.remarked
  dsimp only
  split
  · exact hf _ _
  · rfl

theorem recounted_ok (h : TableOk t) (bound : Nat) : TableOk (t.recounted bound) := by
  have hused := recounted_field (t := t) Tenant.used (fun _ _ => rfl) bound
  have hmark : ∀ i, i < t.slots + 1 → ((t.recounted bound).tenants i).waitingRunnable =
      (t.tenants i).runnable bound := fun i hi => congrArg Tenant.waitingRunnable (if_pos hi)
  refine ⟨h.pos, ?_, ?_, ⟨?_, ?_⟩, ?_, ?_⟩
  · exact h.free.congr rfl rfl rfl hused (recounted_field Tenant.nextFree (fun _ _ => rfl) bound)
  · exact h.names.congr rfl rfl (fun j _ => hused j)
      fun j _ => recounted_field Tenant.key (fun _ _ => rfl) bound j
  · intro i hi
    rw [hmark i (Nat.lt_succ_of_le hi)]
    exact (recounted_field (·.runnable bound) (fun _ _ => rfl) bound i).symm
  · refine (zero_add _).trans (Finset.sum_congr rfl fun i hi => ?_)
    exact congrArg Bool.toNat (hmark i (Finset.mem_range.mp hi)).symm
  · intro i hi
    rw [hused] at hi
    rw [recounted_field Tenant.inflight fun _ _ => rfl]
    exact h.idle i hi
  · intro i hi
    rw [hused] at hi
    exact h.inside i hi

theorem MarksOk.count_pos (h : MarksOk t) :
    0 < t.runnableWaiting ↔ ∃ i, i ≤ t.slots ∧ (t.tenants i).runnable t.bound = true := by
  rw [h.count]
  unfold Tenancy.tally
  rw [Finset.sum_pos_iff]
  constructor
  · rintro ⟨i, hi, hp⟩
    have hle : i ≤ t.slots := Nat.lt_succ_iff.mp (Finset.mem_range.mp hi)
    refine ⟨i, hle, ?_⟩
    rw [← h.mark i hle]
    cases hw : (t.tenants i).waitingRunnable
    · simp [hw] at hp
    · rfl
  · rintro ⟨i, hi, hr⟩
    refine ⟨i, Finset.mem_range.mpr (Nat.lt_succ_of_le hi), ?_⟩
    rw [h.mark i hi, hr]
    exact one_pos

variable (h : TenancyOk t)
include h

/-- **the count of waiting tenants that could run under `bound`** -/
theorem tenantWaiterCanRun_spec (bound : Nat) :
    TenancyOk (tenantWaiterCanRun t bound).1 ∧ (tenantWaiterCanRun t bound).1.table = t.table ∧
      (tenantWaiterCanRun t bound).1.slots = t.slots ∧
      (∀ i, ((tenantWaiterCanRun t bound).1.tenants i).holds = (t.tenants i).holds) ∧
      ((tenantWaiterCanRun t bound).2 = true ↔
        t.table = true ∧ ∃ i, i ≤ t.slots ∧ (t.tenants i).runnable bound = true) := by
  unfold tenantWaiterCanRun
  by_cases ht : t.table = false
  · rw [if_pos ht]
    refine ⟨h, rfl, rfl, fun _ => rfl, ?_⟩
    simp [ht]
  · have ht' : t.table = true := by simpa using ht
    have hok := h.table ht'
    rw [if_neg ht]
    by_cases hb : bound ≠ t.bound
    · rw [if_pos hb, recount_fold]
      have hr := recounted_ok hok bound
      have hholds := recounted_field (t := t) Tenant.holds (fun _ _ => rfl) bound
      refine ⟨⟨fun hc => absurd hc ht, fun _ => hr⟩, rfl, rfl, hholds, ?_⟩
      rw [decide_eq_true_eq]
      refine hr.marks.count_pos.trans ?_
      have hrun := fun i => holds_runnable (hholds i) bound
      constructor
      · rintro ⟨i, hi, hx⟩
        exact ⟨ht', i, hi, (hrun i).symm.trans hx⟩
      · rintro ⟨_, i, hi, hx⟩
        exact ⟨i, hi, (hrun i).trans hx⟩
    · rw [if_neg hb]
      rw [not_not] at hb
      refine ⟨h, rfl, rfl, fun _ => rfl, ?_⟩
      rw [decide_eq_true_eq, gt_iff_lt, hok.marks.count_pos, hb]
      simp [ht']

/-! ## every operation edits one slot -/

/-- the tenancy after an operation: its books are right, and `f` is what happened to the slot -/
structure Edits (t t' : Tenancy) (slot : Option Nat) (f : Tenant → Tenant) : Prop where
  ok : TenancyOk t'
  stay : t.table = true → t'.table = true ∧ t'.slots = t.slots
  holds : ∀ j, (t'.tenants j).holds = (if slot = some j then f (t.tenants j) else t.tenants j).holds

theorem Edits.refl (f : Tenant → Tenant) : Edits t t none f :=
  ⟨h, fun ht => ⟨ht, rfl⟩, fun _ => rfl⟩

theorem Edits.same {f : Tenant → Tenant} (hf : f (t.tenants i) = t.tenants i) :
    Edits t t (some i) f := by
  refine ⟨h, fun ht => ⟨ht, rfl⟩, fun j => ?_⟩
  split
  · rename_i hj
    rw [← Option.some.inj hj, hf]
  · rfl

omit h in
theorem SlotSpec.edits (h : SlotSpec t t' i x) (ht : t.table = true) {f : Tenant → Tenant}
    (hx : x = f (t.tenants i)) :
    Edits t t' (some i) f := by
  have ht' : t'.table = true := h.table.trans ht
  refine ⟨⟨fun hc => absurd hc (by simp [ht']), fun _ => h.ok⟩, fun _ => ⟨ht', h.slots⟩, ?_⟩
  intro j
  by_cases hj : j = i
  · subst hj
    rw [if_pos rfl, ← hx]
    exact h.self
  · rw [if_neg (fun hc => hj (Option.some.inj hc).symm)]
    exact h.other j hj

def Tenant.dec (c : Hold) (x : Tenant) : Tenant :=
  if x.used then (x.put c (x.get c - 1)).settled else x

def Tenant.inc (c : Hold) (x : Tenant) : Tenant := x.put c (x.get c + 1)

theorem edits_dec (slot : Option Nat) (c : Hold) :
    Edits t (tenantDecAt t slot c).1 slot (Tenant.dec c) ∧ (tenantDecAt t slot c).2 =
        slot.any fun i => (t.tenants i).used && decide ((t.tenants i).get c = 0) := by
  cases slot with
  | none => exact ⟨Edits.refl h _, rfl⟩
  | some i =>
    show Edits t (tenantDec t i c).1 (some i) (Tenant.dec c) ∧ (tenantDec t i c).2 =
      ((t.tenants i).used && decide ((t.tenants i).get c = 0))
    by_cases hu : (t.tenants i).used = true
    · obtain ⟨ht, hi⟩ := h.used_inside hu
      obtain ⟨h1, h2⟩ := tenantDec_spec (h.table ht) ht hi hu c
      refine ⟨h1.edits ht ?_, ?_⟩
      · exact (if_pos hu).symm
      · rw [h2, hu, Bool.true_and]
    · have heq : tenantDec t i c = (t, false) := by
        unfold tenantDec
        rw [if_pos (.inr (.inr (by simpa using hu)))]
      rw [heq]
      exact ⟨.same h (if_neg hu), by simp [hu]⟩

theorem edits_put (slot : Option Nat) : Edits t (tenantPutAt t slot) slot Tenant.settled := by
  cases slot with
  | none => exact Edits.refl h _
  | some i =>
    show Edits t (tenantPut t i) (some i) Tenant.settled
    by_cases hs : (t.tenants i).spent = true
    · obtain ⟨ht, hi⟩ := h.used_inside (spent_iff.mp hs).1
      exact (tenantPut_spec (h.table ht) ht hi).edits ht rfl
    · rw [tenantPut_same hs]
      exact .same h (if_neg hs)

theorem edits_inc (slot : Option Nat) (c : Hold)
    (hs : ∀ i, slot = some i → t.table = true ∧ i ≤ t.slots ∧ ((t.tenants i).used = true ∨ c = .queued)) :
    Edits t (tenantIncAt t slot c) slot (Tenant.inc c) := by
  cases slot with
  | none => exact Edits.refl h _
  | some i =>
    obtain ⟨ht, hi, hx⟩ := hs i rfl
    exact (tenantInc_spec (h.table ht) hi c hx).edits ht rfl

theorem edits_ensure (mem dead : Bool) : Edits t (tenantTableEnsure mem dead t).1 none id := by
  obtain ⟨h1, _, h3, h4⟩ := tenantTableEnsure_spec h mem dead
  refine ⟨h1, fun ht => ?_, h3⟩
  rw [h4 ht]
  exact ⟨ht, rfl⟩

/-- the slot a lookup gave: in use, inside the table, and the key's own unless it is shared -/
structure Looked (t : Tenancy) (key : UInt64) (slot : Nat) : Prop where
  table : t.table = true
  le : slot ≤ t.slots
  used : (t.tenants slot).used = true
  key : slot < t.slots → (t.tenants slot).key = key

omit h in
theorem looked_holds (h : x.holds = y.holds) (key : UInt64) :
    (x.looked key).holds = (y.looked key).holds := by
  have hu : x.used = y.used := holds_used h
  unfold Tenant.looked
  rw [hu]
  split
  · exact h
  · rfl

theorem edits_get (mem dead : Bool) (key : UInt64) :
    Edits t (tenantGet mem dead t key).1 (tenantGet mem dead t key).2.1 (Tenant.looked · key) ∧
      (∀ i, (tenantGet mem dead t key).2.1 = some i → Looked (tenantGet mem dead t key).1 key i) ∧
      (t.table = true → ((tenantGet mem dead t key).2.1).isSome = true) := by
  obtain ⟨h1, ⟨h2, h3, h4⟩ | ⟨slot, t0, h2, h3, h4, h5, h6⟩⟩ := tenantGet_spec h mem dead key
  · have hno : t.table = true → False := by
      intro ht
      have heq : tenantGet mem dead t key = ((tenantTake t key).1, some (tenantTake t key).2.1,
          (tenantTake t key).2.2) := by
        unfold tenantGet tenantTableEnsure
        rw [if_pos ht]
        rfl
      rw [heq] at h2
      cases h2
    refine ⟨⟨h1, fun ht => (hno ht).elim, ?_⟩, ?_, fun ht => (hno ht).elim⟩
    · intro j
      rw [h2]
      exact h4 j
    · intro i hi
      rw [h2] at hi
      cases hi
  · refine ⟨⟨h1, ?_, ?_⟩, ?_, fun _ => by rw [h2]; rfl⟩
    · intro ht
      exact ⟨h3, h6.slots.trans (congrArg Tenancy.slots (h5 ht))⟩
    · intro j
      rw [h2]
      by_cases hj : slot = j
      · subst hj
        rw [if_pos rfl]
        exact h6.self.trans (looked_holds (h4 slot) key)
      · rw [if_neg (fun hc => hj (Option.some.inj hc))]
        exact (h6.other j (fun hc => hj hc.symm)).trans (h4 j)
    · intro i hi
      rw [h2] at hi
      cases hi
      exact ⟨h3, by rw [h6.slots]; exact h6.le, h6.used, by rw [h6.slots]; exact h6.key⟩

end Fc
