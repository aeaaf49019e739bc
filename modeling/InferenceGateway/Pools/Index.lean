import InferenceGateway.Lib.Probe

/-!
# The index of a rule's pools

`sp_pool_index_publish` builds an index over the rule's table: the pools in the table's order and a
slot array that is at least twice as long.  A pool's slot is the first free one from the hash of its
key on.  `sp_pool_index_find` goes the same way and stops at a free slot.

* `Index.find_build`   a lookup in a built index finds the first pool of the table with that key.
-/

open Function List

namespace Pools

open Probe Walk

def indexHash (s : List Nat) : Nat := s.foldl (fun h c => (h ^^^ c) * 16777619 % 2 ^ 32) 2166136261

/-- `while (cap < 2 * n) cap <<= 1` -/
def growCap (n : Nat) : Nat → Nat → Nat
  | 0, cap => cap
  | fuel + 1, cap => if cap < 2 * n then growCap n fuel (cap <<< 1) else cap

/-- the length of the slot array: `n` doublings are enough -/
def indexCap (n : Nat) : Nat := growCap n n 4

/-- the slots in the order they are read from `i` on: `i = (i + 1) & mask` -/
def probe (mask : Nat) : Nat → Nat → List Nat
  | 0, _ => []
  | n + 1, i => i :: probe mask n ((i + 1) &&& mask)

/-- `sp_pool_index_t`: `slot` gives the pool in each slot, whose key has the hash kept beside it -/
structure Index where
  mask : Nat
  slot : Nat → Bucket
  order : List Nat

section
variable (key : Nat → List Nat)

namespace Index

/-- a pool is put in the first free slot from its hash on -/
def put (mask : Nat) (slot : Nat → Bucket) (p : Nat) : Nat → Bucket :=
  match firstEmpty slot (probe mask (mask + 1) (indexHash (key p) &&& mask)) with
  | some i => update slot i (.slot p)
  | none => slot

/-- the building in `sp_pool_index_publish` -/
def build (order : List Nat) : Index :=
  let mask := indexCap order.length - 1
  { mask, slot := order.foldl (put key mask) fun _ => .empty, order }

def find (ix : Index) (k : List Nat) : Option Nat :=
  let h := indexHash k
  lookup ix.slot (fun p => indexHash (key p) == h && key p == k)
    (probe ix.mask (ix.mask + 1) (h &&& ix.mask))

end Index

end

/-! ## the length of the slot array -/

theorem growCap_pow (n : Nat) : ∀ fuel e, ∃ e', growCap n fuel (2 ^ e) = 2 ^ e' := by
  intro fuel
  induction fuel with
  | zero => exact fun e => ⟨e, rfl⟩
  | succ fuel ih =>
    intro e
    unfold growCap
    split
    · obtain ⟨e', he⟩ := ih (e + 1)
      refine ⟨e', ?_⟩
      rw [Nat.shiftLeft_eq]
      exact he
    · exact ⟨e, rfl⟩

theorem growCap_room (n : Nat) : ∀ fuel cap, 2 * n ≤ cap * 2 ^ fuel → 2 * n ≤ growCap n fuel cap := by
  intro fuel
  induction fuel with
  | zero => exact fun cap h => by simpa [growCap] using h
  | succ fuel ih =>
    intro cap h
    unfold growCap
    split
    · apply ih
      rw [Nat.shiftLeft_eq, mul_assoc, ← pow_succ']
      exact h
    · omega

theorem indexCap_spec (n : Nat) : (∃ e, indexCap n = 2 ^ e) ∧ n < indexCap n := by
  obtain ⟨e, he⟩ := growCap_pow n n 2
  have hroom : 2 * n ≤ indexCap n := by
    apply growCap_room
    have := Nat.lt_two_pow_self (n := n)
    omega
  have hpos : 0 < indexCap n := by
    show 0 < growCap n n (2 ^ 2)
    rw [he]
    exact Nat.two_pow_pos e
  exact ⟨⟨e, he⟩, by omega⟩

theorem probe_eq_walk (e : Nat) : ∀ n i, i < 2 ^ e → probe (2 ^ e - 1) n i = walk (2 ^ e) n i := by
  intro n
  induction n with
  | zero => exact fun _ _ => rfl
  | succ n ih =>
    intro i hi
    have hnext : (i + 1) &&& (2 ^ e - 1) = wrap (2 ^ e) (i + 1) := by
      rw [Nat.and_two_pow_sub_one_eq_mod, wrap_eq_mod (by omega)]
    rw [probe, walk_succ, hnext, ih _ (wrap_lt (by omega))]

/-! ## a lookup in a built index -/

variable {key : Nat → List Nat} {e : Nat}

/-- the slots after some pools were put in them -/
structure Laid (key : Nat → List Nat) (e : Nat) (laid : List Nat) (slot : Nat → Bucket) : Prop where
  index : Probe.Index (2 ^ e) (fun p => indexHash (key p) % 2 ^ e) (· ∈ laid) slot
  tomb : ∀ i, slot i ≠ .tomb
  find : ∀ k, lookup slot (fun p => indexHash (key p) == indexHash k && key p == k)
    (walk (2 ^ e) (2 ^ e) (indexHash k % 2 ^ e)) = laid.find? fun p => key p == k

theorem Laid.nil : Laid key e [] fun _ => .empty where
  index := (index_empty _ _).congr (fun n => by simp) fun _ _ => rfl
  tomb := nofun
  find := by
    intro k
    apply lookup_none
    intro b _ n hn
    cases hn

variable {laid : List Nat} {slot : Nat → Bucket}

theorem Laid.put (h : Laid key e laid slot) {p : Nat} (hp : p ∉ laid)
    (hroom : laid.length < 2 ^ e) :
    Laid key e (laid ++ [p]) (Index.put key (2 ^ e - 1) slot p) := by
  have hpos := Nat.two_pow_pos e
  have hlt : ∀ a, a % 2 ^ e < 2 ^ e := fun a => Nat.mod_lt _ hpos
  have hcard : laid.toFinset.card < 2 ^ e := lt_of_le_of_lt (toFinset_card_le laid) hroom
  have hmem : ∀ q, q ∈ laid → q ∈ laid.toFinset := fun q hq => mem_toFinset.mpr hq
  obtain ⟨i, hi, hindex⟩ := h.index.lay (fun b _ => h.tomb b) hp (hlt _) hmem hcard
  have hput : Index.put key (2 ^ e - 1) slot p = update slot i (.slot p) := by
    unfold Index.put
    rw [Nat.and_two_pow_sub_one_eq_mod, Nat.sub_add_cancel hpos, probe_eq_walk e _ _ (hlt _), hi]
  rw [hput]
  refine ⟨hindex.congr (fun q => by simp) fun _ _ => rfl, ?_, ?_⟩
  · exact Run.update_all (fun _ b => b ≠ Bucket.tomb) nofun h.tomb
  · intro k
    rw [h.index.lookup_lay (hlt _) ?_ hi (h.index.exists_empty hmem
      (by rwa [tombs_eq_zero fun b _ => h.tomb b, Nat.add_zero])), h.find k]
    · -- equal keys have equal hashes
      by_cases hk : key p = k
      · simp [hk]
      · simp [hk]
    · intro q _ hq
      simp only [Bool.and_eq_true, beq_iff_eq] at hq
      rw [hq.1]

theorem Laid.foldl (h : Laid key e laid slot) (order : List Nat) (hn : (laid ++ order).Nodup)
    (hroom : (laid ++ order).length ≤ 2 ^ e) :
    Laid key e (laid ++ order) (order.foldl (Index.put key (2 ^ e - 1)) slot) := by
  induction order generalizing laid slot with
  | nil => simpa using h
  | cons p order ih =>
    have hsplit : laid ++ p :: order = (laid ++ [p]) ++ order := by simp
    have hp : p ∉ laid := fun hm =>
      disjoint_of_nodup_append hn hm mem_cons_self
    have hlen : laid.length < 2 ^ e := by
      rw [length_append, length_cons] at hroom
      omega
    rw [hsplit]
    rw [hsplit] at hn hroom
    exact ih (h.put hp hlen) hn hroom

/-- **A lookup in a built index finds the first pool of the table with that key.** -/
theorem Index.find_build (key : Nat → List Nat) {order : List Nat} (hn : order.Nodup) (k : List Nat) :
    (Index.build key order).find key k = order.find? fun p => key p == k := by
  obtain ⟨⟨e, he⟩, hroom⟩ := indexCap_spec order.length
  have hpos := Nat.two_pow_pos e
  have hnil : Laid key e [] fun _ => .empty := .nil
  have hlaid := hnil.foldl order (by simpa using hn) (by
    rw [← he]
    exact hroom.le)
  have hfind := hlaid.find k
  rw [nil_append] at hfind
  rw [← hfind]
  unfold Index.find Index.build
  simp only [he]
  rw [Nat.and_two_pow_sub_one_eq_mod, Nat.sub_add_cancel hpos,
    probe_eq_walk e _ _ (Nat.mod_lt _ hpos)]

end Pools
