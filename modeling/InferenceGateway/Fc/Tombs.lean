import InferenceGateway.Fc.TenantTable

/-!
# The tenant index over whole runs

Tenants come and go in any order.  Beside the names (`NamesOk`) the index keeps the count of its
tombstones, which never pass a quarter of the buckets (`TombsOk`); half of the buckets hold no slot,
so every probe run and every loop that lays the index out meets an empty bucket.
-/

open Function List Nat

namespace Fc

open Probe Walk

inductive TidxOp
  | get (key : UInt64)
  | put (slot : Nat)

def tidxStep (t : Tenancy) : TidxOp → Tenancy
  | .get key => (tenantGet true false t key).1
  | .put slot => tenantPut t slot

/-- a table of `n` named slots whose index is right, and whose loops end -/
structure TidxRight (n : Nat) (t : Tenancy) : Prop where
  found : ∀ key s, ((tidxFind t key).1 < 2 * n ∧ t.index (tidxFind t key).1 = .slot s) ↔
    s < n ∧ (t.tenants s).used = true ∧ (t.tenants s).key = key
  bucket : ∀ s, s < n → (t.tenants s).used = true → ∃! b, b < 2 * n ∧ t.index b = .slot s
  count : t.tombs = tombs (2 * n) t.index
  quarter : t.tombs ≤ 2 * n / 4
  empty : ∃ b, b < 2 * n ∧ t.index b = .empty
  room : ∀ key, (tidxFind t key).1 = 2 * n →
    (tidxFind t key).2 < 2 * n ∧ ∀ s, t.index (tidxFind t key).2 ≠ .slot s
  /-- the index is laid out again from any slots: each finds an empty bucket within a lap -/
  relay : ∀ u : Tenancy, u.slots = n → ∀ i, i < n → (firstEmpty
    ((range i).foldl (tidxLay u) fun _ => .empty) (tidxRun u (u.tenants i).key)).isSome
  /-- a lap back from a dropped bucket meets one that is no tombstone -/
  trim : ∀ b, b < 2 * n →
    ∃ c ∈ back (2 * n) (2 * n) (prev (2 * n) b), update t.index b .empty c ≠ .tomb

structure TombsOk (t : Tenancy) : Prop where
  count : t.tombs = tombs (tidxBuckets t) t.index
  quarter : t.tombs ≤ tidxBuckets t / 4

variable {t t' : Tenancy} {n : Nat}

theorem TableOk.room (h : TableOk t) {key : UInt64} (hm : (tidxFind t key).1 = tidxBuckets t) :
    (tidxFind t key).2 < tidxBuckets t ∧ ∀ s, t.index (tidxFind t key).2 ≠ .slot s := by
  obtain ⟨pre, post, hw, hno, -⟩ := h.find_unused hm
  exact ⟨lt_of_split (tidxHome_lt h.pos key) hw, hno⟩

theorem TombsOk.congr (h : TombsOk t) (hs : t'.slots = t.slots) (hi : t'.index = t.index)
    (ht : t'.tombs = t.tombs) : TombsOk t' := by
  have hb : tidxBuckets t' = tidxBuckets t := congrArg (2 * ·) hs
  constructor
  · rw [ht, hb, hi, h.count]
  · rw [ht, hb]
    exact h.quarter

theorem tidxRelay_tombs (t : Tenancy) : TombsOk (tidxRelay t) := by
  refine ⟨(tombs_eq_zero fun b hb => ?_).symm, zero_le _⟩
  have hp : 0 < t.slots := by
    have : b < 2 * t.slots := hb
    omega
  exact (tidxRelay_laid hp _ (le_refl _)).1 b

theorem tidxDrop_tombs (h : TombsOk t) (hp : 0 < t.slots) (key : UInt64) :
    TombsOk (tidxDrop t key) := by
  unfold tidxDrop
  dsimp only
  split
  · exact h
  · rename_i hne
    obtain ⟨s, hlt, hs, -⟩ := tidxFind_hit hp hne
    have hupd := fun v => tombs_update t.index hlt v
    rw [hs, if_neg nofun, ← h.count] at hupd
    split
    · have hsweep := tombs_sweep (update t.index (tidxFind t key).1 .empty) fun c hc =>
        walk_lt hlt (n := tidxBuckets t) (mem_reverse.mp hc)
      rw [← back_lap hlt] at hsweep
      refine ⟨Nat.sub_eq_of_eq_add ?_, Nat.le_trans (Nat.sub_le _ _) h.quarter⟩
      exact (hupd .empty).symm.trans hsweep.symm
    · split
      · exact tidxRelay_tombs _
      · rename_i hle
        exact ⟨(hupd .tomb).symm, not_lt.mp hle⟩

theorem tenantPut_tombs (h : TombsOk t) (hp : 0 < t.slots) (slot : Nat) :
    TombsOk (tenantPut t slot) := by
  unfold tenantPut
  dsimp only
  split
  · exact h
  · split
    · exact h
    · split
      · exact h.congr rfl rfl rfl
      · unfold tidxTidy
        split
        · exact tidxRelay_tombs _
        · refine TombsOk.congr (tidxDrop_tombs ?_ ?_ _) rfl rfl rfl
          · exact h.congr rfl rfl rfl
          · exact hp

theorem tenantTake_tombs (h : TombsOk t) (hok : TableOk t) (key : UInt64) :
    TombsOk (tenantTake t key).1 := by
  unfold tenantTake
  dsimp only
  split
  · exact h
  · rename_i hm
    split
    · split
      · exact h
      · exact h.congr rfl rfl rfl
    · have hu := tombs_update t.index (hok.room (not_not.mp hm)).1 (.slot t.free)
      rw [if_neg (c := Bucket.slot t.free = .tomb) nofun, ← h.count] at hu
      have hput : (if t.index (tidxFind t key).2 = .tomb then t.tombs - 1 else t.tombs) =
          tombs (tidxBuckets t) (update t.index (tidxFind t key).2 (.slot t.free)) := by
        by_cases hb : t.index (tidxFind t key).2 = .tomb
        · rw [if_pos hb] at hu ⊢
          omega
        · rw [if_neg hb] at hu ⊢
          exact hu.symm
      refine ⟨hput, le_trans (le_of_eq hput) ?_⟩
      exact le_trans (le.intro hu) h.quarter

/-- what the operations keep -/
structure TidxInv (n : Nat) (t : Tenancy) : Prop where
  made : t.table = true
  slots : t.slots = n
  ok : TableOk t
  tomb : TombsOk t

theorem TidxInv.step (h : TidxInv n t) (o : TidxOp) : TidxInv n (tidxStep t o) := by
  cases o with
  | get key =>
    have hget : tidxStep t (.get key) = (tenantTake t key).1 := by
      simp only [tidxStep, tenantGet, tenantTableEnsure, h.made, if_true]
    rw [hget]
    have hl := tenantTake_spec h.ok key
    exact ⟨hl.table.trans h.made, hl.slots.trans h.slots, hl.ok, tenantTake_tombs h.tomb h.ok key⟩
  | put slot =>
    show TidxInv n (tenantPut t slot)
    by_cases hi : slot ≤ t.slots
    · have hs := tenantPut_spec h.ok h.made hi
      exact ⟨hs.table.trans h.made, hs.slots.trans h.slots, hs.ok, tenantPut_tombs h.tomb h.ok.pos slot⟩
    · have hput : tenantPut t slot = t := if_pos (.inr (not_le.mp hi))
      rw [hput]
      exact h

theorem TidxInv.right (h : TidxInv n t) : TidxRight n t := by
  obtain ⟨-, rfl, hok, ht⟩ := h
  have hp := hok.pos
  have hidx := hok.names.index
  refine ⟨fun key s => ?_, fun s hs hu => ?_, ht.count, ht.quarter, ?_, fun key => hok.room,
    fun u hu i hi => ?_, fun b hb => ⟨b, ?_, ?_⟩⟩
  · rw [← and_assoc]
    exact hok.names.find_iff hp
  · obtain ⟨pre, b, post, hw, hb, -⟩ := hidx.reach s ⟨hs, hu⟩
    have hlt := lt_of_split (hidx.home_lt s ⟨hs, hu⟩) hw
    exact ⟨b, ⟨hlt, hb⟩, fun c hc => hidx.inj c b s hc.1 hlt hc.2 hb⟩
  · refine hidx.exists_empty (fun k hk => Finset.mem_range.mpr hk.1) ?_
    have hq := ht.quarter
    rw [Finset.card_range, ← ht.count]
    unfold tidxBuckets at hq ⊢
    omega
  · have hpu : 0 < u.slots := hu ▸ hp
    obtain ⟨h1, h2⟩ := tidxRelay_laid hpu i (by omega)
    have hcard : (Finset.range i).card + tombs (tidxBuckets u)
        ((range i).foldl (tidxLay u) fun _ => .empty) < tidxBuckets u := by
      rw [tombs_eq_zero fun b _ => h1 b, Finset.card_range]
      unfold tidxBuckets
      omega
    obtain ⟨b, hb, hbe⟩ := h2.exists_empty (fun k hk => Finset.mem_range.mpr hk.1) hcard
    obtain ⟨-, c, -, hc, -⟩ := firstEmpty_split ⟨b, mem_walk_lap (tidxHome_lt hpu _) hb, hbe⟩
    exact Option.isSome_iff_exists.mpr ⟨c, hc⟩
  · rw [back_lap hb, mem_reverse]
    exact mem_walk_lap hb hb
  · rw [update_self]
    exact nofun

/-- **the tenant index is right** after every sequence of insertions and removals -/
theorem tenant_index_right (n : Nat) (hn : 1 ≤ n) (os : List TidxOp) :
    TidxRight n (os.foldl tidxStep (tenantTableEnsure true false (.zero n)).1) := by
  have hstart : TidxInv n (tenantTableEnsure true false (.zero n)).1 := by
    have hspec := tenantTableEnsure_spec (t := .zero n) ⟨fun _ _ => rfl, nofun⟩ true false
    have hempty : ∀ b, (tenantTableEnsure true false (.zero n)).1.index b ≠ .tomb := fun _ => nofun
    exact ⟨hspec.2.1, if_neg (by show n ≠ 0; omega), hspec.1.table hspec.2.1,
      ⟨(tombs_eq_zero fun b _ => hempty b).symm, zero_le _⟩⟩
  exact (foldlRecOn os tidxStep hstart fun t h o _ => h.step o).right

/-- three tenants, the first of which goes: its tombstone stays before the bucket of the third -/
theorem four_slots_right :
    let t := [TidxOp.get 1, .get 2, .get 8, .put 0].foldl tidxStep (tenantTableEnsure true false (.zero 4)).1
    TidxRight 4 t ∧ t.tombs = 1 ∧ t.index (tidxFind t 8).1 = .slot 2 := by
  have h := tenant_index_right 4 (by decide) [TidxOp.get 1, .get 2, .get 8, .put 0]
  exact ⟨h, by decide +kernel, ((h.found 8 2).mpr (by decide +kernel)).2⟩

end Fc
