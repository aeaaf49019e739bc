import Mathlib.Algebra.Order.BigOperators.Group.List
import Mathlib.Tactic.Ring

/-!
# Consistent hashing with bounded loads: the selection

`chwbl_select_endpoint` and `wrr_hash_select_endpoint` have the same body; they differ in how the
ring was built.  The loads and the health of the endpoints are read while other workers change
them, so what each read returns is given with the call (`Seen`).

* `chwblRingLookup`       the binary search in the ring;
* `chwblSelectEndpoint`   the endpoint the request is placed on;
* `chwblSelectEndpoint_lt`  it is an endpoint of the pool;
* `ring_lookup_iff`       when the search goes round the ring;
* `bounded_load`          what the selection does when nothing else changes the loads.
-/

open Function List Option Nat

namespace Lb

structure Vnode where
  hash : UInt64
  epIdx : Nat
  deriving DecidableEq

/-- the loop of `chwbl_ring_lookup` between `left` and `right`, for so many rounds; a round makes
the range smaller, so that the length of the ring is enough -/
def lookupLoop (ring : List Vnode) (hash : UInt64) : Nat → Nat → Nat → Nat
  | 0, left, _ => left
  | rounds + 1, left, right =>
    if left < right then
      let mid := left + (right - left) / 2
      if (ring[mid]?.map Vnode.hash).any (· < hash) then lookupLoop ring hash rounds (mid + 1) right
      else lookupLoop ring hash rounds left mid
    else left

def chwblRingLookup (ring : List Vnode) (hash : UInt64) : Option Nat :=
  if ring.isEmpty then none
  else
    let left := lookupLoop ring hash ring.length 0 (ring.length - 1)
    let left := if ring.length ≤ left then 0 else left
    ring[left]?.map Vnode.epIdx

/-- what the reads of one selection return -/
structure Seen where
  /-- `is_endpoint_healthy` of an endpoint of the pool -/
  healthy : Nat → Bool
  /-- the load of the endpoint the ring gave -/
  current : Nat
  /-- the loads that are added up -/
  each : Nat → Nat
  /-- the load of the endpoint of the next hash -/
  probe : Nat
  /-- the loads of the last search -/
  least : Nat → Nat

def uint32 : Nat := 4294967296

def findNextHealthyEndpoint (nEps : Nat) (healthy : Nat → Bool) (start : Nat) : Option Nat :=
  ((range nEps).map fun i => (start + i) % nEps).find? healthy

/-- the search for the least loaded endpoint, over the endpoints `is`, the best so far being
`sel` with `minLoad` -/
def leastLoaded (o : Seen) : List Nat → Nat → Option Nat → Option Nat
  | [], _, sel => sel
  | i :: is, minLoad, sel =>
    if o.healthy i && decide (o.least i < minLoad) then leastLoaded o is (o.least i) (some i)
    else leastLoaded o is minLoad sel

/-- `max_load`: the mean load with this request, times the factor, rounded up -/
def maxLoad (nEps factor : Nat) (o : Seen) : Nat :=
  let total := (((range nEps).map o.each).sum) % uint32
  let bound := ((total + 1) * factor + nEps * 100 - 1) / (nEps * 100) % uint32
  if bound < 1 then 1 else bound

/-- the endpoint the ring gave, or the next healthy one -/
def healthyFrom (nEps : Nat) (o : Seen) (e0 : Nat) : Option Nat :=
  if nEps ≤ e0 then none
  else if o.healthy e0 then some e0
  else findNextHealthyEndpoint nEps o.healthy e0

/-- the endpoint `e` when this request fits on it, else the endpoint of the next hash when it
fits there, else the least loaded one -/
def withinBound (ring : List Vnode) (nEps factor : Nat) (hash : UInt64) (o : Seen) (e : Nat) :
    Option Nat :=
  let bound := maxLoad nEps factor o
  let fallback := leastLoaded o (range nEps) (uint32 - 1) none
  if bound < o.current + 1 then
    match chwblRingLookup ring (hash + 1) with
    | some q => if q < nEps ∧ o.healthy q = true ∧ o.probe < bound then some q else fallback
    | none => fallback
  else some e

/-- `chwbl_select_endpoint` up to the increment -/
def chwblSelectEndpoint (ring : List Vnode) (nEps factor : Nat) (hash : UInt64) (o : Seen) :
    Option Nat :=
  ((chwblRingLookup ring hash).bind (healthyFrom nEps o)).bind (withinBound ring nEps factor hash o)

variable {nEps e e0 factor : Nat} {o : Seen} {ring : List Vnode} {hash : UInt64}

theorem findNextHealthyEndpoint_lt {healthy : Nat → Bool} {start : Nat}
    (h : findNextHealthyEndpoint nEps healthy start = some e) : e < nEps := by
  obtain ⟨i, hi, he⟩ := mem_map.mp (mem_of_find?_eq_some h)
  rw [← he]
  exact mod_lt _ (lt_of_le_of_lt (zero_le i) (mem_range.mp hi))

/-- the last search finds the least loaded healthy endpoint, unless all are at the limit -/
theorem leastLoaded_spec {is : List Nat} {minLoad : Nat} {sel : Option Nat}
    (hsel : ∀ e ∈ sel, o.healthy e = true ∧ o.least e = minLoad) :
    (leastLoaded o is minLoad sel = none → sel = none ∧ ∀ i ∈ is, o.healthy i = true →
      minLoad ≤ o.least i) ∧
    ∀ e ∈ leastLoaded o is minLoad sel, (e ∈ is ∨ e ∈ sel) ∧ o.healthy e = true ∧
      o.least e ≤ minLoad ∧ ∀ i ∈ is, o.healthy i = true → o.least e ≤ o.least i := by
  induction is generalizing minLoad sel with
  | nil => exact ⟨fun h => ⟨h, nofun⟩, fun e he => ⟨.inr he, (hsel e he).1, (hsel e he).2.le, nofun⟩⟩
  | cons i is ih =>
    unfold leastLoaded
    split
    case isTrue hc =>
      rw [Bool.and_eq_true, decide_eq_true_eq] at hc
      obtain ⟨hnone, hsome⟩ := @ih (o.least i) (some i) (by simp [hc.1])
      refine ⟨fun h => absurd (hnone h).1 nofun, fun e he => ?_⟩
      obtain ⟨hmem, hh, hle, hall⟩ := hsome e he
      refine ⟨.inl ?_, hh, hle.trans hc.2.le, forall_mem_cons.mpr ⟨fun _ => hle, hall⟩⟩
      simpa [or_comm, eq_comm] using hmem
    case isFalse hc =>
      have hi : o.healthy i = true → minLoad ≤ o.least i := fun hh => by simpa [hh] using hc
      obtain ⟨hnone, hsome⟩ := ih hsel
      refine ⟨fun h => ⟨(hnone h).1, forall_mem_cons.mpr ⟨hi, (hnone h).2⟩⟩, fun e he => ?_⟩
      obtain ⟨hmem, hh, hle, hall⟩ := hsome e he
      exact ⟨hmem.imp_left (mem_cons_of_mem i), hh, hle,
        forall_mem_cons.mpr ⟨fun hh => hle.trans (hi hh), hall⟩⟩

theorem fallback_lt (h : leastLoaded o (range nEps) (uint32 - 1) none = some e) : e < nEps := by
  have hmem := ((leastLoaded_spec (by simp)).2 e h).1
  simpa using hmem

theorem healthyFrom_lt (h : healthyFrom nEps o e0 = some e) : e < nEps := by
  unfold healthyFrom at h
  split at h
  · cases h
  · split at h
    · rw [← some.inj h]
      exact Nat.lt_of_not_le ‹_›
    · exact findNextHealthyEndpoint_lt h

theorem withinBound_lt (h0 : e0 < nEps) (h : withinBound ring nEps factor hash o e0 = some e) :
    e < nEps := by
  unfold withinBound at h
  dsimp only at h
  split at h
  · split at h
    · split at h
      · rename_i q _ hq
        rw [← some.inj h]
        exact hq.1
      · exact fallback_lt h
    · exact fallback_lt h
  · rw [← some.inj h]
    exact h0

/-- **The selection stays in the pool**, whatever its reads return. -/
theorem chwblSelectEndpoint_lt (h : chwblSelectEndpoint ring nEps factor hash o = some e) :
    e < nEps := by
  obtain ⟨e0, hfirst, h⟩ := bind_eq_some_iff.mp h
  obtain ⟨_, _, hfirst⟩ := bind_eq_some_iff.mp hfirst
  exact withinBound_lt (healthyFrom_lt hfirst) h

/-! ## the lookup in a sorted ring -/

/-- the endpoint of the first node at or after the target, and of node 0 when there is none -/
def clockwise (ring : List Vnode) (hash : UInt64) : Option Nat :=
  ((ring.find? fun v => decide (hash ≤ v.hash)).or ring.head?).map Vnode.epIdx

section
variable (hs : ring.Pairwise fun a b => a.hash ≤ b.hash)
include hs

/-- the search ends at the first node at or after the target, or at the last node of all: `right`
starts there, and the search never leaves the range -/
theorem lookupLoop_spec (hash : UInt64) (rounds left right : Nat) (hlr : left ≤ right) (hr : right < ring.length)
    (hrounds : right ≤ left + rounds)
    (hlow : ∀ j (hj : j < ring.length), j < left → ring[j].hash < hash)
    (hhigh : right + 1 = ring.length ∨ hash ≤ ring[right].hash) :
    ∃ k, ∃ hk : k < ring.length, lookupLoop ring hash rounds left right = k ∧
      (∀ j (hj : j < ring.length), j < k → ring[j].hash < hash) ∧
      (k + 1 = ring.length ∨ hash ≤ ring[k].hash) := by
  induction rounds generalizing left right with
  | zero =>
    obtain rfl : left = right := by omega
    exact ⟨left, hr, rfl, hlow, hhigh⟩
  | succ rounds ih =>
    unfold lookupLoop
    by_cases hlt : left < right
    · have hmid : left + (right - left) / 2 < ring.length := by omega
      rw [if_pos hlt]
      dsimp only
      rw [getElem?_eq_getElem hmid]
      split
      case isTrue hm =>
        refine ih _ right (by omega) hr (by omega) (fun j hj hjm => ?_) hhigh
        rcases lt_or_eq_of_le (le_of_lt_succ hjm) with hjm | rfl
        · exact UInt64.lt_of_le_of_lt (pairwise_iff_getElem.mp hs j _ hj hmid hjm) (of_decide_eq_true hm)
        · exact of_decide_eq_true hm
      case isFalse hm =>
        exact ih left _ (by omega) hmid (by omega) hlow
          (.inr (UInt64.not_lt.mp fun h => hm (decide_eq_true h)))
    · obtain rfl : left = right := by omega
      rw [if_neg hlt]
      exact ⟨left, hr, rfl, hlow, hhigh⟩

theorem chwblRingLookup_eq (hash : UInt64) : chwblRingLookup ring hash =
    ((ring.find? fun v => decide (hash ≤ v.hash)).or ring.getLast?).map Vnode.epIdx := by
  cases hring : ring with
  | nil => rfl
  | cons v vs =>
    rw [← hring]
    have hlen : 0 < ring.length := by simp [hring]
    obtain ⟨k, hk, hloop, hbelow, hat⟩ := lookupLoop_spec hs hash ring.length 0
      (ring.length - 1) (zero_le _) (by omega) (by omega) (fun _ _ h => absurd h (not_lt_zero _))
      (.inl (by omega))
    have hnode : chwblRingLookup ring hash = some ring[k].epIdx := by
      unfold chwblRingLookup
      rw [if_neg (by simp [hring]), hloop]
      dsimp only
      rw [if_neg (by omega), getElem?_eq_getElem hk]
      rfl
    rw [hnode]
    by_cases hge : hash ≤ ring[k].hash
    · have hfind : ring.find? (fun v => decide (hash ≤ v.hash)) = some ring[k] := by
        refine find?_eq_some_iff_getElem.mpr ⟨decide_eq_true hge, k, hk, rfl, fun j hj => ?_⟩
        simpa using hbelow j (by omega) hj
      rw [hfind]
      rfl
    · have hlast : k = ring.length - 1 := by
        have := hat.resolve_right hge
        omega
      have hfind : ring.find? (fun v => decide (hash ≤ v.hash)) = none := by
        refine find?_eq_none.mpr fun w hw => ?_
        obtain ⟨j, hj, rfl⟩ := getElem_of_mem hw
        rcases lt_or_eq_of_le (hlast ▸ le_sub_one_of_lt hj : j ≤ k) with hj' | rfl
        · simpa using hbelow j hj hj'
        · simpa using hge
      rw [hfind, getLast?_eq_getElem?, ← hlast, getElem?_eq_getElem hk]
      rfl

/-- **the ring is not closed**: the lookup is clockwise exactly when some node is at or after the
target, or the first and the last node are of one endpoint; still, taking an endpoint away moves no
other target -/
theorem ring_lookup_iff (hne : ring ≠ []) (hash : UInt64) :
    (chwblRingLookup ring hash = clockwise ring hash ↔
      (∃ v ∈ ring, hash ≤ v.hash) ∨ ring.head?.map Vnode.epIdx = ring.getLast?.map Vnode.epIdx) ∧
    ∀ e f, chwblRingLookup ring hash = some f → f ≠ e →
      chwblRingLookup (ring.filter fun v => v.epIdx ≠ e) hash = some f := by
  rw [chwblRingLookup_eq hs, clockwise]
  constructor
  · cases hf : ring.find? fun v => decide (hash ≤ v.hash) with
    | some v =>
      exact iff_of_true rfl (.inl ⟨v, mem_of_find?_eq_some hf, by simpa using find?_some hf⟩)
    | none =>
      have hnone : ¬ ∃ v ∈ ring, hash ≤ v.hash := by
        rintro ⟨v, hv, hle⟩
        exact find?_eq_none.mp hf v hv (decide_eq_true hle)
      rw [or_iff_right hnone, eq_comm]
      rfl
  · intro e f hlook hfe
    obtain ⟨v, hv, rfl⟩ := map_eq_some_iff.mp hlook
    have hkeep : decide (v.epIdx ≠ e) = true := decide_eq_true hfe
    rw [chwblRingLookup_eq (hs.filter _), find?_filter]
    cases hf : ring.find? fun v => decide (hash ≤ v.hash) with
    | some w =>
      rw [hf] at hv
      obtain rfl : w = v := some.inj hv
      obtain ⟨hp, as, bs, rfl, has⟩ := find?_eq_some_iff_append.mp hf
      rw [find?_eq_some_iff_append.mpr ⟨by simp [hkeep, hp], as, bs, rfl, fun a ha => by
        simp [has a ha]⟩]
      rfl
    | none =>
      rw [hf] at hv
      obtain ⟨l, rfl⟩ := getLast?_eq_some_iff.mp hv
      rw [find?_eq_none.mpr fun a ha => by simp [find?_eq_none.mp hf a ha], filter_append,
        filter_singleton, hkeep]
      simp

end

theorem ring_lookup_two : let ring : List Vnode := [⟨1, 0⟩, ⟨2, 1⟩]
    chwblRingLookup ring 1 = clockwise ring 1 ∧
      chwblRingLookup (ring.filter fun v => v.epIdx ≠ 1) 1 = some 0 :=
  have h := ring_lookup_iff (show [⟨1, 0⟩, ⟨2, 1⟩].Pairwise fun a b : Vnode => a.hash ≤ b.hash by decide)
    (by decide) 1
  ⟨h.1.mpr (.inl ⟨⟨1, 0⟩, by decide, by decide⟩), h.2 1 0 (by decide) (by decide)⟩

/-- a target after all nodes gets the last one -/
theorem lookup_past_last : let ring : List Vnode := [⟨1, 0⟩, ⟨2, 1⟩]
    chwblRingLookup ring 3 = some 1 ∧ clockwise ring 3 = some 0 := by
  decide

/-! ## the bound, when nothing else changes the loads -/

/-- `wrr_hash_select_endpoint` up to the increment -/
def wrrHashSelectEndpoint (ring : List Vnode) (nEps factor : Nat) (hash : UInt64) (o : Seen) :
    Option Nat :=
  chwblSelectEndpoint ring nEps factor hash o

/-- what the reads return while these are the loads and the healthy endpoints -/
def Seen.still (ring : List Vnode) (nEps : Nat) (hash : UInt64) (healthy : Nat → Bool)
    (loads : Nat → Nat) : Seen :=
  let o : Seen := ⟨healthy, 0, loads, 0, loads⟩
  { o with
    current := loads (((chwblRingLookup ring hash).bind (healthyFrom nEps o)).getD 0)
    probe := loads ((chwblRingLookup ring (hash + 1)).getD 0) }

/-- a selection with its increment -/
def selectStill (select : List Vnode → Nat → Nat → UInt64 → Seen → Option Nat) (ring : List Vnode)
    (nEps factor : Nat) (hash : UInt64) (healthy : Nat → Bool) (loads : Nat → Nat) :
    Option (Nat × (Nat → Nat)) :=
  (select ring nEps factor hash (.still ring nEps hash healthy loads)).map fun e =>
    (e, update loads e ((loads e + 1) % uint32))

/-- the mean load with one more request, times the factor, rounded up -/
def loadBound (nEps factor : Nat) (loads : Nat → Nat) : Nat :=
  ((((range nEps).map loads).sum + 1) * factor + nEps * 100 - 1) / (nEps * 100)

theorem lookupLoop_le (rounds : Nat) {left right : Nat} (h : left ≤ right) :
    lookupLoop ring hash rounds left right ≤ right := by
  induction rounds generalizing left right with
  | zero => exact h
  | succ rounds ih =>
    unfold lookupLoop
    dsimp only
    split
    · split
      · exact ih (by omega)
      · exact le_trans (ih (by omega)) (by omega)
    · exact h

theorem lookup_mem (hne : ring ≠ []) (hash : UInt64) :
    ∃ v ∈ ring, chwblRingLookup ring hash = some v.epIdx := by
  have hlen := length_pos_iff.mpr hne
  have hle := @lookupLoop_le ring hash ring.length _ _ (zero_le (ring.length - 1))
  have hk : lookupLoop ring hash ring.length 0 (ring.length - 1) < ring.length := by omega
  refine ⟨_, getElem_mem hk, ?_⟩
  unfold chwblRingLookup
  rw [if_neg (by simpa using hne)]
  dsimp only
  rw [if_neg (not_le.mpr hk), getElem?_eq_getElem hk]
  rfl

theorem healthyFrom_healthy (h : healthyFrom nEps o e0 = some e) : o.healthy e = true := by
  unfold healthyFrom at h
  split at h
  · cases h
  · split at h
    · rwa [← some.inj h]
    · exact find?_some h

theorem healthyFrom_isSome (h0 : e0 < nEps) (he : e < nEps) (hh : o.healthy e = true) :
    (healthyFrom nEps o e0).isSome := by
  unfold healthyFrom findNextHealthyEndpoint
  rw [if_neg (not_le.mpr h0)]
  split
  · rfl
  · -- the endpoint comes after so many steps round the pool
    rw [find?_isSome]
    refine ⟨e, mem_map.mpr ⟨(e + (nEps - e0)) % nEps, mem_range.mpr (mod_lt _ (by omega)), ?_⟩, hh⟩
    rw [add_mod_mod, show e0 + (e + (nEps - e0)) = e + nEps by omega, add_mod_right,
      mod_eq_of_lt he]

theorem load_le_sum (loads : Nat → Nat) (h : e < nEps) : loads e ≤ ((range nEps).map loads).sum :=
  single_le_sum (fun _ _ => zero_le _) _ (mem_map.mpr ⟨e, mem_range.mpr h, rfl⟩)

section
variable {healthy : Nat → Bool} {loads : Nat → Nat} (hf : 100 ≤ factor)
  (htotal : ((range nEps).map loads).sum + 1 < uint32) (hbound : loadBound nEps factor loads < uint32)
include hf

theorem least_le_bound (h0 : e < nEps) (h : ∀ i < nEps, loads e ≤ loads i) :
    loads e + 1 ≤ loadBound nEps factor loads := by
  have hsum : nEps * loads e ≤ ((range nEps).map loads).sum := by
    have := card_nsmul_le_sum ((range nEps).map loads) (loads e) (by simpa using h)
    simpa using this
  have hmul := mul_le_mul_left (((range nEps).map loads).sum + 1) hf
  have hexp : (loads e + 1) * (nEps * 100) = 100 * (nEps * loads e) + nEps * 100 := by ring
  refine (le_div_iff_mul_le (by omega)).mpr ?_
  omega

include htotal hbound

theorem maxLoad_still (h0 : e < nEps) (ho : o.each = loads) :
    maxLoad nEps factor o = loadBound nEps factor loads := by
  have hpos : 1 ≤ loadBound nEps factor loads := by
    have hmul := mul_le_mul (le_add_left 1 ((range nEps).map loads).sum) hf
    refine (le_div_iff_mul_le (by omega)).mpr ?_
    omega
  unfold maxLoad
  rw [ho, mod_eq_of_lt (by omega : ((range nEps).map loads).sum < uint32)]
  show (if loadBound nEps factor loads % uint32 < 1 then 1 else loadBound nEps factor loads % _) = _
  rw [mod_eq_of_lt hbound, if_neg (not_lt.mpr hpos)]

theorem withinBound_still (h0 : e0 < nEps) (hh : healthy e0 = true) (hne : ring ≠ [])
    (hlook : (chwblRingLookup ring hash).bind (healthyFrom nEps ⟨healthy, 0, loads, 0, loads⟩) = some e0) :
    ∃ e, withinBound ring nEps factor hash (.still ring nEps hash healthy loads) e0 = some e ∧
      healthy e = true ∧ (loads e0 + 1 ≤ loadBound nEps factor loads → e = e0) ∧
      ((∀ i < nEps, healthy i = true) → loads e + 1 ≤ loadBound nEps factor loads) := by
  obtain ⟨v, -, hv⟩ := lookup_mem hne (hash + 1)
  have hcur : (Seen.still ring nEps hash healthy loads).current = loads e0 := by
    unfold Seen.still
    dsimp only
    rw [hlook]
    rfl
  have hprobe : (Seen.still ring nEps hash healthy loads).probe = loads v.epIdx := by
    unfold Seen.still
    rw [hv]
    rfl
  unfold withinBound
  dsimp only
  rw [maxLoad_still hf htotal hbound h0 rfl, hcur, hv, hprobe]
  split
  case isFalse hle => exact ⟨e0, rfl, hh, fun _ => rfl, fun _ => not_lt.mp hle⟩
  case isTrue hlt =>
    dsimp only
    split
    case isTrue hq => exact ⟨v.epIdx, rfl, hq.2.1, fun hle => absurd hle (by omega), fun _ => hq.2.2⟩
    case isFalse =>
      obtain ⟨hnone, hsome⟩ := @leastLoaded_spec (.still ring nEps hash healthy loads) (range nEps)
        (uint32 - 1) none nofun
      cases he : leastLoaded (.still ring nEps hash healthy loads) (range nEps) (uint32 - 1) none with
      | none =>
        -- no load is at the limit of the counter
        have hle : uint32 - 1 ≤ loads e0 := (hnone he).2 e0 (mem_range.mpr h0) hh
        have hmem := load_le_sum loads h0
        omega
      | some e =>
        obtain ⟨-, h1, -, h3⟩ := hsome e he
        refine ⟨e, rfl, h1, fun hle => absurd hle (by omega), fun hall => ?_⟩
        exact least_le_bound hf (fallback_lt he) fun i hi => h3 i (mem_range.mpr hi) (hall i hi)

/-- **bounded load**: the selections succeed exactly when an endpoint is healthy; they take the ring's
one when it is healthy and within the bound, and stay within it when all are healthy -/
theorem bounded_load {select : List Vnode → Nat → Nat → UInt64 → Seen → Option Nat}
    (hsel : select = chwblSelectEndpoint ∨ select = wrrHashSelectEndpoint)
    (hring : ∀ v ∈ ring, v.epIdx < nEps) (hne : ring ≠ []) :
    ((∃ x, selectStill select ring nEps factor hash healthy loads = some x) ↔
      ∃ i < nEps, healthy i = true) ∧
    (∀ e l, selectStill select ring nEps factor hash healthy loads = some (e, l) →
      e < nEps ∧ healthy e = true ∧ l = update loads e (loads e + 1)) ∧
    (∀ e0, chwblRingLookup ring hash = some e0 → healthy e0 = true →
      loads e0 + 1 ≤ loadBound nEps factor loads →
      ∃ l, selectStill select ring nEps factor hash healthy loads = some (e0, l)) ∧
    ((∀ i < nEps, healthy i = true) → ∀ e l,
      selectStill select ring nEps factor hash healthy loads = some (e, l) →
      loads e + 1 ≤ loadBound nEps factor loads) := by
  obtain rfl : select = chwblSelectEndpoint := hsel.elim id id
  obtain ⟨v, hv, hlook⟩ := lookup_mem hne hash
  have hvlt := hring v hv
  have hfirst : chwblSelectEndpoint ring nEps factor hash (.still ring nEps hash healthy loads) =
      (healthyFrom nEps ⟨healthy, 0, loads, 0, loads⟩ v.epIdx).bind
        (withinBound ring nEps factor hash (.still ring nEps hash healthy loads)) := by
    unfold chwblSelectEndpoint
    rw [hlook]
    rfl
  unfold selectStill
  rw [hfirst, hlook]
  cases hh : healthyFrom nEps ⟨healthy, 0, loads, 0, loads⟩ v.epIdx with
  | none =>
    have hno : ∀ i < nEps, healthy i ≠ true := by
      intro i hi hhi
      have hsome := healthyFrom_isSome (o := ⟨healthy, 0, loads, 0, loads⟩) hvlt hi hhi
      rw [hh] at hsome
      cases hsome
    refine ⟨iff_of_false (by simp) fun ⟨i, hi, hhi⟩ => hno i hi hhi, by simp, ?_, by simp⟩
    rintro e0 ⟨rfl⟩ hh0
    exact absurd hh0 (hno _ hvlt)
  | some e0 =>
    have hlt := healthyFrom_lt hh
    have hh0 : healthy e0 = true := healthyFrom_healthy hh
    obtain ⟨e, he, h1, h2, h3⟩ := withinBound_still hf htotal hbound hlt hh0 hne
      (by rw [hlook]; exact hh)
    have helt := withinBound_lt hlt he
    have hmod : (loads e + 1) % uint32 = loads e + 1 := by
      have := load_le_sum loads helt
      exact mod_eq_of_lt (by omega)
    rw [bind_some, he, map_some, hmod]
    refine ⟨iff_of_true ⟨_, rfl⟩ ⟨e0, hlt, hh0⟩, ?_, ?_, ?_⟩
    · rintro _ _ ⟨rfl, rfl⟩
      exact ⟨helt, h1, rfl⟩
    · rintro _ ⟨rfl⟩ hhv hle
      unfold healthyFrom at hh
      rw [if_neg (not_le.mpr hvlt), if_pos hhv] at hh
      cases hh
      exact ⟨_, by rw [h2 hle]⟩
    · rintro hall _ _ ⟨rfl, rfl⟩
      exact h3 hall

end

/-- the ring's endpoint is over the bound, and one within it is taken -/
theorem bounded_load_moves : let loads : Nat → Nat := fun i => if i = 0 then 7 else i
    chwblRingLookup [⟨1, 0⟩, ⟨2, 1⟩, ⟨3, 2⟩] 1 = some 0 ∧ loadBound 3 125 loads < loads 0 + 1 ∧
      ∃ e l, selectStill chwblSelectEndpoint [⟨1, 0⟩, ⟨2, 1⟩, ⟨3, 2⟩] 3 125 1 (fun _ => true) loads =
        some (e, l) ∧ l = update loads e (loads e + 1) ∧ loads e + 1 ≤ loadBound 3 125 loads := by
  intro loads
  obtain ⟨hsome, hnext, -, hall⟩ := @bounded_load 3 125 [⟨1, 0⟩, ⟨2, 1⟩, ⟨3, 2⟩] 1 (fun _ => true) loads
    (by decide) (by decide) (by decide) _ (.inl rfl) (by decide) (by decide)
  obtain ⟨⟨e, l⟩, hel⟩ := hsome.mpr ⟨0, by decide, rfl⟩
  exact ⟨by decide, by decide, e, l, hel, (hnext e l hel).2.2, hall (fun _ _ => rfl) e l hel⟩

/-- the bound is cut to 32 bits, so that the ring's endpoint is left though it is within the bound -/
theorem bound_wraps : let loads : Nat → Nat := fun i => if i = 0 then 2900000000 else 0
    ((range 2).map loads).sum < uint32 ∧ loads 0 + 1 ≤ loadBound 2 300 loads ∧
      chwblRingLookup [⟨1, 0⟩] 1 = some 0 ∧
      (selectStill chwblSelectEndpoint [⟨1, 0⟩] 2 300 1 (fun _ => true) loads).map Prod.fst = some 1 := by
  decide +kernel

end Lb
