import InferenceGateway.Kv.Pipeline

/-!
# Which GPU mapping a KV session uses

* `Confined`         DMA only with mappings of the session, no mapping shared or lost;
* `setSlot`, `dmaCall`, `sessionReset`, `imports`   what the steps of the calls keep of it.
-/

open Function List Option

namespace KvPipe

open Event

/-! ## the invariant -/

/-- **KV data goes only to its own session's memory** -/
structure Confined (p : Pipe) : Prop where
  /-- DMA uses a mapping that was imported for the session and not destroyed since -/
  dma : ∀ a s m b, p.trace = a ++ .dma s m :: b → imported s m ∈ a ∧ destroyed m ∉ a
  /-- a session's mapping was imported for it and is not destroyed -/
  own : ∀ i m, (p.slot i).gpuMmap = some m →
    (p.slot i).gpuMmapOwned = true ∧ imported (p.slot i).sessionId m ∈ p.trace ∧
      destroyed m ∉ p.trace
  /-- no two slots hold one mapping -/
  alone : ∀ i j m, (p.slot i).gpuMmap = some m → (p.slot j).gpuMmap = some m → i = j
  /-- every imported mapping is in a slot or was destroyed once -/
  once : ∀ s m, imported s m ∈ p.trace →
    (∃ i, (p.slot i).gpuMmap = some m) ∨ p.trace.count (.destroyed m) = 1
  /-- a fetch started now uses the mapping registered for its session -/
  fetch : ∀ s m, p.reg s = some m → ∃ i, slotOf p.slot s = some i ∧ (p.slot i).gpuMmap = some m
  fresh : ∀ e ∈ p.trace, ∀ m, (e = .destroyed m ∨ ∃ s, e = .imported s m) → m < p.next

theorem dma_snoc {t : List Event} {e : Event}
    (h : ∀ a s m b, t = a ++ .dma s m :: b → imported s m ∈ a ∧ destroyed m ∉ a)
    (he : ∀ s m, e = .dma s m → imported s m ∈ t ∧ destroyed m ∉ t) :
    ∀ a s m b, t ++ [e] = a ++ .dma s m :: b → imported s m ∈ a ∧ destroyed m ∉ a := by
  intro a s m b heq
  rcases eq_nil_or_concat b with rfl | ⟨b', e', rfl⟩
  · obtain ⟨h1, h2⟩ := append_inj' heq rfl
    cases h2
    exact h1 ▸ he s m rfl
  · rw [concat_eq_append, ← cons_append, ← append_assoc] at heq
    exact h a s m b' (append_inj' heq rfl).1

theorem confined_init : Confined init where
  dma a s m b h := by cases a <;> cases h
  own _ _ h := by cases h
  alone _ _ _ h := by cases h
  once _ _ h := by cases h
  fetch _ _ h := by cases h
  fresh _ h := by cases h

namespace Confined
variable {p : Pipe} (hp : Confined p)
include hp

variable {i m s : Nat} {x : Slot}

/-- one slot changes and at most one event is logged: exactly a mapping that goes out of the slot
is destroyed, and an imported one is in it -/
theorem step {o : Option Event} {n : Nat} {r : Nat → Option Nat}
    (hdma : ∀ s m, o = some (.dma s m) → imported s m ∈ p.trace ∧ destroyed m ∉ p.trace)
    (hx : ∀ m, x.gpuMmap = some m → x.gpuMmapOwned = true ∧
      imported x.sessionId m ∈ p.trace ++ o.toList ∧ destroyed m ∉ p.trace ++ o.toList ∧
      ∀ j, j ≠ i → (p.slot j).gpuMmap ≠ some m)
    (hgone : ∀ m, o = some (.destroyed m) → (p.slot i).gpuMmap = some m)
    (hkept : ∀ m, (p.slot i).gpuMmap = some m → x.gpuMmap = some m ∨ o = some (.destroyed m))
    (hnew : ∀ s m, o = some (.imported s m) → x.gpuMmap = some m ∧ m < n) (hn : p.next ≤ n)
    (hfetch : ∀ s m, r s = some m → ∃ j, slotOf (update p.slot i x) s = some j ∧
      (update p.slot i x j).gpuMmap = some m) :
    Confined ⟨update p.slot i x, n, p.trace ++ o.toList, r⟩ := by
  have hcase : ∀ j m, (update p.slot i x j).gpuMmap = some m →
      j = i ∧ x.gpuMmap = some m ∨ j ≠ i ∧ (p.slot j).gpuMmap = some m := by
    intro j m h
    by_cases hj : j = i
    · rw [hj, update_self] at h
      exact .inl ⟨hj, h⟩
    · rw [update_of_ne hj] at h
      exact .inr ⟨hj, h⟩
  constructor
  case dma =>
    cases o with
    | none => simpa using hp.dma
    | some e => exact dma_snoc hp.dma fun s m h => hdma s m (congrArg some h)
  case own =>
    intro j m h
    dsimp only
    rcases hcase j m h with ⟨rfl, hm⟩ | ⟨hj, hm⟩
    · rw [update_self]
      exact ⟨(hx m hm).1, (hx m hm).2.1, (hx m hm).2.2.1⟩
    · rw [update_of_ne hj]
      obtain ⟨ho, himp, hdes⟩ := hp.own j m hm
      refine ⟨ho, mem_append_left _ himp, fun hd => ?_⟩
      rcases mem_append.mp hd with hd | hd
      · exact hdes hd
      · exact hj (hp.alone j i m hm (hgone m (mem_toList.mp hd)))
  case alone =>
    intro j k m h h'
    rcases hcase j m h with ⟨rfl, hm⟩ | ⟨hj, hm⟩ <;> rcases hcase k m h' with ⟨rfl, hm'⟩ | ⟨hk, hm'⟩
    · rfl
    · exact absurd hm' ((hx m hm).2.2.2 k hk)
    · exact absurd hm ((hx m hm').2.2.2 j hj)
    · exact hp.alone j k m hm hm'
  case once =>
    intro s m h
    dsimp only
    rcases mem_append.mp h with h | h
    · by_cases hi : (p.slot i).gpuMmap = some m
      · rcases hkept m hi with hm | rfl
        · exact .inl ⟨i, by rw [update_self, hm]⟩
        · right
          rw [count_append, count_eq_zero.mpr (hp.own i m hi).2.2]
          simp
      · rcases hp.once s m h with ⟨j, hj⟩ | hc
        · refine .inl ⟨j, ?_⟩
          rw [update_of_ne fun he : j = i => hi (he ▸ hj)]
          exact hj
        · right
          rw [count_append, hc, count_eq_zero.mpr fun hd => hi (hgone m (mem_toList.mp hd))]
    · exact .inl ⟨i, by rw [update_self, (hnew s m (mem_toList.mp h)).1]⟩
  case fetch => exact hfetch
  case fresh =>
    intro e he m hem
    rcases mem_append.mp he with he | he
    · exact lt_of_lt_of_le (hp.fresh e he m hem) hn
    · rcases hem with rfl | ⟨s, rfl⟩
      · have himp := (hp.own i m (hgone m (mem_toList.mp he))).2.1
        exact lt_of_lt_of_le (hp.fresh _ himp m (.inr ⟨_, rfl⟩)) hn
      · exact (hnew s m (mem_toList.mp he)).2

theorem setSlot (hm : x.gpuMmap = (p.slot i).gpuMmap)
    (ho : x.gpuMmapOwned = (p.slot i).gpuMmapOwned)
    (hid : (p.slot i).gpuMmap ≠ none → x.sessionId = (p.slot i).sessionId)
    (hf : ∀ s m, p.reg s = some m → ∃ j, slotOf (update p.slot i x) s = some j ∧
      (p.slot j).gpuMmap = some m) : Confined (p.setSlot i x) := by
  have h := hp.step (o := none) (r := p.reg) nofun (fun m h => ?_) nofun
    (fun m h => .inl (hm.trans h)) nofun le_rfl fun s m h => ?_
  · simpa [Pipe.setSlot] using h
  · rw [hm] at h
    rw [ho, hid (by rw [h]; simp), toList_none, append_nil]
    obtain ⟨ho, himp, hdes⟩ := hp.own i m h
    exact ⟨ho, himp, hdes, fun j hj hjm => hj (hp.alone j i m hjm h)⟩
  · obtain ⟨j, hj, hjm⟩ := hf s m h
    exact ⟨j, hj, (Run.update_keeps Slot.gpuMmap hm j).trans hjm⟩

theorem fetch_update (hreg : p.reg s = some m) (hr : x.runs s = (p.slot i).runs s)
    (hw : x.waits s = (p.slot i).waits s) :
    ∃ j, slotOf (update p.slot i x) s = some j ∧ (p.slot j).gpuMmap = some m := by
  rw [slotOf_update hr hw]
  exact hp.fetch s m hreg

theorem fetch_other (hreg : p.reg s = some m)
    (hother : (p.slot i).runs s = false ∧ (p.slot i).waits s = false) (hne : x.sessionId ≠ s) :
    ∃ j, slotOf (update p.slot i x) s = some j ∧ (p.slot j).gpuMmap = some m := by
  refine hp.fetch_update hreg ?_ ?_
  · rw [hother.1, runs_of_ne hne]
  · rw [hother.2, waits_of_ne hne]

theorem active (ha : (p.slot i).isIdle = false) (hx : x.isIdle = false)
    (hm : x.gpuMmap = (p.slot i).gpuMmap) (ho : x.gpuMmapOwned = (p.slot i).gpuMmapOwned)
    (hid : x.sessionId = (p.slot i).sessionId) : Confined (p.setSlot i x) := by
  refine hp.setSlot hm ho (fun _ => hid) fun s m hreg => hp.fetch_update hreg ?_ ?_
  · simp only [Slot.runs, hid, hx, ha]
  · rw [waits_of_active hx, waits_of_active ha]

theorem dmaCall (i : Nat) : Confined (p.dmaCall (p.slot i)) := by
  unfold Pipe.dmaCall
  cases hm : (p.slot i).gpuMmap with
  | none => exact hp
  | some m =>
    obtain ⟨ho, himp, hdes⟩ := hp.own i m hm
    have h := hp.step (o := some (.dma (p.slot i).sessionId m)) (i := i) (r := p.reg)
      (fun s d h => ?_) (fun d h => ?_) nofun (fun d h => .inl h) nofun le_rfl fun s d h => ?_
    · rwa [update_eq_self] at h
    · cases h
      exact ⟨himp, hdes⟩
    · obtain rfl : m = d := some.inj (hm.symm.trans h)
      exact ⟨ho, mem_append_left _ himp, by simpa using hdes, fun j hj hjm => hj (hp.alone j i m hjm hm)⟩
    · rw [update_eq_self]
      exact hp.fetch s d h

theorem sessionReset (i : Nat) : Confined (p.sessionReset i) := by
  have hstep : p.sessionReset i = ⟨update p.slot i blank, p.next,
      p.trace ++ ((p.slot i).gpuMmap.map .destroyed).toList, update p.reg (p.slot i).sessionId none⟩ := by
    unfold Pipe.sessionReset Pipe.emptied Pipe.doomed
    cases hm : (p.slot i).gpuMmap with
    | none => simp [blank]
    | some m => simp [(hp.own i m hm).1, blank]
  rw [hstep]
  refine hp.step (by simp) nofun (by simp) (fun m h => .inr (by rw [h]; rfl)) (by simp) le_rfl
    fun s m h => ?_
  by_cases hs : s = (p.slot i).sessionId
  · rw [hs, update_self] at h
    cases h
  · rw [update_of_ne hs] at h
    have hne : (p.slot i).sessionId ≠ s := fun he => hs he.symm
    obtain ⟨j, hj, hjm⟩ := hp.fetch s m h
    refine ⟨j, ?_, ?_⟩
    · rw [slotOf_update (by rw [runs_of_idle rfl, runs_of_ne hne])
        (by rw [waits_of_empty rfl, waits_of_ne hne])]
      exact hj
    · rw [update_of_ne fun he : j = i => hne (sessionId_of_slotOf (he ▸ hj))]
      exact hjm

theorem imports (hid : x.sessionId = s) (hm : x.gpuMmap = some p.next)
    (howned : x.gpuMmapOwned = true) (hempty : (p.slot i).gpuMmap = none)
    (hother : ∀ t, t ≠ s → (p.slot i).runs t = false ∧ (p.slot i).waits t = false)
    (hfound : slotOf (update p.slot i x) s = some i) :
    Confined { slot := update p.slot i x, next := p.next + 1
               trace := p.trace ++ [.imported s p.next]
               reg := update p.reg s (some p.next) } := by
  refine hp.step (o := some (.imported s p.next)) nofun (fun m h => ?_) nofun ?_ ?_ (Nat.le_succ _)
    fun t m h => ?_
  · obtain rfl : p.next = m := some.inj (hm.symm.trans h)
    refine ⟨howned, by simp [hid], fun hd => ?_, fun j _ hj => ?_⟩
    · have hd' : destroyed p.next ∈ p.trace := by simpa using hd
      exact Nat.lt_irrefl _ (hp.fresh _ hd' p.next (.inl rfl))
    · exact Nat.lt_irrefl _ (hp.fresh _ (hp.own j _ hj).2.1 p.next (.inr ⟨_, rfl⟩))
  · intro m h
    rw [hempty] at h
    cases h
  · intro t m h
    cases h
    exact ⟨hm, Nat.lt_succ_self _⟩
  · by_cases ht : t = s
    · rw [ht, update_self] at h
      exact ⟨i, ht ▸ hfound, by rw [update_self, hm, h]⟩
    · rw [update_of_ne ht] at h
      obtain ⟨j, hj, hjm⟩ := hp.fetch_other h (hother t ht) fun he => ht (he ▸ hid)
      refine ⟨j, hj, ?_⟩
      rw [update_of_ne fun he => by rw [he, hempty] at hjm; cases hjm]
      exact hjm

end Confined

end KvPipe
