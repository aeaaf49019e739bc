import InferenceGateway.Kv.Confined

/-!
# Runs of the KV pipeline

* `Careful`                   a call does not take a slot in which somebody's mapping waits;
* `confined_apply`            a careful call keeps every mapping with its session;
* `kv_stays_with_session`     so do runs of careful calls;
* `kv_goes_elsewhere`         a fetch takes the slot of another session's registration.
-/

open Function List Option

namespace KvPipe

/-! ## the calls -/

def started (x : Slot) (msg : Msg) (state : SessionState) : Slot :=
  { x with sessionId := msg.sessionId, priority := msg.priority, totalChunks := msg.totalChunks
           chunksDone := 0, state }

section
variable {p : Pipe} {i s t : Nat} {msg : Msg}

theorem unseen (hmine : (p.slot i).sessionId = s ∨ (p.slot i).isIdle = true ∧ (p.slot i).gpuMmap = none)
    (ht : t ≠ s) : (p.slot i).runs t = false ∧ (p.slot i).waits t = false := by
  rcases hmine with hm | ⟨hidle, hm⟩
  · have hne : (p.slot i).sessionId ≠ t := fun he => ht (he ▸ hm)
    exact ⟨runs_of_ne hne, waits_of_ne hne⟩
  · exact ⟨runs_of_idle hidle, waits_of_empty hm⟩

theorem Confined.startIn (hp : Confined p) (hmine : (p.slot i).sessionId = msg.sessionId ∨
      (p.slot i).isIdle = true ∧ (p.slot i).gpuMmap = none)
    (state : SessionState) (ok : Bool)
    (hs : ok = true → ∀ m, p.reg msg.sessionId = some m →
      ∃ j, slotOf (update p.slot i (started (p.slot i) msg state)) msg.sessionId = some j ∧
        (p.slot j).gpuMmap = some m) :
    Confined (startIn p i msg state ok) := by
  have hid : (p.slot i).gpuMmap ≠ none → msg.sessionId = (p.slot i).sessionId := by
    rcases hmine with hm | ⟨-, hm⟩
    · exact fun _ => hm.symm
    · exact fun hne => absurd hm hne
  cases ok with
  | true =>
    refine hp.setSlot rfl rfl hid fun t m hreg => ?_
    by_cases ht : t = msg.sessionId
    · subst ht
      exact hs rfl m hreg
    · exact hp.fetch_other hreg (unseen hmine ht) fun he => ht he.symm
  | false =>
    refine Confined.sessionReset ?_ i
    refine hp.setSlot rfl rfl hid fun t m hreg => ?_
    by_cases ht : t = msg.sessionId
    · subst ht
      rcases hmine with hm | ⟨hidle, hm⟩
      · exact hp.fetch_update hreg (by simp only [Slot.runs, Slot.isIdle, hm])
          (by simp only [Slot.waits, Slot.isIdle, hm])
      · refine hp.fetch_update hreg ?_ ?_
        · rw [runs_of_idle hidle]
          exact runs_of_idle hidle
        · rw [waits_of_empty hm]
          exact waits_of_empty hm
    · exact hp.fetch_other hreg (unseen hmine ht) fun he => ht he.symm

theorem slotOf_started {slot : Nat → Slot} {state : SessionState} (hst : state ≠ .idle)
    (hi : i < maxSessions) (hfirst : ∀ j < i, (slot j).runs msg.sessionId = false) :
    slotOf (update slot i (started (slot i) msg state)) msg.sessionId = some i := by
  apply slotOf_of_runs hi
  · rw [update_self]
    simp [Slot.runs, Slot.isIdle, started, hst]
  · intro j hj
    rw [update_of_ne (Nat.ne_of_lt hj)]
    exact hfirst j hj

end

section
variable (less : Slot → Slot → Bool)

/-- a call does not take a slot where another session's mapping waits, does not register over a
mapping, and does not start a write-back in front of a registration of its session -/
def Careful (p : Pipe) : Act → Prop
  | .register s r => ∀ i, registerSlot p.slot s = some i →
      (p.slot i).gpuMmap = none ∨ r = .refused ∧ (p.slot i).sessionId = s
  | .fetch msg _ => slotOf p.slot msg.sessionId = none →
      ∀ i, findIdleSlot p.slot = some i → (p.slot i).gpuMmap = none
  | .writeback msg ok => ∀ q i, allocateSession less p msg.priority = some (q, i) →
      ((q.slot i).gpuMmap = none ∨ (q.slot i).sessionId = msg.sessionId) ∧
      (ok = true → q.reg msg.sessionId ≠ none → ∃ j, slotOf q.slot msg.sessionId = some j ∧
          (j = i ∨ j < i ∧ (q.slot j).runs msg.sessionId = true))
  | .process _ => True

variable {less} {p : Pipe}

variable {i s : Nat} {slot : Nat → Slot} {msg : Msg} {ok : Bool}

theorem of_allocateSession (hp : Confined p) {priority : Nat} {q : Pipe}
    (h : allocateSession less p priority = some (q, i)) :
    Confined q ∧ i < maxSessions ∧ (q.slot i).isIdle = true ∧
      (q = p ∧ findIdleSlot p.slot = some i ∨
        (q.slot i).gpuMmap = none ∧ ∀ s, q.reg s = p.reg s ∨ q.reg s = none) := by
  unfold allocateSession at h
  split at h
  · next j hj =>
    cases h
    obtain ⟨hidle, hi, -⟩ := firstSlot_eq_some.mp hj
    exact ⟨hp, hi, hidle, .inl ⟨rfl, hj⟩⟩
  · split at h
    · next j hj =>
      cases h
      have hlt : i < maxSessions := by
        refine foldlRecOn (motive := fun best => ∀ b, best = some b → b < maxSessions) _ _
          (fun b hb => by cases hb) (fun best hb k hk b hb' => ?_) i hj
        have hkk := mem_range.mp hk
        split at hb'
        · split at hb'
          · cases hb'
            exact hkk
          · split at hb'
            · cases hb'
              exact hkk
            · cases hb'
              exact hb _ rfl
        · exact hb b hb'
      have hq := hp.sessionReset i
      have hempty : ((p.sessionReset i).slot i).gpuMmap = none := by
        cases hm : ((p.sessionReset i).slot i).gpuMmap with
        | none => rfl
        | some m =>
          have howned := (hq.own i m hm).1
          simp [Pipe.sessionReset, Pipe.emptied, blank] at howned
      refine ⟨hq, hlt, ?_, .inr ⟨hempty, fun s => ?_⟩⟩
      · simp [Pipe.sessionReset, Pipe.emptied, blank, Slot.isIdle]
      · by_cases hs : s = (p.slot i).sessionId
        · right
          rw [hs]
          exact update_self ..
        · left
          exact update_of_ne hs ..
    · cases h

/-- where a register call puts the mapping: into the first active session of the id, or into the
first idle slot when there is none -/
theorem of_registerSlot (h : registerSlot slot s = some i) :
    i < maxSessions ∧ ((slot i).runs s = true ∧ (∀ j < i, (slot j).runs s = false) ∨
      (∀ j < maxSessions, (slot j).runs s = false) ∧ (slot i).isIdle = true ∧
        ∀ j < i, (slot j).isIdle = false) := by
  unfold registerSlot findSessionById at h
  rcases or_eq_some_iff.mp h with hrun | ⟨hnone, hidle⟩
  · obtain ⟨hr, hi, hf⟩ := firstSlot_eq_some.mp hrun
    exact ⟨hi, .inl ⟨hr, hf⟩⟩
  · obtain ⟨hr, hi, hf⟩ := firstSlot_eq_some.mp hidle
    refine ⟨hi, .inr ⟨fun j hj => ?_, hr, hf⟩⟩
    unfold firstSlot at hnone
    rw [find?_eq_none] at hnone
    simpa using hnone j (mem_range.mpr hj)

theorem slotOf_registered (h : registerSlot slot s = some i) {x : Slot} (hid : x.sessionId = s)
    (hst : x.state = (slot i).state) (hm : x.gpuMmap ≠ none) :
    slotOf (update slot i x) s = some i := by
  have hx : x.isIdle = (slot i).isIdle := by simp only [Slot.isIdle, hst]
  obtain ⟨hlt, ⟨hr, hf⟩ | ⟨hnone, hidle, hf⟩⟩ := of_registerSlot h
  · apply slotOf_of_runs hlt
    · rw [update_self]
      simp only [Slot.runs, Bool.and_eq_true, Bool.not_eq_true'] at hr
      simp [Slot.runs, hid, hx, hr.2]
    · intro j hj
      rw [update_of_ne (Nat.ne_of_lt hj)]
      exact hf j hj
  · unfold slotOf findSessionById
    rw [or_eq_some_iff]
    right
    constructor
    · rw [firstSlot_update]
      · unfold firstSlot
        rw [find?_eq_none]
        intro j hj
        simp [hnone j (mem_range.mp hj)]
      · rw [runs_of_idle hidle, runs_of_idle (hx.trans hidle)]
    · rw [firstSlot_eq_some]
      refine ⟨?_, hlt, fun j hj => ?_⟩
      · rw [update_self]
        simp [Slot.waits, hid, hx, hidle, isSome_iff_ne_none, hm]
      · rw [update_of_ne (Nat.ne_of_lt hj), waits_of_active (hf j hj)]

section
variable (hp : Confined p)
include hp

theorem confined_register {r : Import} (hc : Careful less p (.register s r)) :
    Confined (registerGpuMmap p s r) := by
  unfold registerGpuMmap
  split
  · exact hp
  · next i hi =>
    rcases hc i hi with hempty | ⟨rfl, hid⟩
    · -- no session but `s` sees the slot, before or after
      have hother : ∀ t, t ≠ s → (p.slot i).runs t = false ∧ (p.slot i).waits t = false := by
        intro t ht
        obtain ⟨-, ⟨hr, -⟩ | ⟨-, hidle, -⟩⟩ := of_registerSlot hi
        · exact unseen (.inl (sessionId_of_runs hr)) ht
        · exact unseen (.inr ⟨hidle, hempty⟩) ht
      have hsame : ∀ x, x.sessionId = s → x.state = (p.slot i).state →
          x.gpuMmap = none → x.gpuMmapOwned = (p.slot i).gpuMmapOwned →
          Confined (p.setSlot i x) := by
        intro x hxs hxst hxm hxo
        have hxi : x.isIdle = (p.slot i).isIdle := by simp only [Slot.isIdle, hxst]
        refine hp.setSlot (hxm.trans hempty.symm) hxo (fun hne => absurd hempty hne)
          fun t m hreg => hp.fetch_update hreg ?_ ?_
        · by_cases ht : t = s
          · subst ht
            obtain ⟨-, ⟨hr, -⟩ | ⟨-, hidle, -⟩⟩ := of_registerSlot hi
            · simp only [Slot.runs, hxs, hxi, sessionId_of_runs hr]
            · rw [runs_of_idle hidle, runs_of_idle (hxi.trans hidle)]
          · rw [(hother t ht).1]
            exact runs_of_ne fun he => ht (he ▸ hxs)
        · rw [waits_of_empty hxm, waits_of_empty hempty]
      cases r with
      | failed => exact hsame _ rfl rfl rfl rfl
      | refused => exact hsame _ rfl rfl hempty rfl
      | ok =>
        refine hp.imports rfl rfl rfl hempty hother (slotOf_registered hi rfl rfl ?_)
        simp
    · -- the slot is the session's own and stays as it is
      have hx : ({ p.slot i with sessionId := s } : Slot) = p.slot i := by rw [← hid]
      dsimp only
      rw [Pipe.setSlot, hx, update_eq_self]
      exact hp

theorem confined_fetch (hc : Careful less p (.fetch msg ok)) :
    Confined (fetchStart less p msg ok) := by
  unfold fetchStart
  split
  · next i hi =>
    refine hp.startIn (.inl (sessionId_of_slotOf hi)) .tcpRecv ok fun _ m hreg => ?_
    obtain ⟨j, hj, hjm⟩ := hp.fetch _ m hreg
    rw [hi] at hj
    cases hj
    exact ⟨i, slotOf_started (by decide) (of_slotOf hi).1 (first_of_slotOf hi), hjm⟩
  · next hnone =>
    -- a session that is not found has no registration either
    have hreg : p.reg msg.sessionId = none := by
      cases hr : p.reg msg.sessionId with
      | none => rfl
      | some m =>
        obtain ⟨j, hj, -⟩ := hp.fetch _ m hr
        rw [hnone] at hj
        cases hj
    split
    · next q i hq =>
      obtain ⟨hcq, -, hidle, hwhere⟩ := of_allocateSession hp hq
      have hempty : (q.slot i).gpuMmap = none ∧ q.reg msg.sessionId = none := by
        rcases hwhere with ⟨rfl, hi⟩ | ⟨he, hregs⟩
        · exact ⟨hc hnone i hi, hreg⟩
        · refine ⟨he, ?_⟩
          rcases hregs msg.sessionId with h | h
          · rw [h, hreg]
          · exact h
      refine hcq.startIn (.inr ⟨hidle, hempty.1⟩) .tcpRecv ok fun _ m hm => ?_
      rw [hempty.2] at hm
      cases hm
    · exact hp

theorem confined_writeback (hc : Careful less p (.writeback msg ok)) :
    Confined (writebackStart less p msg ok) := by
  unfold writebackStart
  split
  · next q i hq =>
    obtain ⟨hcq, hlt, hidle, -⟩ := of_allocateSession hp hq
    obtain ⟨hmine, hfront⟩ := hc q i hq
    have hmine' : (q.slot i).sessionId = msg.sessionId ∨
        (q.slot i).isIdle = true ∧ (q.slot i).gpuMmap = none := by
      rcases hmine with h | h
      · exact .inr ⟨hidle, h⟩
      · exact .inl h
    refine hcq.startIn hmine' .writebackDma ok fun hok m hm => ?_
    obtain ⟨j, hj, hjm⟩ := hcq.fetch _ m hm
    obtain ⟨j', hj', hwhere⟩ := hfront hok (by rw [hm]; simp)
    rw [hj] at hj'
    cases hj'
    refine ⟨j, ?_, hjm⟩
    rcases hwhere with rfl | ⟨hlt', hrun⟩
    · exact slotOf_started (by decide) hlt (first_of_slotOf hj)
    · apply slotOf_of_runs (hlt'.trans hlt)
      · rw [update_of_ne (Nat.ne_of_lt hlt')]
        exact hrun
      · intro k hk
        rw [update_of_ne (Nat.ne_of_lt (hk.trans hlt'))]
        exact first_of_slotOf hj k hk
  · exact hp

theorem confined_processSession (useV2 : Bool) (ha : (p.slot i).isIdle = false)
    (r : Answer) : Confined (processSession useV2 p i r) := by
  have hset : ∀ {q : Pipe}, Confined q → (q.slot i).isIdle = false → ∀ st,
      st ≠ .idle → Confined (q.setState i st) := fun hq hqa st hst =>
    hq.active hqa (by simpa [Slot.isIdle] using hst) rfl rfl rfl
  have hcall := hp.dmaCall i
  have hca : ((p.dmaCall (p.slot i)).slot i).isIdle = false := by
    unfold Pipe.dmaCall
    split <;> exact ha
  have hchunk : ∀ {q : Pipe}, Confined q → (q.slot i).isIdle = false → ∀ last more,
      last ≠ .idle → more ≠ .idle → Confined (q.chunkDone i last more) := by
    intro q hq hqa last more hl hm
    refine hq.active hqa ?_ rfl rfl rfl
    simp only [Slot.isIdle, beq_eq_false_iff_ne]
    split
    · exact hl
    · exact hm
  unfold processSession
  dsimp only
  split
  · split <;> exact hset hp ha _ (by decide)
  · split
    · split <;> exact hset hp ha _ (by decide)
    · exact hset hp ha _ (by decide)
    · split
      · exact hp
      · exact hset hp ha _ (by decide)
  · split
    · exact hset hp ha _ (by decide)
    · exact hp
  · split
    · exact hchunk hcall hca _ _ (by decide) (by decide)
    · exact hset hcall hca _ (by decide)
  · split
    · exact hset hp ha _ (by decide)
    · split <;> exact hset hcall hca _ (by decide)
  · split <;> exact hset hp ha _ (by decide)
  · split
    · exact hchunk hp ha _ _ (by decide) (by decide)
    · exact hset hp ha _ (by decide)
  · exact hp.sessionReset i
  · exact hp.sessionReset i
  · exact hp.sessionReset i
  · exact hp

theorem confined_process (useV2 : Bool) (answers : Nat → Answer) :
    Confined (process useV2 p answers) := by
  unfold process
  generalize range maxSessions = is
  induction is generalizing p with
  | nil => exact hp
  | cons i is ih =>
    rw [foldl_cons]
    apply ih
    split
    · exact hp
    · next h => exact confined_processSession hp useV2 (Bool.not_eq_true _ ▸ h) (answers i)

theorem confined_apply (useV2 : Bool) (a : Act) (hc : Careful less p a) :
    Confined (apply less useV2 p a) := by
  cases a with
  | register s r => exact confined_register hp hc
  | fetch msg ok => exact confined_fetch hp hc
  | writeback msg ok => exact confined_writeback hp hc
  | process answers => exact confined_process hp useV2 answers

end

end

/-- **KV data goes only to its own session's GPU memory, in every run of careful calls**, and once
no slot holds a mapping all imported ones were destroyed exactly once -/
theorem kv_stays_with_session (less : Slot → Slot → Bool) (useV2 : Bool) (as : List Act)
    (h : ∀ pre a post, as = pre ++ a :: post → Careful less (run less useV2 pre) a) :
    Confined (run less useV2 as) ∧
    (∀ msg m, (run less useV2 as).reg msg.sessionId = some m →
      ∃ i, let x := (fetchStart less (run less useV2 as) msg true).slot i
        x.state = .tcpRecv ∧ x.sessionId = msg.sessionId ∧ x.gpuMmap = some m) ∧
    ((∀ i, ((run less useV2 as).slot i).gpuMmap = none) →
      ∀ s m, Event.imported s m ∈ (run less useV2 as).trace →
        (run less useV2 as).trace.count (.destroyed m) = 1) := by
  have hc : Confined (run less useV2 as) :=
    Run.prefix_inv (apply less useV2) init Confined (Careful less) confined_init
      (fun p a hp => confined_apply hp useV2 a) h as [] (append_nil as).symm
  refine ⟨hc, fun msg m hreg => ?_, fun hnone s m himp => ?_⟩
  · obtain ⟨i, hi, him⟩ := hc.fetch _ m hreg
    refine ⟨i, ?_⟩
    simp only [fetchStart, hi, startIn, Pipe.setSlot, if_true, update_self]
    exact ⟨trivial, trivial, him⟩
  · rcases hc.once s m himp with ⟨i, hi⟩ | hcount
    · rw [hnone i] at hi
      cases hi
    · exact hcount

def twoFetches : List Act :=
  [.register 1 .ok, .fetch ⟨1, 0, 1⟩ true, .register 2 .ok, .fetch ⟨2, 0, 1⟩ true] ++
    replicate 4 (.process fun _ => .ok)

/-- two sessions register their memory, fetch into it and end -/
theorem kv_stays_with_session_two : Confined (run (fun _ _ => false) false twoFetches) ∧
    (run (fun _ _ => false) false twoFetches).trace =
      [.imported 1 0, .imported 2 1, .dma 1 0, .dma 2 1, .destroyed 0, .destroyed 1] := by
  refine ⟨(kv_stays_with_session (fun _ _ => false) false _ fun pre a post he => ?_).1, by decide +kernel⟩
  match pre, he with
  | [], he => cases he; exact fun i _ => .inl rfl
  | [_], he => cases he; exact fun hnone => absurd hnone (by decide +kernel)
  | [_, _], he =>
    cases he
    rintro i hi
    obtain rfl : 1 = i := Option.some.inj ((show registerSlot _ 2 = some 1 by decide +kernel).symm.trans hi)
    exact .inl (by decide +kernel)
  | [_, _, _], he => cases he; exact fun hnone => absurd hnone (by decide +kernel)
  | _ :: _ :: _ :: _ :: pre, he =>
    have ha : a ∈ replicate 4 (Act.process fun _ => .ok) := by
      rw [show replicate 4 (Act.process fun _ => .ok) = pre ++ a :: post from congrArg (drop 4) he]
      simp
    rw [eq_of_mem_replicate ha]
    trivial

/-- session 1 registers its memory, session 2 fetches without one and into it; and a second
registration takes the slot of the first, whose mapping is never destroyed -/
theorem kv_goes_elsewhere : (run (fun _ _ => false) false
      [.register 1 .ok, .fetch ⟨2, 0, 1⟩ true, .process fun _ => .ok, .process fun _ => .ok,
        .process fun _ => .ok]).trace = [.imported 1 0, .dma 2 0] ∧
    (run (fun _ _ => false) false [.register 1 .ok, .register 2 .ok]).trace =
      [.imported 1 0, .imported 2 1] ∧
    ∀ i < maxSessions, ((run (fun _ _ => false) false [.register 1 .ok, .register 2 .ok]).slot
      i).gpuMmap ≠ some 0 := by
  decide +kernel

end KvPipe
