import InferenceGateway.Lib.Run

/-!
# The listener's connection ceiling

`fe_limit_take` counts itself before it decides and undoes the count afterwards, so between the two
steps the gauge holds a unit that belongs to no leg.  The steps of any number of accepts and
teardowns interleave; each is one atomic operation on the gauge with what follows from its answer.
-/

namespace Fe

/-- `fe_conns` and `fe_conn_refused`; how many legs are accepted, how many of them have read the gauge
for their release, and how many takes counted themselves at the ceiling and have not undone it -/
structure Gauge where
  (conns refused held leaving above : Nat)

/-- the two steps of a take and the two of a release -/
inductive FeOp
  | take | undo | look | drop

/-- the atomic operations on counters of `w` bits -/
def fetchAdd (w n : Nat) : Nat := (n + 1) % 2 ^ w
def fetchSub (w n : Nat) : Nat := (n + (2 ^ w - 1)) % 2 ^ w
theorem fetchAdd_eq {w n : Nat} (h : n + 1 < 2 ^ w) : fetchAdd w n = n + 1 := Nat.mod_eq_of_lt h

theorem fetchSub_eq {w n : Nat} (h : n < 2 ^ w) (h0 : 0 < n) : fetchSub w n = n - 1 := by
  unfold fetchSub
  rw [show n + (2 ^ w - 1) = n - 1 + 2 ^ w by omega, Nat.add_mod_right, Nat.mod_eq_of_lt (by omega)]

def Gauge.step (limit : Nat) (s : Gauge) : FeOp → Gauge
  | .take =>
    let t := { s with conns := fetchAdd 32 s.conns }
    if limit = 0 ∨ s.conns < limit then { t with held := s.held + 1 }
    else { t with above := s.above + 1 }
  | .undo =>
    if 0 < s.above then
      { s with
        conns := fetchSub 32 s.conns, refused := fetchAdd 64 s.refused, above := s.above - 1 }
    else s
  | .look =>
    -- a leg is released once
    if 0 < s.held then
      let t := { s with held := s.held - 1 }
      if 0 < s.conns then { t with leaving := s.leaving + 1 } else t
    else s
  | .drop =>
    if 0 < s.leaving then { s with conns := fetchSub 32 s.conns, leaving := s.leaving - 1 } else s

def Gauge.start : Gauge := ⟨0, 0, 0, 0, 0⟩

/-- the accepted legs that are not released -/
def Gauge.legs (s : Gauge) : Nat := s.held + s.leaving

/-- a take finds room to count itself -/
def roomy (s : Gauge) : FeOp → Bool
  | .take => s.legs + s.above + 1 < 2 ^ 32
  | _ => true

/-- the ceiling holds, and the gauge is exact: it has not wrapped -/
structure Exact (limit : Nat) (s : Gauge) : Prop where
  ceiling : s.held + s.leaving ≤ limit
  gauge : s.conns = s.held + s.leaving + s.above
  room : s.conns < 2 ^ 32

theorem Exact.step {limit : Nat} (hl : 0 < limit) {s : Gauge} (h : Exact limit s) (o : FeOp)
    (hr : roomy s o = true) : Exact limit (s.step limit o) := by
  obtain ⟨hc, hg, hw⟩ := h
  unfold Gauge.step
  cases o with
  | take =>
    have hroom : s.held + s.leaving + s.above + 1 < 2 ^ 32 := of_decide_eq_true hr
    have hadd := fetchAdd_eq (hg ▸ hroom)
    dsimp only
    split
    · constructor <;> dsimp only <;> omega
    · constructor <;> dsimp only <;> omega
  | undo | drop =>
    dsimp only
    split
    · have hsub := fetchSub_eq hw (by omega)
      constructor <;> dsimp only <;> omega
    · exact ⟨hc, hg, hw⟩
  | look =>
    dsimp only
    split
    · rw [if_pos (by omega)]
      constructor <;> dsimp only <;> omega
    · exact ⟨hc, hg, hw⟩

/-- **the ceiling holds and the gauge is exact throughout every run** whose takes find room in the
counter; a take that no other one overlaps is refused only where the limit of legs is held -/
theorem ceiling_exact (limit : Nat) (hl : 0 < limit) (os : List FeOp)
    (hr : ∀ pre o post, os = pre ++ o :: post → roomy (pre.foldl (Gauge.step limit) .start) o = true)
    (pre post : List FeOp) (he : os = pre ++ post) :
    let s := pre.foldl (Gauge.step limit) .start
    s.legs ≤ limit ∧ s.conns = s.legs + s.above ∧ s.conns < 2 ^ 32 ∧ (s.above = 0 → s.conns = s.legs) ∧
      (s.above = 0 → (s.step limit .take).above ≠ 0 → s.legs = limit) := by
  have h := Run.prefix_inv (Gauge.step limit) .start (Exact limit) (fun s o => roomy s o = true)
    ⟨Nat.zero_le _, rfl, Nat.two_pow_pos 32⟩ (fun _ o h ho => h.step hl o ho) hr pre post he
  intro s
  obtain ⟨hc, hg, hw⟩ : Exact limit s := h
  unfold Gauge.legs
  refine ⟨hc, hg, hw, fun h0 => by omega, fun h0 href => ?_⟩
  by_contra hne
  rw [Gauge.step, if_pos (by omega)] at href
  exact href h0

/-- a leg, a second client, which is refused, the leg's release, and a third client -/
def overlapped : List FeOp := [.take, .take, .look, .drop, .take, .undo, .undo]

theorem overlapped_exact :
    let s := (overlapped.take 4).foldl (Gauge.step 1) .start
    s.legs ≤ 1 ∧ s.conns = s.legs + s.above ∧ s.conns < 2 ^ 32 ∧ (s.above = 0 → s.conns = s.legs) ∧
      (s.above = 0 → (s.step 1 .take).above ≠ 0 → s.legs = 1) :=
  ceiling_exact 1 Nat.one_pos overlapped (Run.of_throughout
      (show Run.throughout (Gauge.step 1) roomy .start overlapped = true by decide +kernel))
    (overlapped.take 4) (overlapped.drop 4) rfl

/-- the third client is refused, and no leg was held from before its call to after it -/
theorem refused_below_limit : [4, 5, 6, 7].map (fun k =>
      let s := (overlapped.take k).foldl (Gauge.step 1) .start
      (s.above, s.legs)) = [(1, 0), (2, 0), (1, 0), (0, 0)] := by
  decide +kernel

end Fe
