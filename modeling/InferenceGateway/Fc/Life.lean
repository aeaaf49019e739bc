import InferenceGateway.Fc.System

/-!
# The life of a wait

What the queue owes one connection.  Its waits come one after another.  Each begins in the ring; it
may be popped for a wake and put back, it may be evicted, and it ends once, by a decision its place
allows.

* `Life.Next`       one move;
* `Life.Next.ok`    every wait that is over has one decision, an eviction exactly if it was evicted.
-/

open Function

namespace Fc

/-- where the current wait of a connection is: in no wait, in the ring, in the hands of a wake,
popped for good, on the evicted list, or evicted with the owner holding the answer -/
inductive Place
  | out | ring | waking | popped | listed | claimed
  deriving DecidableEq, Repr

/-- the decisions that may end a wait at its place -/
def Place.ends : Place → Decision → Bool
  | .ring, .ended | .ring, .cancelled | .waking, .turn | .waking, .cancelled | .popped, .turn
  | .popped, .cancelled | .listed, .evictedPass | .claimed, .evictedOwner
  | .claimed, .evictedDropped => true
  | _, _ => false

def Place.shed : Place → Bool
  | .listed => true
  | .claimed => true
  | _ => false

/-- the moves between the places of one wait, beside its eviction -/
def Place.goes : Place → Place → Bool
  | .ring, .waking | .waking, .ring | .waking, .popped | .listed, .claimed => true
  | _, _ => false

/-- the waits of a connection: where the current one is and its number, which were evicted, and how
each ended -/
structure Life where
  place : Place
  no : Nat
  shed : Nat → Bool
  decided : Nat → List Decision

inductive Life.Next (l : Life) : Life → Prop
  | stay : Next l l
  | park (hp : l.place = .out) : Next l { l with place := .ring, no := l.no + 1 }
  | go {pl : Place} (hp : l.place.goes pl = true) : Next l { l with place := pl }
  | evict (hp : l.place = .ring) :
      Next l { l with place := .listed, shed := fun n => l.shed n || decide (n = l.no) }
  | conclude {d : Decision} (hp : l.place.ends d = true) : Next l { l with
        place := .out
        decided := update l.decided l.no (d :: l.decided l.no) }

/-- a wait to come has no history, the current one no decision yet, and each one before it has
exactly one -/
structure Life.Ok (l : Life) : Prop where
  ahead : ∀ n, l.no < n → l.shed n = false ∧ l.decided n = []
  current : l.place ≠ .out → l.decided l.no = [] ∧ l.shed l.no = l.place.shed
  past : ∀ n, 0 < n → n ≤ l.no → (n = l.no → l.place = .out) →
    ∃ d, l.decided n = [d] ∧ d.isEviction = l.shed n ∧ d ≠ .drained

theorem Place.ends_spec {pl : Place} {d : Decision} (h : pl.ends d = true) :
    pl ≠ .out ∧ d.isEviction = pl.shed ∧ d ≠ .drained := by
  revert h
  cases pl <;> cases d <;> decide

theorem Place.goes_spec {pl pl' : Place} (h : pl.goes pl' = true) :
    pl ≠ .out ∧ pl' ≠ .out ∧ pl'.shed = pl.shed := by
  revert h
  cases pl <;> cases pl' <;> decide

/-- **every move keeps the history of the waits right** -/
theorem Life.Next.ok {l l' : Life} (hn : l.Next l') (h : l.Ok) : l'.Ok := by
  cases hn with
  | stay => exact h
  | park hp =>
    refine ⟨fun n hlt => h.ahead n (Nat.lt_of_succ_lt hlt), fun _ => ?_, fun n h0 hle hc => ?_⟩
    · obtain ⟨h1, h2⟩ := h.ahead (l.no + 1) (Nat.lt_succ_self _)
      exact ⟨h2, h1⟩
    · have hne : n ≠ l.no + 1 := fun he => Place.noConfusion (hc he)
      exact h.past n h0 (Nat.le_of_lt_succ (Nat.lt_of_le_of_ne hle hne)) fun _ => hp
  | go hp =>
    obtain ⟨hout, hout', hshed⟩ := Place.goes_spec hp
    refine ⟨h.ahead, fun _ => ?_, fun n h0 hle hc => ?_⟩
    · rw [hshed]
      exact h.current hout
    · exact h.past n h0 hle fun he => absurd (hc he) hout'
  | evict hp =>
    have hout : l.place ≠ .out := by
      rw [hp]
      exact nofun
    refine ⟨fun n hlt => ?_, fun _ => ⟨(h.current hout).1, ?_⟩, fun n h0 hle hc => ?_⟩
    · obtain ⟨h1, h2⟩ := h.ahead n hlt
      have hne : n ≠ l.no := (Nat.ne_of_lt hlt).symm
      simp [h1, h2, hne]
    · simp [Place.shed]
    · have hne : n ≠ l.no := fun he => Place.noConfusion (hc he)
      obtain ⟨d, h1, h2, h3⟩ := h.past n h0 hle fun he => absurd he hne
      exact ⟨d, h1, by simp [h2, hne], h3⟩
  | @conclude d hp =>
    obtain ⟨hout, hshed, hd⟩ := Place.ends_spec hp
    obtain ⟨hnone, hcur⟩ := h.current hout
    have hother : ∀ n, n ≠ l.no → update l.decided l.no (d :: l.decided l.no) n = l.decided n :=
      fun n hne => update_of_ne hne _ _
    refine ⟨fun n hlt => ?_, fun hc => absurd rfl hc, fun n h0 hle _ => ?_⟩
    · obtain ⟨h1, h2⟩ := h.ahead n hlt
      exact ⟨h1, (hother n (Nat.ne_of_gt hlt)).trans h2⟩
    · by_cases he : n = l.no
      · subst he
        refine ⟨d, ?_, hshed.trans hcur.symm, hd⟩
        exact (update_self _ _ _).trans (by rw [hnone])
      · obtain ⟨d', h1, h2⟩ := h.past n h0 hle fun hc => absurd hc he
        exact ⟨d', (hother n he).trans h1, h2⟩

end Fc
