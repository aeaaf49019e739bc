import Mathlib.Data.Nat.Bitwise

/-!
# The pool a prefill selection looks at

What `pd_select_prefill_impl` reads of a pool besides the loads, with the endpoint test that all
its loops share and the bodies of the loops of its admission part.  An endpoint mask is a number
whose bit `i` stands for endpoint `i`.

* `takesNew`       the test of the loops: a prefill endpoint that may get new work;
* `capScanStep`    the body of the in-flight cap loop;
* `roomy`          the fresh capacity read under the FIFO lock;
* `shortestFifo`   the endpoint a request is parked on.
-/

open List

namespace Pd

/-! ## masks -/

abbrev Mask := Nat
def bit (i : Nat) : Mask := 1 <<< i

/-! ## endpoints -/

/-- the state word the controller set for an endpoint -/
inductive CtrlState where
  | active | draining | disabled
  deriving DecidableEq, Repr

/-- a pool, as the selection reads it -/
structure Pool where
  nEps : Nat
  /-- `ep_role`: 1 is prefill, 2 is decode -/
  epRole : Nat → Nat
  inv : Nat → Bool
  cbEnabled : Bool
  /-- `circuit_breakers[i].state == CB_STATE_OPEN` -/
  cbOpen : Nat → Bool
  /-- `pd_ctrl_mode`, 0 when there is no controller -/
  ctrlMode : Nat
  ctrlEp : Nat → CtrlState
  /-- `MAX_PROXY_EP` -/
  nEps_le : nEps ≤ 32

def pdCtrlDraining (p : Pool) (i : Nat) : Bool := p.ctrlMode != 0 && p.ctrlEp i == .draining

/-- the bits of the endpoints in one controller state, none without a controller -/
def ctrlBits (p : Pool) (st : CtrlState) : Mask :=
  if p.ctrlMode = 0 then 0
  else (range p.nEps).foldl (fun m i => if p.ctrlEp i = st then m ||| bit i else m) 0

/-- `excluded_mask` after the controller's word was folded in -/
def withCtrl (p : Pool) (excl : Mask) : Mask := excl ||| ctrlBits p .disabled

/-- an open breaker of a pool that uses breakers -/
def tripped (p : Pool) (i : Nat) : Bool := p.cbEnabled && p.cbOpen i

/-- the endpoint may get new work: the test all loops over the endpoints begin with -/
def takesNew (p : Pool) (excl : Mask) (i : Nat) : Bool :=
  p.epRole i == 1 && !p.inv i && !excl.testBit i && !tripped p i && !pdCtrlDraining p i

/-! ## the admission part -/

structure CapScan where
  (healthyElig underCap : Nat)
  capExcl : Mask
  deriving DecidableEq, Repr

/-- the body of the in-flight cap loop, with the load it reads -/
def capScanStep (p : Pool) (cap : Nat) (excl rejected : Mask) (load i : Nat) (a : CapScan) :
    CapScan :=
  if takesNew p excl i then
    if rejected.testBit i || decide (cap ≤ load) then
      { a with healthyElig := a.healthyElig + 1, capExcl := a.capExcl ||| bit i }
    else { a with healthyElig := a.healthyElig + 1, underCap := a.underCap + 1 }
  else a

/-- `available` of the read under the FIFO lock -/
def roomy (p : Pool) (cap : Nat) (excl : Mask) (load : Nat → Nat) : Bool :=
  (range p.nEps).any fun i => takesNew p excl i && decide (load i < cap)

/-- `park_ep`: the first of the shortest FIFOs that are under the bound -/
def shortestFifo (p : Pool) (depth : Nat) (excl : Mask) (count : Nat → Nat) : Option Nat :=
  ((range p.nEps).foldl
    (fun best i => if takesNew p excl i && decide (count i < best.1) then (count i, some i) else best)
    (depth, none)).2

theorem roomy_eq_false {p : Pool} {cap : Nat} {excl : Mask} {load : Nat → Nat} :
    roomy p cap excl load = false ↔ ∀ i < p.nEps, takesNew p excl i = true → cap ≤ load i := by
  simp only [roomy, any_eq_false, mem_range, Bool.and_eq_true, decide_eq_true_eq, not_and, not_lt]

theorem of_shortestFifo {p : Pool} {depth : Nat} {excl : Mask} {count : Nat → Nat} {e : Nat}
    (h : shortestFifo p depth excl count = some e) :
    e < p.nEps ∧ takesNew p excl e = true := by
  have hall : ∀ (is : List Nat) (best : Nat × Option Nat), (is.foldl (fun best i =>
        if takesNew p excl i && decide (count i < best.1) then (count i, some i) else best)
        best).2 = some e →
      best.2 = some e ∨ e ∈ is ∧ takesNew p excl e = true := by
    intro is
    induction is with
    | nil =>
      intro best h
      exact .inl h
    | cons i is ih =>
      intro best h
      rw [foldl_cons] at h
      split at h
      · next hi =>
        rw [Bool.and_eq_true] at hi
        rcases ih (count i, some i) h with he | ⟨hm, ht⟩
        · cases he
          exact .inr ⟨mem_cons_self, hi.1⟩
        · exact .inr ⟨mem_cons_of_mem _ hm, ht⟩
      · rcases ih best h with he | ⟨hm, ht⟩
        · exact .inl he
        · exact .inr ⟨mem_cons_of_mem _ hm, ht⟩
  rcases hall _ (depth, none) h with he | ⟨hm, ht⟩
  · cases he
  · exact ⟨mem_range.mp hm, ht⟩

end Pd
