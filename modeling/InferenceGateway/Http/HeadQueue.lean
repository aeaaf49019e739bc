import InferenceGateway.Lib.Run

/-!
# Which answers have no body

`cresp_head` packs the methods of the outstanding requests into one word: a bit for each of up to
eight, and their number.  The client's worker pushes (`cresp_head_push`), the backend's pops
(`cresp_head_pop`), each in a loop around a compare-exchange.

* `pushed_packed`, `popped_packed`  the word as a list of methods;
* `head_answers`                    an answer is read without a body only where a HEAD was asked, as
                                    long as no hint is queued behind one that was lost.
-/

open List Run Nat

namespace HeadQueue

/-- the word `cresp_head_push` writes; none where the queue is full -/
def pushed (isHead : Bool) (cur : Nat) : Option Nat :=
  let q := cur &&& 0xFF
  let n := cur >>> 8
  if 8 ≤ n then none else some ((if isHead then q ||| 1 <<< n else q) ||| (n + 1) <<< 8)

/-- what `cresp_head_pop` returns and the word it writes; none where the queue is empty -/
def popped (cur : Nat) : Option (Bool × Nat) :=
  let q := cur &&& 0xFF
  let n := cur >>> 8
  if n = 0 then none else some (q &&& 1 == 1, q >>> 1 ||| (n - 1) <<< 8)

/-- a connection; a worker in its loop has the word it read last -/
structure State where
  word : Nat
  pushing : Option (Bool × Nat)
  popping : Option Nat
  /-- whether each request that was framed and not answered is a HEAD, in order -/
  unanswered : List Bool
  /-- for each answer, whether it is one to a HEAD and what it took -/
  answers : List (Bool × Bool)

def State.init : State := ⟨0, none, none, [], []⟩

/-- `ok` is false where a weak exchange fails for no reason -/
inductive Act
  | frame (isHead : Bool)
  | push (ok : Bool)
  | answer
  | pop (ok : Bool)

def State.step (s : State) : Act → Option State
  | .frame isHead =>
    if s.pushing = none then some { s with pushing := some (isHead, s.word) } else none
  | .push ok => s.pushing.map fun (isHead, cur) =>
    let framed := { s with pushing := none, unanswered := s.unanswered ++ [isHead] }
    match pushed isHead cur with
    | none => framed
    | some nxt =>
      if ok && s.word == cur then { framed with word := nxt }
      else { s with pushing := some (isHead, s.word) }
  | .answer =>
    if s.popping = none ∧ s.unanswered ≠ [] then some { s with popping := some s.word } else none
  | .pop ok =>
    match s.popping, s.unanswered with
    | some cur, head :: rest =>
      let took v := { s with popping := none, unanswered := rest, answers := s.answers ++ [(head, v)] }
      match popped cur with
      | none => some (took false)
      | some (wasHead, nxt) =>
        if ok && s.word == cur then some { took wasHead with word := nxt }
        else some { s with popping := some s.word }
    | _, _ => none

/-- a hint that is queued is not behind a request whose hint was lost -/
def inOrder (s : State) : Act → Bool
  | .push ok => s.pushing.all fun (isHead, cur) =>
    (pushed isHead cur).isNone || !(ok && s.word == cur) || s.unanswered.length == cur >>> 8
  | _ => true

/-! ## the word as a list -/

def bits (l : List Bool) : Nat := l.foldr (fun b q => b.toNat + 2 * q) 0
def packed (l : List Bool) : Nat := 256 * l.length + bits l

variable {l : List Bool} {b : Bool}

theorem bits_lt (l : List Bool) : bits l < 2 ^ l.length := by
  induction l with
  | nil => decide
  | cons b l ih =>
    show b.toNat + 2 * bits l < 2 ^ (l.length + 1)
    have := b.toNat_le
    omega

theorem bits_concat (l : List Bool) (b : Bool) :
    bits (l ++ [b]) = 2 ^ l.length * b.toNat + bits l := by
  induction l with
  | nil => simp [bits]
  | cons c l ih =>
    show c.toNat + 2 * bits (l ++ [b]) = 2 ^ (l.length + 1) * b.toNat + (c.toNat + 2 * bits l)
    rw [ih, pow_succ, mul_right_comm]
    omega

theorem bits_small (h : l.length ≤ 8) : bits l < 2 ^ 8 :=
  (bits_lt l).trans_le (Nat.pow_le_pow_right Nat.two_pos h)

theorem packed_parts (h : l.length ≤ 8) : packed l &&& 0xFF = bits l ∧ packed l >>> 8 = l.length := by
  have hb := bits_small h
  rw [and_two_pow_sub_one_eq_mod _ 8, shiftRight_eq_div_pow]
  unfold packed
  omega

theorem packed_eq (h : l.length ≤ 8) : bits l ||| l.length <<< 8 = packed l := by
  rw [Nat.or_comm, Nat.shiftLeft_eq, mul_comm, ← Nat.two_pow_add_eq_or_of_lt (bits_small h)]
  rfl

theorem pushed_packed (h : l.length ≤ 8) :
    pushed b (packed l) = if 8 ≤ l.length then none else some (packed (l ++ [b])) := by
  unfold pushed
  rw [(packed_parts h).1, (packed_parts h).2]
  refine ite_congr rfl (fun _ => rfl) fun hn => ?_
  have hlen : (l ++ [b]).length = l.length + 1 := length_append
  rw [← packed_eq (by omega), bits_concat, hlen, Nat.two_pow_add_eq_or_of_lt (bits_lt l)]
  cases b <;> simp [Nat.shiftLeft_eq, Nat.or_comm]

theorem popped_packed (h : (b :: l).length ≤ 8) : popped (packed (b :: l)) = some (b, packed l) := by
  have hl : l.length ≤ 8 := (le_succ _).trans h
  have hb : bits (b :: l) = b.toNat + 2 * bits l := rfl
  have hhalf : (b.toNat + 2 * bits l) / 2 ^ 1 = bits l := by
    have := b.toNat_le
    omega
  unfold popped
  rw [(packed_parts h).1, (packed_parts h).2]
  rw [length_cons, if_neg (Nat.succ_ne_zero _), Nat.add_sub_cancel, Nat.and_one_is_mod,
    shiftRight_eq_div_pow, hb, hhalf, packed_eq hl]
  cases b <;> simp

/-! ## the answers -/

/-- the hints in the word are those of the first requests, and no other has one -/
structure Aligned (s : State) (l lost : List Bool) : Prop where
  split : s.unanswered = l ++ lost
  room : l.length ≤ 8
  word : s.word = packed l
  /-- a pop that found the queue empty still does -/
  empty : ∀ cur, s.popping = some cur → popped cur = none → l = [] ∧ s.unanswered ≠ []
  answers : ∀ x ∈ s.answers, x.2 = true → x.1 = true

variable {s s' : State} {lost : List Bool} {a : Act}

section
variable (h : Aligned s l lost)
include h

theorem Aligned.pushes {isHead ok : Bool} {cur nxt : Nat} (hs : s.pushing = some (isHead, cur))
    (hp : pushed isHead cur = some nxt) (hok : inOrder s (.push ok) = true)
    (hc : (ok && s.word == cur) = true) :
    nxt = packed (l ++ [isHead]) ∧ l.length < 8 ∧ lost = [] := by
  rw [Bool.and_eq_true, beq_iff_eq] at hc
  obtain ⟨rfl, rfl⟩ := hc
  have hlen : s.unanswered.length = s.word >>> 8 := by simpa [inOrder, hs, hp] using hok
  rw [h.word, pushed_packed h.room] at hp
  rw [h.split, h.word, length_append, (packed_parts h.room).2] at hlen
  split at hp
  · cases hp
  · exact ⟨(Option.some.inj hp).symm, by omega, length_eq_zero_iff.mp (by omega)⟩

theorem Aligned.loads (hne : s.unanswered ≠ []) :
    Aligned { s with popping := some s.word } l lost := by
  refine { h with empty := ?_ }
  rintro cur ⟨⟩ he
  rw [h.word] at he
  cases l with
  | nil => exact ⟨rfl, hne⟩
  | cons b l => cases (popped_packed h.room).symm.trans he

theorem Aligned.pops {wasHead : Bool} {nxt : Nat} (hp : popped s.word = some (wasHead, nxt)) :
    ∃ l', l = wasHead :: l' ∧ nxt = packed l' := by
  rw [h.word] at hp
  cases l with
  | nil => cases hp
  | cons b l =>
    cases (popped_packed h.room).symm.trans hp
    exact ⟨l, rfl, rfl⟩

theorem Aligned.step (hok : inOrder s a = true) (hs : s.step a = some s') :
    ∃ l lost, Aligned s' l lost := by
  cases a with
  | frame isHead =>
    simp only [State.step] at hs
    split at hs <;> cases hs
    exact ⟨l, lost, { h with }⟩
  | answer =>
    simp only [State.step] at hs
    split at hs <;> cases hs
    exact ⟨l, lost, h.loads (And.right ‹_›)⟩
  | push ok =>
    obtain ⟨⟨isHead, cur⟩, hp, rfl⟩ := Option.map_eq_some_iff.mp hs
    dsimp only
    have hadd : s.unanswered ++ [isHead] = l ++ (lost ++ [isHead]) := by rw [h.split, append_assoc]
    split
    case h_1 => exact ⟨l, lost ++ [isHead], { h with
      split := hadd, empty := fun c hc he => ⟨(h.empty c hc he).1, by simp⟩ }⟩
    case h_2 nxt hn =>
      split
      case isFalse => exact ⟨l, lost, { h with }⟩
      case isTrue hc =>
        obtain ⟨hw, hlt, rfl⟩ := h.pushes hp hn hok hc
        have hroom : (l ++ [isHead]).length ≤ 8 := by rwa [length_append]
        refine ⟨l ++ [isHead], [], ⟨by rw [h.split]; simp, hroom, hw, ?_, h.answers⟩⟩
        -- a pop that found nothing has a lost hint before it
        intro c hcur he
        obtain ⟨rfl, hne⟩ := h.empty c hcur he
        exact absurd h.split hne
  | pop ok =>
    simp only [State.step] at hs
    split at hs
    case h_2 => cases hs
    case h_1 cur head rest hcur hun =>
      have hall : ∀ v, (v = true → head = true) →
          ∀ x ∈ s.answers ++ [(head, v)], x.2 = true → x.1 = true := by
        intro v hv x hx
        rcases mem_append.mp hx with hx | hx
        · exact h.answers x hx
        · obtain rfl := mem_singleton.mp hx
          exact hv
      split at hs
      case h_1 he =>
        cases hs
        obtain ⟨rfl, -⟩ := h.empty cur hcur he
        exact ⟨[], rest, ⟨rfl, h.room, h.word, nofun, hall false nofun⟩⟩
      case h_2 wasHead nxt he =>
        split at hs <;> cases hs
        · obtain rfl : s.word = cur := by simp_all
          obtain ⟨l', rfl, rfl⟩ := h.pops he
          obtain ⟨rfl, rfl⟩ := cons.inj (hun.symm.trans h.split)
          exact ⟨l', lost, ⟨rfl, (le_succ _).trans h.room, rfl, nofun, hall head id⟩⟩
        · exact ⟨l, lost, h.loads (hun ▸ cons_ne_nil _ _)⟩

end

/-- **An answer is read as one without a body only where it answers a HEAD**, if no hint is queued
behind a request whose hint was lost. -/
theorem head_answers {as : List Act} (ha : along State.step inOrder .init as = true)
    (h : exec State.step .init as = some s) : ∀ x ∈ s.answers, x.2 = true → x.1 = true := by
  have hinit : Aligned .init [] [] := ⟨rfl, zero_le _, rfl, nofun, nofun⟩
  obtain ⟨l, lost, hl⟩ := inv_of_step (P := fun s => ∃ l lost, Aligned s l lost)
    (fun _ _ _ ⟨_, _, h⟩ => h.step) ⟨[], [], hinit⟩ ha h
  exact hl.answers

/-- requests framed one after the other -/
def framed (methods : List Bool) : List Act := methods.flatMap fun m => [.frame m, .push true]

/-- and as many answers -/
def answered (n : Nat) : List Act := (replicate n [.answer, .pop true]).flatten

/-- a GET and a HEAD are answered in order -/
theorem head_answers_two : ∃ s, exec State.step .init (framed [false, true] ++ answered 2) = some s ∧
    s.answers = [(false, false), (true, true)] ∧ ∀ x ∈ s.answers, x.2 = true → x.1 = true :=
  have ha : along State.step inOrder .init (framed [false, true] ++ answered 2) = true := by decide
  ⟨_, rfl, by decide, head_answers ha rfl⟩

/-- the hint of the ninth GET is lost, and its answer takes the bit of a HEAD that follows after
one answer -/
theorem get_answered_as_head : ∃ s, exec State.step .init (framed (replicate 9 false) ++ answered 1 ++
    framed [true] ++ answered 8) = some s ∧ (false, true) ∈ s.answers :=
  ⟨_, rfl, by decide⟩

end HeadQueue
