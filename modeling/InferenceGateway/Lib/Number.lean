import Mathlib.Data.Nat.Digits.Defs
import InferenceGateway.Lib.Text

/-!
# Finding a text and rewriting a number

`memmem` finds the first place where a pattern stands.  A number in a text is a run of digits between
two characters that are none, and replacing it keeps the run where it is:

* `memmem_some`       the pattern stands where it was found;
* `memmem_append`     no occurrence starts in a part that can be passed over;
* `digits_unique`     a run of digits is read off the text;
* `rewrite_unique`    two rewritings of one text agree only at the same place, or if both leave the
                      text as it was;
* `value_decimal`     a printed number has its value.
-/

open List UInt8 Nat

namespace Text

/-! ## searching -/

section
variable {α : Type} [BEq α] [LawfulBEq α]

/-- the first offset at which the pattern stands, `memmem` -/
def memmem (pat : List α) : List α → Option Nat
  | [] => if pat.isEmpty then some 0 else none
  | c :: cs => if pat.isPrefixOf (c :: cs) then some 0 else (memmem pat cs).map (· + 1)

theorem memmem_some {pat b : List α} {p : Nat} (h : memmem pat b = some p) : At b p pat := by
  induction b generalizing p with
  | nil =>
    unfold memmem at h
    split at h
    case isTrue he =>
      cases h
      rw [List.isEmpty_iff.mp he]
      exact nil_prefix
    case isFalse => cases h
  | cons c cs ih =>
    unfold memmem at h
    split at h
    case isTrue hp =>
      cases h
      exact isPrefixOf_iff_prefix.mp hp
    case isFalse =>
      obtain ⟨q, hq, rfl⟩ := Option.map_eq_some_iff.mp h
      exact ih hq

/-- what no occurrence starts in is passed over -/
theorem memmem_append {pat a b : List α} (h : ∀ x y, a = x ++ y → y ≠ [] → ¬ pat <+: y ++ b) :
    memmem pat (a ++ b) = (memmem pat b).map (· + a.length) := by
  induction a with
  | nil =>
    simp
  | cons c a ih =>
    have hc : ¬ pat.isPrefixOf (c :: (a ++ b)) = true := by
      intro hp
      exact h [] (c :: a) rfl (cons_ne_nil c a) ( isPrefixOf_iff_prefix.mp hp)
    have hrest := ih fun x y hxy hy => h (c :: x) y (by rw [hxy, cons_append]) hy
    rw [cons_append, memmem, if_neg hc, hrest, Option.map_map]
    apply congrArg (fun f => Option.map f (memmem pat b))
    funext n
    simp only [Function.comp_apply, length_cons]
    omega

theorem memmem_here {pat b : List α} (hb : b ≠ []) (h : pat <+: b) : memmem pat b = some 0 := by
  cases b with
  | nil => exact absurd rfl hb
  | cons c cs => rw [memmem, if_pos ( isPrefixOf_iff_prefix.mpr h)]

end

/-! ## runs of digits -/

def isDigit (b : UInt8) : Bool := 0x30 ≤ b && b ≤ 0x39
def Digits (d : List UInt8) : Prop := ∀ b ∈ d, isDigit b = true

instance (d : List UInt8) : Decidable (Digits d) := inferInstanceAs (Decidable (∀ b ∈ d, _))

theorem digits_nil : Digits [] := fun _ hb => absurd hb not_mem_nil
def StartsOff (t : List UInt8) : Prop := ∃ c r, t = c :: r ∧ isDigit c = false
def EndsOff (t : List UInt8) : Prop := ∃ r c, t = r ++ [c] ∧ isDigit c = false

variable {t d t' x a old new old' new' : List UInt8}

theorem StartsOff.append (h : StartsOff t) (u : List UInt8) : StartsOff (t ++ u) := by
  obtain ⟨c, r, rfl, hc⟩ := h
  exact ⟨c, r ++ u, rfl, hc⟩

theorem takeWhile_digits (hd : Digits d) (ht : StartsOff t) : (d ++ t).takeWhile isDigit = d := by
  obtain ⟨c, r, rfl, hc⟩ := ht
  rw [takeWhile_append_of_pos hd, takeWhile_cons_of_neg (by simp [hc]), append_nil]

theorem digits_unique {d' : List UInt8} (hd : Digits d) (hd' : Digits d') (ht : StartsOff t)
    (ht' : StartsOff t') (h : d ++ t = d' ++ t') : d = d' ∧ t = t' := by
  have hdd : d = d' := by rw [← takeWhile_digits hd ht, h, takeWhile_digits hd' ht']
  subst hdd
  exact ⟨rfl, append_cancel_left h⟩

/-- what ends with something else than a digit is a run of digits and then something else -/
theorem EndsOff.split (h : EndsOff x) : ∃ d t, x = d ++ t ∧ Digits d ∧ StartsOff t := by
  obtain ⟨r, c, rfl, hc⟩ := h
  induction r with
  | nil => exact ⟨[], [c], rfl, digits_nil, c, [], rfl, hc⟩
  | cons b r ih =>
    cases hb : isDigit b with
    | false => exact ⟨[], b :: (r ++ [c]), rfl, digits_nil, b, _, rfl, hb⟩
    | true =>
      obtain ⟨d, t, hx, hd, ht⟩ := ih
      exact ⟨b :: d, t, by rw [cons_append, hx, cons_append], forall_mem_cons.mpr ⟨hb, hd⟩, ht⟩

theorem EndsOff.of_append (h : EndsOff (a ++ x)) (hx : x ≠ []) : EndsOff x := by
  obtain ⟨r, c, he, hc⟩ := h
  rcases eq_nil_or_concat x with rfl | ⟨y, c', rfl⟩
  · exact absurd rfl hx
  · rw [concat_eq_append, ← append_assoc] at he
    obtain ⟨-, hcc⟩ := append_inj' he rfl
    exact ⟨y, c', concat_eq_append, by rw [List.cons.inj hcc |>.1]; exact hc⟩

theorem rewrite_before (hx : EndsOff x) (ht : StartsOff t) (ho : Digits old) (hn : Digits new)
    (h : old ++ t = x ++ (old' ++ t')) (h' : new ++ t = x ++ (new' ++ t')) :
    new = old ∧ new' ++ t' = old' ++ t' := by
  obtain ⟨d, r, rfl, hd, hr⟩ := hx.split
  rw [append_assoc] at h h'
  obtain ⟨h1, h2⟩ := digits_unique ho hd ht (hr.append _) h
  obtain ⟨h3, h4⟩ := digits_unique hn hd ht (hr.append _) h'
  exact ⟨h3.trans h1.symm, append_cancel_left (h4.symm.trans h2)⟩

/-- **Two rewritings of one text** that give the same text are at the same place, or change
nothing. -/
theorem rewrite_unique {a' : List UInt8} (ha : EndsOff a) (ha' : EndsOff a') (ht : StartsOff t)
    (ht' : StartsOff t') (ho : Digits old) (hn : Digits new) (ho' : Digits old') (hn' : Digits new')
    (h : a ++ (old ++ t) = a' ++ (old' ++ t')) (hnew : a ++ (new ++ t) = a' ++ (new' ++ t')) :
    a = a' ∨ (new = old ∧ new' = old') := by
  rcases append_eq_append_iff.mp h with ⟨x, rfl, hx⟩ | ⟨x, rfl, hx⟩
  · by_cases hnil : x = []
    · exact .inl (by rw [hnil, append_nil])
    · rw [append_assoc] at hnew
      obtain ⟨h1, h2⟩ := rewrite_before (ha'.of_append hnil) ht ho hn hx (append_cancel_left hnew)
      exact .inr ⟨h1, append_cancel_right h2⟩
  · by_cases hnil : x = []
    · exact .inl (by rw [hnil, append_nil])
    · rw [append_assoc] at hnew
      obtain ⟨h1, h2⟩ :=
        rewrite_before (ha.of_append hnil) ht' ho' hn' hx (append_cancel_left hnew).symm
      exact .inr ⟨append_cancel_right h2, h1⟩

/-! ## printed numbers -/

/-- the number a run of digits names -/
def value (d : List UInt8) : Nat := d.foldl (fun v b => v * 10 + (b.toNat - 0x30)) 0

/-- the text of a number, `%zu` -/
def decimal (n : Nat) : List UInt8 :=
  if n = 0 then [0x30] else (Nat.digits 10 n).reverse.map fun d => UInt8.ofNat (0x30 + d)

theorem toNat_digit {d : Nat} (h : d < 10) : (ofNat (0x30 + d)).toNat = 0x30 + d := by
  rw [toNat_ofNat']
  omega

theorem digits_decimal (n : Nat) : Digits (decimal n) := by
  unfold decimal
  split
  · decide +kernel
  · intro b hb
    obtain ⟨d, hd, rfl⟩ := mem_map.mp hb
    have hlt := digits_lt_base (by decide) (mem_reverse.mp hd)
    have hnat := toNat_digit hlt
    unfold isDigit
    rw [Bool.and_eq_true, decide_eq_true_iff, decide_eq_true_iff, le_iff_toNat_le,
      le_iff_toNat_le, hnat]
    exact ⟨le_add_right _ _, show 0x30 + d ≤ 0x39 by omega⟩

theorem decimal_ne_nil (n : Nat) : decimal n ≠ [] := by
  unfold decimal
  split
  · exact cons_ne_nil _ _
  · rename_i h
    simpa using digits_ne_nil_iff_ne_zero.mpr h

theorem value_decimal (n : Nat) : value (decimal n) = n := by
  unfold value decimal
  split
  · rename_i h
    rw [h]
    rfl
  · have hlt : ∀ d ∈ digits 10 n, d < 10 := fun d hd => digits_lt_base (by decide) hd
    -- read the digits from the most significant one: the fold is `ofDigits`
    have hfold : ∀ l, (∀ d ∈ l, d < 10) → (l.reverse.map fun d => ofNat (0x30 + d)).foldl
          (fun v b => v * 10 + (b.toNat - 0x30)) 0 = ofDigits 10 l := by
      intro l hl
      induction l with
      | nil => rfl
      | cons d l ih =>
        rw [reverse_cons, map_append, foldl_append,
          ih fun e he => hl e (mem_cons_of_mem d he), ofDigits_cons]
        show ofDigits 10 l * 10 + ((ofNat (0x30 + d)).toNat - 0x30) = _
        rw [toNat_digit (hl d mem_cons_self)]
        omega
    rw [hfold _ hlt, ofDigits_digits]

end Text
