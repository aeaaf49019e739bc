import InferenceGateway.SpJson.Walk

/-!
# What the gateway reads of a request

`json_stream_flag`, `extract_max_tokens` and `extract_service_tier` against a parser that keeps the
last of repeated keys.  The tier is the parser's (`tier_last`); the other two read the first
occurrence of their key (`streamFlag_first`, `maxTokens_first`), and a count whose whole part passes
the ceiling is cut before its fraction is seen.

* `request_read`   exactly when the three agree with the parser;
* `stream_differs` a body on which they do not.
-/

open List

namespace SpJson

open Json Text

def spanTrue (body : Bytes) (vs ve : Nat) : Bool :=
  decide (ve - vs = 4 ∧ slice body vs (vs + 4) = ascii "true")

/-- a streaming request, `json_stream_flag` -/
def jsonStreamFlag (body : Bytes) : Int :=
  match jsonTopFind body (ascii "stream") with
  | .incomplete => -1
  | .absent _ => 0
  | .found vs ve => if spanTrue body vs ve then 1 else 0

/-- the greatest count a request can declare -/
def tokensMax : Nat := 100000000

def tokenDigits : Nat → Bytes → Nat
  | val, [] => val
  | val, c :: rest =>
    if c < 48 ∨ c > 57 then 0
    else if val * 10 + (c.toNat - 48) > tokensMax then tokensMax
    else tokenDigits (val * 10 + (c.toNat - 48)) rest

/-- the value of the first of two keys that is there -/
def findEither (body key key' : Bytes) : Option (Nat × Nat) :=
  match jsonTopFind body key with
  | .found vs ve => some (vs, ve)
  | _ =>
    match jsonTopFind body key' with
    | .found vs ve => some (vs, ve)
    | _ => none

/-- the completion ceiling a request declares, `extract_max_tokens` -/
def extractMaxTokens (body : Bytes) : Nat :=
  match findEither body (ascii "max_completion_tokens") (ascii "max_tokens") with
  | none => 0
  | some (vs, ve) =>
    match slice body vs ve with
    | [] => 0
    | c :: rest =>
      if c = quote ∨ c = lbrace ∨ c = lbracket then 0
      else if c = 45 then 0
      else tokenDigits 0 (c :: rest)

inductive Tier where
  | none | flex | priority | fast
  deriving DecidableEq

/-- the tier hint of a request, with the offset and the length of its value, `extract_service_tier` -/
def extractServiceTier (body : Bytes) : Tier × Nat × Nat :=
  match jsonTopWalk (ascii "service_tier") jsonTopLast body none with
  | (.ended _, _, some (vs, ve)) =>
    if ve ≤ vs + 2 ∨ body[vs]? ≠ some quote ∨ body[ve - 1]? ≠ some quote then (.none, 0, 0)
    else
      let raw := slice body (vs + 1) (ve - 1)
      if jsonStrEq raw (ascii "flex") then (.flex, vs, ve - vs)
      else if jsonStrEq raw (ascii "priority") then (.priority, vs, ve - vs)
      else if jsonStrEq raw (ascii "fast") then (.fast, vs, ve - vs)
      else (.none, 0, 0)
  | _ => (.none, 0, 0)

/-! ## what a parser reads -/

def isTrue : Option Value → Bool
  | some (.atom (.bool b)) => b
  | _ => false

/-- the number is written as a whole one that is not negative -/
def isCount (n : Number) : Bool := !n.neg && n.frac.isNone && n.exp.isNone

/-- the count a value declares, cut to the ceiling -/
def declared : Option Value → Nat
  | some (.atom (.num n)) => if isCount n then min tokensMax n.whole.digits.val else 0
  | _ => 0

/-- a number with a fraction or an exponent whose whole part passes the ceiling -/
def isLong : Option Value → Bool
  | some (.atom (.num n)) => !n.neg && !isCount n && decide (tokensMax < n.whole.digits.val)
  | _ => false

/-- the tier a value names -/
def tierNamed : Option Value → Tier
  | some (.str s) =>
    if decode s = some (ascii "flex") then .flex
    else if decode s = some (ascii "priority") then .priority
    else if decode s = some (ascii "fast") then .fast
    else .none
  | _ => .none

/-- the completion ceiling of an object, for a reader that picks one of repeated keys -/
def ceilingBy (pick : Bytes → List Member → Option Value) (ms : List Member) : Option Value :=
  (pick (ascii "max_completion_tokens") ms).or (pick (ascii "max_tokens") ms)

/-! ## the stream flag -/

theorem digit_range (d : Fin 10) : 48 ≤ digitByte d ∧ digitByte d ≤ 57 := by
  revert d
  decide

theorem number_head (n : Number) :
    ∃ c s, n.bytes = c :: s ∧ ((n.neg = true ∧ c = 45) ∨ (n.neg = false ∧ 48 ≤ c ∧ c ≤ 57)) := by
  cases hn : n.neg with
  | true => exact ⟨45, _, by rw [Number.bytes, hn]; rfl, .inl ⟨rfl, rfl⟩⟩
  | false =>
    cases hd : n.whole.digits with
    | nil => exact absurd hd n.whole.nonempty
    | cons d ds =>
      exact ⟨digitByte d, _, by rw [Number.bytes, hn, hd]; rfl, .inr ⟨rfl, digit_range d⟩⟩

theorem bytes_true {v : Value} : v.bytes = ascii "true" ↔ v = .atom (.bool true) := by
  constructor
  · intro h
    cases v with
    | atom a =>
      cases a with
      | null => exact absurd h (by decide)
      | bool b =>
        cases b with
        | true => rfl
        | false => exact absurd h (by decide)
      | num n =>
        obtain ⟨c, s, hs, hc⟩ := number_head n
        have hfirst : c = 116 := (List.cons.inj (hs.symm.trans h)).1
        rcases hc with ⟨_, hc⟩ | ⟨_, _, hc⟩
        · exact absurd (hfirst.symm.trans hc) (by decide)
        · rw [hfirst] at hc
          exact absurd hc (by decide)
    | str | arr | obj => exact absurd (List.cons.inj h).1 (by decide)
  · rintro rfl
    rfl

theorem spanTrue_holds {body : Bytes} {s : Span} {v : Value} (h : Holds body s v) :
    spanTrue body s.vs s.ve = isTrue (some v) := by
  obtain ⟨hat, hve⟩ := h
  refine Bool.eq_iff_iff.mpr (decide_eq_true_iff.trans ⟨?_, fun ht => ?_⟩)
  · rintro ⟨h4, hs⟩
    rw [show s.vs + 4 = s.vs + v.bytes.length by omega, hat.slice] at hs
    rw [bytes_true.mp hs]
    rfl
  · have hv : v = .atom (.bool true) := by
      cases v with
      | atom a =>
        cases a with
        | bool b => exact congrArg (fun b => Value.atom (.bool b)) ht
        | _ => cases ht
      | _ => cases ht
    subst hv
    refine ⟨?_, hat.slice⟩
    rw [hve, Nat.add_sub_cancel_left]
    rfl

theorem streamFlag_first (d : Doc) :
    jsonStreamFlag d.bytes = if isTrue (firstOf (ascii "stream") d.members) then 1 else 0 := by
  have h := jsonTopFind_doc d (ascii "stream")
  unfold jsonStreamFlag
  cases hf : firstOf (ascii "stream") d.members with
  | none =>
    rw [hf] at h
    rw [h]
    rfl
  | some v =>
    rw [hf] at h
    obtain ⟨s, _, hs, hfind⟩ := h
    rw [hfind]
    dsimp only
    rw [spanTrue_holds hs]

/-! ## the completion ceiling -/

theorem foldl_digits_le (ds : Digits) (val : Nat) : val ≤ ds.foldl (fun n d => n * 10 + d.val) val := by
  induction ds generalizing val with
  | nil => exact Nat.le_refl _
  | cons d ds ih =>
    have := ih (val * 10 + d.val)
    rw [foldl_cons]
    omega

theorem digit_value (d : Fin 10) : (digitByte d).toNat - 48 = d.val := by
  revert d
  decide

theorem tokenDigits_digits (ds : Digits) {rest : Bytes} {val : Nat} (hval : val ≤ tokensMax)
    (hrest : ∀ c s, rest = c :: s → c < 48 ∨ c > 57) :
    tokenDigits val (ds.map digitByte ++ rest) =
      if tokensMax < ds.foldl (fun n d => n * 10 + d.val) val then tokensMax
      else if rest = [] then ds.foldl (fun n d => n * 10 + d.val) val else 0 := by
  induction ds generalizing val with
  | nil =>
    rw [foldl_nil, if_neg (by omega), map_nil, nil_append]
    cases rest with
    | nil => rfl
    | cons c s =>
      rw [tokenDigits, if_pos (hrest c s rfl)]
      rfl
  | cons d ds ih =>
    obtain ⟨h48, h57⟩ := digit_range d
    have hd : ¬ (digitByte d < 48 ∨ digitByte d > 57) := by
      rintro (h | h)
      · exact absurd h48 (UInt8.not_le.mpr h)
      · exact absurd h57 (UInt8.not_le.mpr h)
    rw [map_cons, cons_append, tokenDigits, if_neg hd, digit_value, foldl_cons]
    by_cases hbig : val * 10 + d.val > tokensMax
    · have := foldl_digits_le ds (val * 10 + d.val)
      rw [if_pos hbig, if_pos (by omega)]
    · rw [if_neg hbig, ih (Nat.le_of_not_lt hbig)]

theorem fraction_head (n : Number) : ∀ c s, (n.frac.elim [] fun ds => 46 :: ds.val.map digitByte) ++
    n.exp.elim [] Exponent.bytes = c :: s → c < 48 ∨ c > 57 := by
  intro c s h
  cases hf : n.frac with
  | some ds =>
    rw [hf] at h
    rw [← (List.cons.inj h).1]
    exact .inl (by decide)
  | none =>
    rw [hf] at h
    cases he : n.exp with
    | none =>
      rw [he] at h
      cases h
    | some e =>
      rw [he] at h
      have hc := (List.cons.inj h).1
      rw [← hc]
      cases e.upper <;> exact .inr (by decide)

theorem fraction_nil (n : Number) : (n.frac.elim [] fun ds => 46 :: ds.val.map digitByte) ++
    n.exp.elim [] Exponent.bytes = [] ↔ n.frac.isNone = true ∧ n.exp.isNone = true := by
  cases n.frac with
  | some ds => simp
  | none =>
    cases n.exp with
    | none => simp
    | some e => simp [Exponent.bytes]

/-- the count the loop reads off a value -/
def tokensRead (bytes : Bytes) : Nat :=
  match bytes with
  | [] => 0
  | c :: rest =>
    if c = quote ∨ c = lbrace ∨ c = lbracket then 0
    else if c = 45 then 0
    else tokenDigits 0 (c :: rest)

theorem tokensRead_number (n : Number) :
    tokensRead n.bytes = if isLong (some (.atom (.num n))) then tokensMax
      else declared (some (.atom (.num n))) := by
  obtain ⟨c, s, hs, hc⟩ := number_head n
  unfold tokensRead
  rw [hs]
  dsimp only
  rcases hc with ⟨hn, rfl⟩ | ⟨hn, h48, h57⟩
  · have hl : isLong (some (.atom (.num n))) = false := by simp [isLong, hn]
    have hd : declared (some (.atom (.num n))) = 0 := by simp [declared, isCount, hn]
    rw [hl, hd]
    rfl
  have hbytes : c :: s = n.whole.digits.map digitByte ++
      ((n.frac.elim [] fun ds => 46 :: ds.val.map digitByte) ++ n.exp.elim [] Exponent.bytes) := by
    rw [← hs, Number.bytes, hn]
    simp
  have hne : ∀ x, x < 48 ∨ 57 < x → c ≠ x := by
    rintro x hx rfl
    rcases hx with hx | hx
    · exact absurd h48 (UInt8.not_le.mpr hx)
    · exact absurd h57 (UInt8.not_le.mpr hx)
  have h1 : ¬ (c = quote ∨ c = lbrace ∨ c = lbracket) := by
    rintro (h | h | h)
    · exact hne _ (.inl (by decide)) h
    · exact hne _ (.inr (by decide)) h
    · exact hne _ (.inr (by decide)) h
  rw [if_neg h1, if_neg (hne 45 (.inl (by decide))), hbytes,
    tokenDigits_digits _ (Nat.zero_le _) (fraction_head n)]
  change (if tokensMax < n.whole.digits.val then _ else
    if _ then n.whole.digits.val else 0) = _
  by_cases hplain : n.frac.isNone = true ∧ n.exp.isNone = true
  · have hcount : isCount n = true := by simp [isCount, hn, hplain.1, hplain.2]
    have hl : isLong (some (.atom (.num n))) = false := by simp [isLong, hcount]
    have hd : declared (some (.atom (.num n))) = min tokensMax n.whole.digits.val := by
      simp [declared, hcount]
    rw [if_pos ((fraction_nil n).mpr hplain), hl, if_neg Bool.false_ne_true]
    split <;> omega
  · have hcount : isCount n = false := by
      rw [isCount, hn, ← Bool.not_eq_true, Bool.and_eq_true]
      exact hplain
    have hl : isLong (some (.atom (.num n))) = decide (tokensMax < n.whole.digits.val) := by
      simp [isLong, hcount, hn]
    have hd : declared (some (.atom (.num n))) = 0 := by simp [declared, hcount]
    rw [if_neg (fun h => hplain ((fraction_nil n).mp h)), hl, hd]
    by_cases hbig : tokensMax < n.whole.digits.val
    · rw [if_pos hbig, if_pos (decide_eq_true hbig)]
    · rw [if_neg hbig, if_neg (by simpa using hbig)]

theorem tokensRead_value (v : Value) :
    tokensRead v.bytes = if isLong (some v) then tokensMax else declared (some v) := by
  cases v with
  | atom a =>
    cases a with
    | null => rfl
    | bool b => cases b <;> rfl
    | num n => exact tokensRead_number n
  | str | arr | obj => rfl

theorem findEither_doc (d : Doc) (key key' : Bytes) :
    match (firstOf key d.members).or (firstOf key' d.members) with
    | none => findEither d.bytes key key' = none
    | some v => ∃ s, Holds d.bytes s v ∧ findEither d.bytes key key' = some (s.vs, s.ve) := by
  have h := jsonTopFind_doc d key
  have h' := jsonTopFind_doc d key'
  unfold findEither
  cases hf : firstOf key d.members with
  | some v =>
    rw [hf] at h
    obtain ⟨s, _, hs, hfind⟩ := h
    rw [hfind]
    exact ⟨s, hs, rfl⟩
  | none =>
    rw [hf] at h
    rw [h]
    cases hf' : firstOf key' d.members with
    | some v =>
      rw [hf'] at h'
      obtain ⟨s, _, hs, hfind⟩ := h'
      rw [hfind]
      exact ⟨s, hs, rfl⟩
    | none =>
      rw [hf'] at h'
      rw [h']
      rfl

theorem maxTokens_first (d : Doc) :
    extractMaxTokens d.bytes = if isLong (ceilingBy firstOf d.members) then tokensMax
      else declared (ceilingBy firstOf d.members) := by
  have h := findEither_doc d (ascii "max_completion_tokens") (ascii "max_tokens")
  unfold extractMaxTokens
  change match ceilingBy firstOf d.members with | none => _ | some v => _ at h
  cases hc : ceilingBy firstOf d.members with
  | none =>
    rw [hc] at h
    rw [h]
    rfl
  | some v =>
    rw [hc] at h
    obtain ⟨s, ⟨hat, hve⟩, hfind⟩ := h
    rw [hfind]
    dsimp only
    rw [hve, hat.slice]
    exact tokensRead_value v

/-! ## the tier -/

theorem str_or_other (v : Value) : (∃ s, v = .str s) ∨
    tierNamed (some v) = .none ∧ ∃ c t, v.bytes = c :: t ∧ c ≠ quote := by
  cases v with
  | atom a =>
    obtain ⟨c, t, ht, hc⟩ := a.head
    exact .inr ⟨rfl, c, t, ht, atomic_ne hc rfl⟩
  | str s => exact .inl ⟨s, rfl⟩
  | arr | obj => exact .inr ⟨rfl, _, _, rfl, by decide⟩

theorem strBytes_eq_nil {s : Str} (h : (strBytes s).length = 0) : s = [] := by
  cases s with
  | nil => rfl
  | cons p s =>
    have := strBytes_lt p s
    omega

theorem tier_last (d : Doc) :
    (extractServiceTier d.bytes).1 = tierNamed (lastOf (ascii "service_tier") d.members) := by
  have h := jsonTopLast_doc d (ascii "service_tier")
  unfold extractServiceTier
  cases hl : lastOf (ascii "service_tier") d.members with
  | none =>
    rw [hl] at h
    rw [h]
    rfl
  | some v =>
    rw [hl] at h
    obtain ⟨s, ⟨hat, hve⟩, hwalk⟩ := h
    rw [hwalk]
    dsimp only
    rcases str_or_other v with ⟨t, rfl⟩ | ⟨htier, c, r, hr, hc⟩
    · have hlen : (Value.str t).bytes.length = (strBytes t).length + 2 := by
        rw [Value.bytes, length_append, length_cons, length_singleton]
      have hclose := hat.tail.right.head
      by_cases hempty : (strBytes t).length = 0
      · rw [if_pos (.inl (by omega)), strBytes_eq_nil hempty]
        rfl
      · have hgo : ¬ (s.ve ≤ s.vs + 2 ∨ d.bytes[s.vs]? ≠ some quote ∨ d.bytes[s.ve - 1]? ≠ some quote) := by
          rw [hat.head, show s.ve - 1 = s.vs + 1 + (strBytes t).length by omega, hclose]
          simp only [ne_eq, not_true_eq_false, or_false]
          omega
        have hraw : slice d.bytes (s.vs + 1) (s.ve - 1) = strBytes t := by
          rw [show s.ve - 1 = s.vs + 1 + (strBytes t).length by omega]
          exact hat.tail.left.slice
        rw [hraw]
        unfold tierNamed
        simp only [jsonStrEq_iff]
        split_ifs <;> rfl
    · have hfirst : d.bytes[s.vs]? ≠ some quote := by
        rw [hr] at hat
        rw [hat.head]
        exact fun h => hc (Option.some.inj h)
      rw [if_pos (.inr (.inl hfirst)), htier]

/-! ## the three readers -/

/-- the first occurrence declares what the last does; a long fraction declares the greatest count -/
def sameCeiling (first last : Option Value) : Prop :=
  if isLong first then declared last = tokensMax else declared first = declared last

/-- **the gateway reads what a last-wins parser reads** exactly if the first and the last occurrence
of the stream flag and of the ceiling read alike -/
theorem request_read (d : Doc) :
    ((jsonStreamFlag d.bytes = 1 ↔ isTrue (lastOf (ascii "stream") d.members) = true) ∧
      extractMaxTokens d.bytes = declared (ceilingBy lastOf d.members) ∧
      (extractServiceTier d.bytes).1 = tierNamed (lastOf (ascii "service_tier") d.members)) ↔
    isTrue (firstOf (ascii "stream") d.members) = isTrue (lastOf (ascii "stream") d.members) ∧
      sameCeiling (ceilingBy firstOf d.members) (ceilingBy lastOf d.members) := by
  have hflag : jsonStreamFlag d.bytes = 1 ↔ isTrue (firstOf (ascii "stream") d.members) = true := by
    rw [streamFlag_first]
    split
    · rename_i h
      exact ⟨fun _ => h, fun _ => rfl⟩
    · rename_i h
      exact ⟨fun hc => absurd hc (by decide), fun hc => absurd hc h⟩
  have hmax : extractMaxTokens d.bytes = declared (ceilingBy lastOf d.members) ↔
      sameCeiling (ceilingBy firstOf d.members) (ceilingBy lastOf d.members) := by
    rw [maxTokens_first]
    unfold sameCeiling
    split
    · exact eq_comm
    · exact Iff.rfl
  rw [hflag, hmax, ← Bool.eq_iff_iff]
  exact ⟨fun h => ⟨h.1, h.2.1⟩, fun h => ⟨h.1, h.2, tier_last d⟩⟩

def streamName : Str := plain ['s', 't', 'r', 'e', 'a', 'm'] (by decide)

def twiceBody : Doc :=
  { before := [], gap := [], after := [], members :=
      [member streamName (.atom (.bool false)), member streamName (.atom (.bool true)),
        member (plain ['m', 'a', 'x', '_', 't', 'o', 'k', 'e', 'n', 's'] (by decide))
          (.atom (.num ⟨false, ⟨[1, 0, 0, 0, 0, 0, 0, 0, 0, 0], by decide, by decide⟩,
            some ⟨[5], by decide⟩, none⟩))] }

/-- the gateway does not see a stream that the engine starts, and reads a ceiling that no parser
reads as a count -/
theorem stream_differs :
    twiceBody.bytes = ascii "\x7b\"stream\":false,\"stream\":true,\"max_tokens\":1000000000.5\x7d" ∧
      jsonStreamFlag twiceBody.bytes = 0 ∧
      isTrue (lastOf (ascii "stream") twiceBody.members) = true ∧
      extractMaxTokens twiceBody.bytes = 100000000 ∧
      declared (ceilingBy lastOf twiceBody.members) = 0 := by
  decide +kernel

end SpJson
