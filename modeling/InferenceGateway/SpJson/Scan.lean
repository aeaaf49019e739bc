import InferenceGateway.SpJson.Walk

/-!
# The streaming scan for the model

`sp_json_scan_feed` takes a body a byte at a time, in any pieces, and keeps the model, the user and
the cache salt of the object at its top.  The lemmas here run it over the parts of a JSON text:

* `feed_blanks`, `feed_skip`, `feed_nested`   what leaves the state as it is;
* `feed_reads`                                a string that is kept, as far as the buffer goes;
* `feed_value`                                a value of the object at the top.
-/

open List Option

namespace SpJson

open Json Text

inductive ScanError where
  | invalidModel | duplicateUser | notObject | duplicateModel | invalid
  deriving DecidableEq

def ScanError.code : ScanError → Int
  | .invalidModel => -9
  | .duplicateUser => -8
  | .notObject => -7
  | .duplicateModel => -6
  | .invalid => -5

inductive Phase where
  | start | key | colon | value | after | nested | primitive
  deriving DecidableEq

inductive StrKind where
  | none | key | model | user | salt | skip
  deriving DecidableEq

/-- the top-level key whose value comes next, where it matters -/
inductive KeyKind where
  | other | model | user | salt
  deriving DecidableEq

inductive PrimKind where
  | number | true | false | null | unknown
  deriving DecidableEq

/-- `sp_json_scan_t`; `raw` is the buffer up to `raw_len`, which in a literal counts its bytes: `lit` -/
structure Scan where
  depth : Nat
  phase : Phase
  stringKind : StrKind
  escaped : Bool
  key : KeyKind
  overflow : Bool
  (modelSeen modelReady userSeen done modelInvalid saltSeen saltInvalid afterComma : Bool)
  primitiveKind : PrimKind
  error : Option ScanError
  raw : Bytes
  lit : Nat
  (model user salt : Bytes)
  deriving DecidableEq

def Scan.init : Scan where
  depth := 0
  phase := .start
  stringKind := .none
  escaped := false
  key := .other
  overflow := false
  modelSeen := false
  modelReady := false
  userSeen := false
  done := false
  modelInvalid := false
  saltSeen := false
  saltInvalid := false
  afterComma := false
  primitiveKind := .number
  error := none
  raw := []
  lit := 0
  model := []
  user := []
  salt := []

def rawCap : Nat := 128 * 6
def fieldCap : Nat := 128
def saltCap : Nat := 64
def depthMax : Nat := 2 ^ 32 - 1

namespace Scan

def fail (s : Scan) (e : ScanError) : Scan := { s with error := some e }

/-- the key in the buffer is this name -/
def spells (s : Scan) (name : String) : Bool := !s.overflow && jsonStrEq s.raw (ascii name)

/-- a key has ended that is the model's, the user's or the salt's -/
def keyNamed (s : Scan) (isModel isUser isSalt : Bool) : Scan :=
  if isModel && s.modelSeen then { s with key := .other, error := some .duplicateModel }
  else if !isModel && isUser && s.userSeen then { s with key := .other, error := some .duplicateUser }
  else
    let s' :=
      if isModel then { s with modelSeen := true, key := .model }
      else if isUser then { s with key := .user, userSeen := true }
      else { s with key := .other }
    let s' :=
      if isSalt then
        { s' with saltInvalid := s.saltInvalid || s.saltSeen, saltSeen := true, key := .salt }
      else s'
    { s' with phase := .colon, stringKind := .none }

def keyEnd (s : Scan) : Scan := s.keyNamed (s.spells "model") (s.spells "user") (s.spells "cache_salt")

def modelEnd (s : Scan) : Scan :=
  let text := kvJsonUnescapeCopy s.raw fieldCap
  let s' :=
    if s.overflow then { s with modelInvalid := true }
    else if text.contains 0 || !jsonStrEq s.raw text then { s with model := text, modelInvalid := true }
    else { s with model := text }
  { s' with modelReady := !s'.modelInvalid, model := if s'.modelInvalid then [] else s'.model
            phase := .after, stringKind := .none }

def saltEnd (s : Scan) : Scan :=
  if s.overflow || s.raw.isEmpty || decide (saltCap ≤ s.raw.length) then
    { s with saltInvalid := true, phase := .after, stringKind := .none }
  else { s with salt := s.raw, phase := .after, stringKind := .none }

def stringEnd (s : Scan) : Scan :=
  match s.stringKind with
  | .key => s.keyEnd
  | .model => s.modelEnd
  | .user =>
    { s with user := kvJsonUnescapeCopy s.raw fieldCap, phase := .after, stringKind := .none }
  | .salt => s.saltEnd
  | _ => { s with phase := if s.depth = 1 then .after else s.phase, stringKind := .none }

def literal : PrimKind → Bytes
  | .true => ascii "true"
  | .false => ascii "false"
  | .null => ascii "null"
  | _ => []

def isLetter (c : UInt8) : Bool := decide (65 ≤ c ∧ c ≤ 90) || decide (97 ≤ c ∧ c ≤ 122)

def primitiveByte (s : Scan) (c : UInt8) : Scan :=
  if !(decide (48 ≤ c ∧ c ≤ 57) || isLetter c || c == 46 || c == 43 || c == 45) then s.fail .invalid
  else if s.primitiveKind ≠ .number ∧ (literal s.primitiveKind)[s.lit]? ≠ some c then s.fail .invalid
  else { s with lit := s.lit + 1 }

def primitiveEnd (s : Scan) : Scan :=
  if s.primitiveKind ≠ .number ∧ (s.primitiveKind = .unknown ∨ s.lit ≠ (literal s.primitiveKind).length) then
    s.fail .invalid
  else { s with phase := .after }

def primitiveStart (c : UInt8) : PrimKind :=
  if c = 116 then .true
  else if c = 102 then .false
  else if c = 110 then .null
  else if isLetter c then .unknown
  else .number

/-- a byte that the buffer takes -/
def keepByte (s : Scan) (c : UInt8) : Scan :=
  if s.stringKind = .skip then s
  else if s.raw.length < rawCap then { s with raw := s.raw ++ [c] }
  else { s with overflow := true }

def stringByte (s : Scan) (c : UInt8) : Scan :=
  if s.escaped = false ∧ c = quote then s.stringEnd
  else if c < 0x20 then s.fail .invalid
  else if s.escaped then { s.keepByte c with escaped := false }
  else if c = backslash then { s.keepByte c with escaped := true }
  else s.keepByte c

def nestedByte (s : Scan) (c : UInt8) : Scan :=
  if c = quote then { s with stringKind := .skip }
  else if c = lbrace ∨ c = lbracket then
    if s.depth + 1 = depthMax then { s with depth := s.depth + 1, error := some .invalid }
    else { s with depth := s.depth + 1 }
  else if c = rbrace ∨ c = rbracket then
    { s with depth := s.depth - 1, phase := if s.depth - 1 = 1 then .after else s.phase }
  else s

def keyByte (s : Scan) (c : UInt8) : Scan :=
  if c = rbrace ∧ s.afterComma = false then { s with done := true, depth := 0 }
  else if c = quote then { s with afterComma := false, stringKind := .key, raw := [], overflow := false }
  else s.fail .invalid

def valueByte (s : Scan) (c : UInt8) : Scan :=
  let s := if s.key = .model ∧ c ≠ quote then { s with modelInvalid := true } else s
  if c = quote then
    { s with stringKind := match s.key with
                | .model => .model
                | .user => .user
                | .salt => .salt
                | .other => .skip
             raw := [], overflow := false }
  else
    let s := if s.key = .salt then { s with saltInvalid := true } else s
    if c = lbrace ∨ c = lbracket then { s with depth := s.depth + 1, phase := .nested }
    else primitiveByte { s with phase := .primitive, lit := 0, primitiveKind := primitiveStart c } c

def afterByte (s : Scan) (c : UInt8) : Scan :=
  if c = comma then { s with afterComma := true, phase := .key }
  else if c = rbrace then { s with done := true, depth := 0 }
  else s.fail .invalid

/-- the part of a round that goes by the phase -/
def token (s : Scan) (c : UInt8) : Scan :=
  match s.phase with
  | .start => if c = lbrace then { s with depth := 1, phase := .key } else s.fail .notObject
  | .nested => s.nestedByte c
  | .primitive =>
    if c = comma ∨ c = rbrace then
      if s.primitiveEnd.error.isSome then s.primitiveEnd else s.primitiveEnd.afterByte c
    else s.primitiveByte c
  | .key => s.keyByte c
  | .colon => if c = colon then { s with phase := .value } else s.fail .invalid
  | .value => s.valueByte c
  | .after => s.afterByte c

/-- one round of `sp_json_scan_feed` -/
def byte (s : Scan) (c : UInt8) : Scan :=
  if s.stringKind ≠ .none then s.stringByte c
  else if isBlank c then if s.phase = .primitive then s.primitiveEnd else s
  else if s.done then s.fail .invalid
  else s.token c

/-- `sp_json_scan_feed`: the error stays -/
def feed (s : Scan) : Bytes → Scan
  | [] => s
  | c :: rest => if s.error.isSome then s else (s.byte c).feed rest

def finish (s : Scan) : Option ScanError :=
  match s.error with
  | some e => some e
  | none => if !s.done then some .invalid else if s.modelInvalid then some .invalidModel else none

end Scan

abbrev Extracted := Int × Bytes

/-- the model of a whole body, `extract_model_field` -/
def extractModelField (body : Bytes) (cap : Nat) : Extracted :=
  if body.isEmpty || cap == 0 then (-1, [])
  else
    let s := Scan.init.feed body
    match s.finish with
    | some .duplicateModel => (ScanError.duplicateModel.code, [])
    | some .duplicateUser => (ScanError.duplicateUser.code, [])
    | some _ => (-1, [])
    | none => if !s.modelReady || s.model.isEmpty then (-1, []) else (0, s.model.take (cap - 1))

/-- the model of the beginning of a body, `extract_model_field_prefix` -/
def extractModelFieldPrefix (body : Bytes) (cap : Nat) : Extracted :=
  if body.isEmpty || cap == 0 then (-1, [])
  else
    let s := Scan.init.feed body
    match s.error with
    | some .duplicateModel => (ScanError.duplicateModel.code, [])
    | some .duplicateUser => (ScanError.duplicateUser.code, [])
    | some _ => (-1, [])
    | none =>
      if s.modelInvalid then (-1, [])
      else if s.modelReady && !s.model.isEmpty then (0, s.model.take (cap - 1))
      else (if s.done then -1 else 1, [])

/-! ## feeding -/

namespace Scan

variable {s : Scan} {c o e : UInt8} {t : Bytes} {n : Nat} {k : PrimKind}

theorem feed_cons (h : s.error = none) (c : UInt8) (bs : Bytes) :
    s.feed (c :: bs) = (s.byte c).feed bs := by
  rw [feed, h]
  rfl

theorem feed_error (h : s.error ≠ none) (bs : Bytes) : s.feed bs = s := by
  cases bs with
  | nil => rfl
  | cons c bs => rw [feed, if_pos (isSome_iff_ne_none.mpr h)]

theorem feed_append (s : Scan) (a b : Bytes) : s.feed (a ++ b) = (s.feed a).feed b := by
  induction a generalizing s with
  | nil => rfl
  | cons c a ih =>
    by_cases h : s.error = none
    · rw [cons_append, feed_cons h, feed_cons h, ih]
    · rw [feed_error h, feed_error h, feed_error h]

structure Idle (s : Scan) : Prop where
  error : s.error = none
  string : s.stringKind = .none
  escaped : s.escaped = false

theorem byte_blank (hs : s.Idle) (hp : s.phase ≠ .primitive) (hc : isBlank c = true) :
    s.byte c = s := by
  rw [byte, if_neg (not_not_intro hs.string), if_pos hc, if_neg hp]

theorem feed_blanks (hs : s.Idle) (hp : s.phase ≠ .primitive) (w : Ws) : s.feed w.bytes = s := by
  induction w with
  | nil => rfl
  | cons b w ih =>
    have hb : isBlank b.byte = true := by cases b <;> rfl
    change s.feed (b.byte :: Ws.bytes w) = s
    rw [feed_cons hs.error, byte_blank hs hp hb, ih]

theorem byte_token (hs : s.Idle) (hd : s.done = false) (hc : isBlank c = false) :
    s.byte c = s.token c := by
  rw [byte, if_neg (not_not_intro hs.string), if_neg (by rw [hc]; decide), if_neg (by rw [hd]; decide)]

/-! ## strings -/

theorem byte_string (h : s.stringKind ≠ .none) (c : UInt8) : s.byte c = s.stringByte c := by
  rw [byte, if_pos h]

theorem byte_end (h : s.stringKind ≠ .none) (he : s.escaped = false) :
    s.byte quote = s.stringEnd := by
  rw [byte_string h, stringByte, if_pos ⟨he, rfl⟩]

theorem stringByte_inside (low : 32 ≤ c) (hq : s.escaped = true ∨ c ≠ quote) :
    s.stringByte c = { s.keepByte c with escaped := !s.escaped && decide (c = backslash) } := by
  have hend : ¬ (s.escaped = false ∧ c = quote) := fun h => by
    rcases hq with he | hc
    · rw [he] at h
      cases h.1
    · exact hc h.2
  have hkeep : (s.keepByte c).escaped = s.escaped := by
    unfold keepByte
    split
    · rfl
    split <;> rfl
  rw [stringByte, if_neg hend, if_neg (UInt8.not_lt.mpr low)]
  cases he : s.escaped with
  | true => simp
  | false =>
    by_cases hb : c = backslash
    · simp [hb]
    · simp [hb, ← he, ← hkeep]

theorem stringByte_skip (hk : s.stringKind = .skip) (low : 32 ≤ c)
    (hq : s.escaped = true ∨ c ≠ quote) :
    s.stringByte c = { s with escaped := !s.escaped && decide (c = backslash) } := by
  rw [stringByte_inside low hq, keepByte, if_pos hk]

theorem feed_skip (ht : Inside t) (hk : s.stringKind = .skip) (he : s.escaped = false)
    (herr : s.error = none) : s.feed t = s := by
  have hs : { s with escaped := false } = s := by rw [← he]
  have hk' : s.stringKind ≠ .none := by rw [hk]; decide
  induction ht with
  | nil => rfl
  | byte low hq hb _ ih =>
    rw [feed_cons herr, byte_string hk', stringByte_skip hk low (.inr hq), decide_eq_false hb,
      Bool.and_false, hs, ih]
  | esc low _ ih =>
    rw [feed_cons herr, byte_string hk', stringByte_skip hk (by decide) (.inr (by decide)),
      feed_cons (by exact herr), byte_string (by exact hk'),
      stringByte_skip (by exact hk) low (.inl (by simp [he]))]
    simpa [he, hs] using ih

/-- the buffer after the bytes of a string that is kept -/
def reads (s : Scan) (p : Bytes) : Scan :=
  { s with raw := p.take rawCap, overflow := decide (rawCap < p.length) }

theorem stringByte_reads (hk : s.stringKind ≠ .skip) (p : Bytes) (low : 32 ≤ c)
    (hq : s.escaped = true ∨ c ≠ quote) :
    (s.reads p).stringByte c =
      { s with escaped := !s.escaped && decide (c = backslash) }.reads (p ++ [c]) := by
  have hkeep : (s.reads p).keepByte c = s.reads (p ++ [c]) := by
    rw [keepByte, if_neg (show ¬ (s.reads p).stringKind = .skip from hk)]
    unfold reads
    simp only [length_take, length_append, length_singleton]
    by_cases h : p.length < rawCap
    · rw [if_pos (by omega), take_of_length_le (by omega), take_of_length_le (by simp; omega),
        decide_eq_false (by omega), decide_eq_false (by omega)]
    · rw [if_neg (by omega), take_append_of_le_length (by omega)]
      simp only [decide_eq_true (show rawCap < p.length + 1 by omega)]
  rw [stringByte_inside low (by exact hq), hkeep]
  rfl

theorem feed_reads (ht : Inside t) (hk : s.stringKind ≠ .none) (hk' : s.stringKind ≠ .skip)
    (he : s.escaped = false) (herr : s.error = none) (p : Bytes) :
    (s.reads p).feed t = s.reads (p ++ t) := by
  have hs : { s with escaped := false } = s := by rw [← he]
  induction ht generalizing p with
  | nil => rw [append_nil]; rfl
  | @byte c t low hq hb _ ih =>
    rw [feed_cons (by exact herr), byte_string (by exact hk), stringByte_reads hk' p low (.inr hq),
      decide_eq_false hb, Bool.and_false, hs, ih, append_assoc]
    rfl
  | @esc c t low _ ih =>
    rw [feed_cons (by exact herr), byte_string (by exact hk),
      stringByte_reads hk' p (by decide) (.inr (by decide)), feed_cons (by exact herr),
      byte_string (by exact hk), stringByte_reads (by exact hk') _ low (.inl (by simp [he]))]
    simpa [he, hs, append_assoc] using ih (p ++ [backslash, c])

/-! ## values that are not kept -/

theorem Idle.of_depth (hs : s.Idle) (n : Nat) : ({ s with depth := n } : Scan).Idle := { hs with }

section
variable (hs : s.Idle) (hd : s.done = false) (hp : s.phase = .nested)
include hs hd hp

theorem byte_nested (hc : isBlank c = false) : s.byte c = s.nestedByte c := by
  rw [byte_token hs hd hc, token, hp]

theorem byte_open (hc : c = lbrace ∨ c = lbracket) (h : s.depth + 1 < depthMax) :
    s.byte c = { s with depth := s.depth + 1 } := by
  have hq : c ≠ quote := by rcases hc with rfl | rfl <;> decide
  rw [byte_nested hs hd hp (by rcases hc with rfl | rfl <;> rfl), nestedByte, if_neg hq, if_pos hc,
    if_neg (ne_of_lt h)]

theorem byte_close (hc : c = rbrace ∨ c = rbracket) :
    s.byte c = { s with depth := s.depth - 1, phase := if s.depth - 1 = 1 then .after else s.phase } := by
  have hq : c ≠ quote := by rcases hc with rfl | rfl <;> decide
  have ho : ¬ (c = lbrace ∨ c = lbracket) := by rcases hc with rfl | rfl <;> decide
  rw [byte_nested hs hd hp (by rcases hc with rfl | rfl <;> rfl), nestedByte, if_neg hq, if_neg ho,
    if_pos hc]

theorem feed_bracket (h2 : 2 ≤ s.depth) (h : s.depth + 1 < depthMax)
    (ho : o = lbrace ∨ o = lbracket) (he : e = rbrace ∨ e = rbracket)
    (ht : ({ s with depth := s.depth + 1 } : Scan).feed t = { s with depth := s.depth + 1 })
    (u : Bytes) : s.feed (o :: t ++ e :: u) = s.feed u := by
  have hclose : ({ s with depth := s.depth + 1 } : Scan).byte e = s := by
    rw [byte_close (hs.of_depth _) (by exact hd) (by exact hp) he]
    have hne : ¬ s.depth = 1 := by omega
    simp only [Nat.add_sub_cancel, if_neg hne]
  rw [cons_append, feed_cons hs.error, byte_open hs hd hp ho h, feed_append, ht,
    feed_cons (by exact hs.error), hclose]

theorem feed_nested (ht : Skips n t) (h2 : 2 ≤ s.depth) (h : s.depth + n < depthMax) :
    s.feed t = s := by
  induction ht generalizing s with
  | nil => rfl
  | @byte n c t quiet _ ih =>
    have hbyte : s.byte c = s := by
      by_cases hb : isBlank c = true
      · exact byte_blank hs (by rw [hp]; decide) hb
      · simp only [isQuiet, Bool.and_eq_true, bne_iff_ne] at quiet
        obtain ⟨⟨⟨⟨⟨hq, -⟩, h1⟩, h2⟩, h3⟩, h4⟩ := quiet
        rw [byte_nested hs hd hp (Bool.eq_false_iff.mpr hb), nestedByte, if_neg hq,
          if_neg (not_or.mpr ⟨h1, h3⟩), if_neg (not_or.mpr ⟨h2, h4⟩)]
    rw [feed_cons hs.error, hbyte, ih hs hd hp h2 h]
  | @str n t u inside _ ih =>
    have hopen : s.byte quote = { s with stringKind := .skip } := by
      rw [byte_nested hs hd hp rfl, nestedByte, if_pos rfl]
    have hend : ({ s with stringKind := .skip } : Scan).byte quote = s := by
      rw [byte_end (by simp) (by exact hs.escaped)]
      have h1 : ¬ s.depth = 1 := by omega
      simp only [stringEnd, if_neg h1, ← hs.string]
    rw [cons_append, feed_cons hs.error, hopen, feed_append,
      feed_skip inside (by rfl) (by exact hs.escaped) (by exact hs.error),
      feed_cons (by exact hs.error), hend, ih hs hd hp h2 h]
  | @arr n t u _ _ iht ihu | @obj n t u _ _ iht ihu =>
    have hin := @iht { s with depth := s.depth + 1 } (hs.of_depth _) hd hp (by simp only; omega)
      (by simp only; omega)
    exact (feed_bracket hs hd hp h2 (by omega) (by decide) (by decide) hin u).trans (ihu hs hd hp h2 h)

end

/-! ## literals and numbers -/

/-- the state within a literal or a number, after `n` bytes -/
def within (s : Scan) (k : PrimKind) (n : Nat) : Scan :=
  { s with phase := .primitive, primitiveKind := k, lit := n }

/-- a value that is no string spoils a model and a salt -/
def spoil (s : Scan) : Scan :=
  { s with modelInvalid := s.modelInvalid || decide (s.key = .model)
           saltInvalid := s.saltInvalid || decide (s.key = .salt) }

theorem atomic_class (h : isAtomic c = true) :
    (decide (48 ≤ c ∧ c ≤ 57) || isLetter c || c == 46 || c == 43 || c == 45) = true := by
  simp only [isAtomic, Bool.or_eq_true, decide_eq_true_eq, beq_iff_eq] at h
  simp only [isLetter, Bool.or_eq_true, decide_eq_true_eq, beq_iff_eq]
  rcases h with ((((h | h) | h) | h) | h) | h
  · exact .inl (.inl (.inl (.inl h)))
  · exact .inl (.inl (.inl (.inr (.inr h))))
  · exact .inl (.inr h)
  · exact .inr h
  · exact .inl (.inl (.inr h))
  · subst h
    exact .inl (.inl (.inl (.inr (.inl (by decide)))))

theorem primitiveByte_within (hc : isAtomic c = true) (hk : k = .number ∨
    (literal k)[n]? = some c) :
    (s.within k n).primitiveByte c = s.within k (n + 1) := by
  have hlit : ¬ ((s.within k n).primitiveKind ≠ .number ∧
      (literal (s.within k n).primitiveKind)[(s.within k n).lit]? ≠ some c) := fun h =>
    hk.elim h.1 h.2
  rw [primitiveByte, if_neg (by rw [atomic_class hc]; decide), if_neg hlit]
  rfl

theorem blank_of_atomic (h : isAtomic c = true) : isBlank c = false := by
  have hne : ∀ x, isAtomic x = false → c ≠ x := fun x hx => atomic_ne h hx
  simp only [isBlank, Bool.or_eq_false_iff, beq_eq_false_iff_ne]
  exact ⟨⟨⟨hne 32 rfl, hne 9 rfl⟩, hne 10 rfl⟩, hne 13 rfl⟩

theorem feed_within (hs : s.Idle) (hd : s.done = false) (ha : ∀ c ∈ t, isAtomic c = true)
    (hk : k = .number ∨ (literal k).drop n = t) :
    (s.within k n).feed t = s.within k (n + t.length) := by
  induction t generalizing n with
  | nil => rfl
  | cons c t ih =>
    have hc := ha c mem_cons_self
    have hend : ¬ (c = comma ∨ c = rbrace) := not_or.mpr ⟨atomic_ne hc rfl, atomic_ne hc rfl⟩
    have hstep : (s.within k n).byte c = s.within k (n + 1) := by
      rw [byte_token (s := s.within k n) { hs with } hd (blank_of_atomic hc)]
      refine (if_neg hend).trans ?_
      refine primitiveByte_within hc (hk.imp_right fun h => ?_)
      rw [← head?_drop, h]
      rfl
    have hk' : k = .number ∨ (literal k).drop (n + 1) = t := hk.imp_right fun h => by
      rw [← tail_drop, h]
      rfl
    rw [feed_cons (by exact hs.error), hstep, ih (fun x hx => ha x (mem_cons_of_mem _ hx)) hk',
      length_cons, add_assoc, add_comm 1]

/-! ## the value of a key -/

/-- in the object at the top, at one of its places -/
structure Ready (s : Scan) (p : Phase) : Prop extends s.Idle where
  depth : s.depth = 1
  done : s.done = false
  phase : s.phase = p

theorem Ready.byte_key (hs : s.Ready .key) (hc : isBlank c = false) : s.byte c = s.keyByte c := by
  rw [byte_token hs.toIdle hs.done hc, token, hs.phase]

theorem Ready.byte_value (hs : s.Ready .value) (hc : isBlank c = false) :
    s.byte c = s.valueByte c := by
  rw [byte_token hs.toIdle hs.done hc, token, hs.phase]

theorem Ready.byte_after (hs : s.Ready .after) (hc : isBlank c = false) :
    s.byte c = s.afterByte c := by
  rw [byte_token hs.toIdle hs.done hc, token, hs.phase]

theorem Ready.blanks {p : Phase} (hs : s.Ready p) (hp : p ≠ .primitive) (w : Ws) :
    s.feed w.bytes = s := feed_blanks hs.toIdle (by rw [hs.phase]; exact hp) w

/-- a number ends where the next token begins -/
def settle (s : Scan) : Scan := if s.phase = .primitive then s.primitiveEnd else s
def kept (s : Scan) : Bool × Bool × Bytes := (s.modelInvalid, s.modelReady, s.model)

/-- what the scan does with a value: `kept` where it is the model's -/
structure Took (s t : Scan) (kept : Bool × Bool × Bytes) : Prop where
  idle : t.Idle
  done : t.done = false
  depth : t.depth = 1
  settled : t.settle.Ready .after
  modelSeen : t.settle.modelSeen = s.modelSeen
  userSeen : t.settle.userSeen = s.userSeen
  kept : t.settle.kept = if s.key = .model then kept else s.kept

theorem took_of_ready {t : Scan} {k : Bool × Bool × Bytes} (ht : t.Ready .after)
    (hm : t.modelSeen = s.modelSeen) (hu : t.userSeen = s.userSeen)
    (hk : t.kept = if s.key = .model then k else s.kept) : Took s t k := by
  have hsettle : t.settle = t := if_neg (by rw [ht.phase]; exact nofun)
  exact ⟨ht.toIdle, ht.done, ht.depth, by rw [hsettle]; exact ht, by rw [hsettle, hm],
    by rw [hsettle, hu], by rw [hsettle, hk]⟩

theorem valueByte_spoil (s : Scan) (hq : c ≠ quote) : s.valueByte c =
      if c = lbrace ∨ c = lbracket then { s.spoil with depth := s.depth + 1, phase := .nested }
      else (s.spoil.within (primitiveStart c) 0).primitiveByte c := by
  unfold valueByte spoil within
  cases hk : s.key <;> simp [hq, hk]

def atomKind : Atom → PrimKind
  | .null => .null
  | .bool true => .true
  | .bool false => .false
  | .num _ => .number

theorem digit_start (d : Fin 10) : primitiveStart (digitByte d) = .number := by
  revert d
  decide

theorem number_start (n : Number) : ∃ c t, n.bytes = c :: t ∧ primitiveStart c = .number := by
  unfold Number.bytes
  cases hd : n.whole.digits with
  | nil => exact absurd hd n.whole.nonempty
  | cons d ds =>
    cases n.neg with
    | true => exact ⟨_, _, rfl, rfl⟩
    | false => exact ⟨_, _, rfl, digit_start d⟩

theorem atom_start (a : Atom) : ∃ c t, a.bytes = c :: t ∧ primitiveStart c = atomKind a ∧
    (atomKind a = .number ∨ literal (atomKind a) = c :: t) := by
  cases a with
  | null => exact ⟨_, _, rfl, rfl, .inr rfl⟩
  | bool b => cases b <;> exact ⟨_, _, rfl, rfl, .inr rfl⟩
  | num n =>
    obtain ⟨c, t, hn, hc⟩ := number_start n
    exact ⟨c, t, hn, hc, .inl rfl⟩

theorem feed_atom (hs : s.Ready .value) (a : Atom) :
    s.feed a.bytes = s.spoil.within (atomKind a) a.bytes.length := by
  obtain ⟨c, t, ha, hc, hk⟩ := atom_start a
  have hat : ∀ x ∈ c :: t, isAtomic x = true := fun x hx => Atom.atomic (ha ▸ hx)
  have hc' := hat c mem_cons_self
  have hopen : ¬ (c = lbrace ∨ c = lbracket) := not_or.mpr ⟨atomic_ne hc' rfl, atomic_ne hc' rfl⟩
  have hfirst : s.byte c = s.spoil.within (atomKind a) 1 := by
    rw [hs.byte_value (blank_of_atomic hc'), valueByte_spoil s (atomic_ne hc' rfl), if_neg hopen, hc]
    refine primitiveByte_within hc' (hk.imp_right fun h => ?_)
    rw [h]
    rfl
  rw [ha, feed_cons hs.error, hfirst, feed_within (s := s.spoil) { hs with } hs.done
    (fun x hx => hat x (mem_cons_of_mem _ hx)), length_cons, add_comm]
  exact hk.imp_right fun h => by rw [h]; rfl

theorem spoil_kept (s : Scan) (h : s.key = .model → s.kept = (false, false, [])) :
    s.spoil.kept = if s.key = .model then (true, false, []) else s.kept := by
  by_cases hk : s.key = .model
  · have h' := h hk
    simp only [Scan.kept, Prod.mk.injEq] at h'
    simp [Scan.kept, spoil, hk, h']
  · simp [Scan.kept, spoil, hk]

section
variable (hs : s.Ready .value) (h : s.key = .model → s.kept = (false, false, []))
include hs h

theorem took_atom (a : Atom) : Took s (s.feed a.bytes) (true, false, []) := by
  have hlit : ¬ (atomKind a ≠ .number ∧
      (atomKind a = .unknown ∨ a.bytes.length ≠ (literal (atomKind a)).length)) := by
    cases a with
    | null => decide
    | bool b => cases b <;> decide
    | num n => exact fun h => h.1 rfl
  have hsettle : (s.spoil.within (atomKind a) a.bytes.length).settle =
      { s.spoil.within (atomKind a) a.bytes.length with phase := .after } :=
    Eq.trans (if_pos rfl) (if_neg hlit)
  rw [feed_atom hs a]
  refine ⟨{ hs with }, hs.done, hs.depth, ?_, ?_, ?_, ?_⟩ <;> rw [hsettle]
  · exact ⟨{ hs with }, hs.depth, hs.done, rfl⟩
  · rfl
  · rfl
  · exact spoil_kept s h

theorem took_bracket (ho : o = lbrace ∨ o = lbracket) (he : e = rbrace ∨ e = rbracket)
    (ht : Skips n t) (hn : n + 2 < depthMax) :
    Took s (s.feed (o :: t ++ [e])) (true, false, []) := by
  have hq : o ≠ quote := by rcases ho with rfl | rfl <;> decide
  have hopen : s.byte o = { s.spoil with depth := 2, phase := .nested } := by
    rw [hs.byte_value (by rcases ho with rfl | rfl <;> rfl), valueByte_spoil s hq, if_pos ho, hs.depth]
  have hfeed : s.feed (o :: t ++ [e]) = { s.spoil with depth := 1, phase := .after } := by
    have hidle : ({ s.spoil with depth := 2, phase := .nested } : Scan).Idle := { hs with }
    rw [cons_append, feed_cons hs.error, hopen, feed_append,
      feed_nested hidle hs.done rfl ht (le_refl 2) (by simp only; omega), feed_cons hidle.error,
      byte_close hidle hs.done rfl he]
    rfl
  rw [hfeed]
  exact took_of_ready ⟨{ hs with }, rfl, hs.done, rfl⟩ rfl rfl (spoil_kept s h)

end

/-! ## strings that are kept -/

theorem decode_length {x : Str} (h : decode x = some t) : (strBytes x).length ≤ 6 * t.length := by
  have pos : ∀ c, 1 ≤ (String.utf8EncodeChar c).length := fun c =>
    length_pos_iff.mpr String.utf8EncodeChar_ne_nil
  fun_induction decode x generalizing t with
  | case1 => exact Nat.zero_le _
  | case2 c hc x ih =>
    obtain ⟨r, hr, rfl⟩ := map_eq_some_iff.mp h
    have := ih hr
    rw [strBytes_cons, length_append, length_append, Piece.bytes]
    omega
  | case3 e x ih =>
    obtain ⟨r, hr, rfl⟩ := map_eq_some_iff.mp h
    have := ih hr
    rw [strBytes_cons, length_append, length_cons]
    change 2 + _ ≤ _
    omega
  | case4 u hu l x hl ih =>
    obtain ⟨r, hr, rfl⟩ := map_eq_some_iff.mp h
    have := ih hr
    have h4 : (utf8 (pairVal u l)).length = 4 := by
      have hbig : 0x10000 ≤ pairVal u l := by
        unfold pairVal
        omega
      rw [← emit_eq_utf8 (pair_eq hu hl).2, kvJsonUtf8Emit, if_neg (by omega), if_neg (by omega),
        if_neg (by omega)]
      rfl
    rw [strBytes_cons, strBytes_cons, length_append, length_append, length_append]
    change 6 + (6 + _) ≤ _
    omega
  | case5 | case6 | case7 => cases h
  | case8 u x hu hl ih =>
    obtain ⟨r, hr, rfl⟩ := map_eq_some_iff.mp h
    have := ih hr
    have hpos := pos (Char.ofNat u.val)
    rw [strBytes_cons, length_append, length_append, utf8]
    change 6 + _ ≤ _
    omega

theorem reads_fits {p : Bytes} (h : p.length ≤ rawCap) :
    s.reads p = { s with raw := p, overflow := false } := by
  rw [reads, take_of_length_le h, decide_eq_false (not_lt.mpr h)]

theorem spells_reads (s : Scan) (x : Str) (name : String) (ht : (ascii name).length < fieldCap) :
    (s.reads (strBytes x)).spells name = decide (decode x = some (ascii name)) := by
  by_cases h : (strBytes x).length ≤ rawCap
  · rw [reads_fits h]
    exact Bool.eq_iff_iff.mpr ((jsonStrEq_iff x _).trans (decide_eq_true_iff).symm)
  · have hne : decode x ≠ some (ascii name) := fun hd => by
      have := decode_length hd
      unfold rawCap at h
      unfold fieldCap at ht
      omega
    rw [decide_eq_false hne, reads, decide_eq_true (Nat.lt_of_not_le h)]
    rfl

end Scan

/-- the text of a model: a string of fewer than 128 bytes that spells no NUL -/
def modelText : Value → Option Bytes
  | .str x => (decode x).filter fun t => decide (t.length < fieldCap) && !t.contains 0
  | _ => none

namespace Scan

variable {s t : Scan} {k : Bool × Bool × Bytes}

/-- what is known of a model after its value -/
def verdict (text : Option Bytes) : Bool × Bool × Bytes :=
  match text with
  | some t => (false, true, t)
  | none => (true, false, [])

theorem modelEnd_reads (h : s.kept = (false, false, [])) (x : Str) :
    ((s.reads (strBytes x)).modelEnd).kept = verdict (modelText (.str x)) := by
  simp only [kept, Prod.mk.injEq] at h
  by_cases hfit : (strBytes x).length ≤ rawCap
  · rw [reads_fits hfit]
    obtain ⟨u, hu⟩ : ∃ u, kvJsonUnescapeCopy (strBytes x) fieldCap = u := ⟨_, rfl⟩
    by_cases hok : u.contains 0 = false ∧ jsonStrEq (strBytes x) u = true
    · have hd := (jsonStrEq_iff x _).mp hok.2
      have hlen : u.length < fieldCap := by
        rw [← hu]
        exact Nat.lt_of_le_pred (by decide) unescapeCopy_length
      have htext : modelText (.str x) = some u := by
        rw [modelText, hd, filter_some]
        rw [decide_eq_true hlen, hok.1]
        rfl
      rw [htext]
      simp only [modelEnd, kept, verdict, hu, hok.1, hok.2, h.1, Bool.not_true, Bool.or_self, Bool.false_eq_true,
        if_false, Bool.not_false]
    · have hnone : modelText (.str x) = none := by
        refine filter_eq_none_iff.mpr fun t ht hp => hok ?_
        simp only [Bool.and_eq_true, decide_eq_true_eq, Bool.not_eq_true'] at hp
        rw [← hu, unescapeCopy_eq (by decide) ht hp.1]
        exact ⟨hp.2, (jsonStrEq_iff x t).mpr ht⟩
      rw [hnone]
      have hbad : (u.contains 0 || !jsonStrEq (strBytes x) u) = true := by
        rw [Bool.or_eq_true, Bool.not_eq_true']
        by_contra hno
        rw [not_or, Bool.not_eq_true, Bool.not_eq_false] at hno
        exact hok hno
      simp only [modelEnd, kept, verdict, hu, hbad, if_true, Bool.not_true, Bool.false_eq_true, if_false]
  · have hnone : modelText (.str x) = none := by
      refine filter_eq_none_iff.mpr fun t ht hp => ?_
      simp only [Bool.and_eq_true, decide_eq_true_eq] at hp
      have := decode_length ht
      unfold rawCap at hfit
      unfold fieldCap at hp
      omega
    rw [hnone]
    simp [modelEnd, kept, verdict, reads, Nat.lt_of_not_le hfit]

/-- the kind of string a key's value is read as -/
def valueKind : KeyKind → StrKind
  | .model => .model
  | .user => .user
  | .salt => .salt
  | .other => .skip

theorem valueByte_quote (s : Scan) :
    s.valueByte quote = { s with stringKind := valueKind s.key, raw := [], overflow := false } := by
  cases hk : s.key <;> simp [valueByte, valueKind, hk]

theorem feed_str (hs : s.Ready .value) (x : Str) : s.feed (quote :: strBytes x ++ [quote]) =
      if s.key = .other then
        { s with raw := [], overflow := false, phase := .after }
      else ({ s with stringKind := valueKind s.key }.reads (strBytes x)).stringEnd := by
  rw [cons_append, feed_cons hs.error, hs.byte_value rfl, valueByte_quote, feed_append]
  by_cases hk : s.key = .other
  · have hkind : valueKind s.key = .skip := by rw [hk]; rfl
    have hskip := feed_skip (strBytes_inside x)
      (s := { s with stringKind := .skip, raw := [], overflow := false }) rfl hs.escaped hs.error
    rw [if_pos hk, hkind, hskip, feed_cons (by exact hs.error),
      byte_end (by exact nofun) (by exact hs.escaped)]
    simp only [stringEnd, hs.depth, if_true, hs.string]
    rfl
  · have hkind : valueKind s.key ≠ .none ∧ valueKind s.key ≠ .skip := by
      revert hk
      cases s.key <;> simp [valueKind]
    have hread := feed_reads (strBytes_inside x) (s := { s with stringKind := valueKind s.key })
      hkind.1 hkind.2 hs.escaped hs.error []
    change ((({ s with stringKind := valueKind s.key } : Scan).reads []).feed (strBytes x)).feed [quote] = _
    rw [if_neg hk, hread, feed_cons (by exact hs.error), byte_end (by exact hkind.1) (by exact hs.escaped)]
    rfl

section
variable (he : s.error = none) (hd : s.done = false) (h1 : s.depth = 1) (hesc : s.escaped = false)
include he hd h1 hesc

theorem modelEnd_ready : s.modelEnd.Ready .after ∧ s.modelEnd.modelSeen = s.modelSeen ∧
      s.modelEnd.userSeen = s.userSeen := by
  unfold modelEnd
  dsimp only
  repeat' split
  all_goals exact ⟨⟨⟨he, rfl, hesc⟩, h1, hd, rfl⟩, rfl, rfl⟩

theorem saltEnd_ready : s.saltEnd.Ready .after ∧ s.saltEnd.modelSeen = s.modelSeen ∧
      s.saltEnd.userSeen = s.userSeen ∧ s.saltEnd.kept = s.kept := by
  unfold saltEnd
  split <;> exact ⟨⟨⟨he, rfl, hesc⟩, h1, hd, rfl⟩, rfl, rfl, rfl⟩

end

section
variable (hs : s.Ready .value) (h : s.key = .model → s.kept = (false, false, []))
include hs h

theorem took_str (x : Str) :
    Took s (s.feed (quote :: strBytes x ++ [quote])) (verdict (modelText (.str x))) := by
  have hkept : ∀ {k : KeyKind}, s.key = k → k ≠ .model →
      s.kept = if s.key = .model then verdict (modelText (.str x)) else s.kept := fun hk hne => by
    rw [if_neg (by rw [hk]; exact hne)]
  rw [feed_str hs x]
  cases hk : s.key with
  | other =>
    exact took_of_ready ⟨{ hs with }, hs.depth, hs.done, rfl⟩ rfl rfl (hkept hk nofun)
  | model =>
    obtain ⟨hr, hm, hu⟩ := modelEnd_ready
      (s := { s with stringKind := .model, key := .model }.reads (strBytes x)) hs.error hs.done hs.depth hs.escaped
    refine took_of_ready hr hm hu ?_
    rw [if_pos hk]
    exact modelEnd_reads (s := { s with stringKind := .model, key := .model }) (h hk) x
  | user =>
    exact took_of_ready ⟨⟨hs.error, rfl, hs.escaped⟩, hs.depth, hs.done, rfl⟩ rfl rfl
      (hkept hk nofun)
  | salt =>
    obtain ⟨hr, hm, hu, hkeep⟩ := saltEnd_ready
      (s := { s with stringKind := .salt, key := .salt }.reads (strBytes x)) hs.error hs.done hs.depth hs.escaped
    exact took_of_ready hr hm hu (hkeep.trans (hkept hk nofun))

/-- **a value of the object at the top** -/
theorem feed_value (v : Value) (hv : v.depth + 1 < depthMax) :
    Took s (s.feed v.bytes) (verdict (modelText v)) := by
  cases v with
  | atom a => exact took_atom hs h a
  | str x => exact took_str hs h x
  | arr w es =>
    exact took_bracket hs h (.inr rfl) (.inr rfl) (w.skips.append (elemsBytes_skips es (le_refl _))) hv
  | obj w ms =>
    exact took_bracket hs h (.inl rfl) (.inl rfl) (w.skips.append (membersBytes_skips ms (le_refl _))) hv

end

theorem feed_settle (h : Took s t k) (w : Ws) {c : UInt8} (hc : c = comma ∨ c = rbrace)
    (bs : Bytes) : t.feed (w.bytes ++ c :: bs) = (t.settle.afterByte c).feed bs := by
  have hblank : isBlank c = false := by rcases hc with rfl | rfl <;> rfl
  have hafter : t.settle.feed (c :: bs) = (t.settle.afterByte c).feed bs := by
    rw [feed_cons h.settled.error, h.settled.byte_after hblank]
  by_cases hp : t.phase = .primitive
  · have hset : t.settle = t.primitiveEnd := if_pos hp
    cases w with
    | nil =>
      change t.feed (c :: bs) = _
      rw [feed_cons h.idle.error, byte_token h.idle h.done hblank, token, hp]
      change Scan.feed (if c = comma ∨ c = rbrace then
        if t.primitiveEnd.error.isSome then t.primitiveEnd else t.primitiveEnd.afterByte c
        else t.primitiveByte c) bs = _
      rw [if_pos hc, ← hset, if_neg (by rw [h.settled.error]; decide)]
    | cons b w =>
      have hb : isBlank b.byte = true := by cases b <;> rfl
      have hfirst : t.byte b.byte = t.settle := by
        rw [byte, if_neg (not_not_intro h.idle.string), if_pos hb, if_pos hp, hset]
      change t.feed (b.byte :: (Ws.bytes w ++ c :: bs)) = _
      rw [feed_cons h.idle.error, hfirst, feed_append, h.settled.blanks nofun, hafter]
  · have hset : t.settle = t := if_neg hp
    rw [feed_append, feed_blanks h.idle hp, ← hafter, hset]

end Scan

end SpJson
