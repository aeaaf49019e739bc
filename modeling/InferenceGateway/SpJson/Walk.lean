import InferenceGateway.Lib.Text
import InferenceGateway.SpJson.Unescape
import Mathlib.Data.List.Forall2

/-!
# The walk over the direct keys of an object

`json_top_walk` follows quotes, escapes and brackets once over a body and hands each occurrence of a
direct key to a visitor.  On every JSON object it visits exactly the members of that name, in order,
with the offsets of their keys and values (`jsonTopWalk_doc`).
-/

open List

namespace SpJson

open Json Text

/-! ## the extent of a value -/

/-- the loop over a value in brackets: one past its closing bracket -/
def bracketExtent (opening closing : UInt8) : Int → Bool → Bool → Nat → Bytes → Option Nat
  | _, _, _, _, [] => none
  | depth, instr, esc, q, ch :: rest =>
    if esc then bracketExtent opening closing depth instr false (q + 1) rest
    else if ch = backslash then bracketExtent opening closing depth instr true (q + 1) rest
    else if instr then bracketExtent opening closing depth (ch != quote) false (q + 1) rest
    else if ch = quote then bracketExtent opening closing depth true false (q + 1) rest
    else if ch = opening then bracketExtent opening closing (depth + 1) instr false (q + 1) rest
    else if ch = closing then
      if depth - 1 = 0 then some (q + 1)
      else bracketExtent opening closing (depth - 1) instr false (q + 1) rest
    else bracketExtent opening closing depth instr false (q + 1) rest

def stringExtent : Bool → Nat → Bytes → Option Nat
  | _, _, [] => none
  | esc, q, ch :: rest =>
    if esc then stringExtent false (q + 1) rest
    else if ch = backslash then stringExtent true (q + 1) rest
    else if ch = quote then some (q + 1)
    else stringExtent false (q + 1) rest

/-- a byte that ends a literal or a number -/
def isDelim (c : UInt8) : Bool := c == comma || c == rbrace || c == rbracket || isBlank c

/-- one past the value that begins at `vs`, `json_value_extent` -/
def jsonValueExtent (body : Bytes) (vs : Nat) : Option Nat :=
  match body[vs]? with
  | none => none
  | some c =>
    if c = lbrace then bracketExtent lbrace rbrace 0 false false vs (body.drop vs)
    else if c = lbracket then bracketExtent lbracket rbracket 0 false false vs (body.drop vs)
    else if c = quote then stringExtent false (vs + 1) (body.drop (vs + 1))
    else some (vs + ((body.drop vs).takeWhile fun c => !isDelim c).length)

/-! ## the walk -/

/-- the offsets of a key between its quotes and of its value -/
structure Span where
  (ks ke vs ve : Nat)
  deriving DecidableEq

/-- a visitor goes on or stops; it may rewrite the body -/
abbrev Visit (σ : Type) := Bytes → Span → σ → Bool × Bytes × σ

inductive WalkRc where
  | stopped
  | ended (rootClose : Nat)
  | incomplete
  deriving DecidableEq

structure TopWalk where
  depth : Int
  (instr esc expectValue keyMatched : Bool)
  (strStart keyS keyE : Nat)

def TopWalk.start : TopWalk := ⟨0, false, false, false, false, 0, 0, 0⟩

inductive TopNext (σ : Type) where
  | go (w : TopWalk) (body : Bytes) (ctx : σ)
  | ret (rc : WalkRc) (body : Bytes) (ctx : σ)

def skipBlanks (body : Bytes) (p : Nat) : Nat := p + ((body.drop p).takeWhile isBlank).length

section
variable {σ : Type} (key : Bytes) (visit : Visit σ)

/-- the walk at the byte `c` at `p` -/
def TopWalk.byte (w : TopWalk) (body : Bytes) (ctx : σ) (p : Nat) (c : UInt8) : TopNext σ :=
  if w.instr then
    if w.esc then .go { w with esc := false } body ctx
    else if c = backslash then .go { w with esc := true } body ctx
    else if c = quote then
      if w.depth = 1 ∧ w.expectValue = false then
        .go { w with instr := false, keyS := w.strStart, keyE := p
                     keyMatched := jsonStrEq (slice body w.strStart p) key } body ctx
      else .go { w with instr := false } body ctx
    else .go w body ctx
  else if c = quote then .go { w with instr := true, esc := false, strStart := p + 1 } body ctx
  else if c = colon then
    if w.depth = 1 then
      if w.keyMatched then
        let vs := skipBlanks body (p + 1)
        match jsonValueExtent body vs with
        | none => .ret .incomplete body ctx
        | some ve =>
          let r := visit body ⟨w.keyS, w.keyE, vs, ve⟩ ctx
          if r.1 then .go { w with keyMatched := false, expectValue := true } r.2.1 r.2.2
          else .ret .stopped r.2.1 r.2.2
      else .go { w with expectValue := true } body ctx
    else .go w body ctx
  else if c = comma then
    if w.depth = 1 then .go { w with expectValue := false, keyMatched := false } body ctx
    else .go w body ctx
  else if c = lbrace ∨ c = lbracket then .go { w with depth := w.depth + 1 } body ctx
  else if c = rbrace ∨ c = rbracket then
    if w.depth - 1 = 0 then .ret (.ended p) body ctx
    else .go { w with depth := w.depth - 1 } body ctx
  else .go w body ctx

def walkLoop : Nat → TopWalk → Bytes → σ → Nat → WalkRc × Bytes × σ
  | 0, _, body, ctx, _ => (.incomplete, body, ctx)
  | n + 1, w, body, ctx, p =>
    match body[p]? with
    | none => (.incomplete, body, ctx)
    | some c =>
      match w.byte key visit body ctx p c with
      | .ret rc body ctx => (rc, body, ctx)
      | .go w body ctx => walkLoop n w body ctx (p + 1)

/-- hand the value of every direct occurrence of a key to a visitor, `json_top_walk` -/
def jsonTopWalk (body : Bytes) (ctx : σ) : WalkRc × Bytes × σ :=
  let p := skipBlanks body 0
  if body[p]? = some lbrace then walkLoop key visit (body.length - p) .start body ctx p
  else (.incomplete, body, ctx)

end

def jsonTopFirst : Visit (Option (Nat × Nat)) := fun body s _ => (false, body, some (s.vs, s.ve))
def jsonTopLast : Visit (Option (Nat × Nat)) := fun body s _ => (true, body, some (s.vs, s.ve))

inductive TopFound where
  | found (vs ve : Nat)
  | absent (rootClose : Nat)
  | incomplete
  deriving DecidableEq

/-- the value of the first direct occurrence of a key, `json_top_find` -/
def jsonTopFind (body key : Bytes) : TopFound :=
  match jsonTopWalk key jsonTopFirst body none with
  | (.stopped, _, some (vs, ve)) => .found vs ve
  | (.stopped, _, none) => .incomplete
  | (.ended close, _, _) => .absent close
  | (.incomplete, _, _) => .incomplete

/-! ## the extent of a value of the grammar -/

def Brackets (o c : UInt8) : Prop := (o = lbrace ∧ c = rbrace) ∨ (o = lbracket ∧ c = rbracket)
theorem brackets_arr : Brackets lbracket rbracket := .inr ⟨rfl, rfl⟩
theorem brackets_obj : Brackets lbrace rbrace := .inl ⟨rfl, rfl⟩

theorem length_enclosed (o c : UInt8) (t s : Bytes) : (o :: t ++ c :: s).length = t.length + 2 + s.length := by
  simp only [length_append, length_cons]
  omega

theorem quiet_ne {b x : UInt8} (h : isQuiet b = true) (hx : isQuiet x = false) : b ≠ x := by
  rintro rfl
  rw [h] at hx
  cases hx

section
variable {o c : UInt8}

theorem bracketExtent_inside {s : Bytes} (hs : Inside s) (depth : Int) (q : Nat) (rest : Bytes) :
    bracketExtent o c depth true false q (s ++ quote :: rest) =
      bracketExtent o c depth false false (q + s.length + 1) rest := by
  induction hs generalizing q with
  | nil => rfl
  | @byte b s _ hq hbs _ ih =>
    have hne : (b != quote) = true := bne_iff_ne.mpr hq
    rw [cons_append, bracketExtent, if_neg Bool.false_ne_true, if_neg hbs, if_pos rfl, hne, ih,
      length_cons]
    congr 1
    omega
  | @esc b s _ _ ih =>
    rw [cons_append, cons_append, bracketExtent, if_neg Bool.false_ne_true, if_pos rfl,
      bracketExtent, if_pos rfl, ih, length_cons, length_cons]
    congr 1
    omega

theorem bracketExtent_other {b : UInt8} (hq : b ≠ quote) (hbs : b ≠ backslash) (ho : b ≠ o) (hc : b ≠ c)
    (depth : Int) (q : Nat) (rest : Bytes) :
    bracketExtent o c depth false false q (b :: rest) =
      bracketExtent o c depth false false (q + 1) rest := by
  rw [bracketExtent, if_neg Bool.false_ne_true, if_neg hbs, if_neg Bool.false_ne_true, if_neg hq,
    if_neg ho, if_neg hc]

variable (hb : Brackets o c)
include hb

theorem bracketExtent_open (depth : Int) (q : Nat) (rest : Bytes) :
    bracketExtent o c depth false false q (o :: rest) =
      bracketExtent o c (depth + 1) false false (q + 1) rest := by
  rcases hb with ⟨rfl, rfl⟩ | ⟨rfl, rfl⟩ <;> rfl

theorem bracketExtent_close (depth : Int) (q : Nat) (rest : Bytes) :
    bracketExtent o c depth false false q (c :: rest) =
      if depth - 1 = 0 then some (q + 1)
      else bracketExtent o c (depth - 1) false false (q + 1) rest := by
  rcases hb with ⟨rfl, rfl⟩ | ⟨rfl, rfl⟩ <;> rfl

theorem bracketExtent_nested {o' c' : UInt8} (hb' : Brackets o' c') {t : Bytes} {depth : Int}
    (hd : 1 ≤ depth)
    (ih : ∀ (depth : Int) (q : Nat) (rest : Bytes), 1 ≤ depth →
      bracketExtent o c depth false false q (t ++ rest) =
        bracketExtent o c depth false false (q + t.length) rest) (q : Nat) (rest : Bytes) :
    bracketExtent o c depth false false q (o' :: t ++ c' :: rest) =
      bracketExtent o c depth false false (q + t.length + 2) rest := by
  by_cases hsame : o' = o
  · have hc : c' = c := by
      rcases hb with ⟨rfl, rfl⟩ | ⟨rfl, rfl⟩ <;> rcases hb' with ⟨rfl, rfl⟩ | ⟨rfl, rfl⟩ <;>
        first | rfl | exact absurd hsame (by decide)
    rw [hsame, hc, cons_append, bracketExtent_open hb, ih _ _ _ (by omega), bracketExtent_close hb,
      if_neg (by omega)]
    congr 1
    · omega
    · omega
  · have hother : o' ≠ quote ∧ o' ≠ backslash ∧ o' ≠ c ∧ c' ≠ quote ∧ c' ≠ backslash ∧ c' ≠ o ∧
        c' ≠ c := by
      rcases hb with ⟨rfl, rfl⟩ | ⟨rfl, rfl⟩ <;> rcases hb' with ⟨rfl, rfl⟩ | ⟨rfl, rfl⟩ <;>
        first | exact absurd rfl hsame | decide
    obtain ⟨h1, h2, h3, h4, h5, h6, h7⟩ := hother
    rw [cons_append, bracketExtent_other h1 h2 hsame h3, ih _ _ _ hd,
      bracketExtent_other h4 h5 h6 h7]
    congr 1
    omega

theorem bracketExtent_skips {d : Nat} {s : Bytes} (hs : Skips d s) (depth : Int) (q : Nat) (rest : Bytes)
    (hd : 1 ≤ depth) :
    bracketExtent o c depth false false q (s ++ rest) =
      bracketExtent o c depth false false (q + s.length) rest := by
  induction hs generalizing depth q rest with
  | nil => rfl
  | @byte _ b s hquiet _ ih =>
    have hne : b ≠ o ∧ b ≠ c := by
      rcases hb with ⟨rfl, rfl⟩ | ⟨rfl, rfl⟩ <;> exact ⟨quiet_ne hquiet rfl, quiet_ne hquiet rfl⟩
    rw [cons_append, bracketExtent_other (quiet_ne hquiet rfl) (quiet_ne hquiet rfl) hne.1 hne.2,
      ih _ _ _ hd, length_cons]
    congr 1
    omega
  | @str _ t s hi _ ih =>
    have hopen : bracketExtent o c depth false false q (quote :: t ++ quote :: s ++ rest) =
        bracketExtent o c depth true false (q + 1) (t ++ quote :: (s ++ rest)) := by
      rw [append_assoc]
      rfl
    rw [hopen, bracketExtent_inside hi, ih _ _ _ hd]
    congr 1
    simp only [length_append, length_cons]
    omega
  | @arr _ t s _ _ iht ih | @obj _ t s _ _ iht ih =>
    rw [length_enclosed, append_assoc]
    refine (bracketExtent_nested hb (by simp [Brackets]) hd iht q (s ++ rest)).trans ?_
    rw [ih _ _ _ hd, ← add_assoc, ← add_assoc]

theorem bracketExtent_value {d : Nat} {s : Bytes} (hs : Skips d s) (q : Nat) (rest : Bytes) :
    bracketExtent o c 0 false false q (o :: s ++ c :: rest) = some (q + s.length + 2) := by
  rw [cons_append, bracketExtent_open hb, bracketExtent_skips hb hs _ _ _ (by decide),
    bracketExtent_close hb, if_pos (by decide)]
  congr 1
  omega

end

theorem stringExtent_value {s : Bytes} (hs : Inside s) (q : Nat) (rest : Bytes) :
    stringExtent false q (s ++ quote :: rest) = some (q + s.length + 1) := by
  induction hs generalizing q with
  | nil => rfl
  | @byte b s _ hq hbs _ ih =>
    rw [cons_append, stringExtent, if_neg Bool.false_ne_true, if_neg hbs, if_neg hq, ih,
      length_cons]
    congr 1
    omega
  | @esc b s _ _ ih =>
    rw [cons_append, cons_append, stringExtent, if_neg Bool.false_ne_true, if_pos rfl,
      stringExtent, if_pos rfl, ih, length_cons, length_cons]
    congr 1
    omega

variable {c : UInt8} {v : Value} {key : Bytes} {ms : List Member}

theorem atomic_not_delim (h : isAtomic c = true) : (!isDelim c) = true := by
  simp only [isDelim, isBlank, Bool.not_eq_true', Bool.or_eq_false_iff, beq_eq_false_iff_ne]
  exact ⟨⟨⟨atomic_ne h rfl, atomic_ne h rfl⟩, atomic_ne h rfl⟩,
    ⟨⟨atomic_ne h rfl, atomic_ne h rfl⟩, atomic_ne h rfl⟩, atomic_ne h rfl⟩

theorem jsonValueExtent_enclosed {o : UInt8} (hb : Brackets o c) {body t u : Bytes} {vs d : Nat}
    (hs : Skips d t) (hdrop : body.drop vs = o :: t ++ [c] ++ u) :
    jsonValueExtent body vs = some (vs + (o :: t ++ [c]).length) := by
  have hfirst : body[vs]? = some o := by
    rw [← head?_drop, hdrop]
    rfl
  have hval := bracketExtent_value hb hs vs u
  have hlen : vs + (o :: t ++ [c]).length = vs + t.length + 2 := by
    rw [length_enclosed]
    rfl
  rw [hlen]
  unfold jsonValueExtent
  rw [hfirst, hdrop, append_assoc]
  rcases hb with ⟨rfl, rfl⟩ | ⟨rfl, rfl⟩ <;> exact hval

theorem valueExtent_eq {body : Bytes} {vs : Nat} (hc : isDelim c = true)
    (h : At body vs (v.bytes ++ [c])) : jsonValueExtent body vs = some (vs + v.bytes.length) := by
  obtain ⟨u, hu⟩ := h.drop
  rw [append_assoc, singleton_append] at hu
  cases v with
  | atom a =>
    obtain ⟨x, s, hx, hat⟩ := a.head
    have hfirst : body[vs]? = some x := by
      rw [Value.bytes, hx] at h
      exact h.head
    have htake : ((body.drop vs).takeWhile fun c => !isDelim c) = a.bytes := by
      rw [hu, Value.bytes, takeWhile_append_of_pos fun b hb => atomic_not_delim (Atom.atomic hb),
        takeWhile_cons_of_neg (by rw [hc]; decide), append_nil]
    unfold jsonValueExtent
    rw [hfirst]
    dsimp only
    rw [if_neg (atomic_ne hat rfl), if_neg (atomic_ne hat rfl), if_neg (atomic_ne hat rfl), htake]
    rfl
  | str s =>
    rw [Value.bytes] at h hu ⊢
    have hdrop : body.drop (vs + 1) = strBytes s ++ quote :: (c :: u) := by
      rw [← drop_drop, hu]
      simp
    unfold jsonValueExtent
    rw [h.head, hdrop]
    change stringExtent false (vs + 1) (strBytes s ++ quote :: (c :: u)) = _
    rw [stringExtent_value (strBytes_inside s)]
    simp only [length_append, length_cons, length_nil]
    congr 1
    omega
  | arr w es =>
    exact jsonValueExtent_enclosed brackets_arr (w.skips.append (elemsBytes_skips es (le_refl _))) hu
  | obj w ms =>
    exact jsonValueExtent_enclosed brackets_obj (w.skips.append (membersBytes_skips ms (le_refl _))) hu

/-! ## the walk over the bytes of the grammar -/

section
variable {σ : Type} {key : Bytes} {visit : Visit σ} {body : Bytes}

/-- the walk passes over `k` bytes and hands nothing to the visitor -/
def Goes (key : Bytes) (visit : Visit σ) (body : Bytes) (w : TopWalk) (p : Nat) (w' : TopWalk)
    (k : Nat) : Prop :=
  ∀ n ctx, walkLoop key visit (k + n) w body ctx p = walkLoop key visit n w' body ctx (p + k)

variable {w w' w'' : TopWalk} {p k l : Nat}

theorem Goes.refl : Goes key visit body w p w 0 := fun n ctx => by rw [zero_add, add_zero]

theorem Goes.trans (h : Goes key visit body w p w' k) (h' : Goes key visit body w' (p + k) w'' l) :
    Goes key visit body w p w'' (k + l) := fun n ctx => by
  rw [add_assoc, h, h', add_assoc]

variable {c : UInt8} {s : Bytes} {ws after : Ws} {v : Value}

theorem walkLoop_succ (hc : body[p]? = some c) (n : Nat) (ctx : σ) :
    walkLoop key visit (n + 1) w body ctx p =
      match w.byte key visit body ctx p c with
      | .ret rc body ctx => (rc, body, ctx)
      | .go w body ctx => walkLoop key visit n w body ctx (p + 1) := by
  rw [walkLoop, hc]

theorem Goes.byte {c : UInt8} (hc : body[p]? = some c)
    (hb : ∀ ctx, w.byte key visit body ctx p c = .go w' body ctx) : Goes key visit body w p w' 1 :=
  fun n ctx => by rw [add_comm, walkLoop_succ hc, hb]

theorem blank_ne {x : UInt8} (h : isBlank c = true) (hx : isBlank x = false) : c ≠ x := by
  rintro rfl
  rw [h] at hx
  cases hx

theorem goes_inside (hs : Inside s) (hat : At body p s) (hi : w.instr = true) (he : w.esc = false) :
    Goes key visit body w p w s.length := by
  induction hs generalizing p with
  | nil => exact .refl
  | @byte c s _ hq hb _ ih =>
    have hfirst : Goes key visit body w p w 1 := by
      refine .byte hat.head fun ctx => ?_
      unfold TopWalk.byte
      rw [hi, he, if_pos rfl, if_neg Bool.false_ne_true, if_neg hb, if_neg hq]
    rw [length_cons, add_comm]
    exact hfirst.trans (ih hat.tail)
  | @esc c s _ _ ih =>
    have hfirst : Goes key visit body w p { w with esc := true } 1 := by
      refine .byte hat.head fun ctx => ?_
      unfold TopWalk.byte
      rw [hi, he, if_pos rfl, if_neg Bool.false_ne_true, if_pos rfl]
    have hsecond : Goes key visit body { w with esc := true } (p + 1) w 1 := by
      refine .byte hat.tail.head fun ctx => ?_
      unfold TopWalk.byte
      rw [hi, if_pos rfl, if_pos rfl, ← he, ← hi]
    have hlen : (backslash :: c :: s).length = 1 + 1 + s.length := by
      simp only [length_cons]
      omega
    rw [hlen]
    exact (hfirst.trans hsecond).trans (ih hat.tail.tail)

theorem at_enclosed {o : UInt8} {t : Bytes} (h : At body p (o :: t ++ c :: s)) :
    At body p (o :: t ++ [c]) ∧ At body (p + (t.length + 2)) s := by
  have h' : At body p (o :: t ++ [c] ++ s) := by simpa using h
  have hright := h'.right
  rw [length_enclosed] at hright
  exact ⟨h'.left, hright⟩

section
variable (hi : w.instr = false) (he : w.esc = false)
include hi

theorem byte_quiet (hq : isQuiet c = true) (hcol : w.depth ≠ 1 ∨ c ≠ colon)
    (hcom : w.depth ≠ 1 ∨ c ≠ comma) (ctx : σ) :
    w.byte key visit body ctx p c = .go w body ctx := by
  have hl : ¬ (c = lbrace ∨ c = lbracket) := by
    rintro (hc | hc) <;> exact quiet_ne hq rfl hc
  have hr : ¬ (c = rbrace ∨ c = rbracket) := by
    rintro (hc | hc) <;> exact quiet_ne hq rfl hc
  unfold TopWalk.byte
  rw [hi, if_neg Bool.false_ne_true, if_neg (quiet_ne hq rfl), if_neg hl, if_neg hr]
  by_cases h1 : w.depth = 1
  · rw [if_neg (hcol.resolve_left (fun h => h h1)), if_neg (hcom.resolve_left (fun h => h h1))]
  · rw [if_neg h1, if_neg h1]
    simp

theorem goes_quiet (hat : At body p s) (hs : ∀ c ∈ s, isQuiet c = true)
    (hd : w.depth ≠ 1 ∨ ∀ c ∈ s, c ≠ colon ∧ c ≠ comma) : Goes key visit body w p w s.length := by
  induction s generalizing p with
  | nil => exact .refl
  | cons c s ih =>
    have hfirst : Goes key visit body w p w 1 := by
      refine .byte hat.head (byte_quiet hi (hs c mem_cons_self) ?_ ?_)
      · exact hd.imp id fun h => (h c mem_cons_self).1
      · exact hd.imp id fun h => (h c mem_cons_self).2
    have hrest := ih hat.tail (fun x hx => hs x (mem_cons_of_mem _ hx))
      (hd.imp id fun h x hx => h x (mem_cons_of_mem _ hx))
    rw [length_cons, add_comm]
    exact hfirst.trans hrest

theorem goes_blanks (hat : At body p ws.bytes) : Goes key visit body w p w ws.bytes.length :=
  goes_quiet hi hat (fun _ hc => quiet_of_blank (Ws.blank hc))
    (.inr fun _ hc => ⟨blank_ne (Ws.blank hc) rfl, blank_ne (Ws.blank hc) rfl⟩)

theorem goes_open (hc : c = lbrace ∨ c = lbracket) (hat : body[p]? = some c) :
    Goes key visit body w p { w with depth := w.depth + 1 } 1 := by
  refine .byte hat fun ctx => ?_
  have hne : c ≠ quote ∧ c ≠ colon ∧ c ≠ comma := by
    rcases hc with rfl | rfl <;> decide
  unfold TopWalk.byte
  rw [hi, if_neg Bool.false_ne_true, if_neg hne.1, if_neg hne.2.1, if_neg hne.2.2, if_pos hc]

theorem goes_close (hc : c = rbrace ∨ c = rbracket) (hat : body[p]? = some c) (hd : w.depth ≠ 1) :
    Goes key visit body w p { w with depth := w.depth - 1 } 1 := by
  refine .byte hat fun ctx => ?_
  have hne : c ≠ quote ∧ c ≠ colon ∧ c ≠ comma ∧ ¬ (c = lbrace ∨ c = lbracket) := by
    rcases hc with rfl | rfl <;> decide
  unfold TopWalk.byte
  rw [hi, if_neg Bool.false_ne_true, if_neg hne.1, if_neg hne.2.1, if_neg hne.2.2.1,
    if_neg hne.2.2.2, if_pos hc, if_neg (by omega)]

theorem goes_nested {o : UInt8} (hb : Brackets o c) {t : Bytes} (hat : At body p (o :: t ++ [c]))
    (hd : 1 ≤ w.depth) {x : Nat}
    (hin : Goes key visit body { w with depth := w.depth + 1 } (p + 1)
      { w with depth := w.depth + 1, strStart := x } t.length) :
    Goes key visit body w p { w with strStart := x } (t.length + 2) := by
  have hkind : (o = lbrace ∨ o = lbracket) ∧ (c = rbrace ∨ c = rbracket) := by
    rcases hb with ⟨h1, h2⟩ | ⟨h1, h2⟩
    · exact ⟨.inl h1, .inl h2⟩
    · exact ⟨.inr h1, .inr h2⟩
  have hopen : Goes key visit body w p { w with depth := w.depth + 1 } 1 :=
    goes_open hi hkind.1 hat.head
  have hclose : Goes key visit body { w with depth := w.depth + 1, strStart := x } (p + 1 + t.length)
      { w with depth := w.depth + 1 - 1, strStart := x } 1 :=
    goes_close hi hkind.2 hat.tail.right.head (by dsimp only; omega)
  rw [Int.add_sub_cancel] at hclose
  have hlen : t.length + 2 = 1 + (t.length + 1) := by omega
  rw [hlen]
  exact hopen.trans (hin.trans hclose)

include he

theorem goes_opened (hs : Inside s) (hat : At body p (quote :: s)) :
    Goes key visit body w p { w with instr := true, strStart := p + 1 } (1 + s.length) := by
  have hopen : Goes key visit body w p { w with instr := true, strStart := p + 1 } 1 := by
    refine .byte hat.head fun ctx => ?_
    unfold TopWalk.byte
    rw [hi, if_neg Bool.false_ne_true, if_pos rfl, ← he]
  exact hopen.trans (goes_inside hs hat.tail rfl he)

theorem goes_string (hs : Inside s) (hat : At body p (quote :: s ++ [quote]))
    (hk : w.depth ≠ 1 ∨ w.expectValue = true) :
    Goes key visit body w p { w with strStart := p + 1 } (s.length + 2) := by
  have hclose : Goes key visit body { w with instr := true, strStart := p + 1 } (p + (1 + s.length))
      { w with strStart := p + 1 } 1 := by
    rw [← add_assoc]
    refine .byte hat.tail.right.head fun ctx => ?_
    have hnot : ¬ (w.depth = 1 ∧ w.expectValue = false) := by
      rintro ⟨h1, h2⟩
      rcases hk with hk | hk
      · exact hk h1
      · rw [hk] at h2
        cases h2
    unfold TopWalk.byte
    rw [if_pos rfl, he, if_neg Bool.false_ne_true, if_neg (by decide), if_pos rfl, if_neg hnot, ← hi]
  have hlen : s.length + 2 = 1 + s.length + 1 := by omega
  rw [hlen]
  exact (goes_opened hi he hs hat.left).trans hclose

theorem goes_skips {d : Nat} (hs : Skips d s) (hat : At body p s) (hd : 2 ≤ w.depth) :
    ∃ x, Goes key visit body w p { w with strStart := x } s.length := by
  induction hs generalizing p w with
  | nil => exact ⟨w.strStart, .refl⟩
  | @byte _ c s hq _ ih =>
    obtain ⟨x, hx⟩ := ih hi he hat.tail hd
    have hfirst : Goes key visit body w p w 1 :=
      .byte hat.head (byte_quiet hi hq (.inl (by omega)) (.inl (by omega)))
    refine ⟨x, ?_⟩
    rw [length_cons, add_comm]
    exact hfirst.trans hx
  | @str _ t s ht _ ih =>
    obtain ⟨hleft, hright⟩ := at_enclosed hat
    have hfirst : Goes key visit body w p { w with strStart := p + 1 } (t.length + 2) :=
      goes_string hi he ht hleft (.inl (by omega))
    obtain ⟨x, hx⟩ := ih (w := { w with strStart := p + 1 }) hi he hright hd
    rw [length_enclosed]
    exact ⟨x, hfirst.trans hx⟩
  | @arr _ t s _ _ iht ih | @obj _ t s _ _ iht ih =>
    obtain ⟨hleft, hright⟩ := at_enclosed hat
    obtain ⟨x, hx⟩ := iht (w := { w with depth := w.depth + 1 }) hi he hleft.tail.left
      (by dsimp only; omega)
    have hfirst := goes_nested hi (by simp [Brackets]) hleft (by omega) hx
    obtain ⟨y, hy⟩ := ih (w := { w with strStart := x }) hi he hright hd
    rw [length_enclosed]
    exact ⟨y, hfirst.trans hy⟩

theorem goes_value (v : Value) (hat : At body p v.bytes) (hd : w.depth = 1)
    (hx : w.expectValue = true) :
    ∃ x, Goes key visit body w p { w with strStart := x } v.bytes.length := by
  cases v with
  | atom a =>
    refine ⟨w.strStart, goes_quiet hi hat (fun _ hc => quiet_of_atomic (Atom.atomic hc)) (.inr ?_)⟩
    exact fun _ hc => ⟨atomic_ne (Atom.atomic hc) rfl, atomic_ne (Atom.atomic hc) rfl⟩
  | str s =>
    have hlen : (Value.str s).bytes.length = (strBytes s).length + 2 := by simp [Value.bytes]
    rw [hlen]
    exact ⟨p + 1, goes_string hi he (strBytes_inside s) hat (.inr hx)⟩
  | arr ws es =>
    obtain ⟨x, hin⟩ := goes_skips (w := { w with depth := w.depth + 1 }) hi he
      (ws.skips.append (elemsBytes_skips es (le_refl _))) hat.tail.left (by dsimp only; omega)
    rw [Value.bytes, length_enclosed]
    exact ⟨x, goes_nested hi brackets_arr hat (by omega) hin⟩
  | obj ws ms =>
    obtain ⟨x, hin⟩ := goes_skips (w := { w with depth := w.depth + 1 }) hi he
      (ws.skips.append (membersBytes_skips ms (le_refl _))) hat.tail.left (by dsimp only; omega)
    rw [Value.bytes, length_enclosed]
    exact ⟨x, goes_nested hi brackets_obj hat (by omega) hin⟩

end

/-! ## a member -/

/-- where the key and the value of a member at `p` stand -/
def spanAt (p : Nat) : Member → Span
  | .mk before key mid gap v _ =>
    let ks := p + before.bytes.length + 1
    let ke := ks + (strBytes key).length
    let vs := ke + 1 + mid.bytes.length + 1 + gap.bytes.length
    ⟨ks, ke, vs, vs + v.bytes.length⟩

/-- the walk stands in the object, outside its keys and values -/
structure Between (w : TopWalk) (expect : Bool) : Prop where
  depth : w.depth = 1
  instr : w.instr = false
  esc : w.esc = false
  keyMatched : w.keyMatched = false
  expectValue : w.expectValue = expect

theorem value_head (v : Value) : ∃ c s, v.bytes = c :: s ∧ isBlank c = false := by
  cases v with
  | atom a =>
    obtain ⟨c, s, h, hc⟩ := a.head
    refine ⟨c, s, h, ?_⟩
    simp only [isBlank, Bool.or_eq_false_iff, beq_eq_false_iff_ne]
    exact ⟨⟨⟨atomic_ne hc rfl, atomic_ne hc rfl⟩, atomic_ne hc rfl⟩, atomic_ne hc rfl⟩
  | str | arr | obj => exact ⟨_, _, rfl, rfl⟩

theorem skipBlanks_eq (hc : isBlank c = false) (hat : At body p (ws.bytes ++ [c])) :
    skipBlanks body p = p + ws.bytes.length := by
  obtain ⟨u, hu⟩ := hat.drop
  unfold skipBlanks
  rw [hu, append_assoc, takeWhile_append_of_pos (fun _ hb => Ws.blank hb),
    singleton_append, takeWhile_cons_of_neg (by rw [hc]; decide), append_nil]

theorem at_delim (hc : c = comma ∨ c = rbrace) (hat : At body p (v.bytes ++ after.bytes ++ [c])) :
    ∃ x, isDelim x = true ∧ At body p (v.bytes ++ [x]) := by
  rw [append_assoc] at hat
  cases hafter : after.bytes with
  | nil =>
    rw [hafter] at hat
    refine ⟨c, ?_, hat⟩
    rcases hc with rfl | rfl <;> rfl
  | cons b bs =>
    have hb : isBlank b = true := Ws.blank (hafter ▸ mem_cons_self)
    rw [hafter] at hat
    refine ⟨b, by simp [isDelim, hb], ?_⟩
    rw [at_append, at_one]
    exact ⟨hat.left, hat.right.head⟩

theorem goes_key {before : Ws} {k : Str} {mid : Ws} (hw : Between w false)
    (hat : At body p (before.bytes ++ ((quote :: strBytes k ++ [quote]) ++ mid.bytes))) :
    Goes key visit body w p
      { w with strStart := p + before.bytes.length + 1, keyS := p + before.bytes.length + 1
               keyE := p + before.bytes.length + 1 + (strBytes k).length
               keyMatched := decide (decode k = some key) }
      (before.bytes.length + (1 + (strBytes k).length + (1 + mid.bytes.length))) := by
  have hstr := hat.right.left
  have hmid : At body (p + before.bytes.length + (1 + (strBytes k).length) + 1) mid.bytes := by
    have h := hat.right.right
    rw [length_append, length_cons, length_singleton] at h
    rwa [show p + before.bytes.length + ((strBytes k).length + 1 + 1) =
      p + before.bytes.length + (1 + (strBytes k).length) + 1 by omega] at h
  have hmatch : jsonStrEq (slice body (p + before.bytes.length + 1)
      (p + before.bytes.length + 1 + (strBytes k).length)) key = decide (decode k = some key) := by
    rw [hstr.tail.left.slice]
    exact Bool.eq_iff_iff.mpr ((jsonStrEq_iff k key).trans decide_eq_true_iff.symm)
  have hclose : Goes key visit body
      { w with instr := true, strStart := p + before.bytes.length + 1 }
      (p + before.bytes.length + (1 + (strBytes k).length))
      { w with strStart := p + before.bytes.length + 1, keyS := p + before.bytes.length + 1
               keyE := p + before.bytes.length + 1 + (strBytes k).length
               keyMatched := decide (decode k = some key) } 1 := by
    rw [← add_assoc]
    refine .byte hstr.tail.right.head fun ctx => ?_
    unfold TopWalk.byte
    rw [if_pos rfl, hw.esc, if_neg Bool.false_ne_true, if_neg (by decide), if_pos rfl,
      if_pos ⟨hw.depth, hw.expectValue⟩, hmatch, ← hw.instr]
  exact (goes_blanks hw.instr hat.left).trans ((goes_opened hw.instr hw.esc (strBytes_inside k)
    hstr.left).trans (hclose.trans (goes_blanks hw.instr hmid)))

theorem goes_after {gap : Ws} (hd : w.depth = 1) (hi : w.instr = false) (he : w.esc = false)
    (hx : w.expectValue = true) (hat : At body p (gap.bytes ++ (v.bytes ++ after.bytes))) :
    ∃ x, Goes key visit body w p { w with strStart := x }
      (gap.bytes.length + (v.bytes.length + after.bytes.length)) := by
  obtain ⟨x, hv⟩ := goes_value hi he v hat.right.left hd hx
  exact ⟨x, (goes_blanks hi hat.left).trans (hv.trans (goes_blanks hi hat.right.right))⟩

theorem byte_colon (hi : w.instr = false) (hd : w.depth = 1) (ctx : σ) :
    w.byte key visit body ctx p colon =
      if w.keyMatched then
        match jsonValueExtent body (skipBlanks body (p + 1)) with
        | none => .ret .incomplete body ctx
        | some ve =>
          let r := visit body ⟨w.keyS, w.keyE, skipBlanks body (p + 1), ve⟩ ctx
          if r.1 then .go { w with keyMatched := false, expectValue := true } r.2.1 r.2.2
          else .ret .stopped r.2.1 r.2.2
      else .go { w with expectValue := true } body ctx := by
  unfold TopWalk.byte
  rw [hi, if_neg Bool.false_ne_true, if_neg (by decide), if_pos rfl, if_pos hd]

variable (hquiet : ∀ s ctx, (visit body s ctx).2.1 = body)
include hquiet

theorem walk_member (m : Member) (hc : c = comma ∨ c = rbrace) (hw : Between w false)
    (hat : At body p (m.bytes ++ [c])) :
    ∃ w', Between w' true ∧ ∀ n ctx, walkLoop key visit (m.bytes.length + n) w body ctx p =
      if m.named key then
        if (visit body (spanAt p m) ctx).1 then
          walkLoop key visit n w' body (visit body (spanAt p m) ctx).2.2 (p + m.bytes.length)
        else (.stopped, body, (visit body (spanAt p m) ctx).2.2)
      else walkLoop key visit n w' body ctx (p + m.bytes.length) := by
  obtain ⟨before, k, mid, gap, v, after⟩ := m
  -- `w₁` at the colon, `w₂` after it
  let w₁ : TopWalk := { w with strStart := p + before.bytes.length + 1
                               keyS := p + before.bytes.length + 1
                               keyE := p + before.bytes.length + 1 + (strBytes k).length
                               keyMatched := decide (decode k = some key) }
  let w₂ : TopWalk := { w₁ with expectValue := true, keyMatched := false }
  let j := before.bytes.length + (1 + (strBytes k).length + (1 + mid.bytes.length))
  have hat' : At body p ((before.bytes ++ ((quote :: strBytes k ++ [quote]) ++ mid.bytes)) ++
      (colon :: ((gap.bytes ++ (v.bytes ++ after.bytes)) ++ [c]))) := by
    simpa [Member.bytes] using hat
  have hj : (before.bytes ++ ((quote :: strBytes k ++ [quote]) ++ mid.bytes)).length = j := by
    simp only [length_append, length_cons, length_nil, j]
    omega
  have hkey : Goes key visit body w p w₁ j := goes_key hw hat'.left
  have hright := hat'.right
  rw [hj] at hright
  have hcolon : body[p + j]? = some colon := hright.head
  obtain ⟨x, hafter⟩ := goes_after (w := w₂) hw.depth hw.instr hw.esc rfl hright.tail.left
  refine ⟨{ w₂ with strStart := x }, ⟨hw.depth, hw.instr, hw.esc, rfl, rfl⟩, fun n ctx => ?_⟩
  have hlen : (Member.mk before k mid gap v after).bytes.length + n =
      j + (gap.bytes.length + (v.bytes.length + after.bytes.length) + n + 1) := by
    simp only [Member.bytes, length_append, length_cons, length_nil, j]
    omega
  have hend : p + (Member.mk before k mid gap v after).bytes.length =
      p + j + 1 + (gap.bytes.length + (v.bytes.length + after.bytes.length)) := by
    omega
  rw [hlen, hkey, walkLoop_succ hcolon, hend]
  rw [byte_colon (w := w₁) hw.instr hw.depth]
  by_cases hn : decode k = some key
  · have hnamed : (Member.mk before k mid gap v after).named key = true := decide_eq_true hn
    have hmatch : w₁.keyMatched = true := decide_eq_true hn
    obtain ⟨b, s, hb, hblank⟩ := value_head v
    have hskip : skipBlanks body (p + j + 1) = p + j + 1 + gap.bytes.length := by
      refine skipBlanks_eq hblank ?_
      have h := hright.tail.left
      rw [hb] at h
      rw [at_append, at_one]
      exact ⟨h.left, h.right.head⟩
    have hval : At body (p + j + 1 + gap.bytes.length) (v.bytes ++ after.bytes ++ [c]) := by
      have h := hright.tail
      rw [append_assoc] at h
      exact h.right
    obtain ⟨d, hd, hvd⟩ := at_delim hc hval
    have hspan : spanAt p (Member.mk before k mid gap v after) =
        ⟨w₁.keyS, w₁.keyE, p + j + 1 + gap.bytes.length, p + j + 1 + gap.bytes.length + v.bytes.length⟩ := by
      simp only [spanAt, w₁, j, Span.mk.injEq, true_and]
      omega
    rw [hnamed, if_pos rfl, hmatch, if_pos rfl, hskip, valueExtent_eq hd hvd, hspan]
    dsimp only
    by_cases hgo : (visit body ⟨w₁.keyS, w₁.keyE, p + j + 1 + gap.bytes.length,
        p + j + 1 + gap.bytes.length + v.bytes.length⟩ ctx).1 = true
    · rw [if_pos hgo, if_pos hgo]
      rw [hquiet]
      exact hafter n _
    · rw [if_neg hgo, if_neg hgo]
      rw [hquiet]
  · have hnamed : (Member.mk before k mid gap v after).named key = false := decide_eq_false hn
    have hmatch : w₁.keyMatched = false := decide_eq_false hn
    rw [hnamed, hmatch]
    exact hafter n ctx

/-! ## the members of an object -/

omit hquiet in
theorem goes_comma (hw : Between w true) (hc : body[p]? = some comma) :
    ∃ w', Between w' false ∧ Goes key visit body w p w' 1 := by
  refine ⟨{ w with expectValue := false, keyMatched := false }, ⟨hw.depth, hw.instr, hw.esc, rfl, rfl⟩,
    .byte hc fun ctx => ?_⟩
  unfold TopWalk.byte
  rw [hw.instr, if_neg Bool.false_ne_true, if_neg (by decide), if_neg (by decide), if_pos rfl,
    if_pos hw.depth]

omit hquiet in
theorem walk_close {b : Bool} (hw : Between w b) (hc : body[p]? = some rbrace) (n : Nat) (ctx : σ) :
    walkLoop key visit (n + 1) w body ctx p = (.ended p, body, ctx) := by
  have hbyte : w.byte key visit body ctx p rbrace = .ret (.ended p) body ctx := by
    unfold TopWalk.byte
    rw [hw.instr, hw.depth]
    rfl
  rw [walkLoop_succ hc, hbyte]

end

/-- the members of a name, after a comma each from `p` on -/
def hitsTail (key : Bytes) : Nat → List Member → List Span
  | _, [] => []
  | p, m :: ms =>
    (if m.named key then [spanAt (p + 1) m] else []) ++ hitsTail key (p + 1 + m.bytes.length) ms

/-- the members of a name, the first at `p` -/
def hits (key : Bytes) (p : Nat) : List Member → List Span
  | [] => []
  | m :: ms => (if m.named key then [spanAt p m] else []) ++ hitsTail key (p + m.bytes.length) ms

section
variable {σ : Type}

/-- the visitor over a list of members, up to the one it stops at -/
def visitAll (visit : Visit σ) (body : Bytes) (close : Nat) : List Span → σ → WalkRc × Bytes × σ
  | [], ctx => (.ended close, body, ctx)
  | s :: ss, ctx =>
    if (visit body s ctx).1 then visitAll visit body close ss (visit body s ctx).2.2
    else (.stopped, body, (visit body s ctx).2.2)

variable {key : Bytes} {visit : Visit σ} {body : Bytes} {w : TopWalk} {p : Nat}
  (hquiet : ∀ s ctx, (visit body s ctx).2.1 = body)

theorem at_member {m : Member} {ms : List Member}
    (hat : At body p (m.bytes ++ (membersTail ms ++ [rbrace]))) :
    ∃ c, (c = comma ∨ c = rbrace) ∧ At body p (m.bytes ++ [c]) := by
  cases ms with
  | nil => exact ⟨rbrace, .inr rfl, hat⟩
  | cons m' ms =>
    refine ⟨comma, .inl rfl, ?_⟩
    rw [at_append, at_one]
    exact ⟨hat.left, hat.right.head⟩

include hquiet

theorem walk_members (ms : List Member) (hw : Between w false)
    (hat : At body p (membersBytes ms ++ [rbrace])) (n : Nat) (ctx : σ) :
    walkLoop key visit ((membersBytes ms).length + (n + 1)) w body ctx p =
      visitAll visit body (p + (membersBytes ms).length) (hits key p ms) ctx := by
  induction ms generalizing w p ctx with
  | nil =>
    rw [membersBytes, length_nil, zero_add, walk_close hw hat.head]
    rfl
  | cons m ms ih =>
    have hrest : At body p (m.bytes ++ (membersTail ms ++ [rbrace])) := by
      rwa [membersBytes, append_assoc] at hat
    obtain ⟨c, hc, hm⟩ := at_member hrest
    obtain ⟨w', hw', hmem⟩ := walk_member hquiet m hc hw hm
    have hlen : (membersBytes (m :: ms)).length = m.bytes.length + (membersTail ms).length := by
      rw [membersBytes, length_append]
    have htail : ∀ ctx, walkLoop key visit ((membersTail ms).length + (n + 1)) w' body ctx
        (p + m.bytes.length) = visitAll visit body (p + m.bytes.length + (membersTail ms).length)
          (hitsTail key (p + m.bytes.length) ms) ctx := by
      intro ctx
      cases ms with
      | nil =>
        rw [membersTail, length_nil, zero_add, walk_close hw' hrest.right.head]
        rfl
      | cons m' ms =>
        obtain ⟨w₁, hw₁, hcomma⟩ := @goes_comma _ key visit body w' _ hw' hrest.right.head
        have hone : (membersTail (m' :: ms)).length = 1 + (membersBytes (m' :: ms)).length :=
          add_comm ..
        rw [hone, add_assoc, hcomma, ih hw₁ hrest.right.tail, ← add_assoc]
        rfl
    rw [hlen, add_assoc, hmem, hits, htail, htail, ← add_assoc p]
    cases m.named key <;> rfl

end

def start (d : Doc) : Nat := d.before.bytes.length + 1 + d.gap.bytes.length
def close (d : Doc) : Nat := start d + (membersBytes d.members).length

theorem doc_at (d : Doc) : At d.bytes 0 (d.before.bytes ++ (lbrace :: (d.gap.bytes ++
    (membersBytes d.members ++ [rbrace])) ++ d.after.bytes)) := by
  have h := at_zero (b := d.bytes)
  simpa [Doc.bytes, Value.bytes] using h

section
variable {σ : Type} {key : Bytes} {visit : Visit σ}

/-- **the walk visits the members of the name**, in order, and no others -/
theorem jsonTopWalk_doc (d : Doc) (hquiet : ∀ s ctx, (visit d.bytes s ctx).2.1 = d.bytes) (ctx : σ) :
    jsonTopWalk key visit d.bytes ctx =
      visitAll visit d.bytes (close d) (hits key (start d) d.members) ctx := by
  have hat := doc_at d
  have hobj := hat.right.left
  rw [zero_add] at hobj
  have hskip : skipBlanks d.bytes 0 = d.before.bytes.length := by
    have h : At d.bytes 0 (d.before.bytes ++ [lbrace]) := by
      rw [at_append, at_one, zero_add]
      exact ⟨hat.left, hobj.head⟩
    rw [skipBlanks_eq rfl h, zero_add]
  unfold jsonTopWalk
  rw [hskip, if_pos hobj.head]
  have hopen : Goes key visit d.bytes .start d.before.bytes.length { TopWalk.start with depth := 1 } 1 :=
    goes_open rfl (.inl rfl) hobj.head
  have hgap : Goes key visit d.bytes { TopWalk.start with depth := 1 } (d.before.bytes.length + 1)
      { TopWalk.start with depth := 1 } d.gap.bytes.length :=
    goes_blanks rfl hobj.tail.left
  have hlen : d.bytes.length - d.before.bytes.length =
      1 + (d.gap.bytes.length + ((membersBytes d.members).length + (d.after.bytes.length + 1))) := by
    simp only [Doc.bytes, Value.bytes, length_append, length_cons, length_nil]
    omega
  rw [hlen, hopen, hgap, walk_members hquiet d.members ⟨rfl, rfl, rfl, rfl, rfl⟩ hobj.tail.right]
  rfl

end

/-! ## the values handed over -/

def Holds (body : Bytes) (s : Span) (v : Value) : Prop := At body s.vs v.bytes ∧ s.ve = s.vs + v.bytes.length

section
variable {key body : Bytes} {p : Nat}

theorem spanAt_holds {m : Member} (hat : At body p m.bytes) : Holds body (spanAt p m) m.value := by
  obtain ⟨before, k, mid, gap, v, after⟩ := m
  refine ⟨?_, rfl⟩
  have h := hat.right.right.right.tail.right.left
  simp only [length_append, length_cons, length_nil] at h
  simp only [spanAt, Member.value]
  convert h using 1
  omega

theorem valuesOf_cons (m : Member) (ms : List Member) :
    valuesOf key (m :: ms) = (if m.named key then [m.value] else []) ++ valuesOf key ms := by
  unfold valuesOf
  rw [filter_cons]
  cases m.named key <;> rfl

theorem hits_holds (ms : List Member) (hat : At body p (membersBytes ms)) :
    Forall₂ (Holds body) (hits key p ms) (valuesOf key ms) := by
  induction ms generalizing p with
  | nil => exact .nil
  | cons m ms ih =>
    have hrest : Forall₂ (Holds body) (hitsTail key (p + m.bytes.length) ms) (valuesOf key ms) := by
      cases ms with
      | nil => exact .nil
      | cons m' ms => exact ih hat.right.tail
    rw [hits, valuesOf_cons]
    cases m.named key with
    | true => exact .cons (spanAt_holds hat.left) hrest
    | false => exact hrest

end

theorem doc_members (d : Doc) : At d.bytes (start d) (membersBytes d.members) := by
  have hat := doc_at d
  have h := hat.right.left.tail.right.left
  rwa [zero_add] at h

theorem jsonTopFind_doc (d : Doc) (key : Bytes) :
    match firstOf key d.members with
    | none => jsonTopFind d.bytes key = .absent (close d)
    | some v => ∃ s, (hits key (start d) d.members).head? = some s ∧ Holds d.bytes s v ∧
        jsonTopFind d.bytes key = .found s.vs s.ve := by
  have hholds := @hits_holds key _ _ d.members (doc_members d)
  unfold jsonTopFind firstOf
  rw [jsonTopWalk_doc d fun _ _ => rfl]
  generalize hits key (start d) d.members = ss at hholds ⊢
  generalize valuesOf key d.members = vs at hholds ⊢
  cases hholds with
  | nil => rfl
  | cons hs _ => exact ⟨_, rfl, hs, rfl⟩

theorem jsonTopLast_doc (d : Doc) (key : Bytes) :
    match lastOf key d.members with
    | none => jsonTopWalk key jsonTopLast d.bytes none = (.ended (close d), d.bytes, none)
    | some v => ∃ s, Holds d.bytes s v ∧
        jsonTopWalk key jsonTopLast d.bytes none = (.ended (close d), d.bytes, some (s.vs, s.ve)) := by
  have hholds := @hits_holds key _ _ d.members (doc_members d)
  unfold lastOf
  rw [jsonTopWalk_doc d fun _ _ => rfl]
  have hlast : ∀ ss ctx, visitAll jsonTopLast d.bytes (close d) ss ctx =
      (.ended (close d), d.bytes, (ss.getLast?.map fun s => (s.vs, s.ve)).or ctx) := by
    intro ss
    induction ss with
    | nil => exact fun _ => rfl
    | cons s ss ih =>
      intro ctx
      rw [visitAll, ih]
      cases ss with
      | nil => rfl
      | cons s' ss => rw [getLast?_cons_cons, getLast?_cons]; rfl
  rw [hlast]
  generalize hits key (start d) d.members = ss at hholds ⊢
  generalize valuesOf key d.members = vs at hholds ⊢
  rw [← head?_reverse, ← head?_reverse]
  have hrev := forall₂_reverse_iff.mpr hholds
  generalize ss.reverse = ss at hrev ⊢
  generalize vs.reverse = vs at hrev ⊢
  cases hrev with
  | nil => rfl
  | cons hs _ => exact ⟨_, hs, rfl⟩

/-! ## a new first value -/

theorem withValue_bytes (m : Member) (p : Nat) : ∃ pre post, (spanAt p m).vs = p + pre.length ∧
    ∀ v, (m.withValue v).bytes = pre ++ (v.bytes ++ post) := by
  obtain ⟨before, k, mid, gap, _, after⟩ := m
  refine ⟨before.bytes ++ ((quote :: strBytes k ++ [quote]) ++ (mid.bytes ++ colon :: gap.bytes)),
    after.bytes, ?_, fun v => ?_⟩
  · simp only [spanAt, length_append, length_cons, length_nil]
    omega
  · simp [Member.withValue, Member.bytes]

theorem membersTail_setFirst (v : Value) (m : Member) :
    membersTail (setFirst key v (m :: ms)) = comma :: membersBytes (setFirst key v (m :: ms)) := by
  rw [setFirst]
  split <;> rfl

theorem setFirst_members (h : valuesOf key ms ≠ []) (p : Nat) :
    ∃ pre post s, (hits key p ms).head? = some s ∧ s.vs = p + pre.length ∧
      ∀ v, membersBytes (setFirst key v ms) = pre ++ (v.bytes ++ post) := by
  induction ms generalizing p with
  | nil => exact absurd rfl h
  | cons m ms ih =>
    cases hm : m.named key with
    | true =>
      obtain ⟨pre, post, hvs, hbytes⟩ := withValue_bytes m p
      refine ⟨pre, post ++ membersTail ms, spanAt p m, ?_, hvs, fun v => ?_⟩
      · rw [hits, hm]
        rfl
      · rw [setFirst, hm, if_pos rfl, membersBytes, hbytes]
        simp
    | false =>
      rw [valuesOf_cons, hm] at h
      cases ms with
      | nil => exact absurd rfl h
      | cons m' ms =>
        obtain ⟨pre, post, s, hs, hvs, hbytes⟩ := ih h (p + m.bytes.length + 1)
        refine ⟨m.bytes ++ comma :: pre, post, s, ?_, ?_, fun v => ?_⟩
        · rw [hits, hm]
          exact hs
        · rw [length_append, length_cons]
          omega
        · rw [setFirst, hm, if_neg Bool.false_ne_true, membersBytes, membersTail_setFirst, hbytes]
          simp

theorem setFirst_self (h : firstOf key ms = some v) : setFirst key v ms = ms := by
  induction ms with
  | nil => rfl
  | cons m ms ih =>
    unfold firstOf at h ih
    rw [valuesOf_cons] at h
    cases hm : m.named key with
    | true =>
      rw [hm] at h
      have hv : m.value = v := Option.some.inj h
      rw [setFirst, hm, ← hv]
      cases m
      rfl
    | false =>
      rw [hm] at h
      rw [setFirst, hm, if_neg Bool.false_ne_true, ih h]

/-- **the first value of a name in its text**: where the search finds it, and the text with another
value in its place -/
theorem jsonTopFind_set (d : Doc) (h : firstOf key d.members = some v) :
    ∃ pre post, jsonTopFind d.bytes key = .found pre.length (pre.length + v.bytes.length) ∧
      d.bytes = pre ++ (v.bytes ++ post) ∧
      ∀ v', ({ d with members := setFirst key v' d.members } : Doc).bytes = pre ++ (v'.bytes ++ post) := by
  have hne : valuesOf key d.members ≠ [] := fun hc => by
    rw [firstOf, hc] at h
    cases h
  obtain ⟨pre, post, s, hs, hvs, hbytes⟩ := setFirst_members hne (start d)
  have hfind := jsonTopFind_doc d key
  rw [h] at hfind
  obtain ⟨s', hs', ⟨_, hve⟩, hfind⟩ := hfind
  obtain rfl : s = s' := Option.some.inj (hs.symm.trans hs')
  let pre' := d.before.bytes ++ lbrace :: (d.gap.bytes ++ pre)
  have hpre : s.vs = pre'.length := by
    rw [hvs]
    simp only [pre', start, length_append, length_cons]
    omega
  have hset : ∀ v', ({ d with members := setFirst key v' d.members } : Doc).bytes =
      pre' ++ (v'.bytes ++ (post ++ rbrace :: d.after.bytes)) := fun v' => by
    simp only [Doc.bytes, Value.bytes, hbytes, pre']
    simp
  refine ⟨pre', post ++ rbrace :: d.after.bytes, ?_, ?_, hset⟩
  · rw [hfind, hve, hpre]
  · rw [← hset v, setFirst_self h]

end SpJson
