import InferenceGateway.SpJson.Request

/-!
# Asking for usage

`inject_include_usage` edits a streaming body in place so that the engine reports what it used.  On
the tree it is `askMembers` (`inject_doc`), keyed on the first occurrence of each name.

* `usage_asked`      exactly when a last-wins parser reads the edit as it is meant;
* `usage_forgotten`  a body whose stream runs unreported.
-/

open List Option

namespace SpJson

open Json Text

def fragObj : Bytes := ascii ",\"stream_options\":\x7b\"include_usage\":true\x7d"
def fragField : Bytes := ascii "\"include_usage\":true"
def fragValue : Bytes := ascii "\x7b\"include_usage\":true\x7d"
def streamKey : Bytes := ascii "stream"
def optionsKey : Bytes := ascii "stream_options"
def usageKey : Bytes := ascii "include_usage"
def jsonSpliceIn (body : Bytes) (pos : Nat) (ins : Bytes) : Bytes := body.take pos ++ (ins ++ body.drop pos)

/-- the move and the copy that put a value in another's place -/
def overwrite (body : Bytes) (pos len : Nat) (new : Bytes) : Bytes :=
  body.take pos ++ (new ++ body.drop (pos + len))

/-- force usage reports into a streaming body: 0 and the new body, or 1 and the body as it was,
`inject_include_usage` -/
def injectIncludeUsage (body : Bytes) (cap : Nat) : Int × Bytes :=
  match jsonTopFind body streamKey with
  | .found vs ve =>
    if spanTrue body vs ve = false then (1, body)
    else
      match jsonTopFind body optionsKey with
      | .incomplete => (1, body)
      | .absent close =>
        if body.length + fragObj.length > cap then (1, body)
        else (0, jsonSpliceIn body close fragObj)
      | .found vs ve =>
        if body[vs]? = some lbrace then
          let so := slice body vs ve
          match jsonTopFind so usageKey with
          | .incomplete => (1, body)
          | .found ivs ive =>
            if spanTrue so ivs ive then (1, body)
            else if body.length - (ive - ivs) + 4 > cap then (1, body)
            else (0, overwrite body (vs + ivs) (ive - ivs) (ascii "true"))
          | .absent _ =>
            -- a comma follows unless the object is empty
            let frag := fragField ++ if so[skipBlanks so 1]? = some rbrace then [] else [comma]
            if body.length + frag.length > cap then (1, body)
            else (0, jsonSpliceIn body (vs + 1) frag)
        else if body.length - (ve - vs) + fragValue.length > cap then (1, body)
        else (0, overwrite body vs (ve - vs) fragValue)
  | _ => (1, body)

/-! ## the edit on trees -/

def usageMember (after : Ws) : Member :=
  .mk [] (plain ['i', 'n', 'c', 'l', 'u', 'd', 'e', '_', 'u', 's', 'a', 'g', 'e'] (by decide)) [] []
    (.atom (.bool true)) after

def optionsValue : Value := .obj [] [usageMember []]

def optionsMember : Member :=
  member (plain ['s', 't', 'r', 'e', 'a', 'm', '_', 'o', 'p', 't', 'i', 'o', 'n', 's'] (by decide))
    optionsValue

def shift (w : Ws) : Member → Member
  | .mk before key mid gap v after => .mk (w ++ before) key mid gap v after

/-- the stream options, asking for usage -/
def askInner (w : Ws) (ms : List Member) : Value :=
  match firstOf usageKey ms with
  | some v => if isTrue (some v) then .obj w ms else .obj w (setFirst usageKey (.atom (.bool true)) ms)
  | none =>
    match ms with
    | [] => .obj [] [usageMember w]
    | m :: ms => .obj [] (usageMember [] :: shift w m :: ms)

def askValue : Value → Value
  | .obj w ms => askInner w ms
  | _ => optionsValue

def askMembers (ms : List Member) : List Member :=
  match firstOf optionsKey ms with
  | none => ms ++ [optionsMember]
  | some v => setFirst optionsKey (askValue v) ms

/-- the object asks for usage, as a parser that keeps the last reads it -/
def asks (ms : List Member) : Bool :=
  match lastOf optionsKey ms with
  | some (.obj _ os) => isTrue (lastOf usageKey os)
  | _ => false

/-- the members under other names -/
def others (key : Bytes) (ms : List Member) : List (Str × Value) :=
  (ms.filter fun m => !m.named key).map fun m => (m.key, m.value)

example : fragObj = comma :: optionsMember.bytes ∧ fragValue = optionsValue.bytes ∧
    fragField = (usageMember []).bytes := by decide

/-! ## the edit is made -/

theorem overwrite_mid (pre a post new : Bytes) :
    overwrite (pre ++ (a ++ post)) pre.length a.length new = pre ++ (new ++ post) := by
  unfold overwrite
  rw [take_left, ← drop_drop, drop_left, drop_left]

theorem splice_mid (pre post ins : Bytes) :
    jsonSpliceIn (pre ++ post) pre.length ins = pre ++ (ins ++ post) := by
  unfold jsonSpliceIn
  rw [take_left, drop_left]

theorem spanTrue_mid (pre post : Bytes) (v : Value) :
    spanTrue (pre ++ (v.bytes ++ post)) pre.length (pre.length + v.bytes.length) = isTrue (some v) :=
  spanTrue_holds (s := ⟨0, 0, pre.length, pre.length + v.bytes.length⟩) ⟨at_mid pre v.bytes post, rfl⟩

def inner (w : Ws) (ms : List Member) : Doc := ⟨[], w, ms, []⟩

theorem inner_bytes (w : Ws) (ms : List Member) : (inner w ms).bytes = (Value.obj w ms).bytes := by
  simp [inner, Doc.bytes, Ws.bytes]

theorem membersTail_snoc (ms : List Member) (m : Member) :
    membersTail (ms ++ [m]) = membersTail ms ++ comma :: m.bytes := by
  induction ms with
  | nil => simp [membersTail]
  | cons x ms ih => simp [membersTail, ih]

variable {ms : List Member} {v : Value} {key : Bytes} {o : Option Value} {d d' : Doc}

theorem membersBytes_snoc (h : ms ≠ []) (m : Member) :
    membersBytes (ms ++ [m]) = membersBytes ms ++ comma :: m.bytes := by
  cases ms with
  | nil => exact absurd rfl h
  | cons x ms => simp [membersBytes, membersTail_snoc]

theorem shift_bytes (w : Ws) (m : Member) : (shift w m).bytes = w.bytes ++ m.bytes := by
  obtain ⟨before, k, mid, gap, v, after⟩ := m
  simp [shift, Member.bytes, Ws.bytes]

theorem usageMember_bytes (w : Ws) : (usageMember w).bytes = fragField ++ w.bytes := by
  have h : fragField = (usageMember []).bytes := by decide
  rw [h]
  simp [usageMember, Member.bytes, Ws.bytes]

theorem frag_comma (w : Ws) (ms : List Member) :
    (if (Value.obj w ms).bytes[skipBlanks (Value.obj w ms).bytes 1]? = some rbrace then []
      else [comma]) = if ms = [] then [] else [comma] := by
  have hat : At (Value.obj w ms).bytes 1 ((w.bytes ++ membersBytes ms) ++ [rbrace]) := by
    have h := at_zero (b := (Value.obj w ms).bytes)
    exact h.tail
  cases ms with
  | nil =>
    have h : At (Value.obj w []).bytes 1 (w.bytes ++ [rbrace]) := by simpa [membersBytes] using hat
    rw [skipBlanks_eq rfl h, h.right.head]
    rfl
  | cons m ms =>
    obtain ⟨before, k, mid, gap, v, after⟩ := m
    have hsplit : (w.bytes ++ membersBytes (.mk before k mid gap v after :: ms)) ++ [rbrace] =
        ((w ++ before).bytes ++ [quote]) ++ (strBytes k ++ quote :: (mid.bytes ++ colon :: (gap.bytes ++
          (v.bytes ++ (after.bytes ++ (membersTail ms ++ [rbrace])))))) := by
      simp [membersBytes, Member.bytes, Ws.bytes]
    rw [hsplit] at hat
    rw [skipBlanks_eq rfl hat.left, hat.left.right.head]
    rfl

theorem askInner_bytes (w : Ws) (ms : List Member) :
    match firstOf usageKey ms with
    | some v => ∃ pre post,
        jsonTopFind (Value.obj w ms).bytes usageKey = .found pre.length (pre.length + v.bytes.length) ∧
        (Value.obj w ms).bytes = pre ++ (v.bytes ++ post) ∧
        (isTrue (some v) = false → (askInner w ms).bytes = pre ++ (ascii "true" ++ post))
    | none => (∃ close, jsonTopFind (Value.obj w ms).bytes usageKey = .absent close) ∧
        ∃ post, (Value.obj w ms).bytes = [lbrace] ++ post ∧
          (askInner w ms).bytes = [lbrace] ++ ((fragField ++ if ms = [] then [] else [comma]) ++ post) := by
  cases hf : firstOf usageKey ms with
  | some v =>
    obtain ⟨pre, post, hfind, hbytes, hset⟩ := jsonTopFind_set (inner w ms) hf
    rw [inner_bytes] at hfind hbytes
    refine ⟨pre, post, hfind, hbytes, fun hv => ?_⟩
    have hask : askInner w ms = .obj w (setFirst usageKey (.atom (.bool true)) ms) := by
      unfold askInner
      rw [hf]
      dsimp only
      rw [hv, if_neg Bool.false_ne_true]
    have h := hset (.atom (.bool true))
    rw [hask, ← inner_bytes]
    exact h
  | none =>
    have hfind := jsonTopFind_doc (inner w ms) usageKey
    rw [show firstOf usageKey (inner w ms).members = none from hf, inner_bytes] at hfind
    refine ⟨⟨_, hfind⟩, w.bytes ++ membersBytes ms ++ [rbrace], rfl, ?_⟩
    unfold askInner
    rw [hf]
    cases ms with
    | nil => simp [Value.bytes, membersBytes, membersTail, usageMember_bytes, Ws.bytes]
    | cons m ms =>
      simp [Value.bytes, membersBytes, membersTail, usageMember_bytes, shift_bytes, Ws.bytes]

theorem askInner_true {w : Ws} (h : isTrue (firstOf usageKey ms) = true) : askInner w ms = .obj w ms := by
  unfold askInner
  cases hu : firstOf usageKey ms with
  | none =>
    rw [hu] at h
    cases h
  | some u =>
    rw [hu] at h
    exact if_pos h

theorem obj_or_other (v : Value) : (∃ w ms, v = .obj w ms) ∨
    (∀ w ms, v ≠ .obj w ms) ∧ askValue v = optionsValue ∧ ∃ c t, v.bytes = c :: t ∧ c ≠ lbrace := by
  cases v with
  | atom a =>
    obtain ⟨c, t, ht, hc⟩ := a.head
    exact .inr ⟨nofun, rfl, c, t, ht, atomic_ne hc rfl⟩
  | str | arr => exact .inr ⟨nofun, rfl, _, _, rfl, by decide⟩
  | obj w ms => exact .inl ⟨w, ms, rfl⟩

theorem frag_lengths : fragObj.length = 40 ∧ fragField.length = 20 ∧ fragValue.length = 22 := by decide

section
variable {d : Doc} {cap : Nat}

theorem inject_on {w : Ws} {os : List Member} (ho : firstOf optionsKey d.members = some (.obj w os))
    (hu : isTrue (firstOf usageKey os) = true) : (injectIncludeUsage d.bytes cap).2 = d.bytes := by
  obtain ⟨pre, post, hfind, hbytes, _⟩ := jsonTopFind_set d ho
  have hat := at_mid pre (Value.obj w os).bytes post
  rw [← hbytes] at hat
  have hask := askInner_bytes w os
  cases hf : firstOf usageKey os with
  | none =>
    rw [hf] at hu
    cases hu
  | some v =>
    rw [hf] at hu hask
    obtain ⟨pre₂, post₂, hfind₂, hbytes₂, _⟩ := hask
    unfold injectIncludeUsage
    split
    · split
      · rfl
      · rw [hfind]
        dsimp only
        rw [if_pos hat.head, hat.slice, hfind₂]
        dsimp only
        have ht := spanTrue_mid pre₂ post₂ v
        rw [← hbytes₂] at ht
        rw [ht, hu]
        rfl
    · rfl

theorem inject_off (hs : isTrue (firstOf streamKey d.members) = false) :
    (injectIncludeUsage d.bytes cap).2 = d.bytes := by
  have hfind := jsonTopFind_doc d streamKey
  unfold injectIncludeUsage
  cases hf : firstOf streamKey d.members with
  | none =>
    rw [hf] at hfind
    rw [hfind]
  | some v =>
    rw [hf] at hfind hs
    obtain ⟨s, _, hh, hfind⟩ := hfind
    rw [hfind]
    dsimp only
    rw [spanTrue_holds hh, hs, if_pos rfl]

theorem stream_found (hs : isTrue (firstOf streamKey d.members) = true) : ∃ vs ve,
    jsonTopFind d.bytes streamKey = .found vs ve ∧ spanTrue d.bytes vs ve = true := by
  have hfind := jsonTopFind_doc d streamKey
  cases hf : firstOf streamKey d.members with
  | none =>
    rw [hf] at hs
    cases hs
  | some v =>
    rw [hf] at hfind hs
    obtain ⟨s, _, hh, hfind⟩ := hfind
    exact ⟨_, _, hfind, (spanTrue_holds hh).trans hs⟩

theorem streams_ne_nil (hs : isTrue (firstOf streamKey d.members) = true) : d.members ≠ [] := by
  intro hc
  rw [hc] at hs
  cases hs

section
variable (hroom : d.bytes.length + 40 ≤ cap) (hs : isTrue (firstOf streamKey d.members) = true)
include hroom hs

theorem inject_options {v : Value} (ho : firstOf optionsKey d.members = some v) :
    (injectIncludeUsage d.bytes cap).2 =
      ({ d with members := setFirst optionsKey (askValue v) d.members } : Doc).bytes := by
  obtain ⟨pre, post, hfind, hbytes, hset⟩ := jsonTopFind_set d ho
  obtain ⟨_, hfield, hvalue⟩ := frag_lengths
  have hat := at_mid pre v.bytes post
  rw [← hbytes] at hat
  obtain ⟨vs, ve, hstream, htrue⟩ := stream_found hs
  unfold injectIncludeUsage
  rw [hstream]
  dsimp only
  rw [htrue, if_neg (by decide), hfind, hset]
  dsimp only
  rcases obj_or_other v with ⟨w, os, rfl⟩ | ⟨-, hask, c, t, ht, hc⟩
  · have hask := askInner_bytes w os
    rw [if_pos hat.head, hat.slice]
    change _ = pre ++ ((askInner w os).bytes ++ post)
    cases hu : firstOf usageKey os with
    | some u =>
      rw [hu] at hask
      obtain ⟨pre₂, post₂, hfind₂, hbytes₂, hedit⟩ := hask
      have hspan := spanTrue_mid pre₂ post₂ u
      rw [← hbytes₂] at hspan
      rw [hfind₂]
      dsimp only
      rw [hspan]
      cases ht : isTrue (some u) with
      | true => rw [if_pos rfl, askInner_true (hu ▸ ht), hbytes]
      | false =>
        rw [if_neg Bool.false_ne_true, if_neg (by omega), Nat.add_sub_cancel_left]
        have hsplit : d.bytes = (pre ++ pre₂) ++ (u.bytes ++ (post₂ ++ post)) := by
          rw [hbytes, hbytes₂]
          simp
        rw [hsplit, ← length_append, overwrite_mid, hedit ht]
        simp
    | none =>
      rw [hu] at hask
      obtain ⟨⟨close, hfind₂⟩, post₂, hbytes₂, hedit⟩ := hask
      have hlen : (fragField ++ if os = [] then [] else [comma]).length ≤ 21 := by
        split <;> decide
      rw [hfind₂]
      rw [frag_comma, if_neg (by omega)]
      have hsplit : d.bytes = (pre ++ [lbrace]) ++ (post₂ ++ post) := by
        rw [hbytes, hbytes₂]
        simp
      have hpos : pre.length + 1 = (pre ++ [lbrace]).length := by simp
      rw [hpos, hsplit, splice_mid, hedit]
      simp
  · have hhead : d.bytes[pre.length]? ≠ some lbrace := by
      rw [ht] at hat
      rw [hat.head]
      exact fun h => hc (Option.some.inj h)
    rw [if_neg hhead, if_neg (by omega), Nat.add_sub_cancel_left, hask]
    rw [hbytes, overwrite_mid]
    rfl

/-- **the edit on bytes is the edit on trees** -/
theorem inject_doc :
    (injectIncludeUsage d.bytes cap).2 = ({ d with members := askMembers d.members } : Doc).bytes := by
  cases ho : firstOf optionsKey d.members with
  | some v =>
    rw [inject_options hroom hs ho]
    unfold askMembers
    rw [ho]
  | none =>
    have hfind := jsonTopFind_doc d optionsKey
    rw [ho] at hfind
    obtain ⟨vs, ve, hstream, htrue⟩ := stream_found hs
    unfold injectIncludeUsage
    rw [hstream]
    dsimp only
    rw [htrue, if_neg (by decide), hfind]
    dsimp only
    rw [frag_lengths.1, if_neg (by omega)]
    let pre := d.before.bytes ++ lbrace :: (d.gap.bytes ++ membersBytes d.members)
    have hpre : close d = pre.length := by
      simp only [pre, close, start, length_append, length_cons]
      omega
    have hsplit : d.bytes = pre ++ rbrace :: d.after.bytes := by
      simp [pre, Doc.bytes, Value.bytes]
    have hfrag : fragObj = comma :: optionsMember.bytes := by decide
    rw [hpre, hsplit, splice_mid, hfrag]
    unfold askMembers
    rw [ho]
    simp only [Doc.bytes, Value.bytes, membersBytes_snoc (streams_ne_nil hs), pre]
    simp

end

end

/-! ## what the edited object says -/

theorem withValue_named (key : Bytes) (v : Value) (m : Member) :
    (m.withValue v).named key = m.named key := by
  cases m
  rfl

theorem valuesOf_set {u : Value} {us : List Value} (v : Value) (h : valuesOf key ms = u :: us) :
    valuesOf key (setFirst key v ms) = v :: us := by
  induction ms with
  | nil => cases h
  | cons m ms ih =>
    rw [valuesOf_cons] at h
    cases hm : m.named key with
    | true =>
      rw [hm] at h
      have hrest : valuesOf key ms = us := (List.cons.inj h).2
      have hval : (m.withValue v).value = v := by
        cases m
        rfl
      rw [setFirst, hm, if_pos rfl, valuesOf_cons, withValue_named, hm, hrest, hval]
      rfl
    | false =>
      rw [hm] at h
      rw [setFirst, hm, if_neg Bool.false_ne_true, valuesOf_cons, hm, ih h]
      rfl

theorem others_set (key : Bytes) (v : Value) (ms : List Member) :
    others key (setFirst key v ms) = others key ms := by
  unfold others
  induction ms with
  | nil => rfl
  | cons m ms ih =>
    cases hm : m.named key with
    | true =>
      rw [setFirst, hm, if_pos rfl, filter_cons_of_neg (by rw [withValue_named, hm]; decide),
        filter_cons_of_neg (by rw [hm]; decide)]
    | false =>
      rw [setFirst, hm, if_neg Bool.false_ne_true, filter_cons_of_pos (by rw [hm]; rfl),
        filter_cons_of_pos (by rw [hm]; rfl), map_cons, map_cons, ih]

theorem shift_value (key : Bytes) (w : Ws) (m : Member) (ms : List Member) :
    valuesOf key (shift w m :: ms) = valuesOf key (m :: ms) ∧
      others key (shift w m :: ms) = others key (m :: ms) := by
  have hkey : (shift w m).key = m.key := by
    cases m
    rfl
  have hval : (shift w m).value = m.value := by
    cases m
    rfl
  have hnamed : (shift w m).named key = m.named key := by
    unfold Member.named
    rw [hkey]
  constructor
  · rw [valuesOf_cons, valuesOf_cons, hnamed, hval]
  · unfold others
    rw [filter_cons, filter_cons, hnamed]
    cases m.named key
    · rw [Bool.not_false, if_pos rfl, if_pos rfl, map_cons, map_cons, hkey, hval]
    · rfl

theorem usage_named (w : Ws) : (usageMember w).named usageKey = true := by
  have h : (usageMember []).named usageKey = true := by decide
  exact h

theorem usage_first (w : Ws) (ms : List Member) :
    valuesOf usageKey (usageMember w :: ms) = .atom (.bool true) :: valuesOf usageKey ms ∧
      others usageKey (usageMember w :: ms) = others usageKey ms := by
  constructor
  · rw [valuesOf_cons]
    rfl
  · unfold others
    rw [filter_cons_of_neg (by rw [usage_named]; decide)]

theorem isTrue_some (h : isTrue o = true) : o = some (.atom (.bool true)) := by
  cases o with
  | none => cases h
  | some v =>
    cases v with
    | atom a =>
      cases a with
      | bool b => exact congrArg (fun b => some (Value.atom (.bool b))) h
      | _ => cases h
    | _ => cases h

theorem firstOf_none (h : valuesOf key ms = []) : firstOf key ms = none := by
  rw [firstOf, h]
  rfl

theorem firstOf_eq {vs : List Value} (h : valuesOf key ms = v :: vs) : firstOf key ms = some v := by
  rw [firstOf, h]
  rfl

theorem askInner_spec (w : Ws) (ms : List Member) : ∃ w' ms', askInner w ms = .obj w' ms' ∧
    valuesOf usageKey ms' = .atom (.bool true) :: (valuesOf usageKey ms).tail ∧
    others usageKey ms' = others usageKey ms := by
  unfold askInner
  cases hv : valuesOf usageKey ms with
  | nil =>
    rw [firstOf_none hv]
    cases ms with
    | nil => exact ⟨_, _, rfl, (usage_first w []).1, (usage_first w []).2⟩
    | cons m ms =>
      obtain ⟨h1, h2⟩ := usage_first [] (shift w m :: ms)
      obtain ⟨h3, h4⟩ := shift_value usageKey w m ms
      refine ⟨_, _, rfl, ?_, h2.trans h4⟩
      rw [h1, h3, hv]
      rfl
  | cons u us =>
    rw [firstOf_eq hv]
    dsimp only
    cases ht : isTrue (some u) with
    | true =>
      refine ⟨_, _, rfl, ?_, rfl⟩
      rw [hv, Option.some.inj (isTrue_some ht)]
      rfl
    | false =>
      exact ⟨_, _, rfl, valuesOf_set _ hv, others_set _ _ _⟩

theorem askValue_obj (v : Value) : ∃ w ms, askValue v = .obj w ms ∧ isTrue (firstOf usageKey ms) = true := by
  rcases obj_or_other v with ⟨w, os, rfl⟩ | ⟨-, hask, -⟩
  · obtain ⟨w', ms', h, hv, _⟩ := askInner_spec w os
    refine ⟨w', ms', h, ?_⟩
    rw [firstOf_eq hv]
    rfl
  · exact ⟨[], [usageMember []], hask, by decide⟩

theorem valuesOf_append (key : Bytes) (ms ms' : List Member) :
    valuesOf key (ms ++ ms') = valuesOf key ms ++ valuesOf key ms' := by
  unfold valuesOf
  rw [filter_append, map_append]

theorem askMembers_options (ms : List Member) : valuesOf optionsKey (askMembers ms) =
    match valuesOf optionsKey ms with
    | [] => [optionsValue]
    | v :: vs => askValue v :: vs := by
  unfold askMembers
  cases hv : valuesOf optionsKey ms with
  | nil =>
    rw [firstOf_none hv]
    rw [valuesOf_append, hv]
    rfl
  | cons v vs =>
    rw [firstOf_eq hv]
    exact valuesOf_set _ hv

theorem askMembers_others (ms : List Member) :
    others optionsKey (askMembers ms) = others optionsKey ms := by
  unfold askMembers
  cases firstOf optionsKey ms with
  | none =>
    unfold others
    have hn : [optionsMember].filter (fun m => !m.named optionsKey) = [] := by
      have h : optionsMember.named optionsKey = true := by decide
      rw [filter_cons_of_neg (by rw [h]; decide), filter_nil]
    rw [filter_append, hn, append_nil]
  | some v => exact others_set _ _ _

theorem askMembers_first (ms : List Member) : ∃ w os,
    firstOf optionsKey (askMembers ms) = some (.obj w os) ∧ isTrue (firstOf usageKey os) = true := by
  have h := askMembers_options ms
  cases hv : valuesOf optionsKey ms with
  | nil =>
    rw [hv] at h
    exact ⟨[], [usageMember []], firstOf_eq h, by decide⟩
  | cons v vs =>
    rw [hv] at h
    obtain ⟨w, os, ho, ht⟩ := askValue_obj v
    refine ⟨w, os, ?_, ht⟩
    rw [firstOf_eq h, ho]

/-! ## a text has one reading -/

theorem last_slice (d : Doc) (key : Bytes) :
    ((jsonTopWalk key jsonTopLast d.bytes none).2.2.map fun s => slice d.bytes s.1 s.2) =
      (lastOf key d.members).map Value.bytes := by
  have h := jsonTopLast_doc d key
  cases hl : lastOf key d.members with
  | none =>
    rw [hl] at h
    rw [h]
    rfl
  | some v =>
    rw [hl] at h
    obtain ⟨s, hs, hw⟩ := h
    rw [hw, map_some, hs.2, hs.1.slice]
    rfl

theorem lastOf_bytes (h : d.bytes = d'.bytes) (key : Bytes) :
    (lastOf key d.members).map Value.bytes = (lastOf key d'.members).map Value.bytes := by
  rw [← last_slice, ← last_slice, h]

theorem isTrue_bytes {o' : Option Value} (h : o.map Value.bytes = o'.map Value.bytes) :
    isTrue o = isTrue o' := by
  have key : ∀ {o o' : Option Value}, o.map Value.bytes = o'.map Value.bytes → isTrue o = true →
      isTrue o' = true := by
    intro o o' h ht
    rw [isTrue_some ht] at h
    obtain ⟨v, hv, hb⟩ := map_eq_some_iff.mp h.symm
    rw [hv, bytes_true.mp hb]
    rfl
  exact Bool.eq_iff_iff.mpr ⟨key h, key h.symm⟩

theorem asks_bytes (h : d.bytes = d'.bytes) : asks d.members = asks d'.members := by
  have key : ∀ {d d' : Doc}, d.bytes = d'.bytes → asks d.members = true → asks d'.members = true := by
    intro d d' h ha
    have hl := lastOf_bytes h optionsKey
    unfold asks at ha ⊢
    split at ha
    · rename_i w os ho
      rw [ho] at hl
      obtain ⟨v, hv, hb⟩ := map_eq_some_iff.mp hl.symm
      rw [hv]
      rcases obj_or_other v with ⟨w', os', rfl⟩ | ⟨-, -, c, t, ht, hc⟩
      · have hin : (inner w os).bytes = (inner w' os').bytes := by
          rw [inner_bytes, inner_bytes, hb]
        have hu := isTrue_bytes (lastOf_bytes hin usageKey)
        exact hu.symm.trans ha
      · rw [ht] at hb
        exact absurd (List.cons.inj hb).1 hc
    · cases ha
  exact Bool.eq_iff_iff.mpr ⟨key h, key h.symm⟩

/-! ## when the edit is read as it is meant -/

/-- the first stream options ask for usage first -/
def asksFirst (ms : List Member) : Bool :=
  match firstOf optionsKey ms with
  | some (.obj _ os) => isTrue (firstOf usageKey os)
  | _ => false

/-- the options that count are those the edit sees, or ask for usage by themselves -/
def optionsSafe (ms : List Member) : Bool :=
  match valuesOf optionsKey ms with
  | [] => true
  | [.obj _ os] => decide ((valuesOf usageKey os).length ≤ 1) || isTrue (lastOf usageKey os)
  | [_] => true
  | _ => asks ms

/-- repeated keys do not lead a last-wins parser astray: the first and the last stream flag agree, and
so do the options -/
def usageSafe (ms : List Member) : Bool :=
  if isTrue (firstOf streamKey ms) then
    if isTrue (lastOf streamKey ms) then optionsSafe ms else asksFirst ms
  else !isTrue (lastOf streamKey ms) || asks ms

theorem getLast_tail {v v' : Value} {us : List Value} (h : us ≠ []) :
    (v :: us).getLast? = (v' :: us).getLast? := by
  cases us with
  | nil => exact absurd rfl h
  | cons u us => rw [getLast?_cons_cons, getLast?_cons_cons]

theorem asks_inner (w : Ws) (os : List Member) (h : valuesOf optionsKey ms = [askInner w os]) :
    asks ms = (decide ((valuesOf usageKey os).length ≤ 1) || isTrue (lastOf usageKey os)) := by
  obtain ⟨w', os', ho, hv, _⟩ := askInner_spec w os
  have hlast : lastOf optionsKey ms = some (.obj w' os') := by
    rw [lastOf, h, ho]
    rfl
  unfold asks
  rw [hlast]
  dsimp only
  unfold lastOf
  rw [hv]
  cases valuesOf usageKey os with
  | nil => rfl
  | cons u us =>
    cases us with
    | nil => rfl
    | cons u' us =>
      rfl

theorem asks_new (h : lastOf optionsKey ms = some optionsValue) : asks ms = true := by
  have ht : isTrue (lastOf usageKey [usageMember []]) = true := by decide
  unfold asks
  rw [h]
  exact ht

theorem asks_askMembers (ms : List Member) : asks (askMembers ms) = optionsSafe ms := by
  unfold optionsSafe
  have h := askMembers_options ms
  cases hv : valuesOf optionsKey ms with
  | nil =>
    rw [hv] at h
    refine asks_new ?_
    rw [lastOf, h]
    rfl
  | cons v vs =>
    rw [hv] at h
    cases vs with
    | nil =>
      rcases obj_or_other v with ⟨w, os, rfl⟩ | ⟨hnot, hask, -⟩
      · exact asks_inner w os h
      · have htrue : asks (askMembers ms) = true := by
          refine asks_new ?_
          rw [lastOf, h]
          exact congrArg some hask
        rw [htrue]
        cases v with
        | obj w os => exact absurd rfl (hnot w os)
        | _ => rfl
    | cons v' vs =>
      have hlast : lastOf optionsKey (askMembers ms) = lastOf optionsKey ms := by
        rw [lastOf, lastOf, h, hv]
        exact getLast_tail (cons_ne_nil _ _)
      have hsame : asks (askMembers ms) = asks ms := by
        unfold asks
        rw [hlast]
      rw [hsame]
      cases v <;> rfl

theorem askMembers_bytes (hs : isTrue (firstOf streamKey d.members) = true) :
    ({ d with members := askMembers d.members } : Doc).bytes = d.bytes ↔ asksFirst d.members = true := by
  unfold asksFirst
  cases ho : firstOf optionsKey d.members with
  | none =>
    refine ⟨fun h => ?_, fun h => by cases h⟩
    have hlen := congrArg length h
    have hask : askMembers d.members = d.members ++ [optionsMember] := by
      unfold askMembers
      rw [ho]
    rw [hask] at hlen
    simp only [Doc.bytes, Value.bytes, membersBytes_snoc (streams_ne_nil hs), length_append,
      length_cons, length_nil] at hlen
    omega
  | some v =>
    have hask : askMembers d.members = setFirst optionsKey (askValue v) d.members := by
      unfold askMembers
      rw [ho]
    obtain ⟨pre, post, _, hbytes, hset⟩ := jsonTopFind_set d ho
    rw [hask, hset, hbytes, append_cancel_left_eq, append_cancel_right_eq]
    rcases obj_or_other v with ⟨w, os, rfl⟩ | ⟨hnot, hask, c, t, ht, hc⟩
    · have hin := askInner_bytes w os
      change (askInner w os).bytes = _ ↔ isTrue (firstOf usageKey os) = true
      cases hu : firstOf usageKey os with
      | none =>
        rw [hu] at hin
        obtain ⟨_, post₂, hb, he⟩ := hin
        refine ⟨fun h => ?_, fun h => by cases h⟩
        have hlen := congrArg length h
        rw [hb, he] at hlen
        simp only [length_append, frag_lengths.2.1] at hlen
        omega
      | some u =>
        rw [hu] at hin
        cases ht : isTrue (some u) with
        | true => exact ⟨fun _ => rfl, fun _ => congrArg Value.bytes (askInner_true (hu ▸ ht))⟩
        | false =>
          obtain ⟨pre₂, post₂, _, hb, he⟩ := hin
          refine ⟨fun h => ?_, fun h => by cases h⟩
          rw [hb, he ht, append_cancel_left_eq, append_cancel_right_eq] at h
          rw [bytes_true.mp h.symm] at ht
          cases ht
    · rw [hask]
      refine ⟨fun h => ?_, fun h => ?_⟩
      · rw [ht] at h
        exact absurd (List.cons.inj h).1.symm hc
      · cases v with
        | obj w os => exact absurd rfl (hnot w os)
        | _ => cases h

/-- what is promised of the edit: a stream asks for usage and says all else as before, a second edit
changes nothing, and any other body is left as it is -/
structure UsageAsked (d : Doc) (cap : Nat) : Prop where
  streaming : isTrue (lastOf streamKey d.members) = true → ∃ d' : Doc,
    (injectIncludeUsage d.bytes cap).2 = d'.bytes ∧ asks d'.members = true ∧
    others optionsKey d'.members = others optionsKey d.members ∧
    ∀ w os, lastOf optionsKey d.members = some (.obj w os) → ∃ w' os',
      lastOf optionsKey d'.members = some (.obj w' os') ∧ others usageKey os' = others usageKey os
  again : (injectIncludeUsage (injectIncludeUsage d.bytes cap).2 cap).2 =
    (injectIncludeUsage d.bytes cap).2
  other : isTrue (lastOf streamKey d.members) = false → (injectIncludeUsage d.bytes cap).2 = d.bytes

theorem inject_again {cap : Nat} (hroom : d.bytes.length + 40 ≤ cap) :
    (injectIncludeUsage (injectIncludeUsage d.bytes cap).2 cap).2 =
      (injectIncludeUsage d.bytes cap).2 := by
  cases hs : isTrue (firstOf streamKey d.members) with
  | false => rw [inject_off hs, inject_off hs]
  | true =>
    obtain ⟨w, os, ho, ht⟩ := askMembers_first d.members
    rw [inject_doc hroom hs]
    exact inject_on ho ht

theorem askMembers_inner {w : Ws} {os : List Member} (h : lastOf optionsKey ms = some (.obj w os)) :
    ∃ w' os',
      lastOf optionsKey (askMembers ms) = some (.obj w' os') ∧ others usageKey os' = others usageKey os := by
  have hopt := askMembers_options ms
  cases hv : valuesOf optionsKey ms with
  | nil =>
    rw [lastOf, hv] at h
    cases h
  | cons v vs =>
    rw [hv] at hopt
    cases vs with
    | nil =>
      rw [lastOf, hv] at h
      obtain rfl : v = .obj w os := Option.some.inj h
      obtain ⟨w', os', ho, _, hother⟩ := askInner_spec w os
      refine ⟨w', os', ?_, hother⟩
      rw [lastOf, hopt]
      exact congrArg some ho
    | cons v' vs =>
      refine ⟨w, os, ?_, rfl⟩
      rw [lastOf, hv] at h
      rw [lastOf, hopt, ← h]
      exact getLast_tail (cons_ne_nil _ _)

/-- **usage is asked for** exactly if repeated keys do not mislead a last-wins parser -/
theorem usage_asked (d : Doc) (cap : Nat) (hroom : d.bytes.length + 40 ≤ cap) :
    UsageAsked d cap ↔ usageSafe d.members = true := by
  have hasks := asks_askMembers d.members
  unfold usageSafe
  cases hs : isTrue (firstOf streamKey d.members) with
  | true =>
    have hdoc := inject_doc hroom hs
    rw [if_pos rfl]
    cases hl : isTrue (lastOf streamKey d.members) with
    | true =>
      rw [← hasks]
      constructor
      · intro h
        obtain ⟨d', hd', ha, _⟩ := h.streaming hl
        exact (asks_bytes (hdoc.symm.trans hd')).trans ha
      · intro ha
        refine ⟨fun _ => ⟨_, hdoc, ha, askMembers_others _, fun w os ho => askMembers_inner ho⟩,
          inject_again hroom, fun hc => ?_⟩
        rw [hl] at hc
        cases hc
    | false =>
      rw [if_neg Bool.false_ne_true, ← askMembers_bytes hs, ← hdoc]
      constructor
      · exact fun h => h.other hl
      · refine fun h => ⟨fun hc => ?_, inject_again hroom, fun _ => h⟩
        rw [hl] at hc
        cases hc
  | false =>
    have hoff := @inject_off d cap hs
    cases hl : isTrue (lastOf streamKey d.members) with
    | true =>
      constructor
      · intro h
        obtain ⟨d', hd', ha, _⟩ := h.streaming hl
        exact (asks_bytes (hoff.symm.trans hd')).trans ha
      · intro ha
        refine ⟨fun _ => ⟨d, hoff, ha, rfl, fun w os ho => ⟨w, os, ho, rfl⟩⟩, inject_again hroom,
          fun hc => ?_⟩
        rw [hl] at hc
        cases hc
    | false =>
      refine ⟨fun _ => rfl, fun _ => ⟨fun hc => ?_, inject_again hroom, fun _ => hoff⟩⟩
      rw [hl] at hc
      cases hc

def streamBody : Doc :=
  { before := [], gap := [], after := [], members := [member streamName (.atom (.bool true))] }

theorem usage_asked_stream : UsageAsked streamBody 100 ∧ (injectIncludeUsage streamBody.bytes 100).2 =
    ascii "\x7b\"stream\":true,\"stream_options\":\x7b\"include_usage\":true\x7d\x7d" :=
  ⟨(usage_asked streamBody 100 (by decide)).mpr (by decide), by decide +kernel⟩

/-- the engine streams, and nobody asked it for usage -/
theorem usage_forgotten : ¬ UsageAsked twiceBody 200 := by
  have hlast : isTrue (lastOf streamKey twiceBody.members) = true := by decide +kernel
  have hsame : (injectIncludeUsage twiceBody.bytes 200).2 = twiceBody.bytes := by decide +kernel
  intro h
  obtain ⟨d', hd', ha, _⟩ := h.streaming hlast
  rw [← asks_bytes (hsame.symm.trans hd')] at ha
  cases ha

end SpJson
