import InferenceGateway.SpJson.Scan

/-!
# The model of a request

What the scan keeps of a whole object is a reading of its members in order: `scan_doc` goes from the
bytes to `readMembers`, which stops at the second key of a name, and the extractors follow.

* `model_exact`    the model field of an object, however it is cut, and of its prefixes;
* `both_repeated`  with both keys repeated the first repetition decides, and a text that is nested too
                   deep is no longer read.
-/

open List Option Bool

namespace SpJson

open Json

abbrev modelKey : Bytes := ascii "model"
abbrev userKey : Bytes := ascii "user"
abbrev saltKey : Bytes := ascii "cache_salt"

/-! ## reading the members -/

/-- the text of the model, where its key has been read, and whether the user's has -/
abbrev Known := Option (Option Bytes) × Bool

def readMember (k : Known) (x : Member) : Except ScanError Known :=
  if x.named modelKey then
    if k.1.isSome then .error .duplicateModel else .ok (some (modelText x.value), k.2)
  else if x.named userKey then
    if k.2 then .error .duplicateUser else .ok (k.1, true)
  else .ok k

def readMembers : Known → List Member → Except ScanError Known
  | k, [] => .ok k
  | k, x :: xs =>
    match readMember k x with
    | .error e => .error e
    | .ok k => readMembers k xs

namespace Scan

/-- what the scan keeps is what the members read so far say -/
structure Knows (s : Scan) (k : Known) : Prop where
  modelSeen : s.modelSeen = k.1.isSome
  userSeen : s.userSeen = k.2
  kept : s.kept = k.1.elim (false, false, []) verdict

/-! ## a member -/

variable {s : Scan} {c : UInt8} {k : Known}

abbrev inKey (s : Scan) : Scan := { s with afterComma := false, stringKind := .key }

theorem feed_key (hs : s.Ready .key) (before : Ws) (x : Str) :
    s.feed (before.bytes ++ (quote :: strBytes x ++ [quote])) =
      (s.inKey.reads (strBytes x)).keyEnd := by
  have hopen : s.byte quote = s.inKey.reads [] := by
    rw [hs.byte_key rfl]
    rfl
  have hread := feed_reads (strBytes_inside x) (s := s.inKey) nofun nofun hs.escaped
    hs.error []
  rw [feed_append, hs.blanks nofun, cons_append, feed_cons hs.error, hopen, feed_append,
    hread, feed_cons (by exact hs.error), byte_end (by exact nofun) (by exact hs.escaped)]
  rfl

section
variable (s : Scan) {x : Str}

theorem keyEnd_model (h : decode x = some modelKey) : (s.reads (strBytes x)).keyEnd =
      if s.modelSeen then { s.reads (strBytes x) with key := .other, error := some .duplicateModel }
      else { s.reads (strBytes x) with modelSeen := true, key := .model, phase := .colon
                                       stringKind := .none } := by
  have hm := (spells_reads s x "model" (by decide)).trans (decide_eq_true h)
  have hs := (spells_reads s x "cache_salt" (by decide)).trans (decide_eq_false (by rw [h]; decide))
  unfold keyEnd keyNamed
  simp only [hm, hs]
  cases hseen : s.modelSeen <;> simp [reads, hseen]

theorem keyEnd_user (h : decode x = some userKey) : (s.reads (strBytes x)).keyEnd =
      if s.userSeen then { s.reads (strBytes x) with key := .other, error := some .duplicateUser }
      else { s.reads (strBytes x) with userSeen := true, key := .user, phase := .colon
                                       stringKind := .none } := by
  have hm := (spells_reads s x "model" (by decide)).trans (decide_eq_false (by rw [h]; decide))
  have hu := (spells_reads s x "user" (by decide)).trans (decide_eq_true h)
  have hs := (spells_reads s x "cache_salt" (by decide)).trans (decide_eq_false (by rw [h]; decide))
  unfold keyEnd keyNamed
  simp only [hm, hu, hs]
  cases hseen : s.userSeen <;> simp [reads, hseen]

theorem keyEnd_other (hm : decode x ≠ some modelKey) (hu : decode x ≠ some userKey) :
    ∃ k inv seen, k ≠ .model ∧ (s.reads (strBytes x)).keyEnd =
      { s.reads (strBytes x) with key := k, saltInvalid := inv, saltSeen := seen, phase := .colon
                                  stringKind := .none } := by
  have hm := (spells_reads s x "model" (by decide)).trans (decide_eq_false hm)
  have hu := (spells_reads s x "user" (by decide)).trans (decide_eq_false hu)
  unfold keyEnd keyNamed
  by_cases hs : decode x = some saltKey
  · have hs := (spells_reads s x "cache_salt" (by decide)).trans (decide_eq_true hs)
    refine ⟨.salt, s.saltInvalid || s.saltSeen, true, by decide, ?_⟩
    simp only [hm, hu, hs]
    simp [reads]
  · have hs := (spells_reads s x "cache_salt" (by decide)).trans (decide_eq_false hs)
    refine ⟨.other, s.saltInvalid, s.saltSeen, by decide, ?_⟩
    simp only [hm, hu, hs]
    simp [reads]

end

/-- the scan has followed a reading: to its error, or to the place after what was read -/
def Reaches (s : Scan) (bs : Bytes) (c : UInt8) (rest : Bytes) : Except ScanError Known → Prop
  | .error e => (s.feed bs).error = some e
  | .ok k => ∃ t : Scan, t.Ready .after ∧ t.Knows k ∧ s.feed bs = (t.afterByte c).feed rest

theorem Reaches.of_feed {t : Scan} {bs bs' rest : Bytes} {r : Except ScanError Known}
    (h : t.Reaches bs' c rest r) (hfeed : s.feed bs = t.feed bs') : s.Reaches bs c rest r := by
  cases r with
  | error e => exact (congrArg Scan.error hfeed).trans h
  | ok k =>
    obtain ⟨r, hr, hkr, hf⟩ := h
    exact ⟨r, hr, hkr, hfeed.trans hf⟩

theorem reaches_value (hs : s.Ready .colon) (hm : s.modelSeen = k.1.isSome) (hu : s.userSeen = k.2)
    (h : s.key = .model → s.kept = (false, false, [])) {v : Value} (hv : v.depth + 1 < depthMax)
    (hkept : (if s.key = .model then verdict (modelText v) else s.kept) =
      k.1.elim (false, false, []) verdict) (mid gap after : Ws) (hc : c = comma ∨ c = rbrace)
    (bs : Bytes) :
    s.Reaches (mid.bytes ++ colon :: (gap.bytes ++ (v.bytes ++ (after.bytes ++ c :: bs)))) c bs
      (.ok k) := by
  have hvalue : ({ s with phase := .value } : Scan).Ready .value :=
    ⟨{ hs with }, hs.depth, hs.done, rfl⟩
  have hcolon : s.byte colon = { s with phase := .value } := by
    rw [byte_token hs.toIdle hs.done rfl, token]
    simp only [hs.phase, if_true]
  have htook := feed_value hvalue h v hv
  refine ⟨_, htook.settled,
    ⟨htook.modelSeen.trans hm, htook.userSeen.trans hu, htook.kept.trans hkept⟩, ?_⟩
  rw [feed_append, hs.blanks (by decide), feed_cons hs.error, hcolon, feed_append,
    hvalue.blanks (by decide), feed_append, feed_settle htook after hc]

/-- **a member of the object at the top** -/
theorem feed_member (hs : s.Ready .key) (hk : s.Knows k) (x : Member) (hx : x.depth + 1 < depthMax)
    (hc : c = comma ∨ c = rbrace) (bs : Bytes) :
    s.Reaches (x.bytes ++ c :: bs) c bs (readMember k x) := by
  obtain ⟨before, key, mid, gap, v, after⟩ := x
  have key_end : ∀ {t : Scan} {r},
      (s.inKey.reads (strBytes key)).keyEnd = t → t.Reaches
      (mid.bytes ++ colon :: (gap.bytes ++ (v.bytes ++ (after.bytes ++ c :: bs)))) c bs r →
      s.Reaches ((Member.mk before key mid gap v after).bytes ++ c :: bs) c bs r := by
    intro t r hend hr
    refine hr.of_feed ?_
    rw [← hend, ← feed_key hs before, ← feed_append]
    simp only [Member.bytes, append_assoc, cons_append, nil_append]
  unfold readMember
  have named : ∀ name, Member.named name (.mk before key mid gap v after) = true ↔ decode key = some name :=
    fun _ => decide_eq_true_iff
  by_cases hm : decode key = some modelKey
  · rw [if_pos ((named _).mpr hm)]
    have hend := keyEnd_model s.inKey hm
    by_cases hseen : k.1.isSome = true
    · rw [if_pos hseen]
      rw [if_pos (hk.modelSeen.trans hseen)] at hend
      exact key_end hend (congrArg Scan.error (feed_error (some_ne_none _) _))
    · have hnone : k.1 = none := not_isSome_iff_eq_none.mp hseen
      have hempty : s.kept = (false, false, []) := by
        rw [hk.kept, hnone]
        rfl
      rw [if_neg hseen]
      rw [if_neg (by rw [hk.modelSeen]; exact hseen)] at hend
      refine key_end hend (reaches_value ?_ ?_ ?_ ?_ hx ?_ mid gap after hc bs)
      · exact ⟨⟨hs.error, rfl, hs.escaped⟩, hs.depth, hs.done, rfl⟩
      · rfl
      · exact hk.userSeen
      · exact fun _ => hempty
      · rfl
  rw [if_neg (hm ∘ (named _).mp)]
  by_cases hu : decode key = some userKey
  · rw [if_pos ((named _).mpr hu)]
    have hend := keyEnd_user s.inKey hu
    by_cases hseen : k.2 = true
    · rw [if_pos hseen]
      rw [if_pos (hk.userSeen.trans hseen)] at hend
      exact key_end hend (congrArg Scan.error (feed_error (some_ne_none _) _))
    · rw [if_neg hseen]
      rw [if_neg (by rw [hk.userSeen]; exact hseen)] at hend
      refine key_end hend (reaches_value ?_ ?_ ?_ ?_ hx ?_ mid gap after hc bs)
      · exact ⟨⟨hs.error, rfl, hs.escaped⟩, hs.depth, hs.done, rfl⟩
      · exact hk.modelSeen
      · rfl
      · exact KeyKind.noConfusion
      · exact hk.kept
  · rw [if_neg (hu ∘ (named _).mp)]
    obtain ⟨kind, inv, seen, hne, hend⟩ := keyEnd_other s.inKey hm hu
    refine key_end hend (reaches_value ?_ ?_ ?_ ?_ hx ?_ mid gap after hc bs)
    · exact ⟨⟨hs.error, rfl, hs.escaped⟩, hs.depth, hs.done, rfl⟩
    · exact hk.modelSeen
    · exact hk.userSeen
    · exact fun h => absurd h hne
    · rw [if_neg hne]
      exact hk.kept

/-! ## the object -/

theorem afterByte_comma (hs : s.Ready .after) (hk : s.Knows k) :
    (s.afterByte comma).Ready .key ∧ (s.afterByte comma).Knows k := by
  exact ⟨⟨{ hs with }, hs.depth, hs.done, rfl⟩, hk.modelSeen, hk.userSeen, hk.kept⟩

theorem feed_members (x : Member) (ms : List Member) (hd : membersDepth (x :: ms) + 1 < depthMax)
    (hs : s.Ready .key) (hk : s.Knows k) (bs : Bytes) :
    s.Reaches (x.bytes ++ (membersTail ms ++ rbrace :: bs)) rbrace bs (readMembers k (x :: ms)) := by
  rw [membersDepth] at hd
  induction ms generalizing x s k with
  | nil =>
    have hlast := feed_member hs hk x (by omega) (.inr rfl) bs
    rw [readMembers]
    cases hread : readMember k x <;> rwa [hread] at hlast
  | cons y ms ih =>
    rw [membersDepth] at hd
    have hfirst := feed_member hs hk x (by omega) (.inl rfl) (y.bytes ++ (membersTail ms ++ rbrace :: bs))
    rw [membersTail, cons_append, cons_append, append_assoc, readMembers]
    cases hread : readMember k x with
    | error e => rwa [hread] at hfirst
    | ok k' =>
      rw [hread] at hfirst
      obtain ⟨t, ht, hk', hfeed⟩ := hfirst
      obtain ⟨hkey, hknows⟩ := afterByte_comma ht hk'
      exact (ih y (by omega) hkey hknows).of_feed hfeed

/-- the state after a whole object: its reading, whatever blanks follow -/
def Reads (s : Scan) : Except ScanError Known → Prop
  | .error e => s.error = some e
  | .ok k => s.error = none ∧ s.done = true ∧ s.Knows k

theorem feed_done (hs : s.Idle) (hp : s.phase ≠ .primitive) (hd : s.done = true) (hk : s.Knows k)
    (w : Ws) : (s.feed w.bytes).Reads (.ok k) := by
  rw [feed_blanks hs hp]
  exact ⟨hs.error, hd, hk⟩

theorem init_open : (init.byte lbrace) = { init with depth := 1, phase := .key } := rfl

/-- **the scan of an object reads its members in order** -/
theorem scan_doc (d : Doc) (hd : (Value.obj d.gap d.members).depth < depthMax) :
    (init.feed d.bytes).Reads (readMembers (none, false) d.members) := by
  have hinit : init.Idle := ⟨rfl, rfl, rfl⟩
  have hready : ({ init with depth := 1, phase := .key } : Scan).Ready .key := ⟨⟨rfl, rfl, rfl⟩, rfl, rfl, rfl⟩
  have hknows : ({ init with depth := 1, phase := .key } : Scan).Knows (none, false) := ⟨rfl, rfl, rfl⟩
  have htext : init.feed d.bytes = ({ init with depth := 1, phase := .key } : Scan).feed
      (membersBytes d.members ++ rbrace :: d.after.bytes) := by
    have hb : d.bytes = d.before.bytes ++ lbrace :: (d.gap.bytes ++
        (membersBytes d.members ++ rbrace :: d.after.bytes)) := by
      simp only [Doc.bytes, Value.bytes, append_assoc, cons_append, nil_append]
    rw [hb, feed_append, feed_blanks hinit (by decide), feed_cons rfl, init_open, feed_append,
      hready.blanks (by decide)]
  rw [htext]
  rw [Value.depth] at hd
  cases hms : d.members with
  | nil =>
    exact feed_done ⟨rfl, rfl, rfl⟩ Phase.noConfusion rfl ⟨rfl, rfl, rfl⟩ d.after
  | cons x ms =>
    rw [hms] at hd
    rw [membersBytes, append_assoc]
    have h := feed_members x ms (by omega) hready hknows d.after.bytes
    revert h
    cases readMembers (none, false) (x :: ms) with
    | error e => exact id
    | ok k =>
      rintro ⟨r, hr, hkr, hf⟩
      have hphase : r.phase ≠ .primitive := by
        rw [hr.phase]
        decide
      rw [hf]
      exact feed_done (s := { r with done := true, depth := 0 }) { hr with } hphase
        rfl { hkr with } d.after

end Scan

/-! ## the answers -/

/-- the answer for a reading of all members -/
def modelAnswer (cap : Nat) : Except ScanError Known → Extracted
  | .error e => (e.code, [])
  | .ok k =>
    match k.1 with
    | some (some t) => if t.isEmpty then (-1, []) else (0, t.take (cap - 1))
    | _ => (-1, [])

variable {k k' : Known} {x : Member} {e : ScanError} {ms : List Member} {cap : Nat}
  {body m t : Bytes} {v : Value}

theorem readMember_error (h : readMember k x = .error e) :
    e = .duplicateModel ∨ e = .duplicateUser := by
  unfold readMember at h
  split at h
  · split at h
    · exact .inl (Except.error.inj h).symm
    · cases h
  split at h
  · split at h
    · exact .inr (Except.error.inj h).symm
    · cases h
  · cases h

theorem readMembers_error (h : readMembers k ms = .error e) :
    e = .duplicateModel ∨ e = .duplicateUser := by
  induction ms generalizing k with
  | nil => cases h
  | cons x ms ih =>
    rw [readMembers] at h
    cases hx : readMember k x with
    | error e' =>
      rw [hx] at h
      exact Except.error.inj h ▸ readMember_error hx
    | ok k' =>
      rw [hx] at h
      exact ih h

theorem doc_nonempty (d : Doc) : d.bytes.isEmpty = false := by
  rw [isEmpty_eq_false_iff]
  intro h
  simp [Doc.bytes, Value.bytes] at h

theorem extractModelField_doc (d : Doc) (hd : (Value.obj d.gap d.members).depth < depthMax)
    (hcap : cap ≠ 0) :
    extractModelField d.bytes cap = modelAnswer cap (readMembers (none, false) d.members) := by
  have hargs : (d.bytes.isEmpty || cap == 0) = false := by
    rw [doc_nonempty, beq_false_of_ne hcap]
    rfl
  have hscan := Scan.scan_doc d hd
  unfold extractModelField
  rw [if_neg (by rw [hargs]; exact false_ne_true)]
  cases hread : readMembers (none, false) d.members with
  | error e =>
    rw [hread] at hscan
    have herr : (Scan.init.feed d.bytes).error = some e := hscan
    simp only [Scan.finish, herr]
    rcases readMembers_error hread with rfl | rfl <;> rfl
  | ok k =>
    rw [hread] at hscan
    obtain ⟨herr, hdone, hk⟩ := hscan
    have hkept := hk.kept
    simp only [Scan.kept] at hkept
    simp only [Scan.finish, herr, hdone, modelAnswer]
    obtain ⟨m, u⟩ := k
    rcases m with _ | _ | t
    · simp only [Option.elim, Prod.mk.injEq] at hkept
      simp [hkept.1, hkept.2.1]
    · simp only [Option.elim, Scan.verdict, Prod.mk.injEq] at hkept
      simp [hkept.1]
    · simp only [Option.elim, Scan.verdict, Prod.mk.injEq] at hkept
      simp [hkept.1, hkept.2.1, hkept.2.2]

/-! ## a model that has been read stays -/

namespace Scan

/-- the model is read once: its key is seen before its value, and its value before the next key -/
structure Steady (s : Scan) : Prop where
  key : s.key = .model → s.modelSeen = true
  string : s.stringKind = .model → s.key = .model
  ready : s.modelReady = true → s.modelSeen = true ∧ s.stringKind ≠ .model ∧
    (s.key = .model → s.phase ≠ .colon ∧ s.phase ≠ .value)

/-- a steady state after which a model that was there still is -/
structure Keeps (s t : Scan) : Prop where
  steady : t.Steady
  model : s.modelReady = true → t.modelReady = true ∧ t.model = s.model

/-- what a scan holds of the model, and the key it is at -/
def held (s : Scan) : Bool × Bool × Bytes × KeyKind := (s.modelReady, s.modelSeen, s.model, s.key)

variable {s t : Scan}

theorem Steady.frame (hs : s.Steady) (hheld : t.held = s.held)
    (hstr : t.stringKind = .model → s.stringKind = .model)
    (hphase : t.phase = s.phase ∨ (t.phase ≠ .colon ∧ t.phase ≠ .value)) : Keeps s t := by
  simp only [held, Prod.mk.injEq] at hheld
  obtain ⟨hready, hseen, hmodel, hkey⟩ := hheld
  refine ⟨⟨fun h => ?_, fun h => ?_, fun h => ?_⟩, fun h => ⟨hready.trans h, hmodel⟩⟩
  · exact hseen.trans (hs.key (hkey ▸ h))
  · exact hkey.trans (hs.string (hstr h))
  · obtain ⟨h1, h2, h3⟩ := hs.ready (hready ▸ h)
    refine ⟨hseen.trans h1, fun h => h2 (hstr h), fun h => ?_⟩
    rcases hphase with hp | hp
    · rw [hp]
      exact h3 (hkey ▸ h)
    · exact hp

theorem Steady.same (hs : s.Steady) (hheld : t.held = s.held) (hstr : t.stringKind = s.stringKind)
    (hphase : t.phase = s.phase) : Keeps s t :=
  hs.frame hheld (fun h => hstr ▸ h) (.inl hphase)

theorem Steady.fail (hs : s.Steady) (e : ScanError) : Keeps s (s.fail e) := hs.same rfl rfl rfl

theorem Keeps.trans {u : Scan} (h : Keeps s t) (h' : Keeps t u) : Keeps s u :=
  ⟨h'.steady, fun hs => ⟨(h'.model (h.model hs).1).1, (h'.model (h.model hs).1).2.trans (h.model hs).2⟩⟩

theorem keyEnd_keeps (hs : s.Steady) (hk : s.stringKind = .key) : Keeps s s.keyEnd := by
  have hother : ∀ {t : Scan}, t.key ≠ .model → t.stringKind ≠ .model → t.modelReady = s.modelReady →
      t.modelSeen = s.modelSeen → t.model = s.model → Keeps s t := by
    intro t hkey hstr hready hseen hmodel
    exact ⟨⟨fun h => absurd h hkey, fun h => absurd h hstr, fun h =>
      ⟨hseen.trans (hs.ready (hready ▸ h)).1, hstr, fun h => absurd h hkey⟩⟩,
      fun h => ⟨hready.trans h, hmodel⟩⟩
  have hk' : s.stringKind ≠ .model := by rw [hk]; exact nofun
  unfold keyEnd
  generalize s.spells "model" = m
  generalize s.spells "user" = u
  generalize s.spells "cache_salt" = c
  unfold keyNamed
  by_cases hm : (m && s.modelSeen) = true
  · rw [if_pos hm]
    exact hother nofun hk' rfl rfl rfl
  rw [if_neg hm]
  by_cases hu : (!m && u && s.userSeen) = true
  · rw [if_pos hu]
    exact hother nofun hk' rfl rfl rfl
  rw [if_neg hu]
  cases m with
  | true =>
    -- the first key of the name: there is no model yet
    have hnot : s.modelReady ≠ true := fun h => hm (hs.ready h).1
    cases c <;> exact ⟨⟨fun _ => rfl, nofun, fun h => absurd h hnot⟩, fun h => absurd h hnot⟩
  | false => cases u <;> cases c <;> exact hother nofun nofun rfl rfl rfl

theorem phase_after : Phase.after ≠ .colon ∧ Phase.after ≠ .value := ⟨nofun, nofun⟩

section
variable (hs : s.Steady)
include hs

theorem modelEnd_keeps (hk : s.stringKind = .model) : Keeps s s.modelEnd := by
  have hnot : s.modelReady ≠ true := fun h => (hs.ready h).2.1 hk
  have hseen : s.modelEnd.modelSeen = true := by
    have h := hs.key (hs.string hk)
    unfold modelEnd
    dsimp only
    split
    · exact h
    split <;> exact h
  have hstr : s.modelEnd.stringKind ≠ .model := (nofun : StrKind.none ≠ .model)
  have hphase : s.modelEnd.phase ≠ .colon ∧ s.modelEnd.phase ≠ .value := phase_after
  exact ⟨⟨fun _ => hseen, fun h => absurd h hstr, fun _ => ⟨hseen, hstr, fun _ => hphase⟩⟩,
    fun h => absurd h hnot⟩

section
variable (c : UInt8)

theorem stringEnd_keeps : Keeps s s.stringEnd := by
  unfold stringEnd
  split
  · exact keyEnd_keeps hs ‹_›
  · exact modelEnd_keeps hs ‹_›
  · exact hs.frame rfl nofun (.inr phase_after)
  · unfold saltEnd
    split <;> exact hs.frame rfl nofun (.inr phase_after)
  · refine hs.frame rfl nofun ?_
    split
    · exact .inr phase_after
    · exact .inl rfl

theorem keepByte_keeps : Keeps s (s.keepByte c) := by
  unfold keepByte
  split
  · exact hs.same rfl rfl rfl
  split <;> exact hs.same rfl rfl rfl

theorem stringByte_keeps : Keeps s (s.stringByte c) := by
  unfold stringByte
  split
  · exact stringEnd_keeps hs
  split
  · exact hs.fail _
  have hkeep := keepByte_keeps hs c
  split
  · exact hkeep.trans (hkeep.steady.same rfl rfl rfl)
  split
  · exact hkeep.trans (hkeep.steady.same rfl rfl rfl)
  · exact hkeep

theorem primitiveByte_keeps : Keeps s (s.primitiveByte c) := by
  unfold primitiveByte
  split
  · exact hs.fail _
  split
  · exact hs.fail _
  · exact hs.same rfl rfl rfl

theorem primitiveEnd_keeps : Keeps s s.primitiveEnd := by
  unfold primitiveEnd
  split
  · exact hs.fail _
  · exact hs.frame rfl id (.inr ⟨nofun, nofun⟩)

theorem nestedByte_keeps : Keeps s (s.nestedByte c) := by
  unfold nestedByte
  split
  · exact hs.frame rfl nofun (.inl rfl)
  split
  · split <;> exact hs.same rfl rfl rfl
  split
  · refine hs.frame rfl id ?_
    split
    · exact .inr ⟨nofun, nofun⟩
    · exact .inl rfl
  · exact hs.same rfl rfl rfl

theorem keyByte_keeps : Keeps s (s.keyByte c) := by
  unfold keyByte
  split
  · exact hs.same rfl rfl rfl
  split
  · exact hs.frame rfl nofun (.inl rfl)
  · exact hs.fail _

theorem afterByte_keeps : Keeps s (s.afterByte c) := by
  unfold afterByte
  split
  · exact hs.frame rfl id (.inr ⟨nofun, nofun⟩)
  split
  · exact hs.same rfl rfl rfl
  · exact hs.fail _

theorem valueByte_keeps (hp : s.phase = .value) : Keeps s (s.valueByte c) := by
  by_cases hq : c = quote
  · subst hq
    have hkind : valueKind s.key = .model → s.key = .model := by
      cases s.key <;> simp [valueKind]
    rw [valueByte_quote]
    refine ⟨⟨hs.key, hkind, fun h => ?_⟩, fun h => ⟨h, rfl⟩⟩
    -- a model that is there has left its value
    obtain ⟨h1, -, h3⟩ := hs.ready h
    exact ⟨h1, fun hm => (h3 (hkind hm)).2 hp, h3⟩
  · have hspoil : Keeps s s.spoil := hs.same rfl rfl rfl
    rw [valueByte_spoil s hq]
    split
    · exact hspoil.trans
        (hspoil.steady.frame rfl id (.inr (by decide : Phase.nested ≠ .colon ∧ Phase.nested ≠ .value)))
    · have hin : Keeps s.spoil (s.spoil.within (primitiveStart c) 0) :=
        hspoil.steady.frame rfl id (.inr (by decide : Phase.primitive ≠ .colon ∧ Phase.primitive ≠ .value))
      exact hspoil.trans (hin.trans (primitiveByte_keeps hin.steady c))

theorem byte_keeps : Keeps s (s.byte c) := by
  have hself : Keeps s s := hs.same rfl rfl rfl
  unfold byte token
  split
  · exact stringByte_keeps hs c
  split
  · split
    · exact primitiveEnd_keeps hs
    · exact hself
  split
  · exact hs.fail _
  split
  · split
    · exact hs.frame rfl id (.inr ⟨nofun, nofun⟩)
    · exact hs.fail _
  · exact nestedByte_keeps hs c
  · have hend := primitiveEnd_keeps hs
    split
    · split
      · exact hend
      · exact hend.trans (afterByte_keeps hend.steady c)
    · exact primitiveByte_keeps hs c
  · exact keyByte_keeps hs c
  · rename_i hcolon
    split
    · -- the colon leads to a value: not to the model's where there is a model
      refine ⟨⟨hs.key, hs.string, fun h => ?_⟩, fun h => ⟨h, rfl⟩⟩
      obtain ⟨h1, h2, h3⟩ := hs.ready h
      exact ⟨h1, h2, fun hk => absurd hcolon (h3 hk).1⟩
    · exact hs.fail _
  · exact valueByte_keeps hs c ‹_›
  · exact afterByte_keeps hs c

theorem feed_keeps (bs : Bytes) : Keeps s (s.feed bs) := by
  induction bs generalizing s with
  | nil => exact hs.same rfl rfl rfl
  | cons c bs ih =>
    by_cases h : s.error = none
    · rw [feed_cons h]
      have hbyte := byte_keeps hs c
      exact hbyte.trans (ih hbyte.steady)
    · rw [feed_error h]
      exact hs.same rfl rfl rfl

end

end

theorem init_steady : init.Steady := ⟨nofun, nofun, nofun⟩

end Scan

theorem extractModelField_ok (h : extractModelField body cap = (0, m)) :
    m = (Scan.init.feed body).model.take (cap - 1) := by
  unfold extractModelField at h
  dsimp only at h
  split at h
  · cases h
  split at h
  · cases h
  · cases h
  · cases h
  split at h
  · cases h
  · exact (Prod.mk.inj h).2.symm

theorem extractModelFieldPrefix_ok (h : extractModelFieldPrefix body cap = (0, m)) :
    (Scan.init.feed body).modelReady = true ∧ m = (Scan.init.feed body).model.take (cap - 1) := by
  unfold extractModelFieldPrefix at h
  dsimp only at h
  split at h
  · cases h
  split at h
  · cases h
  · cases h
  · cases h
  split at h
  · cases h
  split at h
  · rename_i hready
    rw [and_eq_true] at hready
    exact ⟨hready.1, (Prod.mk.inj h).2.symm⟩
  · split at h <;> cases h

theorem model_stable {p : Bytes} (hp : p <+: body) {m' : Bytes}
    (h : extractModelFieldPrefix p cap = (0, m)) (h' : extractModelField body cap = (0, m')) :
    m' = m := by
  obtain ⟨q, rfl⟩ := hp
  obtain ⟨hready, hm⟩ := extractModelFieldPrefix_ok h
  have hkeep := (Scan.feed_keeps (Scan.feed_keeps Scan.init_steady p).steady q).model hready
  rw [← Scan.feed_append] at hkeep
  rw [hm, extractModelField_ok h', hkeep.2]

theorem feed_pieces (pieces : List Bytes) (s : Scan) : pieces.foldl Scan.feed s = s.feed pieces.flatten := by
  induction pieces generalizing s with
  | nil => rfl
  | cons a pieces ih => rw [foldl_cons, ih, flatten_cons, Scan.feed_append]

/-! ## repeated keys -/

theorem readMembers_append (a b : List Member) (k : Known) : readMembers k (a ++ b) =
      match readMembers k a with
      | .error e => .error e
      | .ok k => readMembers k b := by
  induction a generalizing k with
  | nil => rfl
  | cons x a ih =>
    rw [cons_append, readMembers, readMembers]
    cases readMember k x with
    | error e => rfl
    | ok k' => exact ih k'

/-- how often the key has been read once these members are -/
def Known.models (k : Known) (ms : List Member) : Nat := k.1.isSome.toNat + (valuesOf modelKey ms).length
def Known.users (k : Known) (ms : List Member) : Nat := k.2.toNat + (valuesOf userKey ms).length

theorem count_cons (key : Bytes) (x : Member) (ms : List Member) :
    (valuesOf key (x :: ms)).length = (x.named key).toNat + (valuesOf key ms).length := by
  rw [valuesOf_cons, length_append]
  cases x.named key <;> rfl

theorem named_both (h : x.named modelKey = true) : x.named userKey = false := by
  have hx : decode x.key = some modelKey := of_decide_eq_true h
  exact decide_eq_false (by rw [hx]; decide)

theorem readMember_cases (k : Known) (x : Member) :
    (x.named modelKey = true ∧ k.1.isSome = true ∧ readMember k x = .error .duplicateModel) ∨
    (x.named userKey = true ∧ k.2 = true ∧ readMember k x = .error .duplicateUser) ∨
    ∃ k', readMember k x = .ok k' ∧
      k'.1 = (if x.named modelKey then some (modelText x.value) else k.1) ∧
      ∀ ms, Known.models k' ms = Known.models k (x :: ms) ∧ Known.users k' ms = Known.users k (x :: ms) := by
  unfold readMember Known.models Known.users
  simp only [count_cons]
  by_cases hm : x.named modelKey = true
  · rw [named_both hm, hm]
    by_cases hs : k.1.isSome = true
    · exact .inl ⟨rfl, hs, if_pos hs⟩
    · refine .inr (.inr ⟨(some (modelText x.value), k.2), if_neg hs, rfl, fun ms => ?_⟩)
      simp only [hs, isSome_some, toNat_true, toNat_false]
      omega
  rw [if_neg hm]
  rw [not_eq_true] at hm
  by_cases hu : x.named userKey = true
  · rw [hu, hm]
    by_cases hs : k.2 = true
    · exact .inr (.inl ⟨rfl, hs, if_pos hs⟩)
    · refine .inr (.inr ⟨(k.1, true), if_neg hs, rfl, fun ms => ?_⟩)
      simp only [hs, toNat_true, toNat_false]
      omega
  · rw [if_neg hu]
    refine .inr (.inr ⟨k, rfl, by rw [hm]; rfl, fun ms => ?_⟩)
    simp only [hm, hu, toNat_false]
    omega

theorem readMembers_ok (ms : List Member) (k : Known) :
    (∃ k', readMembers k ms = .ok k') ↔ Known.models k ms ≤ 1 ∧ Known.users k ms ≤ 1 := by
  induction ms generalizing k with
  | nil => exact ⟨fun _ => ⟨toNat_le _, toNat_le _⟩, fun _ => ⟨k, rfl⟩⟩
  | cons x ms ih =>
    rw [readMembers]
    rcases readMember_cases k x with ⟨hx, hk, hr⟩ | ⟨hx, hk, hr⟩ | ⟨k', hr, -, hcount⟩
    · rw [hr]
      refine ⟨fun ⟨_, h⟩ => (by cases h), fun h => ?_⟩
      have := h.1
      rw [Known.models, count_cons, hx, hk] at this
      simp only [toNat_true] at this
      omega
    · rw [hr]
      refine ⟨fun ⟨_, h⟩ => (by cases h), fun h => ?_⟩
      have := h.2
      rw [Known.users, count_cons, hx, hk] at this
      simp only [toNat_true] at this
      omega
    · rw [hr, ← (hcount ms).1, ← (hcount ms).2]
      exact ih k'

theorem readMembers_spec (h : readMembers k ms = .ok k') :
    k'.1 = ((valuesOf modelKey ms).head?.map modelText).or k.1 ∧
      k'.1.isSome.toNat = Known.models k ms ∧ k'.2.toNat = Known.users k ms := by
  induction ms generalizing k with
  | nil =>
    rw [← Except.ok.inj h]
    exact ⟨rfl, rfl, rfl⟩
  | cons x ms ih =>
    have hbound := ((readMembers_ok (x :: ms) k).mp ⟨k', h⟩).1
    rw [readMembers] at h
    rcases readMember_cases k x with ⟨-, -, hr⟩ | ⟨-, -, hr⟩ | ⟨k₁, hr, hk₁, hcount⟩
    · rw [hr] at h
      cases h
    · rw [hr] at h
      cases h
    · rw [hr] at h
      obtain ⟨hm, hcounts⟩ := ih h
      rw [← (hcount ms).1, ← (hcount ms).2]
      refine ⟨?_, hcounts⟩
      rw [hm, hk₁, valuesOf_cons]
      by_cases hx : x.named modelKey = true
      · -- the key is this member's, so no other's
        have hnil : valuesOf modelKey ms = [] := by
          rw [Known.models, count_cons, hx, toNat_true] at hbound
          exact eq_nil_of_length_eq_zero (by omega)
        rw [if_pos hx, if_pos hx, hnil]
        rfl
      · rw [if_neg hx, if_neg hx]
        rfl

theorem readMembers_twice {a b : List Member} (hm : (valuesOf modelKey a).length ≤ 1)
    (hu : (valuesOf userKey a).length ≤ 1)
    (hx : ∀ k : Known, k.1.isSome.toNat = (valuesOf modelKey a).length →
      k.2.toNat = (valuesOf userKey a).length → readMember k x = .error e) :
    readMembers (none, false) (a ++ x :: b) = .error e := by
  have hm' : Known.models (none, false) a = (valuesOf modelKey a).length := zero_add _
  have hu' : Known.users (none, false) a = (valuesOf userKey a).length := zero_add _
  obtain ⟨k, hk⟩ := (readMembers_ok a (none, false)).mpr ⟨hm'.trans_le hm, hu'.trans_le hu⟩
  obtain ⟨-, h1, h2⟩ := readMembers_spec hk
  rw [readMembers_append, hk]
  change readMembers k (x :: b) = _
  rw [readMembers, hx k (h1.trans hm') (h2.trans hu')]

/-! ## the model of an object -/

/-- the model of an object, exactly -/
structure ModelExact (d : Doc) (cap : Nat) : Prop where
  /-- however the text is cut into pieces, the scan is that of the whole -/
  pieces : ∀ pieces : List Bytes, pieces.flatten = d.bytes →
    pieces.foldl Scan.feed Scan.init = Scan.init.feed d.bytes
  /-- the second key of the model, before a second key of the user -/
  modelTwice : ∀ a x b, d.members = a ++ x :: b → x.named modelKey = true →
    (valuesOf modelKey a).length = 1 → (valuesOf userKey a).length ≤ 1 →
    (Scan.init.feed d.bytes).finish = some .duplicateModel ∧
      extractModelField d.bytes cap = (ScanError.duplicateModel.code, [])
  /-- the second key of the user, before a second key of the model -/
  userTwice : ∀ a x b, d.members = a ++ x :: b → x.named userKey = true →
    (valuesOf userKey a).length = 1 → (valuesOf modelKey a).length ≤ 1 →
    (Scan.init.feed d.bytes).finish = some .duplicateUser ∧
      extractModelField d.bytes cap = (ScanError.duplicateUser.code, [])
  /-- the model is returned exactly when it is there once, as a text that fits -/
  once : ∀ t, extractModelField d.bytes cap = (0, t) ↔
    ∃ x, valuesOf modelKey d.members = [.str x] ∧ (valuesOf userKey d.members).length ≤ 1 ∧
      decode x = some t ∧ 1 ≤ t.length ∧ t.length ≤ 127 ∧ 0 ∉ t
  /-- what the beginning of the text says of the model stays so -/
  stable : ∀ p, p <+: d.bytes → ∀ m m', extractModelFieldPrefix p cap = (0, m) →
    extractModelField d.bytes cap = (0, m') → m' = m

theorem modelText_some : modelText v = some t ↔
    ∃ x, v = .str x ∧ decode x = some t ∧ t.length ≤ 127 ∧ 0 ∉ t := by
  cases v with
  | str x =>
    have hfits : t.length < fieldCap ↔ t.length ≤ 127 := Nat.lt_succ_iff
    simp only [modelText, filter_eq_some_iff, and_eq_true, decide_eq_true_eq,
      not_eq_true', hfits, Value.str.injEq, exists_eq_left']
    simp
  | atom | arr | obj => simp [modelText]

theorem modelAnswer_zero {r : Except ScanError Known} :
    modelAnswer cap r = (0, t) ↔ ∃ k s, r = .ok k ∧ k.1 = some (some s) ∧ s ≠ [] ∧ s.take (cap - 1) = t := by
  cases r with
  | error e =>
    refine ⟨fun h => ?_, fun ⟨k, s, h, _⟩ => by cases h⟩
    cases e <;> cases h
  | ok k =>
    obtain ⟨m, u⟩ := k
    rcases m with _ | _ | s
    · simp [modelAnswer]
    · simp [modelAnswer]
    · by_cases hs : s = []
      · simp [modelAnswer, hs]
      · simp [modelAnswer, hs]

theorem values_one (h : (valuesOf modelKey ms).length ≤ 1) :
    (valuesOf modelKey ms).head? = some v ↔ valuesOf modelKey ms = [v] := by
  match valuesOf modelKey ms, h with
  | [], _ => simp
  | [w], _ => simp
  | _ :: _ :: _, h => simp at h

/-- **the model field of an object is exact, streaming and stable** -/
theorem model_exact (d : Doc) (hd : (Value.obj d.gap d.members).depth < depthMax) (cap : Nat)
    (hcap : fieldCap ≤ cap) : ModelExact d cap := by
  have hcap0 : cap ≠ 0 := by
    unfold fieldCap at hcap
    omega
  have hscan := Scan.scan_doc d hd
  have hfield := extractModelField_doc d hd hcap0
  have twice : ∀ {e : ScanError}, readMembers (none, false) d.members = .error e →
      (Scan.init.feed d.bytes).finish = some e ∧ extractModelField d.bytes cap = (e.code, []) := by
    intro e he
    rw [he] at hscan hfield
    have herr : (Scan.init.feed d.bytes).error = some e := hscan
    refine ⟨?_, hfield⟩
    rw [Scan.finish, herr]
  refine ⟨fun pieces h => ?_, fun a x b hms hx hm hu => ?_, fun a x b hms hx hu hm => ?_, fun t => ?_,
    fun p hp m m' h h' => model_stable hp h h'⟩
  · rw [feed_pieces, h]
  · refine twice (hms ▸ readMembers_twice hm.le hu fun k hk _ => ?_)
    have hsome : k.1.isSome = true := toNat_eq_one.mp (hk.trans hm)
    rw [readMember, if_pos hx, if_pos hsome]
  · refine twice (hms ▸ readMembers_twice hm hu.le fun k _ hk => ?_)
    have hseen : k.2 = true := toNat_eq_one.mp (hk.trans hu)
    have hnot : x.named modelKey ≠ true := fun h => by
      rw [named_both h] at hx
      cases hx
    rw [readMember, if_neg hnot, if_pos hx, if_pos hseen]
  · rw [hfield, modelAnswer_zero]
    have hm' : Known.models (none, false) d.members = (valuesOf modelKey d.members).length := zero_add _
    have hu' : Known.users (none, false) d.members = (valuesOf userKey d.members).length := zero_add _
    have hok := readMembers_ok d.members (none, false)
    rw [hm', hu'] at hok
    have hlen : ∀ s : Bytes, s.length ≤ 127 → s.take (cap - 1) = s := fun s hs =>
      take_of_length_le (by unfold fieldCap at hcap; omega)
    constructor
    · rintro ⟨k, s, hk, hks, hne, hst⟩
      obtain ⟨hm, hu⟩ := hok.mp ⟨k, hk⟩
      rw [(readMembers_spec hk).1, or_none, map_eq_some_iff] at hks
      obtain ⟨v, hv, htext⟩ := hks
      obtain ⟨x, rfl, hdec, h127, h0⟩ := modelText_some.mp htext
      rw [hlen s h127] at hst
      subst hst
      exact ⟨x, (values_one hm).mp hv, hu, hdec, length_pos_iff.mpr hne, h127, h0⟩
    · rintro ⟨x, hv, hu, hdec, h1, h127, h0⟩
      have hm : (valuesOf modelKey d.members).length ≤ 1 := by
        rw [hv]
        exact le_refl 1
      obtain ⟨k, hk⟩ := hok.mpr ⟨hm, hu⟩
      refine ⟨k, t, hk, ?_, length_pos_iff.mp h1, hlen t h127⟩
      rw [(readMembers_spec hk).1, hv]
      exact congrArg some (modelText_some.mpr ⟨x, rfl, hdec, h127, h0⟩)

def modelMember (v : Value) : Member := member (plain ['m', 'o', 'd', 'e', 'l'] (by decide)) v
def userMember (v : Value) : Member := member (plain ['u', 's', 'e', 'r'] (by decide)) v
def modelValue : Value := .str (plain ['m'] (by decide))

def modelBody : Doc :=
  { before := [], gap := [], after := [], members := [userMember (.atom .null), modelMember modelValue] }

theorem model_exact_body : ModelExact modelBody 128 ∧ extractModelField modelBody.bytes 128 = (0, ascii "m") :=
  ⟨model_exact modelBody (by decide) 128 (le_refl _), by decide +kernel⟩

/-! ## where the plain reading of repetitions fails -/

def bothBody : Doc :=
  { before := [], gap := [], after := []
    members := [modelMember modelValue, userMember (.atom .null), userMember (.atom .null),
      modelMember modelValue] }

def nest : Nat → Value
  | 0 => .arr [] []
  | n + 1 => .arr [] [.mk [] (nest n) []]

def deepBody (n : Nat) : Doc :=
  { before := [], gap := [], after := []
    members := [member (plain ['a'] (by decide)) (nest n), modelMember modelValue] }

theorem nest_opens (n : Nat) : ∃ u, (nest n).bytes = replicate (n + 1) lbracket ++ u := by
  induction n with
  | zero => exact ⟨[rbracket], rfl⟩
  | succ n ih =>
    obtain ⟨u, hu⟩ := ih
    refine ⟨u ++ [rbracket], ?_⟩
    change lbracket :: (((nest n).bytes ++ []) ++ []) ++ [rbracket] = _
    rw [append_nil, append_nil, hu, replicate_succ (n := n + 1), cons_append,
      cons_append, append_assoc]

namespace Scan

theorem feed_opens {s : Scan} (hs : s.Idle) (hd : s.done = false) (hp : s.phase = .nested) (n : Nat)
    (hn : s.depth + n < depthMax) : s.feed (replicate n lbracket) = { s with depth := s.depth + n } := by
  induction n generalizing s with
  | zero => rfl
  | succ n ih =>
    rw [replicate_succ, feed_cons hs.error, byte_open hs hd hp (.inr rfl) (by omega),
      ih (hs.of_depth _) (by exact hd) (by exact hp) (by simp only; omega)]
    simp only [add_assoc, add_comm 1]

theorem feed_deep {s : Scan} (hs : s.Idle) (hd : s.done = false) (hp : s.phase = .nested) {n : Nat}
    (hn : s.depth + n + 1 = depthMax) (v : Bytes) :
    (s.feed (replicate n lbracket ++ lbracket :: v)).error = some .invalid := by
  have hlast : (({ s with depth := s.depth + n } : Scan).byte lbracket).error = some .invalid := by
    rw [byte_nested (hs.of_depth _) (by exact hd) (by exact hp) rfl, nestedByte, if_neg (by decide),
      if_pos (.inr rfl), if_pos hn]
  rw [feed_append, feed_opens hs hd hp n (by omega), feed_cons (by exact hs.error),
    feed_error (by rw [hlast]; exact some_ne_none _), hlast]

end Scan

theorem extractModelField_deep {n : Nat} (hn : n + 3 = depthMax) :
    extractModelField (deepBody (n + 1)).bytes 128 = (-1, []) := by
  have hopen : [lbrace, quote, 97, quote, colon, lbracket] = ascii "\x7b\"a\":[" := by decide
  have htext : ∃ v, (deepBody (n + 1)).bytes =
      ascii "\x7b\"a\":[" ++ (replicate n lbracket ++ lbracket :: v) := by
    obtain ⟨u, hu⟩ := nest_opens (n + 1)
    have hrep : replicate (n + 2) lbracket = lbracket :: (replicate n lbracket ++ [lbracket]) := by
      rw [replicate_succ, replicate_succ']
    have hkey : strBytes (plain ['a'] (by decide)) = [97] := by decide
    refine ⟨u ++ (membersTail [modelMember modelValue] ++ [rbrace]), ?_⟩
    rw [← hopen]
    simp only [Doc.bytes, deepBody, Value.bytes, membersBytes, member, Member.bytes, hkey, hu, hrep, Ws.bytes,
      map_nil, nil_append, append_nil, append_assoc, cons_append]
  obtain ⟨v, hv⟩ := htext
  have hidle : (Scan.init.feed (ascii "\x7b\"a\":[")).Idle := ⟨by decide, by decide, by decide⟩
  have hdepth : (Scan.init.feed (ascii "\x7b\"a\":[")).depth = 2 := by decide
  have herr : (Scan.init.feed (deepBody (n + 1)).bytes).error = some .invalid := by
    rw [hv]
    exact Scan.feed_deep hidle (by decide) (by decide) (by rw [hdepth]; omega) v
  unfold extractModelField
  rw [if_neg (by rw [doc_nonempty]; decide)]
  simp only [Scan.finish, herr]

/-- with both keys repeated the first repetition decides, and a text whose nesting the counter has no
number for is refused with its one model -/
theorem both_repeated : (valuesOf modelKey bothBody.members).length = 2 ∧
      extractModelField bothBody.bytes 128 = (ScanError.duplicateUser.code, []) ∧
      valuesOf modelKey (deepBody (depthMax - 2)).members = [modelValue] ∧
      valuesOf userKey (deepBody (depthMax - 2)).members = [] ∧
      modelText modelValue = some (ascii "m") ∧
      extractModelField (deepBody (depthMax - 2)).bytes 128 = (-1, []) := by
  have hdepth : depthMax - 2 = (depthMax - 3) + 1 := by decide
  refine ⟨by decide +kernel, by decide +kernel, ?_, ?_, by decide +kernel, ?_⟩
  · rfl
  · rfl
  · rw [hdepth]
    exact extractModelField_deep (by decide)

end SpJson
