import InferenceGateway.Relay.Deliver

/-!
# Pauses and armed events of the legs

Three things turn the reading of a leg off or on: backpressure of a leg it writes to, the
shaper, and the end of a drain, which searches for the leg to wake.  They share one flag and one
set of armed events.

* `Flows`    no leg is paused without a destination under backpressure, and waiting bytes are
             armed for;
* `Spares`   a drain leaves the legs parked by the shaper alone;
* `Calm`     the states in which the calls that arm sockets do no harm;
* **`relay_keeps_flowing`**  runs in which every such call finds a calm state.
-/

open Function List

namespace Relay

section
variable (T : Topo)

/-- a leg paused for backpressure has a destination under backpressure, and a leg with waiting
bytes waits for its socket to take more -/
structure Flows (legs : LegId → Leg) : Prop where
  paused : ∀ i, (legs i).readPaused = true → (legs i).qosParked = false →
    ∃ d, T.Feeds i d ∧ (legs d).cacheBackpressure = true
  out : ∀ i, (legs i).xmit.cache ≠ [] → (legs i).armed.out = true

/-- no parked leg is armed for reading or loses its pause -/
def Spares (before after : LegId → Leg) : Prop :=
  ∀ i, (before i).qosParked = true → ((after i).armed.inp = true → (before i).armed.inp = true) ∧
    ((before i).readPaused = true → (after i).readPaused = true)

/-- the drains so far spared the parked legs -/
def Spared (s : State) : Prop :=
  ∀ ev ∈ s.events, ∀ d as, ev.call = .drain d as → Spares ev.before ev.after

/-- what a drain of a cache that is not empty needs -/
structure CalmDrain (legs : LegId → Leg) (d : LegId) (as : List Answer) : Prop where
  /-- the leg is not parked by the shaper -/
  unparked : (legs d).qosParked = false
  /-- TLS does not stop to read first -/
  noRead : (Xmit.drain as (legs d).xmit).2 = .wantRead → (legs d).secure = false
  /-- the leg that is found to be woken is not parked and has nothing waiting -/
  source : (Xmit.drain as (legs d).xmit).2 = .drained →
    ((legs d).cacheBackpressure || (legs d).readPaused) = true →
    ∀ j, sourceOf T d = some j → (legs j).qosParked = false ∧ (legs j).xmit.cache = []
  /-- no other leg is paused for the backpressure that ends -/
  others : (Xmit.drain as (legs d).xmit).2 = .drained → (legs d).cacheBackpressure = true →
    ∀ i, T.Feeds i d → (legs i).readPaused = true → (legs i).qosParked = false →
      sourceOf T d = some i ∨ ∃ e, e ≠ d ∧ T.Feeds i e ∧ (legs e).cacheBackpressure = true

/-- a call finds a state in which it does no harm: reading is turned off or on with no bytes
waiting on the leg -/
def Call.Calm (legs : LegId → Leg) : Call → Prop
  | .drain d as => (legs d).xmit.cache ≠ [] → CalmDrain T legs d as
  | .pause i | .resume i | .park i | .wake i => (legs i).xmit.cache = []

def CalmRun (s : State) : Prop := ∀ ev ∈ s.events, ev.call.Calm T ev.before

/-! ## one leg changes -/

/-- what is carried along: backpressure is only on a cache that is not empty, and the counters
are right -/
structure Kept (legs : LegId → Leg) : Prop extends Flows T legs where
  full : ∀ i, (legs i).cacheBackpressure = true → (legs i).xmit.cache ≠ []
  sound : ∀ i, (legs i).xmit.Sound

variable {T}

variable {s s' : State} {i d j : LegId} {f : Leg → Leg} {as : List Answer} {c : Call}

theorem Kept.upd (h : Kept T s.leg) (hsound : (f (s.leg i)).xmit.Sound)
    (hgrow : (s.leg i).cacheBackpressure = true → (f (s.leg i)).cacheBackpressure = true)
    (hpaused : (f (s.leg i)).readPaused = true → (f (s.leg i)).qosParked = false →
      ∃ d, T.Feeds i d ∧ (s.leg d).cacheBackpressure = true)
    (hout : (f (s.leg i)).xmit.cache ≠ [] → (f (s.leg i)).armed.out = true)
    (hfull : (f (s.leg i)).cacheBackpressure = true → (f (s.leg i)).xmit.cache ≠ []) :
    Kept T (s.upd i f).leg := by
  have hmono : ∀ d, (s.leg d).cacheBackpressure = true →
      ((s.upd i f).leg d).cacheBackpressure = true := by
    intro d hd
    rw [State.leg_upd]
    split
    · subst ‹d = i›
      exact hgrow hd
    · exact hd
  refine { paused := ?_, out := ?_, full := ?_, sound := ?_ }
  · intro j hp hq
    have hold : ∃ d, T.Feeds j d ∧ (s.leg d).cacheBackpressure = true := by
      rw [State.leg_upd] at hp hq
      split at hp
      · rw [if_pos ‹j = i›] at hq
        rw [‹j = i›]
        exact hpaused hp hq
      · rw [if_neg ‹¬j = i›] at hq
        exact h.paused j hp hq
    obtain ⟨d, hf, hd⟩ := hold
    exact ⟨d, hf, hmono d hd⟩
  · intro j
    rw [State.leg_upd]
    split
    · exact hout
    · exact h.out j
  · intro j
    rw [State.leg_upd]
    split
    · exact hfull
    · exact h.full j
  · intro j
    rw [State.leg_upd]
    split
    · exact hsound
    · exact h.sound j

theorem Kept.upd_quiet (h : Kept T s.leg) (hsound : (f (s.leg i)).xmit.Sound)
    (hc : (f (s.leg i)).xmit.cache = (s.leg i).xmit.cache)
    (hb : (f (s.leg i)).cacheBackpressure = (s.leg i).cacheBackpressure)
    (hp : (f (s.leg i)).readPaused = (s.leg i).readPaused)
    (hq : (f (s.leg i)).qosParked = (s.leg i).qosParked)
    (ha : (f (s.leg i)).armed = (s.leg i).armed) : Kept T (s.upd i f).leg := by
  apply h.upd hsound
  · rw [hb]
    exact id
  · rw [hp, hq]
    exact h.paused i
  · rw [hc, ha]
    exact h.out i
  · rw [hb, hc]
    exact h.full i

theorem Kept.add (h : Kept T s.leg) (d : LegId) (m : Msg) :
    Kept T (proxyAddXmitcache T s d m).leg := by
  have hne : ((s.leg d).xmit.add m).cache ≠ [] := concat_ne_nil _ _
  apply h.upd
  · exact (h.sound d).add m
  · intro hb
    rw [hb, Bool.true_or]
  · exact h.paused d
  · intro _
    split
    · rfl
    · exact h.out d fun hc => ‹¬_› (List.isEmpty_iff.mpr hc)
  · intro _
    exact hne

/-! ## the drain -/

theorem spares_upd (hd : (s.leg d).qosParked = false) (f : Leg → Leg) :
    Spares s.leg (s.upd d f).leg := by
  intro i hi
  have hne : i ≠ d := by
    intro he
    rw [he, hd] at hi
    cases hi
  rw [State.leg_upd, if_neg hne]
  exact ⟨id, id⟩

theorem sourceOf_ne (h : sourceOf T d = some j) : j ≠ d := by
  intro he
  have hj := find?_some h
  rw [he, Bool.and_eq_true] at hj
  cases ho : T.odir d with
  | false | true =>
    rw [ho] at hj
    exact absurd hj.1 (by decide)

theorem leg_resumeSource (s : State) (d j : LegId) : (resumeSource T s d).leg j
      = if sourceOf T d = some j then (s.leg j).resume else s.leg j := by
  unfold resumeSource
  cases hs : sourceOf T d with
  | none => rfl
  | some k =>
    rw [State.leg_upd]
    by_cases hk : j = k
    · rw [if_pos hk, if_pos (by rw [hk]), hk]
    · rw [if_neg hk, if_neg]
      intro he
      exact hk (Option.some.inj he).symm

/-- the leg holds its source back -/
abbrev Leg.presses (l : Leg) : Bool := l.cacheBackpressure || l.readPaused

theorem release_of_empty (hc : (s.leg d).xmit.cache = []) (ht : (s.leg d).xmit.cacheTotalSize = 0) :
    forceClear T (proxyCheckReleaseBackpressure T s d) d
      = if (s.leg d).presses then resumeSource T (s.upd d Leg.release) d else s := by
  unfold Leg.presses
  have hlow : ¬(proxyCacheMarks T s d).2 < (s.leg d).xmit.cacheTotalSize := by
    rw [ht]
    exact Nat.not_lt_zero _
  cases hb : (s.leg d).cacheBackpressure with
  | false =>
    have h1 : proxyCheckReleaseBackpressure T s d = s := by
      unfold proxyCheckReleaseBackpressure
      rw [hb]
      rfl
    rw [h1, forceClear, if_pos ⟨ht, List.isEmpty_iff.mpr hc⟩, hb]
  | true =>
    have h1 : proxyCheckReleaseBackpressure T s d = resumeSource T (s.upd d Leg.release) d := by
      unfold proxyCheckReleaseBackpressure
      rw [hb, if_neg hlow]
      rfl
    have hd : (resumeSource T (s.upd d Leg.release) d).leg d = (s.leg d).release := by
      rw [leg_resumeSource, if_neg fun h => sourceOf_ne h rfl, State.leg_upd, if_pos rfl]
    rw [h1, forceClear, hd]
    -- the flags of the leg are clear by now
    split
    · rfl
    · rfl

section
variable (hs : (s.leg d).xmit.Sound) (hne : (s.leg d).xmit.cache ≠ [])
  (hend : (Xmit.drain as (s.leg d).xmit).2 = .drained)
include hs hne hend

theorem leg_of_drained (j : LegId) : (xmitCacheBody T as s d).1.leg j =
      if j = d then
        (if (s.leg d).presses then ((s.leg d).draining (Xmit.drain as (s.leg d).xmit).1).release
          else (s.leg d).draining (Xmit.drain as (s.leg d).xmit).1).drained
      else if (s.leg d).presses = true ∧ sourceOf T d = some j
        then (s.leg j).resume
      else s.leg j := by
  set x := (Xmit.drain as (s.leg d).xmit).1 with hx
  set t := s.upd d (Leg.draining x)
  have hself : t.leg d = (s.leg d).draining x := by
    rw [State.leg_upd, if_pos rfl]
  have hc : (t.leg d).xmit.cache = [] := by
    rw [hself]
    exact (Xmit.drain_drained as _).mp hend
  have ht : (t.leg d).xmit.cacheTotalSize = 0 := by
    rw [hself]
    exact (hs.drain as).total_eq_zero.mpr ((Xmit.drain_drained as _).mp hend)
  have hbody : (xmitCacheBody T as s d).1 = ((forceClear T
      (proxyCheckReleaseBackpressure T t d) d).upd d Leg.drained) := by
    unfold xmitCacheBody
    rw [if_neg fun h => hne (List.isEmpty_iff.mp h)]
    dsimp only
    rw [hend]
  have hw : (t.leg d).presses = (s.leg d).presses := by
    rw [hself]
    rfl
  rw [hbody, release_of_empty hc ht, hw, State.leg_upd]
  have hother : ∀ k, k ≠ d → t.leg k = s.leg k := by
    intro k hk
    rw [State.leg_upd, if_neg hk]
  by_cases hj : j = d
  · rw [if_pos hj, if_pos hj]
    cases (s.leg d).presses with
    | false => rw [if_neg Bool.false_ne_true, if_neg Bool.false_ne_true, hself]
    | true =>
      rw [if_pos rfl, if_pos rfl, leg_resumeSource, if_neg fun h => sourceOf_ne h rfl,
        State.leg_upd, if_pos rfl, hself]
  · rw [if_neg hj, if_neg hj]
    cases (s.leg d).presses with
    | false =>
      rw [if_neg Bool.false_ne_true, if_neg fun h => Bool.false_ne_true h.1, hother j hj]
    | true =>
      rw [if_pos rfl, leg_resumeSource, State.leg_upd, if_neg hj, hother j hj]
      simp only [true_and]

theorem leg_of_drained_ne (hj : j ≠ d) : (xmitCacheBody T as s d).1.leg j = s.leg j ∨
      ((s.leg d).presses = true ∧ sourceOf T d = some j ∧
        (xmitCacheBody T as s d).1.leg j = (s.leg j).resume) := by
  rw [leg_of_drained hs hne hend, if_neg hj]
  split
  · rename_i hw
    exact .inr ⟨hw.1, hw.2, rfl⟩
  · exact .inl rfl

theorem leg_of_drained_self : ((xmitCacheBody T as s d).1.leg d).cacheBackpressure = false ∧
      ((xmitCacheBody T as s d).1.leg d).readPaused = false ∧
      ((xmitCacheBody T as s d).1.leg d).xmit = (Xmit.drain as (s.leg d).xmit).1 := by
  rw [leg_of_drained hs hne hend, if_pos rfl]
  split
  · exact ⟨rfl, rfl, rfl⟩
  · rename_i hw
    rw [Bool.not_eq_true, Bool.or_eq_false_iff] at hw
    exact ⟨hw.1, hw.2, rfl⟩

end

section
variable (h : Kept T s.leg) (hne : (s.leg d).xmit.cache ≠ [])
  (hend : (Xmit.drain as (s.leg d).xmit).2 = .drained) (hc : CalmDrain T s.leg d as)
include h hne hend hc

theorem kept_of_drained : Kept T (xmitCacheBody T as s d).1.leg := by
  have hne' {j : LegId} (hj : j ≠ d) := leg_of_drained_ne (T := T) (h.sound d) hne hend hj
  obtain ⟨hdb, hdp, hdx⟩ := leg_of_drained_self (h.sound d) hne hend
  have hempty : (Xmit.drain as (s.leg d).xmit).1.cache = [] := (Xmit.drain_drained as _).mp hend
  have hsame : ∀ {j}, j ≠ d → ((xmitCacheBody T as s d).1.leg j).xmit = (s.leg j).xmit ∧
      ((xmitCacheBody T as s d).1.leg j).cacheBackpressure = (s.leg j).cacheBackpressure := by
    intro j hj
    rcases hne' hj with he | ⟨-, -, he⟩
    all_goals
      rw [he]
      exact ⟨rfl, rfl⟩
  refine { paused := ?_, out := ?_, full := ?_, sound := ?_ }
  · -- a leg that is still paused was not woken: its destination is not the drained one alone
    intro i hp hq
    have hid : i ≠ d := by
      intro he
      rw [he, hdp] at hp
      cases hp
    rcases hne' hid with he | ⟨-, -, he⟩
    · rw [he] at hp hq
      obtain ⟨e, hf, heb⟩ := h.paused i hp hq
      by_cases hed : e = d
      · rw [hed] at hf heb
        rcases hc.others hend heb i hf hp hq with hsrc | ⟨e', hne2, hf2, hb2⟩
        · -- the source that was found is woken
          have hw : (s.leg d).presses = true := by
            rw [Leg.presses, heb, Bool.true_or]
          have hres := leg_of_drained (T := T) (h.sound d) hne hend i
          rw [if_neg hid, if_pos ⟨hw, hsrc⟩, he] at hres
          rw [hres] at hp
          cases hp
        · exact ⟨e', hf2, (hsame hne2).2.trans hb2⟩
      · exact ⟨e, hf, (hsame hed).2.trans heb⟩
    · rw [he] at hp
      cases hp
  · intro i hci
    by_cases hid : i = d
    · rw [hid, hdx] at hci
      exact absurd hempty hci
    · rcases hne' hid with he | ⟨hw, hsrc, he⟩
      · rw [he] at hci ⊢
        exact h.out i hci
      · rw [(hsame hid).1] at hci
        exact absurd (hc.source hend hw i hsrc).2 hci
  · intro i hb
    by_cases hid : i = d
    · rw [hid, hdb] at hb
      cases hb
    · rw [(hsame hid).2] at hb
      rw [(hsame hid).1]
      exact h.full i hb
  · intro i
    by_cases hid : i = d
    · rw [hid, hdx]
      exact (h.sound d).drain as
    · rw [(hsame hid).1]
      exact h.sound i

theorem spares_of_drained : Spares s.leg (xmitCacheBody T as s d).1.leg := by
  intro i hi
  have hid : i ≠ d := by
    intro he
    rw [he, hc.unparked] at hi
    cases hi
  rcases leg_of_drained_ne (h.sound d) hne hend hid with he | ⟨hw, hsrc, -⟩
  · rw [he]
    exact ⟨id, id⟩
  · rw [(hc.source hend hw i hsrc).1] at hi
    cases hi

end

theorem State.upd_upd (s : State) (i : LegId) (f g : Leg → Leg) :
    (s.upd i f).upd i g = s.upd i (g ∘ f) := by
  unfold State.upd
  dsimp only
  rw [update_self, update_idem]
  rfl

theorem xmitCacheBody_of_left (hne : (s.leg d).xmit.cache ≠ [])
    (hend : (Xmit.drain as (s.leg d).xmit).2 ≠ .drained) :
    (xmitCacheBody T as s d).1 = s.upd d (Leg.stopped (Xmit.drain as (s.leg d).xmit).2 ∘
      Leg.draining (Xmit.drain as (s.leg d).xmit).1) := by
  unfold xmitCacheBody
  rw [if_neg fun hnil => hne (List.isEmpty_iff.mp hnil)]
  dsimp only
  split
  · exact absurd ‹_› hend
  · exact State.upd_upd s d _ _

theorem kept_of_left (h : Kept T s.leg) (hne : (s.leg d).xmit.cache ≠ [])
    (hend : (Xmit.drain as (s.leg d).xmit).2 ≠ .drained) (hc : CalmDrain T s.leg d as) :
    Kept T (xmitCacheBody T as s d).1.leg := by
  have hcache : (Xmit.drain as (s.leg d).xmit).1.cache ≠ [] :=
    fun hnil => hend ((Xmit.drain_drained as _).mpr hnil)
  have hsound := (h.sound d).drain as
  have hread := hc.noRead
  rw [xmitCacheBody_of_left hne hend]
  cases he : (Xmit.drain as (s.leg d).xmit).2 with
  | drained => exact absurd he hend
  | wantWrite =>
    apply h.upd hsound
    · intro hb
      show ((s.leg d).cacheBackpressure || (s.leg d).secure) = true
      rw [hb, Bool.true_or]
    · exact h.paused d
    · exact fun _ => rfl
    · exact fun _ => hcache
  | wantRead =>
    apply h.upd hsound
    · exact id
    · exact h.paused d
    · intro _
      show (if (s.leg d).secure then Interest.inHup else Interest.inOutHup).out = true
      rw [hread he]
      rfl
    · exact fun _ => hcache
  | failed =>
    apply h.upd hsound
    · exact id
    · exact h.paused d
    · exact fun _ => h.out d hne
    · exact fun _ => hcache

/-- **A drain in a calm state** keeps the flow and spares the parked legs. -/
theorem kept_xmitCacheBody (as : List Answer) (h : Kept T s.leg)
    (hcalm : (s.leg d).xmit.cache ≠ [] → CalmDrain T s.leg d as) :
    Kept T (xmitCacheBody T as s d).1.leg ∧ Spares s.leg (xmitCacheBody T as s d).1.leg := by
  by_cases hne : (s.leg d).xmit.cache = []
  · -- nothing waits: only the draining flag is cleared
    unfold xmitCacheBody
    rw [if_pos (List.isEmpty_iff.mpr hne)]
    refine ⟨h.upd_quiet (h.sound d) rfl rfl rfl rfl rfl, ?_⟩
    intro i _
    rw [State.leg_upd]
    split
    · subst ‹i = d›
      exact ⟨id, id⟩
    · exact ⟨id, id⟩
  · have hc := hcalm hne
    by_cases hend : (Xmit.drain as (s.leg d).xmit).2 = .drained
    · exact ⟨kept_of_drained h hne hend hc, spares_of_drained h hne hend hc⟩
    · refine ⟨kept_of_left h hne hend hc, ?_⟩
      rw [xmitCacheBody_of_left hne hend]
      exact spares_upd hc.unparked _

/-! ## runs -/

theorem events_resumeSource (s : State) (d : LegId) : (resumeSource T s d).events = s.events := by
  unfold resumeSource
  split
  · rfl
  · rfl

theorem events_xmitCacheBody (as : List Answer) (s : State) (d : LegId) :
    (xmitCacheBody T as s d).1.events = s.events := by
  have hcheck : ∀ t, (proxyCheckReleaseBackpressure T t d).events = t.events := by
    intro t
    unfold proxyCheckReleaseBackpressure
    split
    · rfl
    · split
      · rfl
      · exact events_resumeSource _ d
  have hforce : ∀ t, (forceClear T t d).events = t.events := by
    intro t
    unfold forceClear
    dsimp only
    split
    · split
      · exact events_resumeSource _ d
      · rfl
    · rfl
  unfold xmitCacheBody
  split
  · rfl
  · dsimp only
    split
    · exact (hforce _).trans (hcheck _)
    · rfl

theorem events_unstick (s : State) (d : LegId) : (unstick s d).events = s.events := by
  unfold unstick
  dsimp only
  split
  · rfl
  · rfl

theorem events_scanDests (s : State) (ds : List (Option LegId)) :
    (scanDests s ds).1.events = s.events := by
  induction ds generalizing s with
  | nil => rfl
  | cons o ds ih =>
    cases o with
    | none => exact ih s
    | some d =>
      unfold scanDests
      split
      · exact events_unstick s d
      · rw [ih, events_unstick]

variable (T) in
/-- as long as the calls of a run find calm states, everything is kept -/
def Holds (s : State) : Prop := CalmRun T s → Kept T s.leg ∧ Spared s

section
variable (h : Holds T s)
include h

theorem Holds.mono (he : s'.events = s.events) (hk : Kept T s.leg → Kept T s'.leg) :
    Holds T s' := by
  intro hcalm
  unfold CalmRun at hcalm
  rw [he] at hcalm
  obtain ⟨hkept, hspared⟩ := h hcalm
  refine ⟨hk hkept, ?_⟩
  unfold Spared
  rw [he]
  exact hspared

theorem Holds.logged (he : s'.events = s.events)
    (hk : c.Calm T s.leg → Kept T s.leg → Kept T s'.leg)
    (hd : ∀ d as, c = .drain d as → c.Calm T s.leg → Kept T s.leg → Spares s.leg s'.leg) :
    Holds T (s.logged c s') := by
  intro hcalm
  have hev : (s.logged c s').events = s.events ++ [⟨c, s.leg, s'.leg⟩] := by
    rw [State.logged, he]
  unfold CalmRun at hcalm
  rw [hev] at hcalm
  have hc : c.Calm T s.leg := hcalm ⟨c, s.leg, s'.leg⟩ (mem_append_right _ (mem_singleton_self _))
  obtain ⟨hkept, hspared⟩ := h fun ev hmem => hcalm ev (mem_append_left _ hmem)
  refine ⟨hk hc hkept, ?_⟩
  unfold Spared
  rw [hev]
  intro ev hmem d as hcall
  rcases mem_append.mp hmem with hmem | hmem
  · exact hspared ev hmem d as hcall
  · rw [mem_singleton.mp hmem] at hcall ⊢
    exact hd d as hcall hc hkept

theorem Holds.arming (hcalm : c.Calm T s.leg → (s.leg i).xmit.cache = [])
    (hnot : ∀ d as, c ≠ .drain d as) (hx : (f (s.leg i)).xmit = (s.leg i).xmit)
    (hb : (f (s.leg i)).cacheBackpressure = (s.leg i).cacheBackpressure)
    (hp : (f (s.leg i)).readPaused = true → (f (s.leg i)).qosParked = false →
      ∃ d, T.Feeds i d ∧ (s.leg d).cacheBackpressure = true) :
    Holds T (s.logged c (s.upd i f)) := by
  refine h.logged rfl ?_ ?_
  · intro hc hk
    apply hk.upd
    · rw [hx]
      exact hk.sound i
    · rw [hb]
      exact id
    · exact hp
    · rw [hx]
      intro hne
      exact absurd (hcalm hc) hne
    · rw [hb, hx]
      exact hk.full i
  · intro d as he
    exact absurd he (hnot d as)

section
variable (as : List Answer)

theorem Holds.drain (d : LegId) : Holds T (proxyXmitCache T as s d).1 := by
  apply h.logged (events_xmitCacheBody as s d)
  · intro hc hk
    exact (kept_xmitCacheBody as hk hc).1
  · intro _ _ _ hc hk
    exact (kept_xmitCacheBody as hk hc).2

theorem Holds.add (d : LegId) (m : Msg) :
    Holds T (proxyAddXmitcache T s d m) := h.mono rfl fun hk => hk.add d m

theorem Holds.directSend (hc : (s.leg d).xmit.cache = []) (sel : Nat) (m : Msg) :
    Holds T (directSend T as s d sel m) := by
  have hblocked (bs : List Answer) : Holds T (if sel = 0 then
          if (s.leg d).secure then (proxyXmitCache T bs (proxyAddXmitcache T s d m) d).1
          else proxyAddXmitcache T s d m
        else s) := by
    split
    · split
      · exact (h.add d m).drain bs d
      · exact h.add d m
    · exact h
  cases as with
  | nil => exact hblocked []
  | cons a as =>
    cases a with
    | wantWrite | wantRead => exact hblocked as
    | failed => exact h
    | took k =>
      have hd : Holds T (s.upd d fun l => { l with xmit := l.xmit.direct m (k + 1) }) :=
        h.mono rfl fun hk => hk.upd_quiet ((hk.sound d).direct_of_nil hc m (k + 1)) rfl rfl rfl rfl rfl
      unfold Relay.directSend
      dsimp only
      split
      · split
        · exact hd.add d _
        · exact hd
      · exact hd

theorem Holds.relayTo (d : LegId) (sel : Nat) (m : Msg) : Holds T (relayTo T as s d sel m) := by
  have h0 : Holds T (s.upd d fun l => { l with xmit := l.xmit.give m }) :=
    h.mono rfl fun hk => hk.upd_quiet
      ⟨(hk.sound d).count, (hk.sound d).total, (hk.sound d).direct⟩ rfl rfl rfl rfl rfl
  unfold Relay.relayTo
  dsimp only
  generalize s.upd d (fun l => { l with xmit := l.xmit.give m }) = s0 at h0 ⊢
  split
  · exact (h0.add d m).drain as d
  · have hc := drained_clear T as s0 d ‹_›
    split
    · exact (h0.drain as d).directSend as hc sel m
    · exact (h0.drain as d).add d m

theorem Holds.proxyTryEpxmit (i sel : Nat) (m : Msg) : Holds T (proxyTryEpxmit T as s i sel m) := by
  unfold Relay.proxyTryEpxmit
  split
  · exact h.relayTo as _ sel m
  · exact h

end

end

theorem Holds.burst (items : List Item) (h : Holds T s) : Holds T (burst T i items s) := by
  induction items generalizing s with
  | nil => exact h
  | cons it items ih =>
    cases it with
    | park =>
      exact h.arming id (fun _ _ => nofun) rfl rfl fun _ hq => by cases hq
    | relay sel m chunked streamed as =>
      have h1 : Holds T (s.upd i fun l =>
          { l with isChunkedResponse := l.isChunkedResponse || chunked }) :=
        h.mono rfl fun hk => hk.upd_quiet (hk.sound i) rfl rfl rfl rfl rfl
      have h2 := h1.proxyTryEpxmit as i sel m
      unfold Relay.burst
      dsimp only
      split
      · exact h2
      · exact ih h2

theorem exists_of_scanDests (s : State) (ds : List (Option LegId)) (h : (scanDests s ds).2 = true) :
    ∃ d, some d ∈ ds ∧ ((scanDests s ds).1.leg d).cacheBackpressure = true := by
  induction ds generalizing s with
  | nil => cases h
  | cons o ds ih =>
    cases o with
    | none =>
      obtain ⟨d, hmem, hb⟩ := ih s h
      exact ⟨d, mem_cons_of_mem _ hmem, hb⟩
    | some d =>
      unfold scanDests at h ⊢
      split at h
      · rw [if_pos ‹_›]
        exact ⟨d, mem_cons_self, ‹_›⟩
      · rw [if_neg ‹_›]
        obtain ⟨e, hmem, he⟩ := ih _ h
        exact ⟨e, mem_cons_of_mem _ hmem, he⟩

theorem unstick_eq (h : Kept T s.leg) (d : LegId) : unstick s d = s := by
  apply if_neg
  intro hb
  rw [Bool.and_eq_true, Bool.and_eq_true, beq_iff_eq] at hb
  exact h.full d hb.1.1 ((h.sound d).total_eq_zero.mp hb.1.2)

theorem scanDests_eq (h : Kept T s.leg) (ds : List (Option LegId)) : (scanDests s ds).1 = s := by
  induction ds with
  | nil => rfl
  | cons o ds ih =>
    cases o with
    | none => exact ih
    | some d =>
      unfold scanDests
      rw [unstick_eq h]
      split
      · rfl
      · exact ih

theorem Holds.apply {s : State} (h : Holds T s) (a : Act) : Holds T (apply T s a) := by
  cases a with
  | read i items =>
    have h0 : Holds T (scanDests s (T.rfdEnt i)).1 :=
      h.mono (events_scanDests s _) fun hk => by rw [scanDests_eq hk]; exact hk
    have hex := exists_of_scanDests s (T.rfdEnt i)
    unfold Relay.apply handleClientData
    dsimp only
    generalize scanDests s (T.rfdEnt i) = r at h0 hex ⊢
    split
    · split
      · exact h0.arming id (fun _ _ => nofun) rfl rfl fun _ _ => hex ‹_›
      · exact h0
    · apply Holds.burst
      split
      · exact h0.arming id (fun _ _ => nofun) rfl rfl fun hp _ => by cases hp
      · exact h0
  | relay i sel m as => exact h.proxyTryEpxmit as i sel m
  | out d as => exact h.drain as d
  | wake i =>
    unfold Relay.apply qosResumeReader
    dsimp only
    split
    · exact h.arming id (fun _ _ => nofun) rfl rfl fun hp _ => by cases hp
    · exact h

theorem Holds.run (h : Holds T s) (acts : List Act) : Holds T (run T s acts) := by
  induction acts generalizing s with
  | nil => exact h
  | cons a acts ih => exact ih (h.apply a)

theorem holds_init (secure : LegId → Bool) : Holds T (init secure) := by
  intro _
  refine ⟨{ paused := ?_, out := ?_, full := ?_, sound := ?_ }, fun _ h => nomatch h⟩
  · intro i hp
    cases hp
  · intro i hne
    exact absurd rfl hne
  · intro i hb
    cases hb
  · intro i
    exact delivered_empty.sound

/-- **The relay does not stall** in a run whose arming calls all found calm states: outside
handlers a paused leg has a destination under backpressure, a leg with waiting bytes is armed for
`OUT`, and no drain has touched a leg parked by the shaper. -/
theorem relay_keeps_flowing (T : Topo) (secure : LegId → Bool) (acts : List Act)
    (hcalm : CalmRun T (run T (init secure) acts)) :
    Flows T (run T (init secure) acts).leg ∧ Spared (run T (init secure) acts) := by
  obtain ⟨hkept, hspared⟩ := (holds_init secure).run acts hcalm
  exact ⟨hkept.toFlows, hspared⟩
end

/-! ## runs of one connection -/

def byte : Msg := ⟨[7], by decide⟩

/-- the TLS client takes nothing, the backend is paused for it, and the drain wakes the backend -/
def pausedOnce : List Act :=
  [.read 1 [.relay 0 byte false false [.wantWrite, .wantWrite]], .read 1 [], .out 0 [.took 5]]

theorem feeds_pair {i : LegId} (h : pair.Feeds i 0) : i = 1 := by
  unfold Topo.Feeds pair at h
  dsimp only at h
  split at h
  · exact absurd h (by decide)
  · split at h
    · assumption
    · cases h

theorem relay_keeps_flowing_pair :
    ((run pair (init fun _ => true) pausedOnce).leg 1).readPaused = false ∧
      Flows pair (run pair (init fun _ => true) pausedOnce).leg := by
  have hcalm : CalmRun pair (run pair (init fun _ => true) pausedOnce) := by
    show ∀ ev ∈ ([_, _, _, _] : List Event), Call.Calm pair ev.before ev.call
    simp only [forall_mem_cons, not_mem_nil, false_imp_iff, implies_true, and_true]
    refine ⟨fun h => absurd rfl h, fun _ => ?_, rfl, fun _ => ?_⟩
    · exact ⟨rfl, nofun, nofun, nofun⟩
    · refine ⟨rfl, nofun, fun _ _ j hj => ?_, fun _ _ i hf _ _ => ?_⟩
      · have h1 : sourceOf pair 0 = some 1 := rfl
        cases h1.symm.trans hj
        exact ⟨rfl, rfl⟩
      · rw [feeds_pair hf]
        exact .inl rfl
  exact ⟨rfl, (relay_keeps_flowing pair (fun _ => true) pausedOnce hcalm).1⟩

def trio : Topo where
  odir i := i == 1 || i == 2
  rfdEnt i := if i = 0 then [some 1, some 2] else if i = 1 ∨ i = 2 then [some 0] else []
  fdlist := [2, 1, 0]

/-- both backends are paused for the TLS client, and the drain wakes the one it finds first -/
def pausedTwice : List Act :=
  [.read 1 [.relay 0 byte false false [.wantWrite, .wantWrite]], .read 1 [], .read 2 [],
    .out 0 [.took 5]]

/-- the client has bytes waiting when its own reading is paused for the backend -/
def pausedWaiting : List Act :=
  [.read 1 [.relay 0 byte false false [.wantWrite]],
    .read 0 [.relay 0 byte false false [.wantWrite, .wantWrite]], .read 0 []]

/-- the client is parked by the shaper while bytes wait for it, and the drain writes them -/
def parkedWaiting : List Act :=
  [.read 1 [.relay 0 byte false false [.wantWrite]], .read 0 [.park], .out 0 [.took 5]]

/-- the second backend is never woken, the client's waiting bytes are not armed for, and the
client parked by the shaper is armed for reading -/
theorem relay_stalls : ¬Flows trio (run trio (init fun i => i == 0) pausedTwice).leg ∧
    ¬Flows pair (run pair (init fun i => i == 1) pausedWaiting).leg ∧
    ¬Spared (run pair (init fun _ => false) parkedWaiting) := by
  refine ⟨?_, ?_, ?_⟩
  · intro h
    obtain ⟨d, hf, hb⟩ := h.paused 1 (by decide +kernel) (by decide +kernel)
    have hd : d = 0 := by
      have hmem : some d ∈ [some 0] := hf
      exact Option.some.inj (mem_singleton.mp hmem)
    rw [hd] at hb
    exact absurd hb (by decide +kernel)
  · intro h
    exact absurd (h.out 0 fun hc => by cases hc) (by decide +kernel)
  · intro h
    have hlast := h ((run pair (init fun _ => false) parkedWaiting).events.getLast (by
      exact cons_ne_nil _ _)) (getLast_mem _) 0 [.took 5] rfl
    exact absurd ((hlast 0 (by decide +kernel)).1 (by decide +kernel)) (by decide +kernel)

end Relay
