import InferenceGateway.Relay.Legs

/-!
# Every byte once and in order

Handlers touch the transmit cache of a leg in three ways only: a message is added at its end, the
write loop takes from its front, and a write goes past it when it is empty.  Everything else they
do is flags and armed events.

* `xmits_*`         what each function does to the caches, all other legs untouched;
* `Moves`           a change of one cache that lets bytes in at the end;
* `Delivered`       the socket's bytes and the waiting bytes are the messages in call order;
* **`relay_delivers_in_order`**  it holds along every run.
-/

open Function List

namespace Relay

open Function (update update_eq_self)

def State.xmits (s : State) : LegId → Xmit := fun j => (s.leg j).xmit

/-! ## what the functions do to the caches -/

theorem xmits_upd_of_eq {s : State} {i : LegId} {f : Leg → Leg}
    (h : (f (s.leg i)).xmit = (s.leg i).xmit) : (s.upd i f).xmits = s.xmits := by
  funext j
  show ((s.upd i f).leg j).xmit = (s.leg j).xmit
  rw [State.leg_upd]
  split
  · rw [h, ‹j = i›]
  · rfl

theorem xmits_upd (s : State) (i : LegId) (f : Leg → Leg) :
    (s.upd i f).xmits = update s.xmits i (f (s.leg i)).xmit := by
  funext j
  show ((s.upd i f).leg j).xmit = _
  rw [State.leg_upd, update_apply]
  split
  · rfl
  · rfl

theorem xmits_logged (s : State) (c : Call) (s' : State) : (s.logged c s').xmits = s'.xmits := rfl

section
variable (T : Topo)

variable (as : List Answer) (s : State) (d : LegId)

theorem xmits_resumeSource : (resumeSource T s d).xmits = s.xmits := by
  unfold resumeSource
  split
  · exact xmits_upd_of_eq rfl
  · rfl

theorem xmits_proxyCheckReleaseBackpressure :
    (proxyCheckReleaseBackpressure T s d).xmits = s.xmits := by
  unfold proxyCheckReleaseBackpressure
  split
  · rfl
  · split
    · rfl
    · rw [xmits_resumeSource]
      exact xmits_upd_of_eq rfl

theorem xmits_forceClear : (forceClear T s d).xmits = s.xmits := by
  unfold forceClear
  dsimp only
  split
  · split
    · rw [xmits_resumeSource]
      exact xmits_upd_of_eq rfl
    · rfl
  · rfl

theorem drain_nil {x : Xmit} (h : x.cache = []) : (Xmit.drain as x).1 = x := by
  cases as with
  | nil => rfl
  | cons a as => rw [Xmit.drain, h]

theorem xmits_xmitCacheBody :
    (xmitCacheBody T as s d).1.xmits = update s.xmits d (Xmit.drain as (s.xmits d)).1 := by
  have hs1 : (s.upd d (Leg.draining (Xmit.drain as (s.leg d).xmit).1)).xmits
      = update s.xmits d (Xmit.drain as (s.xmits d)).1 := xmits_upd s d _
  unfold xmitCacheBody
  split
  · have hc : (s.xmits d).cache = [] := List.isEmpty_iff.mp ‹_›
    rw [drain_nil as hc, update_eq_self]
    dsimp only
    exact xmits_upd_of_eq rfl
  · rw [← hs1]
    dsimp only
    split
    · rw [xmits_upd_of_eq rfl, xmits_forceClear, xmits_proxyCheckReleaseBackpressure]
    · apply xmits_upd_of_eq
      cases (Xmit.drain as (s.leg d).xmit).2 with
      | drained | wantWrite | wantRead | failed => rfl

theorem xmits_proxyXmitCache :
    (proxyXmitCache T as s d).1.xmits = update s.xmits d (Xmit.drain as (s.xmits d)).1 :=
  xmits_xmitCacheBody T as s d

/-- nothing is cached where a message may be sent at once -/
theorem drained_clear (h : ¬(!(s.leg d).xmit.cache.isEmpty || (s.leg d).cacheDraining) = true) :
    ((proxyXmitCache T as s d).1.xmits d).cache = [] := by
  rw [Bool.or_eq_true, not_or, Bool.not_eq_true, Bool.not_eq_false'] at h
  have hc : (s.xmits d).cache = [] := List.isEmpty_iff.mp h.1
  rw [xmits_proxyXmitCache, update_self, drain_nil as hc, hc]

theorem xmits_unstick : (unstick s d).xmits = s.xmits := by
  unfold unstick
  dsimp only
  split
  · exact xmits_upd_of_eq rfl
  · rfl

theorem xmits_scanDests (ds : List (Option LegId)) : (scanDests s ds).1.xmits = s.xmits := by
  induction ds generalizing s with
  | nil => rfl
  | cons o ds ih =>
    cases o with
    | none => exact ih s
    | some d =>
      unfold scanDests
      split
      · exact xmits_unstick s d
      · rw [ih, xmits_unstick]

end

/-! ## one message -/

/-- the bytes `b` entered the cache or its socket, when `ok`; nothing else changed the stream -/
structure Moves (ok : Prop) (x x' : Xmit) (b : List UInt8) : Prop where
  sound : x.Sound → x'.Sound
  given : x'.given = x.given
  stream : ok → x'.stream = x.stream ++ b

theorem Moves.refl (ok : Prop) (x : Xmit) : Moves ok x x [] where
  sound h := h
  given := rfl
  stream _ := (append_nil _).symm

variable {ok : Prop} {x y : Xmit} {b c : List UInt8}

theorem Moves.trans {z : Xmit} (h : Moves ok x y b) (h' : Moves ok y z c) :
    Moves ok x z (b ++ c) where
  sound hx := h'.sound (h.sound hx)
  given := h'.given.trans h.given
  stream hk := by rw [h'.stream hk, h.stream hk, append_assoc]

theorem Moves.lossy (h : Moves ok x y b) (hk : ¬ok) :
    Moves ok x y c := ⟨h.sound, h.given, fun k => absurd k hk⟩

theorem moves_add (ok : Prop) (x : Xmit) (m : Msg) : Moves ok x (x.add m) m.bytes where
  sound h := h.add m
  given := rfl
  stream _ := x.stream_add m

theorem moves_drain (ok : Prop) (as : List Answer) (x : Xmit) :
    Moves ok x (Xmit.drain as x).1 [] where
  sound h := h.drain as
  given := Xmit.given_drain as x
  stream _ := by rw [Xmit.stream_drain, append_nil]

theorem moves_direct (ok : Prop) (hc : x.cache = []) (m : Msg) (n : Nat) :
    Moves ok x (x.direct m n) (m.bytes.take n) where
  sound h := h.direct_of_nil hc m n
  given := rfl
  stream _ := Xmit.stream_direct hc m n

section
variable (T : Topo)

/-- only the cache of `d` changed between the states, and as `R` says -/
def OnlyAt (d : LegId) (R : Xmit → Xmit → Prop) (s s' : State) : Prop :=
  ∃ x, s'.xmits = update s.xmits d x ∧ R (s.xmits d) x

theorem onlyAt_add (ok : Prop) (s : State) (d : LegId) (m : Msg) :
    OnlyAt d (Moves ok · · m.bytes) s (proxyAddXmitcache T s d m) := by
  unfold proxyAddXmitcache
  exact ⟨_, xmits_upd s d _, moves_add ok _ m⟩

theorem onlyAt_drain (ok : Prop) (as : List Answer) (s : State) (d : LegId) :
    OnlyAt d (Moves ok · · []) s (proxyXmitCache T as s d).1 :=
  ⟨_, xmits_proxyXmitCache T as s d, moves_drain ok as _⟩

variable {ok : Prop} {d : LegId} {b c : List UInt8} {s t : State}

theorem OnlyAt.trans {u : State} (h : OnlyAt d (Moves ok · · b) s t)
    (h' : OnlyAt d (Moves ok · · c) t u) :
    OnlyAt d (Moves ok · · (b ++ c)) s u := by
  obtain ⟨x, hx, hm⟩ := h
  obtain ⟨y, hy, hm'⟩ := h'
  refine ⟨y, ?_, ?_⟩
  · rw [hy, hx, update_idem]
  · rw [hx, update_self] at hm'
    exact hm.trans hm'

theorem OnlyAt.refl (ok : Prop) (d : LegId) (s : State) : OnlyAt d (Moves ok · · []) s s :=
  ⟨s.xmits d, (update_eq_self d s.xmits).symm, Moves.refl ok _⟩

theorem OnlyAt.lossy (h : OnlyAt d (Moves ok · · b) s t) (hk : ¬ok) :
    OnlyAt d (Moves ok · · c) s t := by
  obtain ⟨x, hx, hm⟩ := h
  exact ⟨x, hx, hm.lossy hk⟩

theorem onlyAt_add_drain (ok : Prop) (as : List Answer) (s : State) (d : LegId) (m : Msg) :
    OnlyAt d (Moves ok · · m.bytes) s (proxyXmitCache T as (proxyAddXmitcache T s d m) d).1 := by
  have h := (onlyAt_add T ok s d m).trans (onlyAt_drain T ok as (proxyAddXmitcache T s d m) d)
  rw [append_nil] at h
  exact h

theorem onlyAt_directSend (as : List Answer) (hc : (s.xmits d).cache = []) (sel : Nat) (m : Msg) :
    OnlyAt d (Moves (sel = 0 ∧ Answer.failed ∉ as) · · m.bytes) s (directSend T as s d sel m) := by
  -- the socket took nothing: the message waits, on slot 0
  have hblocked (ok : Prop) (hok : ok → sel = 0) (bs : List Answer) :
      OnlyAt d (Moves ok · · m.bytes) s (if sel = 0 then
          if (s.leg d).secure then (proxyXmitCache T bs (proxyAddXmitcache T s d m) d).1
          else proxyAddXmitcache T s d m
        else s) := by
    split
    · split
      · exact onlyAt_add_drain T ok bs s d m
      · exact onlyAt_add T ok s d m
    · exact (OnlyAt.refl ok d s).lossy fun h => ‹¬sel = 0› (hok h)
  cases as with
  | nil => exact hblocked _ (·.1) []
  | cons a as =>
    cases a with
    | wantWrite | wantRead => exact hblocked _ (·.1) as
    | failed => exact (OnlyAt.refl _ d s).lossy fun h => h.2 mem_cons_self
    | took k =>
      have hd (ok : Prop) : OnlyAt d (Moves ok · · (m.bytes.take (k + 1))) s
          (s.upd d fun l => { l with xmit := l.xmit.direct m (k + 1) }) :=
        ⟨_, xmits_upd s d _, moves_direct ok hc m (k + 1)⟩
      unfold directSend
      dsimp only
      split
      · split
        · have h := (hd _).trans (onlyAt_add T (sel = 0 ∧ Answer.failed ∉ Answer.took k :: as) _ d
            ⟨m.bytes.drop (k + 1), ‹_›⟩)
          rw [take_append_drop] at h
          exact h
        · exact (hd _).lossy fun h => ‹¬sel = 0› h.1
      · have hall : m.bytes.take (k + 1) = m.bytes := by
          have h := take_append_drop (k + 1) m.bytes
          rwa [not_not.mp ‹¬m.bytes.drop (k + 1) ≠ []›, append_nil] at h
        have h := hd (sel = 0 ∧ Answer.failed ∉ Answer.took k :: as)
        rw [hall] at h
        exact h

theorem onlyAt_relayTo (as : List Answer) (s : State) (d : LegId) (sel : Nat) (m : Msg) :
    OnlyAt d (Moves (sel = 0 ∧ Answer.failed ∉ as) · · m.bytes)
      (s.upd d fun l => { l with xmit := l.xmit.give m }) (relayTo T as s d sel m) := by
  unfold relayTo
  dsimp only
  generalize s.upd d (fun l => { l with xmit := l.xmit.give m }) = s0
  split
  · exact onlyAt_add_drain T _ as s0 d m
  · have hc := drained_clear T as s0 d ‹_›
    have hdrain := onlyAt_drain T (sel = 0 ∧ Answer.failed ∉ as) as s0 d
    split
    · exact hdrain.trans (onlyAt_directSend T as hc sel m)
    · exact hdrain.trans (onlyAt_add T _ _ d m)

end

/-! ## runs -/

/-- the socket's bytes and the waiting ones are the messages in call order -/
structure Delivered (x : Xmit) : Prop where
  sound : x.Sound
  stream : x.stream = x.asked

theorem delivered_empty : Delivered Xmit.empty where
  sound := ⟨rfl, rfl, fun _ h => nomatch h⟩
  stream := rfl

theorem asked_give (x : Xmit) (m : Msg) : (x.give m).asked = x.asked ++ m.bytes := by
  rw [Xmit.asked, Xmit.give, flatMap_append, flatMap_singleton, Xmit.asked]

section
variable (T : Topo)

variable {d : LegId} {s : State} {sel : Nat}

theorem xmits_relayTo_ne (as : List Answer) (s : State) {e : LegId} (h : e ≠ d) (sel : Nat)
    (m : Msg) : (relayTo T as s d sel m).xmits e = s.xmits e := by
  obtain ⟨x, hx, -⟩ := onlyAt_relayTo T as s d sel m
  rw [hx, update_of_ne h, xmits_upd, update_of_ne h]

section
variable (h : Delivered (s.xmits d))
include h

theorem delivered_relayTo (as : List Answer) (hok : sel = 0 ∧ Answer.failed ∉ as) (m : Msg) :
    Delivered ((relayTo T as s d sel m).xmits d) := by
  obtain ⟨x, hx, hm⟩ := onlyAt_relayTo T as s d sel m
  rw [xmits_upd, update_self] at hm
  rw [hx, update_self]
  refine ⟨hm.sound { h.sound with }, ?_⟩
  calc x.stream = (s.xmits d).stream ++ m.bytes := hm.stream hok
    _ = (s.xmits d).asked ++ m.bytes := by rw [h.stream]
    _ = ((s.xmits d).give m).asked := (asked_give _ m).symm
    _ = x.asked := by rw [Xmit.asked, Xmit.asked, hm.given]; rfl

/-- what a message of `i` asks of the run: towards `d` slot 0 is used, and no write fails -/
def PlainRelay (d i : LegId) (sel : Nat) (as : List Answer) : Prop :=
  T.slot i sel = some d → sel = 0 ∧ Answer.failed ∉ as

def Item.Plain (d i : LegId) : Item → Prop
  | .park => True
  | .relay sel _ _ _ as => PlainRelay T d i sel as

def Act.Plain (d : LegId) : Act → Prop
  | .read i items => ∀ it ∈ items, it.Plain T d i
  | .relay i sel _ as => PlainRelay T d i sel as
  | .out _ _ => True
  | .wake _ => True

theorem delivered_proxyTryEpxmit (as : List Answer) {i : Nat} (m : Msg)
    (hok : PlainRelay T d i sel as) : Delivered ((proxyTryEpxmit T as s i sel m).xmits d) := by
  unfold proxyTryEpxmit
  split
  · rename_i e he
    by_cases hd : d = e
    · subst hd
      exact delivered_relayTo T h as (hok he) m
    · rw [xmits_relayTo_ne T as s hd]
      exact h
  · exact h

theorem delivered_burst {i : LegId} (items : List Item) (hok : ∀ it ∈ items, it.Plain T d i) :
    Delivered ((burst T i items s).xmits d) := by
  induction items generalizing s with
  | nil => exact h
  | cons it items ih =>
    cases it with
    | park =>
      show Delivered ((qosParkReader s i).xmits d)
      rw [qosParkReader, xmits_logged, xmits_upd_of_eq rfl]
      exact h
    | relay sel m chunked streamed as =>
      have h1 : Delivered ((s.upd i fun l =>
          { l with isChunkedResponse := l.isChunkedResponse || chunked }).xmits d) := by
        rw [xmits_upd_of_eq rfl]
        exact h
      have h2 := delivered_proxyTryEpxmit T h1 as m (hok _ mem_cons_self)
      unfold burst
      dsimp only
      split
      · exact h2
      · exact ih h2 fun it hit => hok it (mem_cons_of_mem _ hit)

theorem delivered_apply (a : Act) (hok : a.Plain T d) : Delivered ((apply T s a).xmits d) := by
  cases a with
  | read i items =>
    have h0 : Delivered ((scanDests s (T.rfdEnt i)).1.xmits d) := by
      rw [xmits_scanDests]
      exact h
    unfold apply handleClientData
    dsimp only
    split
    · split
      · rw [xmits_logged, xmits_upd_of_eq rfl]
        exact h0
      · exact h0
    · refine delivered_burst T ?_ items hok
      split
      · rw [xmits_logged, xmits_upd_of_eq rfl]
        exact h0
      · exact h0
  | relay i sel m as => exact delivered_proxyTryEpxmit T h as m hok
  | out e as =>
    show Delivered ((proxyXmitCache T as s e).1.xmits d)
    rw [xmits_proxyXmitCache, update_apply]
    split
    · subst ‹d = e›
      have hm := moves_drain True as (s.xmits d)
      refine ⟨hm.sound h.sound, ?_⟩
      rw [Xmit.stream_drain, h.stream, Xmit.asked, Xmit.asked, hm.given]
    · exact h
  | wake i =>
    unfold apply qosResumeReader
    dsimp only
    split
    · rw [xmits_logged, xmits_upd_of_eq rfl]
      exact h
    · exact h

theorem delivered_run (acts : List Act) (hok : ∀ a ∈ acts, a.Plain T d) :
    Delivered ((run T s acts).xmits d) := by
  induction acts generalizing s with
  | nil => exact h
  | cons a acts ih =>
    exact ih (delivered_apply T h a (hok a mem_cons_self)) fun b hb => hok b (mem_cons_of_mem a hb)

end

/-- **Bytes are relayed once and in order** in any run in which the messages for `d` go through
slot 0 and no write of one fails: what the socket took and what waits are the messages relayed, in
call order, and no direct write overtook waiting bytes. -/
theorem relay_delivers_in_order (secure : LegId → Bool) (d : LegId) (acts : List Act)
    (hok : ∀ a ∈ acts, a.Plain T d) :
    let x := ((run T (init secure) acts).leg d).xmit
    x.sent ++ x.waiting = x.asked ∧
    (∀ w ∈ x.log, w.direct = true → w.waiting = []) ∧
    x.cacheCount = x.cache.length ∧
    x.cacheTotalSize = (x.cache.map Entry.size).sum ∧
    (x.cacheTotalSize = 0 ↔ x.cache = []) := by
  have hinit : Delivered ((init secure).xmits d) := delivered_empty
  have h := delivered_run T hinit acts hok
  exact ⟨h.stream, h.sound.direct, h.sound.count, h.sound.total, h.sound.total_eq_zero⟩

end

def pair : Topo where
  odir i := i == 1
  rfdEnt i := if i = 0 then [some 1] else if i = 1 then [some 0] else []
  fdlist := [1, 0]

def partialThenBlocked : List Act :=
  [.read 1 [.relay 0 ⟨[1, 2, 3], by decide⟩ false false [.took 0],
      .relay 0 ⟨[4], by decide⟩ false false [.wantWrite]],
    .relay 1 0 ⟨[5], by decide⟩ [],
    .out 0 [.took 1, .wantWrite]]

theorem relay_delivers_in_order_pair :
    let x := ((run pair (init fun _ => false) partialThenBlocked).leg 0).xmit
    (x.sent = [1, 2, 3] ∧ x.waiting = [4, 5]) ∧ x.sent ++ x.waiting = x.asked ∧
    (x.cacheTotalSize = 0 ↔ x.cache = []) := by
  have hok : ∀ a ∈ partialThenBlocked, a.Plain pair 0 := by
    simp [partialThenBlocked, Act.Plain, Item.Plain, PlainRelay]
  obtain ⟨horder, -, -, -, hzero⟩ :=
    relay_delivers_in_order pair (fun _ => false) 0 partialThenBlocked hok
  exact ⟨⟨by decide +kernel, by decide +kernel⟩, horder, hzero⟩

end Relay
