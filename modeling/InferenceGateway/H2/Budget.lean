import InferenceGateway.Lib.Run

/-!
# The response budget of an HTTP/2 session

The bytes that backends sent and the client has not taken yet are queued on the client's streams and
counted for the whole session.  Above the high mark the session is in backpressure, and a bridged
HTTP/1 leg that read its socket then stops reading; at the low mark the pressure is lifted
(`sockproxy_h2.c`).

* `Exact`              the counts are the queued bytes, in every state;
* `Flowing`            outside backpressure no unfinished bridged leg is paused;
* `budget_keeps_legs`  when that holds throughout a run.
-/

open Function List

namespace H2

def highWater : Nat := 50 * 1024 * 1024
def lowWater : Nat := 10 * 1024 * 1024

/-- `h2_resp_chunk_t` -/
structure Chunk where
  (len off : Nat)

/-- `h2_resp_relay_t`: the queue of a client stream and its end -/
structure Relay where
  chunks : List Chunk
  queuedBytes : Nat
  (eosPending eosSent resetSubmitted : Bool)

def Relay.zero : Relay := ⟨[], 0, false, false, false⟩

/-- `backend_h2_session_t` with the client streams of its `stream_map` and the `read_paused` of its
leg; both go with the session -/
structure Backend where
  slot : Nat
  (bridgeH1 bridgeDone bridgeCancelled : Bool)
  streamMap : List Nat
  readPaused : Bool

/-- `proxy_h2_session_t`; the backend sessions stand in the order of their table -/
structure Session where
  streams : Finset Nat
  resp : Nat → Relay
  total : Nat
  backpressure : Bool
  backends : List Backend

namespace Backend

/-- a bridged leg with an unfinished answer -/
def bridging (b : Backend) : Bool := b.bridgeH1 && !b.bridgeDone && !b.bridgeCancelled

/-- .. that does not read -/
def stuck (b : Backend) : Bool := b.bridging && b.readPaused

/-- the native session that feeds the client stream -/
def feeds (id : Nat) (b : Backend) : Bool := !b.bridgeH1 && b.streamMap.contains id

/-- the client stream ended: the bridged leg that serves it is cancelled -/
def cancelled (id : Nat) (b : Backend) : Backend :=
  if b.bridgeH1 && b.streamMap.contains id then { b with bridgeCancelled := true } else b

end Backend

/-- the loop of `h2_resp_relay_read_callback`: the bytes copied and the chunks left -/
def readChunks : Nat → List Chunk → Nat × List Chunk
  | 0, cs => (0, cs)
  | _ + 1, [] => (0, [])
  | n + 1, c :: cs =>
    if c.len - c.off ≤ n + 1 then
      let (copied, rest) := readChunks (n + 1 - (c.len - c.off)) cs
      (c.len - c.off + copied, rest)
    else (n + 1, { c with off := c.off + (n + 1) } :: cs)

/-- the walk of `h2_resp_release` over the backend sessions: it ends at the one that feeds the stream -/
def resumeLegs (id : Nat) : List Backend → List Backend
  | [] => []
  | b :: bs =>
    if b.bridging then { b with readPaused := false } :: resumeLegs id bs
    else if b.feeds id then b :: bs
    else b :: resumeLegs id bs

namespace Session

def init : Session := ⟨∅, fun _ => .zero, 0, false, []⟩
def setResp (s : Session) (id : Nat) (r : Relay) : Session := { s with resp := update s.resp id r }

def eachBackend (s : Session) (slot : Nat) (f : Backend → Backend) : Session :=
  { s with backends := s.backends.map fun b => if b.slot = slot then f b else b }

def accountRelease (s : Session) (n : Nat) : Session :=
  { s with total := if s.total > n then s.total - n else 0 }

/-- `h2_resp_release` -/
def release (s : Session) (id n : Nat) : Session :=
  let s := s.accountRelease n
  if s.backpressure && decide (s.total ≤ lowWater) then
    { s with backpressure := false, backends := resumeLegs id s.backends }
  else s

/-- `h2_resp_relay_read_callback` -/
def relayRead (s : Session) (id length : Nat) : Session :=
  if id ∈ s.streams then
    let r := s.resp id
    let (copied, rest) := readChunks length r.chunks
    let r := { r with
      chunks := rest
      queuedBytes := r.queuedBytes - copied
      eosSent := r.eosSent || rest.isEmpty && r.eosPending }
    let s := s.setResp id r
    if copied > 0 then s.release id copied else s
  else s

/-- `proxy_h2_backend_on_data_chunk_recv_callback`, and `h2_h1_body` for a bridged leg; `ok` is the
allocation of the chunk -/
def dataChunk (s : Session) (slot id len : Nat) (ok : Bool) : Session :=
  let mapped := s.backends.any fun b => decide (b.slot = slot) && b.streamMap.contains id &&
    !(b.bridgeH1 && b.bridgeCancelled)
  let r := s.resp id
  if !mapped || decide (id ∉ s.streams) || decide (len = 0) || r.eosSent || r.resetSubmitted then s
  else
    let s := { s with backpressure := s.backpressure || decide (s.total + len > highWater) }
    if ok then
      { s.setResp id { r with chunks := r.chunks ++ [⟨len, 0⟩], queuedBytes := r.queuedBytes + len } with
        total := s.total + len }
    else s

/-- the end of `proxy_h2_handle_backend_data` for a bridged leg: it stops reading -/
def bridgePause (s : Session) (slot : Nat) : Session :=
  s.eachBackend slot fun b =>
    if b.bridgeH1 && s.backpressure && !b.bridgeDone then { b with readPaused := true } else b

def relayReset (s : Session) (id : Nat) : Session :=
  if decide (id ∉ s.streams) || (s.resp id).resetSubmitted || (s.resp id).eosSent then s
  else s.setResp id { s.resp id with resetSubmitted := true }

/-- `h2_resp_relay_free` on a stream of the session -/
def relayFree (s : Session) (id : Nat) : Session :=
  let n := (s.resp id).queuedBytes
  let s := s.setResp id .zero
  if n = 0 then s
  else
    let s := s.accountRelease n
    if s.backpressure && decide (s.total ≤ lowWater) then { s with backpressure := false } else s

/-- `h2_stream_free`: the bridged legs of the stream are cancelled first -/
def streamFree (s : Session) (id : Nat) : Session :=
  if id ∈ s.streams then
    let s := { s with backends := s.backends.map (Backend.cancelled id) }
    let s := s.relayFree id
    { s with streams := s.streams.erase id }
  else s

end Session

inductive Act where
  | openStream (id : Nat)
  | connect (slot : Nat) (bridge : Bool)
  | map (slot id : Nat)
  | dataChunk (slot id len : Nat) (ok : Bool)
  | bridgePause (slot : Nat)
  | endStream (id : Nat)
  | relayRead (id length : Nat)
  | relayReset (id : Nat)
  | bridgeDone (slot : Nat)
  | bridgeFail (slot : Nat)
  | unmap (slot id : Nat)
  | streamFree (id : Nat)
  | teardown (slot : Nat)

open Session in
def step (s : Session) : Act → Session
  | .openStream id =>
    if id ∈ s.streams then s else { s.setResp id .zero with streams := insert id s.streams }
  | .connect slot bridge =>
    if s.backends.any (fun b => decide (b.slot = slot)) then s
    else { s with backends := s.backends ++ [⟨slot, bridge, false, false, [], false⟩] }
  | .map slot id => s.eachBackend slot fun b => { b with streamMap := id :: b.streamMap }
  | .dataChunk slot id len ok => s.dataChunk slot id len ok
  | .bridgePause slot => s.bridgePause slot
  | .endStream id => if id ∈ s.streams then s.setResp id { s.resp id with eosPending := true } else s
  | .relayRead id length => s.relayRead id length
  | .relayReset id => s.relayReset id
  | .bridgeDone slot => s.eachBackend slot fun b => { b with bridgeDone := true, streamMap := [] }
  | .bridgeFail slot => s.eachBackend slot fun b => { b with bridgeCancelled := true }
  | .unmap slot id => s.eachBackend slot fun b => { b with streamMap := b.streamMap.erase id }
  | .streamFree id => s.streamFree id
  | .teardown slot => { s with backends := s.backends.filter fun b => !decide (b.slot = slot) }

/-! ## the counts -/

def unread (cs : List Chunk) : Nat := (cs.map fun c => c.len - c.off).sum

structure Exact (s : Session) : Prop where
  total : s.total = ∑ id ∈ s.streams, (s.resp id).queuedBytes
  queued : ∀ id ∈ s.streams, (s.resp id).queuedBytes = unread (s.resp id).chunks

section
variable {s s' : Session} {id n : Nat} {r : Relay}

theorem unread_cons (c : Chunk) (cs : List Chunk) : unread (c :: cs) = c.len - c.off + unread cs := by
  rw [unread, map_cons, sum_cons, ← unread]

theorem readChunks_spec (n : Nat) (cs : List Chunk) : (readChunks n cs).1 = min n (unread cs) ∧
    unread (readChunks n cs).2 + (readChunks n cs).1 = unread cs := by
  fun_induction readChunks n cs with
  | case1 cs => simp
  | case2 n => simp [unread]
  | case3 n c cs hle copied rest hr ih =>
    rw [hr] at ih
    rw [unread_cons]
    simp only at ih ⊢
    omega
  | case4 n c cs hlt =>
    simp only [unread_cons]
    omega

theorem Exact.congr (h : Exact s) (hs : s'.streams = s.streams) (hr : s'.resp = s.resp)
    (ht : s'.total = s.total) : Exact s' := by
  obtain ⟨h1, h2⟩ := h
  constructor <;> simpa only [hs, hr, ht]

theorem Exact.setResp (h : Exact s) (hid : id ∈ s.streams) (hs : s'.streams = s.streams)
    (hr' : s'.resp = update s.resp id r) (hr : r.queuedBytes = unread r.chunks)
    (ht : s'.total + (s.resp id).queuedBytes = s.total + r.queuedBytes) : Exact s' := by
  constructor
  · have hsum := Run.sum_update s.streams Relay.queuedBytes s.resp hid r
    rw [h.total] at ht
    rw [hs, hr']
    omega
  · intro j hj
    rw [hs] at hj
    rw [hr', update_apply]
    split
    · exact hr
    · exact h.queued j hj

theorem Exact.queued_le (h : Exact s) (hid : id ∈ s.streams) : (s.resp id).queuedBytes ≤ s.total := by
  rw [h.total]
  exact Finset.single_le_sum (f := fun j => (s.resp j).queuedBytes) (fun _ _ => Nat.zero_le _) hid

theorem accountRelease_total (s : Session) (n : Nat) : (s.accountRelease n).total = s.total - n := by
  unfold Session.accountRelease
  dsimp only
  split <;> omega

/-! ## the paused legs -/

/-- outside backpressure no unfinished bridged leg is paused -/
def Flowing (s : Session) : Prop := s.backpressure = false → ∀ b ∈ s.backends, b.stuck = false

/-- the release of so many bytes of the stream lifts the backpressure -/
def Session.Lifts (s : Session) (id n : Nat) : Prop :=
  s.backpressure = true ∧ id ∈ s.streams ∧ 0 < n ∧ s.total - n ≤ lowWater

/-- the step passes over no paused leg when it lifts the backpressure: a read passes over those that
stand behind the session that feeds its stream, the end of a stream over all but its own -/
def Act.Resumes (s : Session) : Act → Prop
  | .relayRead id length => s.Lifts id (min length (s.resp id).queuedBytes) →
      ∀ b ∈ s.backends.dropWhile fun b => !b.feeds id, b.stuck = false
  | .streamFree id => s.Lifts id (s.resp id).queuedBytes →
      ∀ b ∈ s.backends, b.stuck = true → b.streamMap.contains id = true
  | _ => True

theorem Flowing.eachBackend (h : Flowing s) {slot : Nat} {f : Backend → Backend}
    (hf : ∀ b, b.stuck = false → (f b).stuck = false) : Flowing (s.eachBackend slot f) := by
  intro hp
  refine forall_mem_map.mpr fun b hb => ?_
  split
  · exact hf b (h hp b hb)
  · exact h hp b hb

theorem resumeLegs_flow (id : Nat) (bs : List Backend) : (∀ b ∈ resumeLegs id bs, b.stuck = false) ↔
      ∀ b ∈ bs.dropWhile fun b => !b.feeds id, b.stuck = false := by
  induction bs with
  | nil => exact Iff.rfl
  | cons b bs ih =>
    unfold resumeLegs
    by_cases hb : b.bridging = true
    · have hfeed : b.feeds id = false := by
        unfold Backend.bridging at hb
        unfold Backend.feeds
        cases h1 : b.bridgeH1
        · rw [h1] at hb
          cases hb
        · rfl
      rw [if_pos hb, dropWhile_cons, hfeed]
      simpa [Backend.stuck] using ih
    · have hstuck : b.stuck = false := by
        rw [Backend.stuck, Bool.eq_false_iff.mpr hb]
        rfl
      rw [if_neg hb, dropWhile_cons]
      cases hfeed : b.feeds id
      · simpa [hstuck] using ih
      · simp

theorem release_frame (s : Session) (id n : Nat) : (s.release id n).streams = s.streams ∧
    (s.release id n).resp = s.resp ∧ (s.release id n).total = s.total - n := by
  have htotal := accountRelease_total s n
  unfold Session.release
  dsimp only
  split <;> exact ⟨rfl, rfl, htotal⟩

theorem Flowing.release (h : Flowing s) (id n : Nat) : Flowing (s.release id n) ↔
    (s.backpressure = true → s.total - n ≤ lowWater →
      ∀ b ∈ s.backends.dropWhile fun b => !b.feeds id, b.stuck = false) := by
  unfold Session.release
  dsimp only
  rw [accountRelease_total]
  split
  case isTrue hl =>
    rw [Bool.and_eq_true, decide_eq_true_iff] at hl
    refine Iff.trans ⟨fun hf => hf rfl, fun hf _ => hf⟩ ((resumeLegs_flow id s.backends).trans ?_)
    exact ⟨fun hf _ _ => hf, fun hf => hf hl.1 hl.2⟩
  case isFalse hl =>
    refine iff_of_true h fun hp ht => absurd ?_ hl
    rw [Bool.and_eq_true, decide_eq_true_iff]
    exact ⟨hp, ht⟩

section
variable (h : Exact s) (hf : Flowing s) (id length : Nat)
include h

theorem Exact.relayRead : Exact (s.relayRead id length) := by
  unfold Session.relayRead
  split
  case isFalse => exact h
  case isTrue hid =>
    obtain ⟨hc, hu⟩ := readChunks_spec length (s.resp id).chunks
    have hq := h.queued id hid
    have hle := h.queued_le hid
    dsimp only
    split
    case isTrue =>
      obtain ⟨hs, hr, ht⟩ := release_frame (s.setResp id _) id _
      refine h.setResp hid hs hr ?_ ?_
      · dsimp only
        omega
      · rw [ht]
        show s.total - _ + _ = _ + (_ - _)
        omega
    case isFalse hz =>
      refine h.setResp hid rfl rfl ?_ ?_
      · dsimp only
        omega
      · show s.total + _ = _ + (_ - _)
        omega

include hf

theorem Flowing.relayRead :
    Flowing (s.relayRead id length) ↔ (Act.relayRead id length).Resumes s := by
  unfold Session.relayRead Act.Resumes
  split
  case isFalse hid => exact iff_of_true hf fun hl => absurd hl.2.1 hid
  case isTrue hid =>
    obtain ⟨hc, -⟩ := readChunks_spec length (s.resp id).chunks
    rw [← h.queued id hid] at hc
    dsimp only
    rw [hc]
    split
    case isTrue hpos =>
      refine Iff.trans (Flowing.release ?_ _ _) ?_
      · exact hf
      · exact ⟨fun hr hl => hr hl.1 hl.2.2.2, fun hr hp ht => hr ⟨hp, hid, hpos, ht⟩⟩
    case isFalse hz => exact iff_of_true hf fun hl => absurd hl.2.2.1 hz

end

theorem relayFree_frame (s : Session) (id : Nat) : (s.relayFree id).streams = s.streams ∧
    (s.relayFree id).resp = update s.resp id .zero ∧
    (s.relayFree id).total = s.total - (s.resp id).queuedBytes ∧
    (s.relayFree id).backends = s.backends := by
  have htotal := accountRelease_total (s.setResp id .zero) (s.resp id).queuedBytes
  unfold Session.relayFree
  dsimp only
  split
  case isTrue hz => exact ⟨rfl, rfl, by rw [hz]; rfl, rfl⟩
  case isFalse => split <;> exact ⟨rfl, rfl, htotal, rfl⟩

theorem Exact.streamFree (h : Exact s) (id : Nat) : Exact (s.streamFree id) := by
  unfold Session.streamFree
  split
  case isFalse => exact h
  case isTrue hid =>
    obtain ⟨hs, hr, ht, -⟩ :=
      relayFree_frame { s with backends := s.backends.map (Backend.cancelled id) } id
    have hfree := h.setResp hid hs hr rfl (by rw [ht]; exact Nat.sub_add_cancel (h.queued_le hid))
    refine ⟨hfree.total.trans (Finset.sum_erase _ ?_).symm, ?_⟩
    · rw [hr, update_self]
      rfl
    · exact fun j hj => hfree.queued j (Finset.mem_of_mem_erase hj)

theorem relayFree_lifts (hid : id ∈ s.streams) : (s.relayFree id).backpressure = false ↔
    s.backpressure = false ∨ s.Lifts id (s.resp id).queuedBytes := by
  have htotal := accountRelease_total (s.setResp id .zero) (s.resp id).queuedBytes
  unfold Session.relayFree Session.Lifts
  dsimp only
  rw [htotal]
  split
  case isTrue hz =>
    rw [hz]
    exact ⟨.inl, fun hp => hp.resolve_right fun hl => absurd hl.2.2.1 (lt_irrefl 0)⟩
  case isFalse hn =>
    split
    case isTrue hl =>
      rw [Bool.and_eq_true, decide_eq_true_iff] at hl
      exact iff_of_true rfl (.inr ⟨hl.1, hid, Nat.pos_of_ne_zero hn, hl.2⟩)
    case isFalse hl =>
      refine ⟨.inl, fun hp => hp.resolve_right fun hp => hl ?_⟩
      rw [Bool.and_eq_true, decide_eq_true_iff]
      exact ⟨hp.1, hp.2.2.2⟩

theorem cancelled_stuck (id : Nat) (b : Backend) : (b.cancelled id).stuck = false ↔
    (b.stuck = true → b.streamMap.contains id = true) := by
  obtain ⟨slot, h1, done, gone, ids, paused⟩ := b
  unfold Backend.cancelled Backend.stuck Backend.bridging
  cases h1 <;> cases ids.contains id <;> simp

theorem Flowing.streamFree (hf : Flowing s) (id : Nat) :
    Flowing (s.streamFree id) ↔ (Act.streamFree id).Resumes s := by
  unfold Session.streamFree Act.Resumes
  split
  case isFalse hid => exact iff_of_true hf fun hl => absurd hl.2.1 hid
  case isTrue hid =>
    have hlifts := relayFree_lifts (s := { s with backends := s.backends.map (Backend.cancelled id) }) hid
    unfold Flowing
    rw [hlifts, (relayFree_frame _ id).2.2.2]
    simp only [forall_mem_map, cancelled_stuck]
    constructor
    · exact fun h hl => h (.inr hl)
    · rintro h (hp | hl) b hb hs
      · rw [hf hp b hb] at hs
        cases hs
      · exact h hl b hb hs

/-! ## runs -/

theorem Exact.step (h : Exact s) (a : Act) : Exact (step s a) := by
  cases a with
  | openStream id =>
    simp only [H2.step]
    split
    case isTrue => exact h
    case isFalse hid =>
      have hother : ∀ j ∈ s.streams, update s.resp id .zero j = s.resp j := by
        intro j hj
        exact update_of_ne (ne_of_mem_of_not_mem hj hid) ..
      refine ⟨?_, Finset.forall_mem_insert .. |>.mpr ⟨?_, fun j hj => ?_⟩⟩
      · show s.total = ∑ j ∈ insert id s.streams, (update s.resp id .zero j).queuedBytes
        rw [Finset.sum_insert hid, update_self, h.total,
          Finset.sum_congr rfl fun j hj => congrArg Relay.queuedBytes (hother j hj)]
        exact (Nat.zero_add _).symm
      · show (update s.resp id .zero id).queuedBytes = unread (update s.resp id .zero id).chunks
        rw [update_self]
        rfl
      · show (update s.resp id .zero j).queuedBytes = unread (update s.resp id .zero j).chunks
        rw [hother j hj]
        exact h.queued j hj
  | dataChunk slot id len ok =>
    simp only [H2.step, Session.dataChunk]
    split
    case isTrue => exact h
    case isFalse hd =>
      simp only [Bool.or_eq_true, decide_eq_true_iff, not_or, not_not] at hd
      have hid := hd.1.1.1.2
      split
      case isTrue =>
        refine h.setResp hid rfl rfl ?_ ?_
        · rw [unread, map_append, sum_append, ← unread, ← h.queued id hid]
          rfl
        · show s.total + len + _ = _ + (_ + len)
          omega
      case isFalse => exact h.congr rfl rfl rfl
  | relayRead id length => exact h.relayRead id length
  | streamFree id => exact h.streamFree id
  | endStream id =>
    simp only [H2.step]
    split
    case isTrue hid => exact h.setResp hid rfl rfl (h.queued id hid) rfl
    case isFalse => exact h
  | relayReset id =>
    simp only [H2.step, Session.relayReset]
    split
    case isTrue => exact h
    case isFalse hid => 
      simp only [Bool.or_eq_true, decide_eq_true_iff, not_or, not_not] at hid
      exact h.setResp hid.1.1 rfl rfl (h.queued id hid.1.1) rfl
  | connect slot bridge =>
    simp only [H2.step]
    split
    · exact h
    · exact h.congr rfl rfl rfl
  | _ => exact h.congr rfl rfl rfl

theorem Flowing.step (h : Exact s) (hf : Flowing s) (a : Act) :
    Flowing (step s a) ↔ a.Resumes s := by
  have heach : ∀ {slot f}, (∀ b, b.stuck = false → (f b).stuck = false) →
      (Flowing (s.eachBackend slot f) ↔ True) := fun hk => iff_true_intro (hf.eachBackend hk)
  cases a with
  | connect slot bridge =>
    refine iff_true_intro ?_
    simp only [H2.step]
    split
    · exact hf
    · exact fun hp => forall_mem_append.mpr ⟨hf hp, forall_mem_singleton.mpr (by
        cases bridge <;> rfl)⟩
  | dataChunk slot id len ok =>
    refine iff_true_intro ?_
    simp only [H2.step, Session.dataChunk]
    split
    · exact hf
    · split <;> exact fun hp => hf (Bool.or_eq_false_iff.mp hp).1
  | bridgePause slot =>
    refine iff_true_intro fun hp => hf.eachBackend (fun b hb => ?_) hp
    have hp' : s.backpressure = false := hp
    rw [hp', Bool.and_false]
    exact hb
  | relayRead id length => exact Flowing.relayRead h hf id length
  | streamFree id => exact hf.streamFree id
  | map | unmap => exact heach fun b hb => hb
  | bridgeDone | bridgeFail => exact heach fun b _ => by simp [Backend.stuck, Backend.bridging]
  | teardown slot => exact iff_true_intro fun hp b hb => hf hp b (mem_of_mem_filter hb)
  | openStream | endStream =>
    simp only [H2.step]
    split <;> exact iff_true_intro hf
  | relayReset id =>
    simp only [H2.step, Session.relayReset]
    split <;> exact iff_true_intro hf

end

/-- **The budget is exact, and outside backpressure every unfinished bridged leg reads** throughout a
run exactly when no step that lifts the backpressure passes over a paused leg. -/
theorem budget_keeps_legs (as : List Act) :
    (∀ pre post, as = pre ++ post → Exact (pre.foldl step .init)) ∧
    ((∀ pre post, as = pre ++ post → Flowing (pre.foldl step .init)) ↔
      ∀ pre a post, as = pre ++ a :: post → a.Resumes (pre.foldl step .init)) := by
  have hexact : Exact .init := ⟨rfl, fun _ h => absurd h (Finset.notMem_empty _)⟩
  have hflow : Flowing .init := fun _ _ hb => absurd hb not_mem_nil
  constructor
  · exact Run.prefix_inv step .init Exact (fun _ _ => True) hexact (fun _ a h _ => h.step a)
      fun _ _ _ _ => trivial
  · exact Run.prefix_iff_of_inv step .init Flowing (fun s a => a.Resumes s) hflow Exact hexact as
      (fun _ a _ _ h => h.step a) fun _ a _ hf h => hf.step h a

/-- two answers, of a bridged leg and of a native backend that fills the budget; the leg pauses,
and the client resets the other stream -/
def resetRun : List Act :=
  [.connect 0 true, .connect 1 false, .openStream 1, .openStream 3, .map 0 1, .map 1 3] ++
    replicate 4 (.dataChunk 1 3 16384000 true) ++
    [.dataChunk 0 1 4096 true, .bridgePause 0, .streamFree 3]

/-- the leg is paused, and nothing is left that would resume it -/
theorem leg_left_paused : ∃ b ∈ (resetRun.foldl step .init).backends, b.stuck = true ∧
    (resetRun.foldl step .init).backpressure = false ∧ 1 ∈ (resetRun.foldl step .init).streams ∧
    (resetRun.foldl step .init).total = 4096 := by
  decide +kernel

end H2
