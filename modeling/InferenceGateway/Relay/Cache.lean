import Mathlib.Algebra.BigOperators.Group.List.Basic
import Mathlib.Algebra.GroupWithZero.Nat

/-!
# The transmit cache of a relayed connection

Bytes that the socket of a leg does not take at once wait in a list of entries.  `Xmit` is that
list with the counters kept beside it; the log of what the socket took and the messages given
to the leg are recorded with it, so that the order of the bytes can be stated.

* `Xmit.add`      a message at the end of the list;
* `Xmit.drain`    the write loop over the list, one answer of the socket for each write;
* `Xmit.direct`   a write that does not go through the list;
* `Xmit.stream`   what the socket took, then what waits.
-/

open List

namespace Relay

/-- a message to relay: at least one byte was read for it -/
structure Msg where
  bytes : List UInt8
  ne : bytes ≠ []

/-- `struct proxy_cache`: of `data`, the `len` bytes from `off` on are still to be written -/
structure Entry where
  data : List UInt8
  (off len : Nat)
  off_add_len : off + len = data.length
  len_pos : 0 < len

/-- what an entry still has to write -/
def Entry.bytes (e : Entry) : List UInt8 := (e.data.drop e.off).take e.len

/-- the share of an entry in `cache_total_size`: what was written of it counts until it is freed -/
def Entry.size (e : Entry) : Nat := e.off + e.len

def Entry.new (m : Msg) : Entry where
  data := m.bytes
  off := 0
  len := m.bytes.length
  off_add_len := Nat.zero_add _
  len_pos := length_pos_of_ne_nil m.ne

/-- the entry after a write that took `n` bytes and not all of them -/
def Entry.advance (e : Entry) (n : Nat) (h : n < e.len) : Entry where
  data := e.data
  off := e.off + n
  len := e.len - n
  off_add_len := by
    have := e.off_add_len
    omega
  len_pos := by omega

/-- what `send` or `SSL_write` does with the bytes it is given -/
inductive Answer
  /-- takes up to `k + 1` of them -/
  | took (k : Nat)
  /-- `EAGAIN`, or `SSL_ERROR_WANT_WRITE` -/
  | wantWrite
  /-- `SSL_ERROR_WANT_READ`; a plain socket has one way to block only and reports `EAGAIN` -/
  | wantRead | failed
  deriving DecidableEq

/-- how the write loop ends -/
inductive Exit
  | drained | wantWrite | wantRead | failed
  deriving DecidableEq

/-- one write the socket took: whether it went past the cache, what waited in the cache when it
was made, and the bytes taken -/
structure Write where
  direct : Bool
  (waiting taken : List UInt8)

structure Xmit where
  cache : List Entry
  (cacheCount cacheTotalSize : Nat)
  log : List Write
  given : List Msg

namespace Xmit

def empty : Xmit := ⟨[], 0, 0, [], []⟩
def waiting (x : Xmit) : List UInt8 := x.cache.flatMap Entry.bytes
def sent (x : Xmit) : List UInt8 := x.log.flatMap Write.taken
def stream (x : Xmit) : List UInt8 := x.sent ++ x.waiting

/-- the list part of `proxy_add_xmitcache` -/
def add (x : Xmit) (m : Msg) : Xmit :=
  { x with
    cache := x.cache ++ [Entry.new m]
    cacheCount := x.cacheCount + 1
    cacheTotalSize := x.cacheTotalSize + m.bytes.length }

/-- a write of the loop that took `n` bytes of the first entry and left some -/
def wrotePart (x : Xmit) (e : Entry) (rest : List Entry) (n : Nat) (h : n < e.len) : Xmit :=
  { x with
    cache := e.advance n h :: rest
    log := x.log ++ [⟨false, x.waiting, e.bytes.take n⟩] }

/-- a write of the loop that took the rest of the first entry, which is freed -/
def wroteAll (x : Xmit) (e : Entry) (rest : List Entry) : Xmit :=
  { x with
    cache := rest
    cacheCount := x.cacheCount - 1
    cacheTotalSize := x.cacheTotalSize - e.size
    log := x.log ++ [⟨false, x.waiting, e.bytes⟩] }

/-- the loop of `proxy_xmit_cache`; a socket that has no further answer blocks -/
def drain : List Answer → Xmit → Xmit × Exit
  | [], x => (x, if x.cache.isEmpty then .drained else .wantWrite)
  | a :: as, x =>
    match x.cache with
    | [] => (x, .drained)
    | e :: rest =>
      match a with
      | .took k => if h : k + 1 < e.len then drain as (x.wrotePart e rest (k + 1) h)
        else drain as (x.wroteAll e rest)
      | .wantWrite => (x, .wantWrite)
      | .wantRead => (x, .wantRead)
      | .failed => (x, .failed)

/-- a direct write that took `n` bytes of the message -/
def direct (x : Xmit) (m : Msg) (n : Nat) : Xmit :=
  { x with log := x.log ++ [⟨true, x.waiting, m.bytes.take n⟩] }

def give (x : Xmit) (m : Msg) : Xmit := { x with given := x.given ++ [m] }

/-- all messages given so far, in call order -/
def asked (x : Xmit) : List UInt8 := x.given.flatMap Msg.bytes

/-- the counters are the cache's, and no direct write was made in front of waiting bytes -/
structure Sound (x : Xmit) : Prop where
  count : x.cacheCount = x.cache.length
  total : x.cacheTotalSize = (x.cache.map Entry.size).sum
  direct : ∀ w ∈ x.log, w.direct = true → w.waiting = []

end Xmit

/-! ## entries -/

theorem Entry.bytes_advance (e : Entry) (n : Nat) (h : n < e.len) :
    e.bytes.take n ++ (e.advance n h).bytes = e.bytes := by
  have hadv : (e.advance n h).bytes = e.bytes.drop n := by
    rw [Entry.bytes, Entry.bytes, drop_take, drop_drop]
    rfl
  rw [hadv, take_append_drop]

theorem Entry.size_advance (e : Entry) (n : Nat) (h : n < e.len) :
    (e.advance n h).size = e.size := by
  show e.off + n + (e.len - n) = e.off + e.len
  omega

theorem Entry.size_pos (e : Entry) : 0 < e.size := Nat.lt_of_lt_of_le e.len_pos (Nat.le_add_left _ _)

/-! ## what each operation does to the stream and the counters -/

namespace Xmit

theorem stream_add (x : Xmit) (m : Msg) : (x.add m).stream = x.stream ++ m.bytes := by
  have hw : (x.add m).waiting = x.waiting ++ m.bytes := by
    simp only [waiting, add, flatMap_append, flatMap_singleton]
    exact congrArg (x.waiting ++ ·) take_length
  rw [stream, hw, ← append_assoc]
  rfl

theorem sent_log (x : Xmit) (w : Write) (c : List Entry) (n t : Nat) (g : List Msg) :
    (Xmit.mk c n t (x.log ++ [w]) g).sent = x.sent ++ w.taken := by
  simp only [sent, flatMap_append, flatMap_singleton]

variable {x : Xmit} {e : Entry} {rest : List Entry}

theorem waiting_cons (h : x.cache = e :: rest) :
    x.waiting = e.bytes ++ rest.flatMap Entry.bytes := by
  rw [waiting, h, flatMap_cons]

theorem stream_wrotePart (hc : x.cache = e :: rest) (n : Nat) (h : n < e.len) :
    (x.wrotePart e rest n h).stream = x.stream := by
  have hs : (x.wrotePart e rest n h).sent = x.sent ++ e.bytes.take n := sent_log x _ _ _ _ _
  have hw : (x.wrotePart e rest n h).waiting
      = (e.advance n h).bytes ++ rest.flatMap Entry.bytes := waiting_cons rfl
  rw [stream, hs, hw, stream, waiting_cons hc, append_assoc, ← append_assoc (e.bytes.take n),
    Entry.bytes_advance]

theorem stream_wroteAll (hc : x.cache = e :: rest) : (x.wroteAll e rest).stream = x.stream := by
  have hs : (x.wroteAll e rest).sent = x.sent ++ e.bytes := sent_log x _ _ _ _ _
  rw [stream, hs, stream, waiting_cons hc, append_assoc]
  rfl

theorem stream_direct (hc : x.cache = []) (m : Msg) (n : Nat) :
    (x.direct m n).stream = x.stream ++ m.bytes.take n := by
  have hw : x.waiting = [] := by rw [waiting, hc, flatMap_nil]
  have hs : (x.direct m n).sent = x.sent ++ m.bytes.take n := sent_log x _ _ _ _ _
  have hd : (x.direct m n).waiting = [] := hw
  rw [stream, hs, hd, stream, hw, append_nil, append_nil]

theorem Sound.add (h : x.Sound) (m : Msg) : (x.add m).Sound where
  count := by
    show x.cacheCount + 1 = (x.cache ++ [Entry.new m]).length
    rw [length_append, h.count, length_singleton]
  total := by
    show x.cacheTotalSize + m.bytes.length = _
    rw [h.total, Xmit.add, map_append, sum_append]
    show _ = _ + (0 + m.bytes.length)
    rw [Nat.zero_add]
  direct := h.direct

theorem Sound.direct_log (h : x.Sound) (b t : List UInt8) :
    ∀ w ∈ x.log ++ [⟨false, b, t⟩], w.direct = true → w.waiting = [] := by
  intro w hw hd
  rcases mem_append.mp hw with hw | hw
  · exact h.direct w hw hd
  · rw [mem_singleton.mp hw] at hd
    cases hd

theorem Sound.wrotePart (hs : x.Sound) (hc : x.cache = e :: rest) (n : Nat) (h : n < e.len) :
    (x.wrotePart e rest n h).Sound where
  count := by
    show x.cacheCount = rest.length + 1
    rw [hs.count, hc, length_cons]
  total := by
    show x.cacheTotalSize = ((e.advance n h :: rest).map Entry.size).sum
    rw [hs.total, hc, map_cons, map_cons, Entry.size_advance]
  direct := hs.direct_log _ _

theorem Sound.wroteAll (hs : x.Sound) (hc : x.cache = e :: rest) : (x.wroteAll e rest).Sound where
  count := by
    show x.cacheCount - 1 = rest.length
    rw [hs.count, hc, length_cons, Nat.add_sub_cancel]
  total := by
    show x.cacheTotalSize - e.size = (rest.map Entry.size).sum
    rw [hs.total, hc, map_cons, sum_cons, Nat.add_sub_cancel_left]
  direct := hs.direct_log _ _

theorem Sound.direct_of_nil (hs : x.Sound) (hc : x.cache = []) (m : Msg) (n : Nat) :
    (x.direct m n).Sound where
  count := hs.count
  total := hs.total
  direct := by
    intro w hw hd
    rcases mem_append.mp hw with hw | hw
    · exact hs.direct w hw hd
    · rw [mem_singleton.mp hw]
      rw [waiting, hc, flatMap_nil]

theorem Sound.total_eq_zero (hs : x.Sound) : x.cacheTotalSize = 0 ↔ x.cache = [] := by
  rw [hs.total]
  cases hc : x.cache with
  | nil => exact ⟨fun _ => rfl, fun _ => rfl⟩
  | cons e rest =>
    rw [map_cons, sum_cons]
    have := e.size_pos
    constructor
    · intro h
      omega
    · intro h
      cases h

/-! ## the write loop -/

theorem drain_inv {P : Xmit → Prop}
    (hpart : ∀ (x : Xmit) (e : Entry) (rest : List Entry) (n : Nat) (h : n < e.len),
      x.cache = e :: rest → P x → P (x.wrotePart e rest n h))
    (hall : ∀ (x : Xmit) (e : Entry) (rest : List Entry),
      x.cache = e :: rest → P x → P (x.wroteAll e rest))
    (as : List Answer) (x : Xmit) (hx : P x) : P (drain as x).1 := by
  induction as generalizing x with
  | nil => exact hx
  | cons a as ih =>
    rw [drain]
    cases hc : x.cache with
    | nil => exact hx
    | cons e rest =>
      cases a with
      | took k =>
        dsimp only
        split
        · exact ih _ (hpart x e rest (k + 1) ‹_› hc hx)
        · exact ih _ (hall x e rest hc hx)
      | wantWrite | wantRead | failed => exact hx

theorem stream_drain (as : List Answer) (x : Xmit) : (drain as x).1.stream = x.stream := by
  apply drain_inv (P := fun y => y.stream = x.stream) _ _ as x rfl
  · intro y e rest n h hc hy
    rw [stream_wrotePart hc, hy]
  · intro y e rest hc hy
    rw [stream_wroteAll hc, hy]

theorem given_drain (as : List Answer) (x : Xmit) : (drain as x).1.given = x.given :=
  drain_inv (P := fun y => y.given = x.given) (fun _ _ _ _ _ _ h => h) (fun _ _ _ _ h => h) as x rfl

theorem Sound.drain (hs : x.Sound) (as : List Answer) : (drain as x).1.Sound :=
  drain_inv (fun _ _ _ n h hc hy => hy.wrotePart hc n h) (fun _ _ _ hc hy => hy.wroteAll hc) as x hs

theorem drain_drained (as : List Answer) (x : Xmit) :
    (drain as x).2 = .drained ↔ (drain as x).1.cache = [] := by
  induction as generalizing x with
  | nil =>
    rw [drain]
    cases x.cache with
    | nil => exact ⟨fun _ => rfl, fun _ => rfl⟩
    | cons e rest => exact iff_of_false nofun (cons_ne_nil e rest)
  | cons a as ih =>
    rw [drain]
    cases hc : x.cache with
    | nil => exact ⟨fun _ => hc, fun _ => rfl⟩
    | cons e rest =>
      have hne : x.cache ≠ [] := by
        rw [hc]
        exact cons_ne_nil e rest
      cases a with
      | took k =>
        dsimp only
        split
        · exact ih _
        · exact ih _
      | wantWrite | wantRead | failed => exact iff_of_false nofun hne

end Xmit

end Relay
