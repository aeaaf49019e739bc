import InferenceGateway.Relay.Cache

/-!
# The legs of a connection and their handlers

A connection is a client leg and any number of backend legs, all handled by one worker.  A leg
reads from its own socket and writes to the legs it names in `rfd_ent`.

* `proxyXmitCache`    the drain of a leg's cache, with what it does to the leg that feeds it;
* `proxyTryEpxmit`    one message relayed to a leg;
* `handleClientData`  the read handler: the backpressure check, then a burst of reads;
* `qosResumeReader`   the refill wake of the shaper.

A state also records the calls that change which events a leg waits for, each with the legs
before and after it.
-/

open Function

namespace Relay

abbrev LegId := Nat

/-- which events of a socket are waited for -/
structure Interest where
  (inp out hup : Bool)
  deriving DecidableEq

namespace Interest

def inHup : Interest := ⟨true, false, true⟩
def inOutHup : Interest := ⟨true, true, true⟩
def hupOnly : Interest := ⟨false, false, true⟩

end Interest

/-- the fields of `proxy_fd_ent` the relay works with -/
structure Leg where
  /-- `ssl` is set and not offloaded to the kernel -/
  secure : Bool
  xmit : Xmit
  (cacheBackpressure readPaused qosParked cacheDraining isChunkedResponse : Bool)
  armed : Interest

namespace Leg

def fresh (secure : Bool) : Leg := ⟨secure, Xmit.empty, false, false, false, false, false, .inHup⟩
def release (l : Leg) : Leg := { l with cacheBackpressure := false, readPaused := false }

/-- reading is turned on again; `sp_notify_arm` replaces the events armed before -/
def resume (l : Leg) : Leg := { l with readPaused := false, armed := .inHup }

/-- reading is turned off: a destination is under backpressure -/
def pause (l : Leg) : Leg := { l with readPaused := true, armed := .hupOnly }

/-- reading is turned off: the bucket of the shaper is empty -/
def park (l : Leg) : Leg := { l with qosParked := true, readPaused := true, armed := .hupOnly }
def unpark (l : Leg) : Leg := { l with qosParked := false, readPaused := false, armed := .inHup }

/-- the cache after the writes of a drain, which is not over -/
def draining (x : Xmit) (l : Leg) : Leg := { l with cacheDraining := true, xmit := x }

/-- the end of a drain that left nothing -/
def drained (l : Leg) : Leg := { l with cacheDraining := false, armed := .inHup }

/-- the end of a drain that left something: the socket takes no more for now, has to read first,
or failed -/
def stopped : Exit → Leg → Leg
  | .wantWrite, l =>
    { l with cacheBackpressure := l.cacheBackpressure || l.secure, armed := .inOutHup }
  | .wantRead, l => { l with armed := if l.secure then .inHup else .inOutHup }
  | .failed, l => { l with cacheDraining := !l.secure }
  | .drained, l => l

end Leg

/-- how the legs are linked: `odir` is set on a backend leg, `rfdEnt` are the legs a leg writes
to, by slot, and `fdlist` is the service's list of legs -/
structure Topo where
  odir : LegId → Bool
  rfdEnt : LegId → List (Option LegId)
  fdlist : List LegId

/-- the calls that arm the sockets: a drain, and the four ways reading is turned off or on -/
inductive Call
  | drain (d : LegId) (as : List Answer)
  | pause (i : LegId)
  | resume (i : LegId)
  | park (i : LegId)
  | wake (i : LegId)

structure Event where
  call : Call
  (before after : LegId → Leg)

structure State where
  leg : LegId → Leg
  events : List Event

def State.upd (s : State) (i : LegId) (f : Leg → Leg) : State :=
  { s with leg := update s.leg i (f (s.leg i)) }

@[simp] theorem State.leg_upd (s : State) (i j : LegId) (f : Leg → Leg) :
    (s.upd i f).leg j = if j = i then f (s.leg i) else s.leg j := update_apply _ _ _ _

/-- the call that led from `s` to `s'` is recorded -/
def State.logged (s : State) (c : Call) (s' : State) : State :=
  { s' with events := s'.events ++ [⟨c, s.leg, s'.leg⟩] }

def maxProxyEp : Nat := 32

variable (T : Topo)

/-! ## the marks -/

/-- the leg in a slot of `rfd_ent` -/
def Topo.slot (i : LegId) (k : Nat) : Option LegId := (T.rfdEnt i)[k]?.join

/-- the legs `i` writes to -/
def Topo.Feeds (i d : LegId) : Prop := some d ∈ T.rfdEnt i

instance (i d : LegId) : Decidable (T.Feeds i d) :=
  inferInstanceAs (Decidable (some d ∈ T.rfdEnt i))

def proxyCacheHighWaterChunked : Nat := 768 * 1024
def proxyCacheLowWaterChunked : Nat := 384 * 1024
def proxyCacheHighWater : Nat := 12 * 1024 * 1024
def proxyCacheLowWater : Nat := 4 * 1024 * 1024

def proxyCacheChunked (s : State) (d : LegId) : Bool :=
  (s.leg d).isChunkedResponse ||
    ((T.rfdEnt d).take maxProxyEp).any fun o => o.any fun j => (s.leg j).isChunkedResponse

def proxyCacheMarks (s : State) (d : LegId) : Nat × Nat :=
  if proxyCacheChunked T s d then (proxyCacheHighWaterChunked, proxyCacheLowWaterChunked)
  else (proxyCacheHighWater, proxyCacheLowWater)

/-! ## the cache of a leg -/

def proxyAddXmitcache (s : State) (d : LegId) (m : Msg) : State :=
  let high := (proxyCacheMarks T s d).1
  s.upd d fun l =>
    { l with
      xmit := l.xmit.add m
      cacheBackpressure := l.cacheBackpressure || decide (high ≤ (l.xmit.add m).cacheTotalSize)
      armed := if l.xmit.cache.isEmpty then .inOutHup else l.armed }

/-- the source search of the drain: the first leg of the other direction that names `d` in one
of its first two slots -/
def sourceOf (d : LegId) : Option LegId :=
  T.fdlist.find? fun j =>
    T.odir j == !T.odir d && (T.slot j 0 == some d || T.slot j 1 == some d)

def resumeSource (s : State) (d : LegId) : State :=
  match sourceOf T d with
  | some j => s.upd j Leg.resume
  | none => s

def proxyCheckReleaseBackpressure (s : State) (d : LegId) : State :=
  if !(s.leg d).cacheBackpressure then s
  else if (proxyCacheMarks T s d).2 < (s.leg d).xmit.cacheTotalSize then s
  else resumeSource T (s.upd d Leg.release) d

/-- the flags are cleared once more when the cache is empty -/
def forceClear (s : State) (d : LegId) : State :=
  let l := s.leg d
  if l.xmit.cacheTotalSize = 0 ∧ l.xmit.cache.isEmpty then
    if l.cacheBackpressure || l.readPaused then resumeSource T (s.upd d Leg.release) d else s
  else s

/-- the body of `proxy_xmit_cache`, and whether it returned 0 -/
def xmitCacheBody (as : List Answer) (s : State) (d : LegId) : State × Bool :=
  if (s.leg d).xmit.cache.isEmpty then (s.upd d fun l => { l with cacheDraining := false }, true)
  else
    let r := Xmit.drain as (s.leg d).xmit
    let s1 := s.upd d (Leg.draining r.1)
    match r.2 with
    | .drained =>
      ((forceClear T (proxyCheckReleaseBackpressure T s1 d) d).upd d Leg.drained, true)
    | e => (s1.upd d (Leg.stopped e), false)

def proxyXmitCache (as : List Answer) (s : State) (d : LegId) : State × Bool :=
  let r := xmitCacheBody T as s d
  (s.logged (.drain d as) r.1, r.2)

/-! ## one message -/

/-- the direct write of `proxy_try_epxmit`: what the socket does not take goes to the cache, on
slot 0 only -/
def directSend (as : List Answer) (s : State) (d : LegId) (sel : Nat) (m : Msg) : State :=
  let blocked (as : List Answer) : State :=
    if sel = 0 then
      let s1 := proxyAddXmitcache T s d m
      -- a TLS leg retries at once through the cache
      if (s.leg d).secure then (proxyXmitCache T as s1 d).1 else s1
    else s
  match as with
  | [] => blocked []
  | .took k :: _ =>
    let s1 := s.upd d fun l => { l with xmit := l.xmit.direct m (k + 1) }
    if h : m.bytes.drop (k + 1) ≠ [] then
      if sel = 0 then proxyAddXmitcache T s1 d ⟨m.bytes.drop (k + 1), h⟩ else s1
    else s1
  | .wantWrite :: as | .wantRead :: as => blocked as
  | .failed :: _ => s

/-- the relay part of `proxy_try_epxmit`, towards the leg `d` -/
def relayTo (as : List Answer) (s : State) (d : LegId) (sel : Nat) (m : Msg) : State :=
  let s0 := s.upd d fun l => { l with xmit := l.xmit.give m }
  if !(s0.leg d).xmit.cache.isEmpty || (s0.leg d).cacheDraining then
    (proxyXmitCache T as (proxyAddXmitcache T s0 d m) d).1
  else
    -- nothing waits: the drain makes no write
    let r := proxyXmitCache T as s0 d
    if r.2 then directSend T as r.1 d sel m else proxyAddXmitcache T r.1 d m

def proxyTryEpxmit (as : List Answer) (s : State) (src : LegId) (sel : Nat) (m : Msg) : State :=
  match T.slot src sel with
  | some d => relayTo T as s d sel m
  | none => s

/-! ## the handlers -/

def unstick (s : State) (d : LegId) : State :=
  let l := s.leg d
  if l.cacheBackpressure && l.xmit.cacheTotalSize == 0 && !l.qosParked then s.upd d Leg.release else s

/-- the check of the legs a leg writes to: whether one of them is under backpressure -/
def scanDests (s : State) : List (Option LegId) → State × Bool
  | [] => (s, false)
  | none :: ds => scanDests s ds
  | some d :: ds =>
    if ((unstick s d).leg d).cacheBackpressure then (unstick s d, true)
    else scanDests (unstick s d) ds

/-- `qos_park_reader`, with room in the park ring -/
def qosParkReader (s : State) (i : LegId) : State := s.logged (.park i) (s.upd i Leg.park)

/-- what one turn of the burst loop does -/
inductive Item
  /-- the bucket is empty and the leg is parked -/
  | park
  /-- bytes were read and are relayed; `chunked`: their head marked the response so, `streamed`:
  they are body bytes of a request relayed on its way, after which the loop skips the backpressure
  check -/
  | relay (sel : Nat) (m : Msg) (chunked streamed : Bool) (as : List Answer)

/-- the burst loop of `handle_client_data` -/
def burst (i : LegId) : List Item → State → State
  | [], s => s
  | .park :: _, s => qosParkReader s i
  | .relay sel m chunked streamed as :: items, s =>
    let s1 := s.upd i fun l => { l with isChunkedResponse := l.isChunkedResponse || chunked }
    let s2 := proxyTryEpxmit T as s1 i sel m
    if !streamed && (T.rfdEnt i).any fun o => o.any fun d => (s2.leg d).cacheBackpressure then s2
    else burst i items s2

def handleClientData (s : State) (i : LegId) (items : List Item) : State :=
  let r := scanDests s (T.rfdEnt i)
  if r.2 then
    if !(r.1.leg i).readPaused then r.1.logged (.pause i) (r.1.upd i Leg.pause) else r.1
  else
    let s1 :=
      if (r.1.leg i).readPaused && !(r.1.leg i).qosParked then
        r.1.logged (.resume i) (r.1.upd i Leg.resume)
      else r.1
    burst T i items s1

def qosResumeReader (s : State) (i : LegId) : State :=
  if (s.leg i).qosParked then s.logged (.wake i) (s.upd i Leg.unpark) else s

inductive Act
  | read (i : LegId) (items : List Item)
  /-- a message relayed outside a read burst: the request of a client whose dispatch had to wait -/
  | relay (i : LegId) (sel : Nat) (m : Msg) (as : List Answer)
  | out (d : LegId) (as : List Answer)
  | wake (i : LegId)

def apply (s : State) : Act → State
  | .read i items => handleClientData T s i items
  | .relay i sel m as => proxyTryEpxmit T as s i sel m
  | .out d as => (proxyXmitCache T as s d).1
  | .wake i => qosResumeReader s i

/-- a connection as it starts: `secure` says which legs speak TLS in the process -/
def init (secure : LegId → Bool) : State := ⟨fun i => Leg.fresh (secure i), []⟩
def run (s : State) (acts : List Act) : State := acts.foldl (apply T) s

end Relay
