import Mathlib.Data.List.Forall2
import InferenceGateway.Lib.Json

/-!
# What a request is routed by

`llhttp` hands the request line and the header block of a client connection over in pieces, a new
one at least wherever a read ends, and the callbacks keep what routing and admission need: the path,
`Host`, `X-Model`, `X-Api-Key` and `Authorization`.  A request is dispatched at the end of the read
in which it completes, or as soon as its headers suffice when its body is streamed.

* `handleClientData_eq`   where the reads fall between pieces does not matter, as long as no read
                          goes on past the end of a request;
* `Field.owned`           one header leaves the captures whole values of the request's headers;
* `captures_own`          for which requests and divisions every dispatch is by the request's own
                          target and headers;
* `captures_foreign`      pieces, longer names and earlier requests that are routed by.
-/

open List Option

namespace Http

open Json (Bytes ascii)

/-! ## names -/

def lower (b : UInt8) : UInt8 := if 0x41 ≤ b ∧ b ≤ 0x5A then b + 0x20 else b

/-- `strncasecmp(a, b, n) == 0`, of C strings -/
def strncasecmp (a b : Bytes) (n : Nat) : Bool := (a.take n).map lower == (b.take n).map lower
def SameName (a b : Bytes) : Prop := a.map lower = b.map lower

instance (a b : Bytes) : Decidable (SameName a b) := inferInstanceAs (Decidable (_ = _))

abbrev hostName : Bytes := ascii "Host"
abbrev modelName : Bytes := ascii "X-Model"
abbrev keyName : Bytes := ascii "X-Api-Key"
abbrev authName : Bytes := ascii "Authorization"
def root : Bytes := [0x2F]

/-! ## the captures of a connection -/

/-- `bearer_raw` with its flags; `bearer_len` is the length of the text -/
structure Bearer where
  raw : Bytes
  (capturing oversize : Bool)
  deriving DecidableEq

def Bearer.empty : Bearer := ⟨[], false, false⟩

/-- the captures of `proxy_fd_ent_t`, each the C string its buffer holds -/
structure Capture where
  requestPath : Bytes
  httpPathOk : Bool
  (hostUrl lastHeaderName xModelHeader xApiKeyRaw : Bytes)
  bearer : Bearer
  httpHdrsDone : Bool
  deriving DecidableEq

/-- the path `setup_proxy_path` and the admission gate route by -/
def Capture.routedPath (c : Capture) : Bytes := if c.httpPathOk then c.requestPath else root

def handleUrl (c : Capture) (piece : Bytes) : Capture :=
  if piece.length < 256 then { c with requestPath := piece, httpPathOk := true } else c

/-- `handle_header_name` on the client's leg -/
def handleHeaderName (c : Capture) (trailing : Bool) (piece : Bytes) : Capture :=
  if trailing then c
  else if 255 ≤ piece.length then c
  else { c with
    lastHeaderName := if piece.length < 128 then piece else c.lastHeaderName
    bearer := { c.bearer with capturing := false } }

/-- a capture of at most `size - 1` bytes, overwritten by each piece -/
def keep (size : Nat) (old piece : Bytes) : Bytes := if piece.length < size then piece else old

/-- the same, where an empty piece leaves the capture alone -/
def keepSome (size : Nat) (old piece : Bytes) : Bytes :=
  if 0 < piece.length ∧ piece.length < size then piece else old

/-- the `Authorization` value, appended piece by piece; a value over the cap is not kept -/
def Bearer.append (b : Bearer) (piece : Bytes) : Bearer :=
  let b := if b.capturing then b else ⟨[], true, false⟩
  if b.oversize = false ∧ 0 < piece.length then
    if 4096 ≤ b.raw.length + piece.length then { b with raw := [], oversize := true }
    else { b with raw := b.raw ++ piece }
  else b

/-- the name last kept starts with the given one -/
def Capture.named (c : Capture) (name : Bytes) : Bool :=
  strncasecmp name c.lastHeaderName name.length

/-- `handle_header_val` on the client's leg -/
def handleHeaderVal (c : Capture) (trailing : Bool) (piece : Bytes) : Capture :=
  if trailing then c
  else { c with
    xModelHeader := if c.named modelName then keepSome 128 c.xModelHeader piece else c.xModelHeader
    xApiKeyRaw := if c.named keyName then keepSome 256 c.xApiKeyRaw piece else c.xApiKeyRaw
    bearer := if c.named authName then c.bearer.append piece else c.bearer
    hostUrl := if c.named hostName then keep 256 c.hostUrl piece else c.hostUrl }

def handleOnMessageBegin (c : Capture) : Capture :=
  { c with xApiKeyRaw := [], bearer := Bearer.empty, xModelHeader := [], httpHdrsDone := false }

/-- what the request boundary clears, after the request was forwarded or refused with the
connection kept -/
def Capture.boundary (c : Capture) : Capture :=
  { c with hostUrl := [], xModelHeader := [], httpHdrsDone := false }

/-! ## reads -/

/-- what the parser reports, and the read loop's decision to stream a body -/
inductive Event where
  | messageBegin
  | url (piece : Bytes)
  | name (trailing : Bool) (piece : Bytes)
  | value (trailing : Bool) (piece : Bytes)
  | headersComplete
  /-- enough of a large body is there to route by: `is_streamable` and `http_body_complete` -/
  | streamed | messageComplete
  deriving DecidableEq

def Capture.step (c : Capture) : Event → Capture
  | .messageBegin => handleOnMessageBegin c
  | .url p => handleUrl c p
  | .name t p => handleHeaderName c t p
  | .value t p => handleHeaderVal c t p
  | .headersComplete => { c with httpHdrsDone := true }
  | .streamed => c
  | .messageComplete => c

/-- the parse flags of one read, all clear when it starts -/
structure Flags where
  (httpPok httpHok httpHvok httpBodyComplete isStreamable : Bool)

def Flags.clear : Flags := ⟨false, false, false, false, false⟩

def Flags.step (f : Flags) (c : Capture) : Event → Flags
  | .name t p =>
    if t = false ∧ p.length < 255 ∧ strncasecmp hostName p p.length then { f with httpHok := true } else f
  | .value t p =>
    if t = false ∧ c.named hostName ∧ p.length < 256 then { f with httpHvok := true } else f
  | .streamed => if c.httpHdrsDone then { f with httpBodyComplete := true, isStreamable := true } else f
  | .messageComplete => { f with httpPok := true, httpBodyComplete := true }
  | _ => f

/-- the header flags once the header block is complete, also when that was in an earlier read -/
def Flags.restore (f : Flags) (c : Capture) : Flags :=
  if c.httpHdrsDone then { f with httpHok := true, httpHvok := !c.hostUrl.isEmpty } else f

/-- the backend setup conditions, streaming and buffering mode -/
def Flags.forwards (f : Flags) : Bool :=
  f.httpHok && f.httpBodyComplete && f.isStreamable ||
    f.httpPok && f.httpBodyComplete && !f.isStreamable

/-- a client connection: the captures, how many requests have begun, ended and been dispatched, and
for each dispatched request the captures it was routed by -/
structure Conn where
  cap : Capture
  (begun ended sent : Nat)
  /-- the parser stands where the client's next bytes continue -/
  inSync : Bool
  log : List (Nat × Capture)

def Capture.empty : Capture := ⟨[], false, [], [], [], [], Bearer.empty, false⟩
def Conn.init : Conn := ⟨Capture.empty, 0, 0, 0, true, []⟩

def Conn.callback (s : Conn) (e : Event) : Conn :=
  { s with
    cap := s.cap.step e
    begun := if e = .messageBegin then s.begun + 1 else s.begun
    ended := if e = .streamed ∨ e = .messageComplete then s.ended + 1 else s.ended }

/-- `llhttp_execute` over the bytes of one read -/
def execute : Conn × Flags → List Event → Conn × Flags
  | sf, [] => sf
  | (s, f), e :: es => execute (s.callback e, f.step s.cap e) es

/-- `pd_setup_and_forward`: the buffer goes out with every request that ended in it, the captures
are reset and the parser starts anew, wherever it stood -/
def Conn.forward (s : Conn) : Conn :=
  { s with
    cap := s.cap.boundary
    sent := s.ended
    inSync := s.begun == s.ended
    log := s.log ++ (range' s.sent (s.ended - s.sent)).map fun k => (k, s.cap) }

/-- the parse phase of `handle_client_data` on one read -/
def handleClientData (s : Conn) (read : List Event) : Conn :=
  if s.inSync then
    let (s', f) := execute (s, Flags.clear) read
    if (f.restore s'.cap).forwards then s'.forward else s'
  else s

def run (s : Conn) (reads : List (List Event)) : Conn := reads.foldl handleClientData s

/-! ## requests -/

/-- a header in the pieces it is reported in -/
structure Field where
  (name value : List Bytes)

/-- a request in the pieces it is reported in -/
structure Request where
  target : List Bytes
  (fields trailers : List Field)
  streamed : Bool

def Field.events (trailing : Bool) (f : Field) : List Event :=
  f.name.map (.name trailing) ++ f.value.map (.value trailing)

def Request.rest (r : Request) : List Event :=
  if r.streamed then [.streamed] else r.trailers.flatMap (Field.events true) ++ [.messageComplete]

def Request.events (r : Request) : List Event :=
  .messageBegin :: (r.target.map .url ++
    (r.fields.flatMap (Field.events false) ++ .headersComplete :: r.rest))

/-- a capture is empty or the whole value of the header with exactly this name -/
def Whole (r : Request) (name capture : Bytes) : Prop :=
  capture = [] ∨ ∃ f ∈ r.fields, SameName f.name.flatten name ∧ f.value.flatten = capture

instance (r : Request) (name capture : Bytes) : Decidable (Whole r name capture) :=
  inferInstanceAs (Decidable (_ ∨ _))

/-- the path is the target of the request, or the root when it does not fit -/
def OwnPath (r : Request) (c : Capture) : Prop :=
  if r.target.flatten.length < 256 then c.requestPath = r.target.flatten else c.routedPath = root

instance (r : Request) (c : Capture) : Decidable (OwnPath r c) := by
  unfold OwnPath
  infer_instance

def OwnHeaders (r : Request) (c : Capture) : Prop :=
  Whole r hostName c.hostUrl ∧ Whole r modelName c.xModelHeader ∧ Whole r keyName c.xApiKeyRaw ∧
    Whole r authName c.bearer.raw

instance (r : Request) (c : Capture) : Decidable (OwnHeaders r c) :=
  inferInstanceAs (Decidable (_ ∧ _))

def Own (r : Request) (c : Capture) : Prop := OwnPath r c ∧ OwnHeaders r c

instance (r : Request) (c : Capture) : Decidable (Own r c) := inferInstanceAs (Decidable (_ ∧ _))

/-! ## where the reads fall -/

def Event.ends : Event → Bool
  | .streamed | .messageComplete => true
  | _ => false

/-- no read goes on past the end of a request -/
def oneRequest (read : List Event) : Bool := read.dropLast.all fun e => !e.ends

/-- the event makes the read loop dispatch -/
def Event.dispatches (e : Event) (c : Capture) : Bool :=
  match e with
  | .streamed => c.httpHdrsDone
  | .messageComplete => true
  | _ => false

def Conn.deliver (s : Conn) (e : Event) : Conn :=
  if s.inSync then if e.dispatches s.cap then (s.callback e).forward else s.callback e else s

theorem execute_append (sf : Conn × Flags) (a b : List Event) :
    execute sf (a ++ b) = execute (execute sf a) b := by
  induction a generalizing sf with
  | nil => rfl
  | cons e a ih => exact ih _

theorem execute_fst (s : Conn) (f : Flags) (read : List Event) :
    (execute (s, f) read).1 = read.foldl Conn.callback s := by
  induction read generalizing s f with
  | nil => rfl
  | cons e read ih => exact ih _ _

variable {e : Event} {read : List Event} {s : Conn} {n : Bytes} {f : Field} {r : Request}
  {c c' : Capture} {before : List Request}

theorem Flags.step_quiet (f : Flags) (c : Capture) (he : e.ends = false) :
    (f.step c e).httpBodyComplete = f.httpBodyComplete ∧
      (f.step c e).isStreamable = f.isStreamable := by
  cases e with
  | streamed | messageComplete => exact Bool.noConfusion he
  | name | value =>
    unfold Flags.step
    dsimp only
    split <;> exact ⟨rfl, rfl⟩
  | messageBegin | url | headersComplete => exact ⟨rfl, rfl⟩

theorem execute_quiet (s : Conn) (f : Flags) (hq : ∀ e ∈ read, e.ends = false) :
    (execute (s, f) read).2.httpBodyComplete = f.httpBodyComplete ∧
      (execute (s, f) read).2.isStreamable = f.isStreamable := by
  induction read generalizing s f with
  | nil => exact ⟨rfl, rfl⟩
  | cons e read ih =>
    obtain ⟨h1, h2⟩ := ih (s.callback e) (f.step s.cap e) fun e' h => hq e' (mem_cons_of_mem e h)
    obtain ⟨g1, g2⟩ := f.step_quiet s.cap (hq e mem_cons_self)
    exact ⟨h1.trans g1, h2.trans g2⟩

theorem Flags.forwards_of_incomplete {f : Flags} (h : f.httpBodyComplete = false) (c : Capture) :
    (f.restore c).forwards = false := by
  unfold Flags.restore
  split <;> simp [Flags.forwards, h]

theorem dispatches_of_quiet (he : e.ends = false) (c : Capture) : e.dispatches c = false := by
  cases e <;> first | rfl | exact Bool.noConfusion he

theorem forwards_iff (s : Conn) {f : Flags} (hb : f.httpBodyComplete = false)
    (hs : f.isStreamable = false) (e : Event) :
    ((f.step s.cap e).restore (s.callback e).cap).forwards = e.dispatches s.cap := by
  by_cases he : e.ends = false
  · rw [dispatches_of_quiet he]
    apply Flags.forwards_of_incomplete
    rw [(f.step_quiet s.cap he).1, hb]
  · cases e with
    | streamed =>
      show ((if s.cap.httpHdrsDone then _ else f).restore s.cap).forwards = s.cap.httpHdrsDone
      cases hh : s.cap.httpHdrsDone with
      | true => simp [Flags.restore, Flags.forwards, hh]
      | false => simp [Flags.restore, Flags.forwards, hh, hb]
    | messageComplete =>
      show (({ f with httpPok := true, httpBodyComplete := true } : Flags).restore s.cap).forwards = true
      cases hh : s.cap.httpHdrsDone <;> simp [Flags.restore, Flags.forwards, hh, hs]
    | messageBegin | url | name | value | headersComplete => exact absurd rfl he

theorem deliver_quiet (hs : s.inSync = true) (he : e.ends = false) :
    s.deliver e = s.callback e := by
  rw [Conn.deliver, if_pos hs, dispatches_of_quiet he, if_neg Bool.false_ne_true]

theorem foldl_callback_inSync (s : Conn) (read : List Event) :
    (read.foldl Conn.callback s).inSync = s.inSync := by
  induction read generalizing s with
  | nil => rfl
  | cons e read ih => exact ih _

theorem foldl_deliver_quiet (hs : s.inSync = true) (hq : ∀ e ∈ read, e.ends = false) :
    read.foldl Conn.deliver s = read.foldl Conn.callback s := by
  induction read generalizing s with
  | nil => rfl
  | cons e read ih =>
    rw [foldl_cons, deliver_quiet hs (hq e mem_cons_self)]
    exact ih hs fun e' h => hq e' (mem_cons_of_mem e h)

theorem foldl_deliver_lost (hs : s.inSync = false) (read : List Event) :
    read.foldl Conn.deliver s = s := by
  induction read with
  | nil => rfl
  | cons e read ih => rw [foldl_cons, Conn.deliver, hs, if_neg Bool.false_ne_true, ih]

/-- **The read boundaries inside a request do not matter**: a read that ends no later than its
request has the effect of its events one by one. -/
theorem handleClientData_eq (s : Conn) (h1 : oneRequest read = true) :
    handleClientData s read = read.foldl Conn.deliver s := by
  unfold handleClientData
  cases hs : s.inSync with
  | false => rw [foldl_deliver_lost hs, if_neg Bool.false_ne_true]
  | true =>
    rw [if_pos rfl]
    rcases eq_nil_or_concat read with rfl | ⟨pre, e, rfl⟩
    · show (if (Flags.clear.restore s.cap).forwards then s.forward else s) = s
      rw [Flags.forwards_of_incomplete rfl, if_neg Bool.false_ne_true]
    · rw [oneRequest, concat_eq_append, dropLast_concat, List.all_eq_true] at h1
      have hq : ∀ e ∈ pre, e.ends = false := fun e he => by simpa using h1 e he
      obtain ⟨hb, hst⟩ := execute_quiet s Flags.clear hq
      have hpre := execute_fst s Flags.clear pre
      have hsync : (pre.foldl Conn.callback s).inSync = true := by rw [foldl_callback_inSync, hs]
      rw [concat_eq_append, foldl_append, foldl_deliver_quiet hs hq, execute_append]
      generalize execute (s, Flags.clear) pre = m at hb hst hpre ⊢
      obtain ⟨m, f⟩ := m
      subst hpre
      show (if _ then _ else _) = Conn.deliver _ e
      rw [Conn.deliver, if_pos hsync, ← forwards_iff _ hb hst e]

theorem run_eq (s : Conn) {reads : List (List Event)} (h1 : ∀ read ∈ reads, oneRequest read = true) :
    run s reads = reads.flatten.foldl Conn.deliver s := by
  induction reads generalizing s with
  | nil => rfl
  | cons read reads ih =>
    rw [flatten_cons, foldl_append, ← handleClientData_eq s (h1 read mem_cons_self)]
    exact ih _ fun r h => h1 r (mem_cons_of_mem read h)

/-! ## the pieces of a token -/

def lastFitting (size : Nat) (pieces : List Bytes) : Option Bytes :=
  (pieces.filter fun p => decide (p.length < size)).getLast?

theorem lastFitting_cons (size : Nat) (p : Bytes) (ps : List Bytes) (old : Bytes) :
    (lastFitting size (p :: ps)).getD old = (lastFitting size ps).getD (keep size old p) := by
  unfold lastFitting keep
  by_cases h : p.length < size
  · rw [filter_cons_of_pos (by simpa using h), getLast?_cons, if_pos h, getD_some]
  · rw [filter_cons_of_neg (by simpa using h), if_neg h]

section
variable (c : Capture) (pieces : List Bytes)

theorem foldl_handleUrl : pieces.foldl handleUrl c = { c with
      requestPath := (lastFitting 256 pieces).getD c.requestPath
      httpPathOk := c.httpPathOk || pieces.any fun p => decide (p.length < 256) } := by
  induction pieces generalizing c with
  | nil => simp [lastFitting]
  | cons p ps ih =>
    rw [foldl_cons, ih]
    unfold handleUrl
    split <;> simp [lastFitting_cons, keep, *]

theorem foldl_handleHeaderName : pieces.foldl (fun c p => handleHeaderName c false p) c = { c with
      lastHeaderName := (lastFitting 128 pieces).getD c.lastHeaderName
      bearer := { c.bearer with
        capturing := c.bearer.capturing && pieces.all fun p => decide (255 ≤ p.length) } } := by
  induction pieces generalizing c with
  | nil => simp [lastFitting]
  | cons p ps ih =>
    rw [foldl_cons, ih, lastFitting_cons]
    unfold handleHeaderName
    by_cases h : 255 ≤ p.length
    · have h128 : ¬ p.length < 128 := by omega
      simp [h, keep, h128]
    · simp [h, keep]

theorem foldl_behind (b : Bool) {α : Type} (f : α → Bytes → α) (x : α) (p : Bytes)
    (ps : List Bytes) :
    (if b then ps.foldl f (if b then f x p else x) else if b then f x p else x) =
      if b then (p :: ps).foldl f x else x := by
  cases b <;> rfl

theorem foldl_handleHeaderVal : pieces.foldl (fun c p => handleHeaderVal c false p) c = { c with
      xModelHeader := if c.named modelName then pieces.foldl (keepSome 128) c.xModelHeader
        else c.xModelHeader
      xApiKeyRaw := if c.named keyName then pieces.foldl (keepSome 256) c.xApiKeyRaw
        else c.xApiKeyRaw
      bearer := if c.named authName then pieces.foldl Bearer.append c.bearer else c.bearer
      hostUrl := if c.named hostName then pieces.foldl (keep 256) c.hostUrl else c.hostUrl } := by
  induction pieces generalizing c with
  | nil => simp
  | cons p ps ih =>
    rw [foldl_cons, ih, ← foldl_behind (c.named modelName), ← foldl_behind (c.named keyName),
      ← foldl_behind (c.named authName), ← foldl_behind (c.named hostName)]
    rfl

theorem foldl_overwrite {f : Bytes → Bytes → Bytes} (hf : ∀ x p, f x p = x ∨ f x p = p) (x : Bytes) :
    pieces.foldl f x = x ∨ pieces.foldl f x ∈ pieces := by
  induction pieces generalizing x with
  | nil => exact .inl rfl
  | cons p ps ih =>
    rw [foldl_cons]
    rcases ih (f x p) with h | h
    · rw [h]
      rcases hf x p with g | g
      · exact .inl g
      · rw [g]
        exact .inr mem_cons_self
    · exact .inr (mem_cons_of_mem p h)

theorem keep_or (size : Nat) (x p : Bytes) : keep size x p = x ∨ keep size x p = p :=
  (ite_eq_or_eq _ p x).symm

theorem keepSome_or (size : Nat) (x p : Bytes) : keepSome size x p = x ∨ keepSome size x p = p :=
  (ite_eq_or_eq _ p x).symm

theorem foldl_append_oversize : (pieces.foldl Bearer.append ⟨[], true, true⟩).raw = [] := by
  induction pieces with
  | nil => rfl
  | cons p ps ih => exact ih

theorem foldl_append (x : Bytes) : (pieces.foldl Bearer.append ⟨x, true, false⟩).raw = [] ∨
      (pieces.foldl Bearer.append ⟨x, true, false⟩).raw = x ++ pieces.flatten := by
  induction pieces generalizing x with
  | nil => exact .inr (append_nil x).symm
  | cons p ps ih =>
    rw [foldl_cons, flatten_cons, ← append_assoc]
    by_cases hp : 0 < p.length
    · by_cases hl : 4096 ≤ x.length + p.length
      · have h : Bearer.append ⟨x, true, false⟩ p = ⟨[], true, true⟩ := by simp [Bearer.append, hp, hl]
        rw [h]
        exact .inl (foldl_append_oversize ps)
      · have h : Bearer.append ⟨x, true, false⟩ p = ⟨x ++ p, true, false⟩ := by
          simp [Bearer.append, hp, hl]
        rw [h]
        exact ih (x ++ p)
    · have h : p = [] := length_eq_zero_iff.mp (by omega)
      subst h
      rw [append_nil]
      exact ih x

theorem foldl_append_fresh {b : Bearer} (hb : b.capturing = false) :
    (pieces.foldl Bearer.append b).raw = b.raw ∨ (pieces.foldl Bearer.append b).raw = [] ∨
      (pieces.foldl Bearer.append b).raw = pieces.flatten := by
  cases pieces with
  | nil => exact .inl rfl
  | cons p ps =>
    have h : b.append p = Bearer.append ⟨[], true, false⟩ p := by simp [Bearer.append, hb]
    rw [foldl_cons, h]
    exact .inr (foldl_append (p :: ps) [])

end

/-! ## one header -/

/-- the name that is kept for a header is short enough to be kept, and if it starts with one of the
captured names it is exactly that one, whole, with a value that no read boundary cuts (but for
`Authorization`) -/
def Field.Plain (f : Field) : Prop :=
  ∃ n ∈ lastFitting 128 f.name,
    ∀ w ∈ [hostName, modelName, keyName, authName], strncasecmp w n w.length = true →
      n = f.name.flatten ∧ SameName n w ∧
        (w = authName ∨ ∀ p ∈ f.value, p = [] ∨ p = f.value.flatten)

instance (f : Field) : Decidable f.Plain := by
  unfold Field.Plain
  infer_instance

theorem lastFitting_some {size : Nat} {pieces : List Bytes} (h : lastFitting size pieces = some n) :
    n ∈ pieces ∧ n.length < size := by
  have := mem_filter.mp (mem_of_getLast? h)
  exact ⟨this.1, of_decide_eq_true this.2⟩

theorem foldl_name (h : lastFitting 128 f.name = some n) (c : Capture) :
    f.name.foldl (fun c p => handleHeaderName c false p) c =
      { c with lastHeaderName := n, bearer := { c.bearer with capturing := false } } := by
  obtain ⟨hm, hl⟩ := lastFitting_some h
  have hall : (f.name.all fun p => decide (255 ≤ p.length)) = false := by
    apply all_eq_false.mpr
    exact ⟨n, hm, by simp; omega⟩
  rw [foldl_handleHeaderName, h, hall, Bool.and_false, getD_some]

theorem Field.foldl_events (hn : lastFitting 128 f.name = some n) (c : Capture) :
    (f.events false).foldl Capture.step c = f.value.foldl (fun c p => handleHeaderVal c false p)
        { c with lastHeaderName := n, bearer := { c.bearer with capturing := false } } := by
  rw [Field.events, List.foldl_append, foldl_map, foldl_map, ← foldl_name hn]
  rfl

theorem Whole.overwrite (hf : f ∈ r.fields) {name : Bytes} (hn : SameName f.name.flatten name)
    (hv : ∀ p ∈ f.value, p = [] ∨ p = f.value.flatten) {g : Bytes → Bytes → Bytes}
    (hg : ∀ x p, g x p = x ∨ g x p = p) {x : Bytes} (hx : Whole r name x) :
    Whole r name (f.value.foldl g x) := by
  rcases foldl_overwrite f.value hg x with h | h
  · rwa [h]
  · rcases hv _ h with h | h
    · exact .inl h
    · exact .inr ⟨f, hf, hn, h.symm⟩

/-- **One header keeps the captures whole.** -/
theorem Field.owned (hf : f ∈ r.fields) (hp : f.Plain) (h : OwnHeaders r c) :
    OwnHeaders r ((f.events false).foldl Capture.step c) := by
  obtain ⟨n, hn, hw⟩ := hp
  obtain ⟨hhost, hmodel, hkey, hauth⟩ := h
  rw [Field.foldl_events hn, foldl_handleHeaderVal]
  -- what the value does to a capture whose name is not the bearer's
  have side : ∀ w ∈ [hostName, modelName, keyName, authName], w ≠ authName →
      ∀ {g : Bytes → Bytes → Bytes}, (∀ x p, g x p = x ∨ g x p = p) → ∀ {x : Bytes}, Whole r w x →
        Whole r w (if strncasecmp w n w.length = true then f.value.foldl g x else x) := by
    intro w hm hne g hg x hx
    split
    case isTrue hc =>
      obtain ⟨hwhole, hsame, hval⟩ := hw w hm hc
      exact hx.overwrite hf (hwhole ▸ hsame) (hval.resolve_left hne) hg
    case isFalse => exact hx
  refine ⟨side hostName (by simp) (by decide) (keep_or 256) hhost,
    side modelName (by simp) (by decide) (keepSome_or 128) hmodel,
    side keyName (by simp) (by decide) (keepSome_or 256) hkey, ?_⟩
  show Whole r authName (if strncasecmp authName n authName.length = true then
    f.value.foldl Bearer.append { c.bearer with capturing := false }
    else { c.bearer with capturing := false }).raw
  split
  case isTrue hc =>
    obtain ⟨hwhole, hsame, -⟩ := hw authName (by simp) hc
    rcases foldl_append_fresh f.value (b := { c.bearer with capturing := false }) rfl with h | h | h
    · rwa [h]
    · exact .inl h
    · exact .inr ⟨f, hf, hwhole ▸ hsame, h.symm⟩
  case isFalse => exact hauth

theorem Field.path (hn : lastFitting 128 f.name = some n) (c : Capture) :
    ((f.events false).foldl Capture.step c).requestPath = c.requestPath ∧
      ((f.events false).foldl Capture.step c).httpPathOk = c.httpPathOk := by
  rw [Field.foldl_events hn, foldl_handleHeaderVal]
  exact ⟨rfl, rfl⟩

/-! ## one request -/

/-- a target that fits ends with a piece that is all of it; of one that does not, no piece fits, and
no piece of an earlier target fitted -/
def Request.PlainTarget (r : Request) (before : List Request) : Prop :=
  if r.target.flatten.length < 256 then r.target.getLast? = some r.target.flatten
  else ∀ q ∈ r :: before, ∀ p ∈ q.target, 256 ≤ p.length

def Request.Plain (r : Request) (before : List Request) : Prop :=
  r.PlainTarget before ∧ ∀ f ∈ r.fields, f.Plain

instance (r : Request) (before : List Request) : Decidable (r.Plain before) := by
  unfold Request.Plain Request.PlainTarget
  infer_instance

/-- a path was kept only if a piece of some earlier target fitted -/
def PathFrom (before : List Request) (c : Capture) : Prop :=
  c.httpPathOk = true → ∃ q ∈ before, ∃ p ∈ q.target, p.length < 256

theorem PathFrom.target (h : PathFrom before c) (r : Request) :
    PathFrom (before ++ [r]) (r.target.foldl handleUrl c) := by
  intro hok
  rw [foldl_handleUrl] at hok
  rcases (Bool.or_eq_true _ _).mp hok with hok | hok
  · obtain ⟨q, hq, hp⟩ := h hok
    exact ⟨q, mem_append_left _ hq, hp⟩
  · obtain ⟨p, hp, hl⟩ := any_eq_true.mp hok
    exact ⟨r, mem_append_right _ mem_cons_self, p, hp, of_decide_eq_true hl⟩

theorem ownPath_target (hp : r.PlainTarget before) (hc : PathFrom before c) :
    OwnPath r (r.target.foldl handleUrl c) := by
  unfold Request.PlainTarget at hp
  unfold OwnPath
  split at hp
  case isTrue hl =>
    obtain ⟨init, hi⟩ := getLast?_eq_some_iff.mp hp
    rw [if_pos hl, foldl_handleUrl]
    have h : lastFitting 256 r.target = some r.target.flatten := by
      unfold lastFitting
      nth_rw 1 [hi]
      have hlast : [r.target.flatten].filter (fun p => decide (p.length < 256)) = [r.target.flatten] :=
        filter_cons_of_pos (decide_eq_true hl)
      rw [filter_append, hlast]
      exact getLast?_concat
    rw [h, getD_some]
  case isFalse hl =>
    have hno : (r.target.foldl handleUrl c).httpPathOk ≠ true := by
      intro hok
      obtain ⟨q, hq, p, hqp, hlt⟩ := hc.target r hok
      have := hp q (by simpa [or_comm] using hq) p hqp
      omega
    rw [if_neg hl, Capture.routedPath, if_neg hno]

theorem OwnPath.congr (hp : c'.requestPath = c.requestPath) (hk : c'.httpPathOk = c.httpPathOk)
    (h : OwnPath r c) : OwnPath r c' := by
  unfold OwnPath Capture.routedPath at *
  rwa [hp, hk]

theorem PathFrom.congr (hk : c'.httpPathOk = c.httpPathOk) (h : PathFrom before c) :
    PathFrom before c' :=
  fun hok => h (hk ▸ hok)

theorem own_fields {fields : List Field} (hf : ∀ f ∈ fields, f ∈ r.fields ∧ f.Plain)
    (h : OwnHeaders r c) :
    OwnHeaders r ((fields.flatMap (Field.events false)).foldl Capture.step c) ∧
      ((fields.flatMap (Field.events false)).foldl Capture.step c).requestPath = c.requestPath ∧
      ((fields.flatMap (Field.events false)).foldl Capture.step c).httpPathOk = c.httpPathOk := by
  induction fields generalizing c with
  | nil => exact ⟨h, rfl, rfl⟩
  | cons f fields ih =>
    obtain ⟨hm, hp⟩ := hf f mem_cons_self
    obtain ⟨n, hn, -⟩ := id hp
    rw [flatMap_cons, List.foldl_append]
    obtain ⟨h1, h2, h3⟩ := ih (fun g hg => hf g (mem_cons_of_mem f hg)) (f.owned hm hp h)
    obtain ⟨g2, g3⟩ := f.path hn c
    exact ⟨h1, h2.trans g2, h3.trans g3⟩

/-- the captures when the header block is complete -/
def Request.captured (r : Request) (c : Capture) : Capture :=
  (r.target.map Event.url ++ (r.fields.flatMap (Field.events false) ++ [Event.headersComplete])).foldl
    Capture.step (handleOnMessageBegin c)

theorem Request.own_captured (hp : r.Plain before) (hpath : PathFrom before c)
    (hhost : c.hostUrl = []) :
    Own r (r.captured c) ∧ PathFrom (before ++ [r]) (r.captured c) ∧
      (r.captured c).httpHdrsDone = true := by
  -- the request line: the path is the target's, the header captures are empty
  have hline : (r.target.map Event.url).foldl Capture.step (handleOnMessageBegin c) =
      r.target.foldl handleUrl (handleOnMessageBegin c) := by
    rw [foldl_map]
    rfl
  have hempty : OwnHeaders r (r.target.foldl handleUrl (handleOnMessageBegin c)) := by
    rw [foldl_handleUrl]
    exact ⟨.inl hhost, .inl rfl, .inl rfl, .inl rfl⟩
  have hbegin : PathFrom before (handleOnMessageBegin c) := hpath.congr rfl
  obtain ⟨h1, h2, h3⟩ := own_fields (fun f hf => ⟨hf, hp.2 f hf⟩) hempty
  unfold Request.captured
  rw [List.foldl_append, List.foldl_append, hline]
  exact ⟨⟨(ownPath_target hp.1 hbegin).congr h2 h3, h1⟩, (hbegin.target r).congr h3, rfl⟩

/-! ## whole connections -/

/-- between two requests: all that came were dispatched -/
structure Ready (s : Conn) (before : List Request) : Prop where
  inSync : s.inSync = true
  begun : s.begun = before.length
  ended : s.ended = before.length
  sent : s.sent = before.length
  host : s.cap.hostUrl = []
  path : PathFrom before s.cap

def Event.inside : Event → Bool
  | .messageBegin | .streamed | .messageComplete => false
  | _ => true

theorem foldl_inside (hs : s.inSync = true) {es : List Event} (h : ∀ e ∈ es, e.inside = true) :
    es.foldl Conn.deliver s = { s with cap := es.foldl Capture.step s.cap } := by
  induction es generalizing s with
  | nil => rfl
  | cons e es ih =>
    have he := h e mem_cons_self
    have hq : e.ends = false := by cases e <;> first | rfl | exact Bool.noConfusion he
    have hc : s.callback e = { s with cap := s.cap.step e } := by
      cases e <;> first | rfl | exact Bool.noConfusion he
    rw [foldl_cons, deliver_quiet hs hq, hc]
    exact ih hs fun e' h' => h e' (mem_cons_of_mem e h')

theorem mem_events {t : Bool} {fields : List Field} (he : e ∈ fields.flatMap (Field.events t)) :
    ∃ p, e = .name t p ∨ e = .value t p := by
  obtain ⟨f, -, hf⟩ := mem_flatMap.mp he
  rcases mem_append.mp hf with h | h
  · obtain ⟨p, -, rfl⟩ := mem_map.mp h
    exact ⟨p, .inl rfl⟩
  · obtain ⟨p, -, rfl⟩ := mem_map.mp h
    exact ⟨p, .inr rfl⟩

theorem flatMap_events_inside (t : Bool) (fields : List Field) :
    ∀ e ∈ fields.flatMap (Field.events t), e.inside = true := by
  intro e he
  obtain ⟨p, rfl | rfl⟩ := mem_events he <;> rfl

theorem foldl_trailers (c : Capture) (trailers : List Field) :
    (trailers.flatMap (Field.events true)).foldl Capture.step c = c := by
  have h : ∀ e ∈ trailers.flatMap (Field.events true), ∀ c : Capture, c.step e = c := by
    intro e he c
    obtain ⟨p, rfl | rfl⟩ := mem_events he <;> rfl
  generalize trailers.flatMap (Field.events true) = es at h
  induction es with
  | nil => rfl
  | cons e es ih =>
    rw [foldl_cons, h e mem_cons_self]
    exact ih fun e' h' => h e' (mem_cons_of_mem e h')

theorem foldl_rest (hs : s.inSync = true) (r : Request) (hd : s.cap.httpHdrsDone = true) :
    r.rest.foldl Conn.deliver s = Conn.forward { s with ended := s.ended + 1 } := by
  unfold Request.rest
  split
  · rw [foldl_cons, Conn.deliver, if_pos hs]
    show (if s.cap.httpHdrsDone then _ else _) = _
    rw [if_pos hd]
    rfl
  · rw [List.foldl_append, foldl_inside hs (flatMap_events_inside true r.trailers), foldl_trailers,
      foldl_cons, Conn.deliver, if_pos hs]
    rfl

theorem Request.foldl_events (hs : s.inSync = true) (r : Request)
    (hd : (r.captured s.cap).httpHdrsDone = true) :
    r.events.foldl Conn.deliver s = Conn.forward
      { s with cap := r.captured s.cap, begun := s.begun + 1, ended := s.ended + 1 } := by
  have hsplit : r.events = .messageBegin :: ((r.target.map .url ++
      (r.fields.flatMap (Field.events false) ++ [.headersComplete])) ++ r.rest) := by
    simp [Request.events]
  have hin : ∀ e ∈ r.target.map Event.url ++
      (r.fields.flatMap (Field.events false) ++ [.headersComplete]), e.inside = true := by
    intro e he
    rcases mem_append.mp he with h | h
    · obtain ⟨p, -, rfl⟩ := mem_map.mp h
      rfl
    · rcases mem_append.mp h with h | h
      · exact flatMap_events_inside false r.fields e h
      · rw [mem_singleton.mp h]
        rfl
  rw [hsplit, foldl_cons, List.foldl_append, deliver_quiet hs rfl]
  have hs' : (s.callback .messageBegin).inSync = true := hs
  rw [foldl_inside hs' hin]
  exact foldl_rest (s := { s with cap := r.captured s.cap, begun := s.begun + 1 }) hs r hd

/-- **One request is dispatched once, by its own captures.** -/
theorem Request.served (h : Ready s before) (hp : r.Plain before) :
    ∃ c, Own r c ∧ (r.events.foldl Conn.deliver s).log = s.log ++ [(before.length, c)] ∧
      Ready (r.events.foldl Conn.deliver s) (before ++ [r]) := by
  obtain ⟨hown, hpath, hdone⟩ := r.own_captured hp h.path h.host
  have hended : s.ended + 1 = (before ++ [r]).length := by simp [h.ended]
  rw [r.foldl_events h.inSync hdone]
  refine ⟨r.captured s.cap, hown, ?_, ?_⟩
  · show s.log ++ (range' s.sent (s.ended + 1 - s.sent)).map _ = _
    rw [h.sent, h.ended, Nat.add_sub_cancel_left]
    rfl
  · have hbegun : s.begun + 1 = s.ended + 1 := by rw [h.begun, h.ended]
    exact ⟨beq_iff_eq.mpr hbegun, hbegun.trans hended, hended, hended, rfl, hpath.congr rfl⟩

theorem served_all (h : Ready s before) (reqs : List Request)
    (hp : ∀ (k : Nat) (r : Request), reqs[k]? = some r → r.Plain (before ++ reqs.take k)) :
    ∃ caps, Forall₂ Own reqs caps ∧ ((reqs.flatMap Request.events).foldl Conn.deliver s).log =
        s.log ++ (caps.zipIdx before.length).map fun ck => (ck.2, ck.1) := by
  induction reqs generalizing s before with
  | nil => exact ⟨[], .nil, (append_nil _).symm⟩
  | cons r reqs ih =>
    have hr : r.Plain before := by simpa using hp 0 r rfl
    obtain ⟨c, hown, hlog, hready⟩ := r.served h hr
    obtain ⟨caps, hall, hrest⟩ := ih hready fun k q hq => by
      simpa using hp (k + 1) q hq
    refine ⟨c :: caps, .cons hown hall, ?_⟩
    rw [flatMap_cons, List.foldl_append, hrest, hlog]
    simp

theorem ready_init : Ready Conn.init [] := ⟨rfl, rfl, rfl, rfl, rfl, fun h => Bool.noConfusion h⟩

/-- **Routing inputs are the request's own.**  On a connection whose requests are plain and whose
reads stop at the end of a request, each request is dispatched once, in order, by captures that are
its own. -/
theorem captures_own (reqs : List Request) (reads : List (List Event))
    (hdiv : reads.flatten = reqs.flatMap Request.events)
    (hone : ∀ read ∈ reads, oneRequest read = true)
    (hplain : ∀ (k : Nat) (r : Request), reqs[k]? = some r → r.Plain (reqs.take k)) :
    (run Conn.init reads).log.map Prod.fst = range reqs.length ∧
      ∀ (k : Nat) (r : Request) (c : Capture), reqs[k]? = some r →
        (k, c) ∈ (run Conn.init reads).log → Own r c := by
  obtain ⟨caps, hall, hlog⟩ := served_all ready_init reqs (by simpa using hplain)
  rw [← hdiv, ← run_eq _ hone] at hlog
  have hlog' : (run Conn.init reads).log = caps.zipIdx.map fun ck => (ck.2, ck.1) := hlog
  rw [hlog']
  constructor
  · rw [List.map_map, hall.length_eq]
    exact (zipIdx_map_snd 0 caps).trans (range_eq_range').symm
  · intro k r c hr hm
    obtain ⟨⟨c', k'⟩, hz, heq⟩ := mem_map.mp hm
    obtain ⟨rfl, rfl⟩ := Prod.mk.inj heq
    obtain ⟨hk, hc⟩ := mem_zipIdx' hz
    obtain ⟨hk', rfl⟩ := List.getElem?_eq_some_iff.mp hr
    rw [hc]
    exact hall.get hk' hk

def field (name value : String) : Field := ⟨[ascii name], [ascii value]⟩
def get (target : Bytes) : Request := ⟨[target], [], [], false⟩

/-- a buffered request whose `Authorization` value is cut, then a streamed one -/
def chat : List Request :=
  [⟨[ascii "/v1/chat/completions"], [field "host" "gw", field "X-Model" "m",
      ⟨[ascii "Authorization"], [ascii "Bearer a", ascii "bc"]⟩], [], false⟩,
    ⟨[ascii "/v1/files"], [field "HOST" "gw", field "X-Api-Key" "k"], [], true⟩]

/-- the reads cut the stream after the given number of events -/
def cutAt (n : Nat) (es : List Event) : List (List Event) := [es.take n, es.drop n]

theorem captures_own_chat : (run Conn.init (cutAt 7 (chat.take 1 |>.flatMap Request.events) ++
      cutAt 5 (chat.drop 1 |>.flatMap Request.events))).log.map Prod.fst = [0, 1] ∧
    ∀ (k : Nat) (r : Request) (c : Capture), chat[k]? = some r →
      (k, c) ∈ (run Conn.init (cutAt 7 (chat.take 1 |>.flatMap Request.events) ++
        cutAt 5 (chat.drop 1 |>.flatMap Request.events))).log → Own r c := by
  apply captures_own chat
  · decide +kernel
  · decide +kernel
  · intro k r hr
    match k with
    | 0 =>
      cases hr
      decide +kernel
    | 1 =>
      cases hr
      decide +kernel

/-- a division of the requests with a dispatch that is not by the request's own captures -/
def Foreign (reqs : List Request) (reads : List (List Event)) : Prop :=
  reads.flatten = reqs.flatMap Request.events ∧
    ∃ kc ∈ (run Conn.init reads).log, ∃ r ∈ reqs[kc.1]?, ¬ Own r kc.2

instance (reqs : List Request) (reads : List (List Event)) : Decidable (Foreign reqs reads) :=
  inferInstanceAs (Decidable (_ ∧ _))

def cutTarget : Request := ⟨[ascii "/v1/ch", ascii "at"], [], [], false⟩

def cutModel : Request :=
  ⟨[ascii "/"], [⟨[ascii "X-Model"], [ascii "llama", ascii "-70b"]⟩], [], false⟩

def longerName : Request := ⟨[ascii "/"], [field "Hostname" "other"], [], false⟩

/-- a name of 128 bytes is not kept: its value counts for the header before it -/
def staleName : Request :=
  ⟨[ascii "/"], [field "X-Api-Key" "mine", ⟨[replicate 128 0x61], [ascii "other"]⟩], [], false⟩

/-- **What else a request is routed by**: the end of a cut target or value, the value of a longer
name or of one too long to be kept, an earlier request's path, the next request in the read. -/
theorem captures_foreign : Foreign [cutTarget] (cutAt 2 cutTarget.events) ∧
    Foreign [cutModel] (cutAt 4 cutModel.events) ∧
    Foreign [longerName] [longerName.events] ∧
    Foreign [staleName] [staleName.events] ∧
    Foreign [get (ascii "/a"), get (replicate 256 0x62)]
      [(get (ascii "/a")).events, (get (replicate 256 0x62)).events] ∧
    Foreign [get (ascii "/a"), get (ascii "/b")]
      [(get (ascii "/a")).events ++ (get (ascii "/b")).events] := by
  refine ⟨?_, ?_, ?_, ?_, ?_, ?_⟩ <;> decide +kernel

end Http
