import InferenceGateway.Lib.Run

/-!
# The TCP state machine of the connection tracker

`dp_ct_tcp_sm` moves both entries of a connection through the states of a TCP connection.  Not
every packet gets there: `dp_do_ctops` sends a packet to the slow path when the entry of its
direction still has to be set up, or when a FIN or RST was seen in that direction before (the mark
`fr` stays set).

* `tcpMove`        one packet in the state machine;
* `ctops`          the mark, and whether the packet takes the slow path;
* `Flow.step`      one packet of a connection that has its two entries;
* `Conforming`     what two peers send after the connection is established;
* `close_tracked`  when the closing of a connection is tracked to its end.
-/

open List Bool

namespace Ct

/-! ## the state machine -/

inductive TcpState where
  | closed | ss | sa | est | fini | fini2 | fini3 | cw | err | pest
deriving DecidableEq

inductive Dir where
  | inbound | outbound
deriving DecidableEq

def Dir.other : Dir → Dir
  | .inbound => .outbound
  | .outbound => .inbound

/-- `ct_tcp_pinfd_t`, what is kept for one direction -/
structure TcpHalf where
  initAcks : UInt8
  ppv2 : Bool
  seq : UInt32
deriving DecidableEq

/-- `ct_tcp_pinf_t` -/
structure TcpPinf where
  state : TcpState
  fndir : Dir
  (ctsIn ctsOut : TcpHalf)
deriving DecidableEq

def TcpPinf.half (ts : TcpPinf) : Dir → TcpHalf
  | .inbound => ts.ctsIn
  | .outbound => ts.ctsOut

def TcpPinf.setHalf (ts : TcpPinf) (d : Dir) (h : TcpHalf) : TcpPinf :=
  match d with
  | .inbound => { ts with ctsIn := h }
  | .outbound => { ts with ctsOut := h }

def TcpPinf.setSeq (ts : TcpPinf) (d : Dir) (seq : UInt32) : TcpPinf :=
  ts.setHalf d { ts.half d with seq := seq }

/-- both directions are marked once the proxy protocol header went in -/
def TcpPinf.setPpv2 (ts : TcpPinf) : TcpPinf :=
  { ts with ctsIn := { ts.ctsIn with ppv2 := true }, ctsOut := { ts.ctsOut with ppv2 := true } }

/-- what the tracker reads of a TCP packet -/
structure TcpPacket where
  dir : Dir
  (fin syn rst ack : Bool)
  (seq ackSeq : UInt32)
  (dsr ppv2 gso goct : Bool)
deriving DecidableEq

inductive Smr where
  | err | inprog | est | fin | ctd
deriving DecidableEq

/-- the next state with what was recorded, whether the proxy protocol header goes into this packet,
and whether it is dropped because it cannot -/
structure TcpMove where
  next : TcpState
  pinf : TcpPinf
  (insert defer : Bool)

def initAckThreshold : UInt8 := 3

/-- the header goes into the first packet that is not a merged one -/
def placePpv2 (next : TcpState) (ts : TcpPinf) (p : TcpPacket) : TcpMove :=
  if (ts.half p.dir).ppv2 then ⟨next, ts, false, false⟩
  else if p.gso then ⟨next, ts, false, true⟩
  else ⟨next, ts.setPpv2, true, false⟩

def moveClosed (ts : TcpPinf) (p : TcpPacket) : TcpMove :=
  let td := ts.half p.dir
  let rtd := ts.half p.dir.other
  if p.dsr then ⟨.est, ts, false, false⟩
  else if p.ack then
    -- the connection was established before the tracker saw it
    if td.initAcks ≠ 0 ∧ p.ackSeq > rtd.seq + 2 then ⟨.err, ts.setSeq p.dir p.seq, false, false⟩
    else
      let acks := td.initAcks + 1
      let ts := ts.setHalf p.dir { td with seq := p.seq, initAcks := acks }
      if initAckThreshold ≤ acks ∧ initAckThreshold ≤ rtd.initAcks then ⟨.est, ts, false, false⟩
      else ⟨.err, ts, false, false⟩
  else if !p.syn then ⟨.err, ts, false, false⟩
  else if p.ackSeq ≠ 0 ∧ p.dir ≠ .inbound then ⟨.err, ts, false, false⟩
  else ⟨.ss, ts.setSeq p.dir p.seq, false, false⟩

def moveSynSent (ts : TcpPinf) (p : TcpPacket) : TcpMove :=
  let rtd := ts.half p.dir.other
  if p.dir ≠ .outbound then
    if p.syn then ⟨.ss, ts.setSeq p.dir p.seq, false, false⟩ else ⟨.err, ts, false, false⟩
  else if !(p.syn && p.ack) then ⟨.err, ts, false, false⟩
  else if p.ackSeq ≠ rtd.seq + 1 then ⟨.err, ts, false, false⟩
  else ⟨.sa, ts.setSeq p.dir p.seq, false, false⟩

def moveSynAck (ts : TcpPinf) (p : TcpPacket) : TcpMove :=
  let rtd := ts.half p.dir.other
  if p.dir ≠ .inbound then
    if !(p.syn && p.ack) then ⟨.err, ts, false, false⟩
    else if p.ackSeq ≠ rtd.seq + 1 then ⟨.err, ts, false, false⟩
    else ⟨.sa, ts, false, false⟩
  else if p.syn then ⟨.ss, ts.setSeq p.dir p.seq, false, false⟩
  else if !p.ack then ⟨.err, ts, false, false⟩
  else if p.ackSeq ≠ rtd.seq + 1 then ⟨.err, ts, false, false⟩
  else
    let ts := ts.setSeq p.dir p.seq
    if p.ppv2 then placePpv2 .pest ts p else ⟨.est, ts, false, false⟩

/-- a FIN in an established connection -/
def firstFin (ts : TcpPinf) (p : TcpPacket) : TcpMove :=
  ⟨.fini, { ts with fndir := p.dir }.setSeq p.dir p.seq, false, false⟩

/-- `dp_ct_tcp_sm` up to the new state.  The next state starts as 0, which is `CT_TCP_CLOSED`: a
packet that a closing state does not name leads there -/
def tcpMove (ts : TcpPinf) (p : TcpPacket) : TcpMove :=
  if p.rst then ⟨.cw, ts, false, false⟩
  else
    match ts.state with
    | .closed => moveClosed ts p
    | .ss => moveSynSent ts p
    | .sa => moveSynAck ts p
    | .pest =>
      if p.fin then firstFin ts p
      else if p.dir = .inbound then placePpv2 .pest ts p
      else ⟨.pest, ts, false, false⟩
    | .est => if p.fin then firstFin ts p else ⟨.est, ts, false, false⟩
    | .fini =>
      if ts.fndir ≠ p.dir then
        if p.fin && p.ack then ⟨.fini3, ts.setSeq p.dir p.seq, false, false⟩
        else if p.ack then ⟨.fini2, ts.setSeq p.dir p.seq, false, false⟩
        else ⟨.closed, ts, false, false⟩
      else ⟨.closed, ts, false, false⟩
    | .fini2 =>
      if ts.fndir ≠ p.dir ∧ p.fin then ⟨.fini3, ts.setSeq p.dir p.seq, false, false⟩
      else ⟨.closed, ts, false, false⟩
    | .fini3 =>
      if ts.fndir = p.dir ∧ p.ack then ⟨.cw, ts, false, false⟩ else ⟨.closed, ts, false, false⟩
    | .cw | .err => ⟨.closed, ts, false, false⟩

def TcpState.result : TcpState → Smr
  | .est => .est
  | .cw => .ctd
  | .err => .err
  | .fini | .fini2 | .fini3 => .fin
  | .closed | .ss | .sa | .pest => .inprog

/-! ## which packets reach it -/

inductive ActType where
  | drop | snat | dnat | toCp | nop | rdrPort | doCt
deriving DecidableEq

/-- the action of an entry: its type, the marks of the port action and of the NAT action, and
whether a NAT entry still has to be set up -/
structure CtAct where
  actType : ActType
  (portFr natFr doct : Bool)
deriving DecidableEq

def CtAct.isNat (a : CtAct) : Bool := a.actType = .snat || a.actType = .dnat
def TcpPacket.l4fin (p : TcpPacket) : Bool := p.fin || p.rst

/-- `dp_do_ctops` for a packet that has an entry: the action with its mark, and whether the packet
goes on to the tracker -/
def ctops (a : CtAct) (p : TcpPacket) : CtAct × Bool :=
  match a.actType with
  | .doCt => (a, true)
  | .nop | .rdrPort =>
    let a := if p.l4fin then { a with portFr := true } else a
    (a, a.portFr)
  | .snat | .dnat =>
    let a := if p.l4fin then { a with natFr := true } else a
    (a, a.natFr || a.doct || p.goct)
  | .toCp | .drop => (a, false)

/-- the two entries of a connection; the state machine works on the inbound one.  `live`: the pair
is in the table -/
structure Flow where
  pinf : TcpPinf
  outState : TcpState
  (actIn actOut : CtAct)
  live : Bool
deriving DecidableEq

def Flow.act (f : Flow) : Dir → CtAct
  | .inbound => f.actIn
  | .outbound => f.actOut

def Flow.setAct (f : Flow) (d : Dir) (a : CtAct) : Flow :=
  match d with
  | .inbound => { f with actIn := a }
  | .outbound => { f with actOut := a }

/-- `dp_ct_in` for a packet whose pair is in the table -/
def Flow.ctIn (f : Flow) (p : TcpPacket) : Flow :=
  let m := tcpMove f.pinf p
  let f' : Flow := { f with pinf := { m.pinf with state := m.next }, outState := m.next }
  match m.next.result with
  | .est =>
    if (f.act p.dir).isNat then
      { f' with actIn := { f.actIn with doct := false }, actOut := { f.actOut with doct := false } }
    else
      { f' with
        actIn := { f.actIn with actType := .nop }, actOut := { f.actOut with actType := .nop } }
  | .err | .ctd => { f' with live := false }
  | .inprog | .fin => f'

def Flow.reaches (f : Flow) (p : TcpPacket) : Bool := (ctops (f.act p.dir) p).2

/-- one packet of a connection; once the pair is gone this connection has no more steps -/
def Flow.step (f : Flow) (p : TcpPacket) : Flow :=
  if f.live then
    let f' := f.setAct p.dir (ctops (f.act p.dir) p).1
    if f.reaches p then f'.ctIn p else f'
  else f

/-! ## what the peers send -/

/-- a packet, its offset in the byte stream of its side and how far it acknowledges the other,
counted from the establishment -/
structure Segment where
  packet : TcpPacket
  (off len acked : Nat)
deriving DecidableEq

/-- one past the last byte, a FIN counts as one -/
def Segment.top (s : Segment) : Nat := s.off + s.len + (if s.packet.fin then 1 else 0)

/-- how far the stream of a side got -/
def passed (d : Dir) (ss : List Segment) : Nat :=
  ((ss.filter fun s => s.packet.dir = d).map Segment.top).foldl max 0

/-- a segment that a conforming peer may send after `pre`, in any order and any number of times: it
acknowledges no more than was sent, has no SYN and RST, and its data in its side's stream (a pure
acknowledgement may stand one past the FIN), a FIN only at the end -/
def Segment.conforming (first : Dir → UInt32) (total : Dir → Nat) (pre : List Segment)
    (s : Segment) : Bool :=
  s.packet.ack && !s.packet.syn && !s.packet.rst &&
    decide (s.packet.seq = first s.packet.dir + UInt32.ofNat s.off) &&
    decide (s.packet.ackSeq = first s.packet.dir.other + UInt32.ofNat s.acked) &&
    (decide (s.off + s.len ≤ total s.packet.dir) ||
      (s.len = 0 && decide (s.off ≤ total s.packet.dir + 1))) &&
    (!s.packet.fin || decide (s.off + s.len = total s.packet.dir)) &&
    decide (s.acked ≤ passed s.packet.dir.other pre)

/-- the segments of two conforming peers, as they pass the gateway -/
def Conforming (first : Dir → UInt32) (total : Dir → Nat) (ss : List Segment) : Prop :=
  ∀ pre s post, ss = pre ++ s :: post → s.conforming first total pre = true

def Flow.see (f : Flow) (s : Segment) : Flow := f.step s.packet
def finSent (d : Dir) (ss : List Segment) : Bool := ss.any fun s => s.packet.dir = d && s.packet.fin

/-! ## the way to the end -/

def TcpState.place : TcpState → Option Nat
  | .est | .pest => some 0
  | .fini => some 1
  | .fini2 => some 2
  | .fini3 => some 3
  | .cw => some 4
  | .closed | .ss | .sa | .err => none

/-- the state stays on the way and does not go back -/
def Forward (a b : TcpState) : Prop := ∃ i j, a.place = some i ∧ b.place = some j ∧ i ≤ j

def Flow.established (f : Flow) : Bool :=
  f.live && (f.pinf.state = .est || f.pinf.state = .pest) && f.outState = f.pinf.state

/-- the closing of a connection is tracked: every step goes forward, the entries agree, and the
pair stays until both sides have sent a FIN -/
structure Tracked (f : Flow) (ss : List Segment) : Prop where
  forward : ∀ pre s post, ss = pre ++ s :: post →
    Forward (pre.foldl Flow.see f).pinf.state ((pre.foldl Flow.see f).see s).pinf.state
  agree : ∀ pre post, ss = pre ++ post →
    (pre.foldl Flow.see f).outState = (pre.foldl Flow.see f).pinf.state
  stays : ∀ pre post, ss = pre ++ post → (pre.foldl Flow.see f).live = false →
    finSent .inbound pre = true ∧ finSent .outbound pre = true

/-- the packet is one that a closing state waits for: it comes from the other side in `FINI`, is the
other side's FIN in `FINI2`, and comes from the first side in `FINI3` -/
def TcpPinf.awaits (ts : TcpPinf) (p : TcpPacket) : Bool :=
  match ts.state with
  | .fini => ts.fndir ≠ p.dir
  | .fini2 => ts.fndir ≠ p.dir && p.fin
  | .fini3 => ts.fndir = p.dir
  | _ => true

/-- the packet is awaited or does not get to the state machine -/
def Flow.named (f : Flow) (p : TcpPacket) : Bool := !f.live || !f.reaches p || f.pinf.awaits p

/-! ## one step -/

section
variable {f : Flow} {p : TcpPacket}

theorem step_gone (h : f.live = false) : f.step p = f := by
  rw [Flow.step, h]
  rfl

theorem setAct_pinf (d : Dir) (a : CtAct) :
    (f.setAct d a).pinf = f.pinf ∧ (f.setAct d a).outState = f.outState ∧
      (f.setAct d a).live = f.live := by
  cases d <;> exact ⟨rfl, rfl, rfl⟩

theorem step_fast (hl : f.live = true) (hr : f.reaches p = false) :
    (f.step p).pinf = f.pinf ∧ (f.step p).outState = f.outState ∧ (f.step p).live = true := by
  have h := setAct_pinf (f := f) p.dir (ctops (f.act p.dir) p).1
  rw [Flow.step, hl, hr]
  exact ⟨h.1, h.2.1, h.2.2.trans hl⟩

theorem ctIn_state (hl : f.live = true) :
    (f.ctIn p).pinf = { (tcpMove f.pinf p).pinf with state := (tcpMove f.pinf p).next } ∧
      (f.ctIn p).outState = (tcpMove f.pinf p).next ∧
      ((f.ctIn p).live = false ↔
        (tcpMove f.pinf p).next = .cw ∨ (tcpMove f.pinf p).next = .err) := by
  unfold Flow.ctIn
  rcases tcpMove f.pinf p with ⟨next, pinf, insert, defer⟩
  cases next <;> simp [TcpState.result, hl]
  split <;> simp

theorem step_slow (hl : f.live = true) (hr : f.reaches p = true) :
    (f.step p).pinf = { (tcpMove f.pinf p).pinf with state := (tcpMove f.pinf p).next } ∧
      (f.step p).outState = (tcpMove f.pinf p).next ∧
      ((f.step p).live = false ↔
        (tcpMove f.pinf p).next = .cw ∨ (tcpMove f.pinf p).next = .err) := by
  have h := setAct_pinf (f := f) p.dir (ctops (f.act p.dir) p).1
  have hs : f.step p = (f.setAct p.dir (ctops (f.act p.dir) p).1).ctIn p := by
    rw [Flow.step, hl, hr]
    rfl
  rw [hs, ← h.1]
  exact ctIn_state (h.2.2.trans hl)

end

/-- what a packet without RST can do to a connection that is established or closing -/
inductive CloseMove (ts : TcpPinf) (p : TcpPacket) : TcpState → Dir → Prop
  | stay : ts.state.place = some 0 → p.fin = false → CloseMove ts p ts.state ts.fndir
  | first : ts.state.place = some 0 → p.fin = true → CloseMove ts p .fini p.dir
  | both : ts.state = .fini → ts.fndir ≠ p.dir → p.fin = true → CloseMove ts p .fini3 ts.fndir
  | half : ts.state = .fini → ts.fndir ≠ p.dir → p.fin = false → CloseMove ts p .fini2 ts.fndir
  | second : ts.state = .fini2 → ts.fndir ≠ p.dir → p.fin = true → CloseMove ts p .fini3 ts.fndir
  | last : ts.state = .fini3 → ts.fndir = p.dir → CloseMove ts p .cw ts.fndir
  | lost : ts.awaits p = false → CloseMove ts p .closed ts.fndir

theorem setSeq_fndir (ts : TcpPinf) (d : Dir) (seq : UInt32) : (ts.setSeq d seq).fndir = ts.fndir := by
  cases d <;> rfl

theorem firstFin_fndir (ts : TcpPinf) (p : TcpPacket) : (firstFin ts p).pinf.fndir = p.dir :=
  setSeq_fndir _ _ _

def TcpState.Open (s : TcpState) : Prop := ∃ i, s.place = some i ∧ i < 4

variable {ts : TcpPinf} {p : TcpPacket} {s : TcpState} {i : Nat} {f : Flow}

theorem tcpMove_close (ha : p.ack = true) (hr : p.rst = false) (ho : ts.state.Open) :
    CloseMove ts p (tcpMove ts p).next (tcpMove ts p).pinf.fndir := by
  obtain ⟨i, hi, hlt⟩ := ho
  unfold tcpMove
  rw [hr, if_neg Bool.false_ne_true]
  cases hs : ts.state with
  | closed | ss | sa | err => rw [hs] at hi; cases hi
  | cw =>
    rw [hs] at hi
    cases hi
    exact absurd hlt (by decide)
  | est =>
    have h0 : ts.state.place = some 0 := by rw [hs]; rfl
    dsimp only
    split_ifs with hf
    · rw [firstFin_fndir]
      exact .first h0 hf
    · exact hs ▸ .stay h0 (Bool.not_eq_true _ ▸ hf)
  | pest =>
    have h0 : ts.state.place = some 0 := by rw [hs]; rfl
    dsimp only
    split_ifs with hf hd
    · rw [firstFin_fndir]
      exact .first h0 hf
    · obtain ⟨h1, h2⟩ : (placePpv2 .pest ts p).next = .pest ∧
          (placePpv2 .pest ts p).pinf.fndir = ts.fndir := by
        unfold placePpv2
        split_ifs <;> exact ⟨rfl, rfl⟩
      rw [h1, h2, ← hs]
      exact .stay h0 (Bool.not_eq_true _ ▸ hf)
    · exact hs ▸ .stay h0 (Bool.not_eq_true _ ▸ hf)
  | fini =>
    dsimp only
    rw [ha, Bool.and_true, if_pos rfl]
    split_ifs with hd hf
    · rw [setSeq_fndir]
      exact .both hs hd hf
    · rw [setSeq_fndir]
      exact .half hs hd (Bool.not_eq_true _ ▸ hf)
    · exact .lost (by simp_all [TcpPinf.awaits])
  | fini2 =>
    dsimp only
    split_ifs with hd
    · rw [setSeq_fndir]
      exact .second hs hd.1 hd.2
    · exact .lost (by simp_all [TcpPinf.awaits])
  | fini3 =>
    dsimp only
    split_ifs with hd
    · exact .last hs hd.1
    · exact .lost (by simp_all [TcpPinf.awaits])

/-! ## whole runs -/

theorem Forward.refl (h : s.place = some i) : Forward s s := ⟨i, i, h, h, le_rfl⟩

theorem awaits_established (p : TcpPacket) (h : ts.state.place = some 0) : ts.awaits p = true := by
  unfold TcpPinf.awaits
  cases hs : ts.state <;> rw [hs] at h <;> first | rfl | cases h

theorem CloseMove.forward_iff {next : TcpState} {d : Dir} (h : CloseMove ts p next d) :
    Forward ts.state next ↔ ts.awaits p = true := by
  cases h with
  | stay h0 hf => exact iff_of_true (Forward.refl h0) (awaits_established p h0)
  | first h0 hf => exact iff_of_true ⟨0, 1, h0, rfl, by decide⟩ (awaits_established p h0)
  | both hs hd hf =>
    exact iff_of_true ⟨1, 3, hs ▸ rfl, rfl, by decide⟩ (by simpa [TcpPinf.awaits, hs] using hd)
  | half hs hd hf =>
    exact iff_of_true ⟨1, 2, hs ▸ rfl, rfl, by decide⟩ (by simpa [TcpPinf.awaits, hs] using hd)
  | second hs hd hf =>
    exact iff_of_true ⟨2, 3, hs ▸ rfl, rfl, by decide⟩ (by simpa [TcpPinf.awaits, hs, hf] using hd)
  | last hs hd =>
    exact iff_of_true ⟨3, 4, hs ▸ rfl, rfl, by decide⟩ (by simpa [TcpPinf.awaits, hs] using hd)
  | lost hn =>
    refine iff_of_false ?_ (by simp [hn])
    rintro ⟨i, j, -, hj, -⟩
    cases hj

section
variable {f : Flow} {p : TcpPacket}

theorem forward_iff (ha : p.ack = true) (hr : p.rst = false)
    (hplace : f.pinf.state.place.isSome = true) (ho : f.live = true → f.pinf.state.Open) :
    Forward f.pinf.state (f.step p).pinf.state ↔ f.named p = true := by
  obtain ⟨i, hi⟩ := Option.isSome_iff_exists.mp hplace
  cases hl : f.live with
  | false => simpa [step_gone hl, Flow.named, hl] using Forward.refl hi
  | true =>
    cases hreach : f.reaches p with
    | false => simpa [(step_fast hl hreach).1, Flow.named, hreach] using Forward.refl hi
    | true =>
      have hmove := tcpMove_close ha hr (ho hl)
      rw [(step_slow hl hreach).1, Flow.named, hl, hreach]
      exact hmove.forward_iff

/-- the pair is in the table with a state on the way, as the FINs that were sent say, or it is gone
and both sides have closed -/
structure OnWay (f : Flow) (sent : Dir → Bool) : Prop where
  agree : f.outState = f.pinf.state
  present : f.live = true → f.pinf.state.Open
  gone : f.live = false → f.pinf.state = .cw ∧ ∀ d, sent d = true
  first : f.pinf.state = .fini ∨ f.pinf.state = .fini2 → sent f.pinf.fndir = true
  both : f.pinf.state = .fini3 → ∀ d, sent d = true

variable {sent sent' : Dir → Bool}

theorem OnWay.placed (h : OnWay f sent) : f.pinf.state.place.isSome = true := by
  cases hl : f.live with
  | true =>
    obtain ⟨i, hi, -⟩ := h.present hl
    rw [hi]
    rfl
  | false =>
    rw [(h.gone hl).1]
    rfl

variable (h : OnWay f sent) (hs : ∀ d, sent d = true → sent' d = true)
include h hs

theorem OnWay.mono : OnWay f sent' :=
  ⟨h.agree, h.present, fun hl => ⟨(h.gone hl).1, fun d => hs d ((h.gone hl).2 d)⟩,
    fun hf => hs _ (h.first hf), fun hf d => hs d (h.both hf d)⟩

omit h in
theorem all_sent {d : Dir} (hp : sent' p.dir = true) (hd : d ≠ p.dir) (h : sent d = true) (e : Dir) :
    sent' e = true := by
  rcases Decidable.em (e = p.dir) with he | he
  · rw [he, hp]
  · have hed : e = d := by
      cases e <;> cases d <;> cases hpd : p.dir <;> simp_all
    rw [hed]
    exact hs d h

theorem OnWay.of_move {f' : Flow} (hfin : p.fin = true → sent' p.dir = true)
    (ho : f.pinf.state.Open) (hw : f.pinf.awaits p = true)
    (hmove : CloseMove f.pinf p f'.pinf.state f'.pinf.fndir) (hagree : f'.outState = f'.pinf.state)
    (hlive : f'.live = false ↔ f'.pinf.state = .cw ∨ f'.pinf.state = .err) : OnWay f' sent' := by
  have h' := h.mono hs
  rcases f' with ⟨⟨state, fndir, ctsIn, ctsOut⟩, outState, actIn, actOut, live⟩
  -- only the last acknowledgement takes the pair out of the table
  have hstays : ∀ i, state.place = some i → i < 4 → live = false → False := by
    rintro i hi hlt hl
    rcases hlive.mp hl with rfl | rfl <;> cases hi
    exact absurd hlt (by decide)
  cases hmove with
  | stay h0 hf =>
    exact ⟨hagree, fun _ => ho, fun hl => (hstays 0 h0 (by decide) hl).elim, h'.first, h'.both⟩
  | first h0 hf =>
    exact ⟨hagree, fun _ => ⟨1, rfl, by decide⟩, fun hl => (hstays 1 rfl (by decide) hl).elim,
      fun _ => hfin hf, nofun⟩
  | both hc hd hf =>
    exact ⟨hagree, fun _ => ⟨3, rfl, by decide⟩, fun hl => (hstays 3 rfl (by decide) hl).elim,
      nofun, fun _ => all_sent hs (hfin hf) hd (h.first (.inl hc))⟩
  | half hc hd hf =>
    exact ⟨hagree, fun _ => ⟨2, rfl, by decide⟩, fun hl => (hstays 2 rfl (by decide) hl).elim,
      fun _ => h'.first (.inl hc), nofun⟩
  | second hc hd hf =>
    exact ⟨hagree, fun _ => ⟨3, rfl, by decide⟩, fun hl => (hstays 3 rfl (by decide) hl).elim,
      nofun, fun _ => all_sent hs (hfin hf) hd (h.first (.inr hc))⟩
  | last hc hd =>
    have hl : live = false := hlive.mpr (.inl rfl)
    exact ⟨hagree, fun hp => absurd (hl.symm.trans hp) false_ne_true,
      fun _ => ⟨rfl, h'.both hc⟩, nofun, nofun⟩
  | lost hn => exact absurd (hn.symm.trans hw) false_ne_true

theorem OnWay.step (ha : p.ack = true) (hr : p.rst = false) (hn : f.named p = true)
    (hfin : p.fin = true → sent' p.dir = true) : OnWay (f.step p) sent' := by
  cases hl : f.live with
  | false =>
    rw [step_gone hl]
    exact h.mono hs
  | true =>
    have ho := h.present hl
    cases hreach : f.reaches p with
    | false =>
      obtain ⟨h1, h2, h3⟩ := step_fast hl hreach
      have h' := h.mono hs
      refine ⟨?_, ?_, ?_, ?_, ?_⟩
      · rw [h1, h2, h.agree]
      · rw [h1]
        exact fun _ => ho
      · rw [h3]
        exact fun hc => by cases hc
      · rw [h1]
        exact h'.first
      · rw [h1]
        exact h'.both
    | true =>
      have hmove := tcpMove_close ha hr ho
      obtain ⟨h1, h2, h3⟩ := step_slow hl hreach
      have hawait : f.pinf.awaits p = true := by
        simpa [Flow.named, hl, hreach] using hn
      have hst : (f.step p).pinf.state = (tcpMove f.pinf p).next := by rw [h1]
      have hfd : (f.step p).pinf.fndir = (tcpMove f.pinf p).pinf.fndir := by rw [h1]
      have hagree : (f.step p).outState = (f.step p).pinf.state := by rw [h2, hst]
      rw [← hst, ← hfd] at hmove
      rw [← hst] at h3
      exact h.of_move hs hfin ho hawait hmove hagree h3

end

theorem finSent_snoc (d : Dir) (pre : List Segment) (s : Segment) :
    finSent d (pre ++ [s]) = (finSent d pre || (s.packet.dir = d && s.packet.fin)) := by
  simp [finSent]

theorem Flow.established.onWay (h : f.established = true) : OnWay f fun d => finSent d [] := by
  simp only [Flow.established, and_eq_true, or_eq_true, decide_eq_true_eq] at h
  obtain ⟨⟨hl, hs⟩, hout⟩ := h
  refine ⟨hout, fun _ => ?_, fun hc => absurd (hc.symm.trans hl) false_ne_true, ?_, ?_⟩
  · rcases hs with hs | hs <;> rw [hs] <;> exact ⟨0, rfl, by decide⟩
  all_goals rcases hs with hs | hs <;> rw [hs] <;> simp

theorem cw_gone (h : f.pinf.state = .cw → f.live = false) :
    (f.step p).pinf.state = .cw → (f.step p).live = false := by
  cases hl : f.live with
  | false => rwa [step_gone hl]
  | true =>
    cases hreach : f.reaches p with
    | false =>
      rw [(step_fast hl hreach).1]
      intro hc
      exact absurd ((h hc).symm.trans hl) false_ne_true
    | true =>
      obtain ⟨h1, -, h3⟩ := step_slow hl hreach
      rw [h1, h3]
      exact .inl

section
variable {first : Dir → UInt32} {total : Dir → Nat} {ss : List Segment} {f : Flow}

theorem plain_of_conforming {pre : List Segment} {s : Segment}
    (h : s.conforming first total pre = true) : s.packet.ack = true ∧ s.packet.rst = false := by
  simp only [Segment.conforming, and_eq_true, not_eq_true'] at h
  exact ⟨h.1.1.1.1.1.1.1, h.1.1.1.1.1.2⟩

theorem onWay_run (hc : Conforming first total ss) (he : f.established = true)
    (hn : ∀ pre s post, ss = pre ++ s :: post → (pre.foldl Flow.see f).named s.packet = true)
    (pre post : List Segment) (hss : ss = pre ++ post) :
    OnWay (pre.foldl Flow.see f) fun d => finSent d pre := by
  induction pre using reverseRecOn generalizing post with
  | nil => exact Flow.established.onWay he
  | append_singleton pre s ih =>
    rw [append_assoc] at hss
    have hplain := plain_of_conforming (hc pre s post hss)
    rw [foldl_append]
    refine (ih _ hss).step ?_ hplain.1 hplain.2 (hn pre s post hss) ?_
    · intro d hd
      rw [finSent_snoc, hd, Bool.true_or]
    · intro hf
      rw [finSent_snoc, hf]
      simp

end

theorem TcpState.open_of_place (h : s.place = some i) (hc : s ≠ .cw) : s.Open := by
  cases s <;> first | exact absurd rfl hc | exact ⟨_, rfl, by decide⟩ | cases h

theorem cw_gone_run (he : f.established = true) (ss : List Segment) :
    (ss.foldl Flow.see f).pinf.state = .cw → (ss.foldl Flow.see f).live = false := by
  induction ss using reverseRecOn with
  | nil =>
    intro hcw
    cases hl : f.live with
    | false => exact hl
    | true =>
      obtain ⟨i, hi, hlt⟩ := (Flow.established.onWay he).present hl
      rw [show f.pinf.state = .cw from hcw] at hi
      cases hi
      exact absurd hlt (by decide)
  | append_singleton ss s ih =>
    rw [foldl_append]
    exact cw_gone ih

/-- **a closing connection is tracked to its end** by conforming peers exactly when every packet in
a closing state is the one the state waits for -/
theorem close_tracked (first : Dir → UInt32) (total : Dir → Nat) (ss : List Segment) (f : Flow)
    (hc : Conforming first total ss) (he : f.established = true) :
    Tracked f ss ↔
      ∀ pre s post, ss = pre ++ s :: post → (pre.foldl Flow.see f).named s.packet = true := by
  constructor
  · intro h pre s post hss
    have hplain := plain_of_conforming (hc pre s post hss)
    have hforward := h.forward pre s post hss
    obtain ⟨i, j, hi, -, -⟩ := h.forward pre s post hss
    refine (forward_iff hplain.1 hplain.2 (by rw [hi]; rfl) ?_).mp hforward
    intro hl
    refine TcpState.open_of_place hi fun hcw => ?_
    exact absurd ((cw_gone_run he pre hcw).symm.trans hl) false_ne_true
  · intro hn
    refine ⟨?_, ?_, ?_⟩
    · intro pre s post hss
      have hway := onWay_run hc he hn pre (s :: post) hss
      have hplain := plain_of_conforming (hc pre s post hss)
      exact (forward_iff hplain.1 hplain.2 hway.placed hway.present).mpr (hn pre s post hss)
    · intro pre post hss
      exact (onWay_run hc he hn pre post hss).agree
    · intro pre post hss hl
      have hall := ((onWay_run hc he hn pre post hss).gone hl).2
      exact ⟨hall .inbound, hall .outbound⟩

theorem foldl_snoc (pre ss : List Segment) : ss.foldl (fun l s => l ++ [s]) pre = pre ++ ss := by
  induction ss generalizing pre with
  | nil => simp
  | cons s ss ih => rw [foldl_cons, ih, append_assoc, singleton_append]

theorem conforming_of_throughout {first : Dir → UInt32} {total : Dir → Nat} {ss : List Segment}
    (h : Run.throughout (fun pre s => pre ++ [s]) (fun pre s => s.conforming first total pre) [] ss =
      true) : Conforming first total ss := by
  intro pre s post hss
  have hs := Run.of_throughout h pre s post hss
  rwa [foldl_snoc, nil_append] at hs

def sampleFlow : Flow :=
  { pinf := ⟨.est, .inbound, ⟨0, false, 100⟩, ⟨0, false, 500⟩⟩, outState := .est
    actIn := ⟨.dnat, false, false, false⟩
    actOut := ⟨.snat, false, false, false⟩
    live := true }

def sampleSegment (d : Dir) (fin : Bool) (off len acked : Nat) : Segment :=
  { packet :=
      { dir := d, fin := fin, syn := false, rst := false, ack := true
        seq := (if d = .inbound then 101 else 501) + UInt32.ofNat off
        ackSeq := (if d = .inbound then 501 else 101) + UInt32.ofNat acked
        dsr := false, ppv2 := false, gso := false, goct := false }
    off := off, len := len, acked := acked }

def sampleFirst (d : Dir) : UInt32 := if d = .inbound then 101 else 501
def sampleTotal (d : Dir) : Nat := if d = .inbound then 10 else 20

def plainClose : List Segment :=
  [sampleSegment .inbound false 0 10 0, sampleSegment .outbound false 0 20 10,
    sampleSegment .inbound true 10 0 20, sampleSegment .outbound true 20 0 11,
    sampleSegment .inbound false 11 0 21]

theorem plain_close_tracked : Tracked sampleFlow plainClose :=
  (close_tracked sampleFirst sampleTotal plainClose sampleFlow
    (conforming_of_throughout (by decide +kernel)) (by decide)).mpr
    fun pre s post h => Run.of_throughout (show Run.throughout Flow.see
      (fun f s => f.named s.packet) sampleFlow plainClose = true by decide +kernel) pre s post h

/-- the client closes first and the server still sends: the client's acknowledgements end the
connection before the server's FIN -/
def halfClosed : List Segment :=
  [sampleSegment .inbound false 0 10 0, sampleSegment .inbound true 10 0 0,
    sampleSegment .outbound false 0 10 11, sampleSegment .inbound false 11 0 10,
    sampleSegment .outbound false 10 10 11, sampleSegment .inbound false 11 0 20]

theorem half_closed_lost :
    Conforming sampleFirst sampleTotal halfClosed ∧ sampleFlow.established = true ∧
      ((halfClosed.take 4).foldl Flow.see sampleFlow).pinf.state = .closed ∧
      (halfClosed.foldl Flow.see sampleFlow).pinf.state = .err ∧
      (halfClosed.foldl Flow.see sampleFlow).live = false ∧
      finSent .outbound halfClosed = false ∧ ¬Tracked sampleFlow halfClosed := by
  refine ⟨conforming_of_throughout (by decide +kernel), by decide, by decide +kernel,
    by decide +kernel, by decide +kernel, by decide +kernel, fun h => ?_⟩
  have hsent := (h.stays halfClosed [] (append_nil _).symm (by decide +kernel)).2
  exact absurd hsent (by decide +kernel)

end Ct
