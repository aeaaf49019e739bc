import InferenceGateway.Ct.Key
import InferenceGateway.Ct.Tcp

/-!
# The scratch entries of the connection tracker

`dp_ct_in` builds the two entries of a new connection in two scratch entries of the CPU and copies
them to the table.  It fills the scratch field by field; `dp_ct_est` copies the entries of older
connections into it.  So a field that is not written on the way carries what an earlier packet left.

* `ctIn`, `ctEst`    what the two functions do to the scratch entries;
* `Seen`             the fields of an entry that anything reads later;
* `Leftover`         the fields that are read and not written;
* `stored_seen_iff`  after two histories a packet stores the same entries exactly when these agree.
-/

namespace Ct

/-! ## entries -/

/-- `struct dp_nat_act`; the first word of its address shares its place with `struct dp_rdr_act` -/
structure NatAct where
  (xip rip : Addr)
  xport : UInt16
  (fr doct : Bool)
  (rid aid : UInt32)
  (nv6 dsr : Bool)
  (cdis nmh : UInt8)
  ppv2 : Bool
  polid : UInt16
deriving DecidableEq

/-- `port_act.fr`: the upper half of the first address word -/
def NatAct.portFr (a : NatAct) : UInt16 := (a.xip.w0 >>> 16).toUInt16

/-- `ct_pinf_t`; `body` is the union of the protocols' records -/
structure Pinf (B : Type) where
  body : B
  frag : Bool
  npmhh : UInt16
  (pmhh0 pmhh1 pmhh2 pmhh3 : UInt32)
deriving DecidableEq

/-- `struct dp_ct_tact`, also the scratch entries -/
structure Entry (B : Type) where
  actType : ActType
  cidx : UInt32
  (fwrid record rid aid : UInt16)
  pi : Pinf B
  dir : Dir
  xi : Xfrm
  (bytes packets ito lts : UInt64)
  natAct : NatAct
deriving DecidableEq

/-- the parsed and NAT fields of a packet that `dp_ct_in` reads -/
structure CtPacket where
  key : Key
  nat : NatMeta
  (fwRid dpRec ruleId selAid : UInt16)
  cdis : UInt8
  npmhh : UInt16
  (pmhh0 pmhh1 pmhh2 : UInt32)
  ppv2 : Bool
  rpolid : UInt16
  ito : UInt64
deriving DecidableEq

section
variable {B : Type}

structure Scratch (B : Type) where
  (fwd rev : Entry B)
deriving DecidableEq

/-! ## a packet in `dp_ct_in` -/

/-- the transforms, written for every packet -/
def Scratch.transform (s : Scratch B) (p : CtPacket) : Scratch B :=
  let r := protoXfkInit p.key (ctXi p.nat s.fwd.xi) (ctXxi s.rev.xi)
  { fwd := { s.fwd with xi := r.1 }, rev := { s.rev with xi := r.2.2 } }

def NatFlag.actType : NatFlag → ActType
  | .none => .doCt
  | .dst | .hdst => .dnat
  | .src | .hsrc => .snat

/-- what a new connection writes into one scratch entry; the two directions differ in the counter,
the direction and the family of the NAT action -/
def Entry.fill (e : Entry B) (zero : B) (p : CtPacket) (cidx : UInt32) (dir : Dir) (nv6 : Bool) :
    Entry B :=
  { e with
    cidx := cidx
    fwrid := p.fwRid
    record := p.dpRec
    pi := ⟨zero, false, p.npmhh, p.pmhh0, p.pmhh1, p.pmhh2, 0⟩
    actType := e.xi.natFlags.actType
    natAct :=
      if e.xi.natFlags = .none then e.natAct
      else { e.natAct with
        xip := e.xi.natXip, rip := e.xi.natRip, xport := e.xi.natXport, doct := true,
        rid := p.ruleId.toUInt32, aid := p.selAid.toUInt32, nv6 := nv6, dsr := p.nat.dsr,
        cdis := p.cdis, nmh := p.npmhh.toUInt8, ppv2 := p.ppv2, polid := p.rpolid }
    ito := if e.xi.natFlags = .none then 0 else p.ito
    dir := dir
    rid := p.ruleId
    aid := p.selAid
    bytes := 0
    packets := 0 }

/-- a new connection: both scratch entries as they are copied to the table -/
def Scratch.fill (s : Scratch B) (zero : B) (p : CtPacket) (cidx : UInt32) : Scratch B :=
  let fwd := s.fwd.fill zero p cidx .inbound p.nat.nv6
  { fwd := fwd, rev := { s.rev.fill zero p (cidx + 1) .outbound p.key.v6 with lts := fwd.lts } }

/-- `dp_ct_in`: the scratch entries after a packet, whose connection is new or not -/
def ctIn (zero : B) (s : Scratch B) (p : CtPacket) (cidx : UInt32) (fresh : Bool) : Scratch B :=
  if fresh then (s.transform p).fill zero p cidx else s.transform p

/-- the entries in the table after the packet that made them: both get the time of the packet -/
def stored (zero : B) (s : Scratch B) (p : CtPacket) (cidx : UInt32) (now : UInt64) : Scratch B :=
  let t := ctIn zero s p cidx true
  { fwd := { t.fwd with lts := now }, rev := { t.rev with lts := now } }

/-! ## a connection that gets established -/

/-- one more pair of addresses of a multi-homed SCTP association -/
structure Alternate where
  (mhvip primarySrc secondaryEp : UInt32)
deriving DecidableEq

def Addr.setLow (a : Addr) (w : UInt32) : Addr := { a with w0 := w }

/-- the two entries for one more pair of addresses, built in the scratch -/
def Scratch.alternate (s : Scratch B) (a : Alternate) : Scratch B :=
  { fwd := { s.fwd with
      xi := { s.fwd.xi with
        natRip := s.fwd.xi.natRip.setLow a.mhvip, natXip := s.fwd.xi.natXip.setLow a.secondaryEp }
      natAct := { s.fwd.natAct with
        rip := s.fwd.natAct.rip.setLow a.mhvip, xip := s.fwd.natAct.xip.setLow a.secondaryEp } }
    rev := { s.rev with
      xi := { s.rev.xi with
        natXip := s.rev.xi.natXip.setLow a.mhvip, natRip := s.rev.xi.natRip.setLow a.primarySrc }
      natAct := { s.rev.natAct with
        xip := s.rev.natAct.xip.setLow a.mhvip, rip := s.rev.natAct.rip.setLow a.primarySrc } } }

/-- what follows the copy in `dp_ct_est` -/
inductive EstKind where
  | plain
  /-- a UDP connection whose packet is a fragment -/
  | frag (d : Dir)
  /-- a multi-homed SCTP association with its further addresses -/
  | multi (as : List Alternate)

/-- `dp_ct_est` for a pair of the table -/
def ctEst (s : Scratch B) (e x : Entry B) (k : EstKind) : Scratch B :=
  if e.xi.dsr || e.xi.nv6 then s
  else
    match k with
    | .plain => ⟨e, x⟩
    | .frag .inbound => ⟨{ e with pi := { e.pi with frag := true } }, x⟩
    | .frag .outbound => ⟨e, { x with pi := { x.pi with frag := true } }⟩
    | .multi as =>
      as.foldl Scratch.alternate
        ⟨{ e with xi := { e.xi with mhon := false } }, { x with xi := { x.xi with mhon := false } }⟩

/-! ## histories -/

/-- what earlier packets on the CPU did to the scratch entries -/
inductive ScratchEvent (B : Type) where
  | packet (p : CtPacket) (cidx : UInt32) (fresh : Bool)
  | established (e x : Entry B) (k : EstKind)

def Scratch.after (zero : B) (s : Scratch B) : ScratchEvent B → Scratch B
  | .packet p cidx fresh => ctIn zero s p cidx fresh
  | .established e x k => ctEst s e x k

def Scratch.history (zero : B) (s : Scratch B) (h : List (ScratchEvent B)) : Scratch B :=
  h.foldl (Scratch.after zero) s

/-! ## what is read later -/

/-- the fields of an entry that are read later: the family and the NAT part of a translated entry,
`mhon` in the inbound entry of a translated IPv4 SCTP association, the mark of any other -/
structure Seen (B : Type) where
  actType : ActType
  cidx : UInt32
  (fwrid record rid aid : UInt16)
  pi : Pinf B
  dir : Dir
  natFlags : NatFlag
  (natXip natRip : Addr)
  natXport : UInt16
  dsr : Bool
  (nv6 mhon : Option Bool)
  (bytes packets ito lts : UInt64)
  natAct : Option NatAct
  portFr : Option Bool
deriving DecidableEq

def Entry.seen (e : Entry B) (proto : UInt8) : Seen B :=
  let nat := decide (e.xi.natFlags ≠ .none)
  { actType := e.actType, cidx := e.cidx, fwrid := e.fwrid, record := e.record, rid := e.rid
    aid := e.aid, pi := e.pi, dir := e.dir, natFlags := e.xi.natFlags, natXip := e.xi.natXip
    natRip := e.xi.natRip, natXport := e.xi.natXport, dsr := e.xi.dsr
    nv6 := if nat then some e.xi.nv6 else none
    mhon := if e.dir = .inbound ∧ proto = protoSctp ∧ nat ∧ !e.xi.dsr ∧ !e.xi.nv6
      then some e.xi.mhon else none
    bytes := e.bytes, packets := e.packets, ito := e.ito, lts := e.lts
    natAct := if nat then some e.natAct else none
    portFr := if nat then none else some (e.natAct.portFr = 1) }

def CtPacket.back (p : CtPacket) : Prop :=
  if p.nat.dsr then p.nat.flags = .dst else p.nat.flags ≠ .none

/-- two scratch contents agree on what a new connection reads and does not write -/
structure Leftover (p : CtPacket) (s s' : Scratch B) : Prop where
  dsr : p.nat.dsr = false → s.rev.xi.dsr = s'.rev.xi.dsr
  fr : p.nat.flags ≠ .none → s.fwd.natAct.fr = s'.fwd.natAct.fr
  portFr : p.nat.flags = .none → (s.fwd.natAct.portFr = 1 ↔ s'.fwd.natAct.portFr = 1)
  backFr : p.back → s.rev.natAct.fr = s'.rev.natAct.fr
  backPortFr : ¬p.back → (s.rev.natAct.portFr = 1 ↔ s'.rev.natAct.portFr = 1)
  mhon : p.key.l4proto = protoSctp → p.nat.flags ≠ .none → p.nat.dsr = false →
    p.nat.nv6 = false → s.fwd.xi.mhon = s'.fwd.xi.mhon

/-! ## the transforms -/

def CtPacket.xi (p : CtPacket) : Xfrm :=
  (protoXfkInit p.key (ctXi p.nat cleanXfrm) (ctXxi cleanXfrm)).1

def CtPacket.xxi (p : CtPacket) : Xfrm :=
  (protoXfkInit p.key (ctXi p.nat cleanXfrm) (ctXxi cleanXfrm)).2.2

section
variable (s : Scratch B) (p : CtPacket)

theorem transform_fwd : (s.transform p).fwd.xi = { p.xi with mhon := s.fwd.xi.mhon } := by
  unfold Scratch.transform CtPacket.xi protoXfkInit ctXi
  cases p.nat.dsr <;> cases p.nat.flags <;> rfl

theorem transform_rev : (s.transform p).rev.xi = { p.xxi with
      mhon := s.rev.xi.mhon
      dsr := p.nat.dsr || s.rev.xi.dsr
      nv6 := if p.xxi.natFlags = .none then s.rev.xi.nv6 else p.xxi.nv6 } := by
  unfold Scratch.transform CtPacket.xxi protoXfkInit ctXi ctXxi
  cases p.nat.dsr <;> cases p.nat.flags <;> rfl

theorem xi_eq : p.xi.natFlags = p.nat.flags ∧ p.xi.dsr = p.nat.dsr ∧ p.xi.nv6 = p.nat.nv6 := by
  unfold CtPacket.xi protoXfkInit ctXi
  cases p.nat.dsr <;> cases p.nat.flags <;> exact ⟨rfl, rfl, rfl⟩

theorem xxi_translates : p.xxi.natFlags ≠ .none ↔ p.back := by
  unfold CtPacket.back CtPacket.xxi protoXfkInit ctXi ctXxi
  cases p.nat.dsr <;> cases p.nat.flags <;> simp [cleanXfrm]

end

/-! ## two histories -/

theorem fill_seen_iff (zero : B) (e e' : Entry B) (p : CtPacket) (cidx : UInt32) (d : Dir)
    (nv6 : Bool) (now : UInt64) (hf : e.xi.natFlags = e'.xi.natFlags)
    (hx : e.xi.natXip = e'.xi.natXip) (hr : e.xi.natRip = e'.xi.natRip)
    (hp : e.xi.natXport = e'.xi.natXport)
    (hv : e.xi.natFlags ≠ .none → e.xi.nv6 = e'.xi.nv6) :
    Entry.seen { e.fill zero p cidx d nv6 with lts := now } p.key.l4proto =
        Entry.seen { e'.fill zero p cidx d nv6 with lts := now } p.key.l4proto ↔
      e.xi.dsr = e'.xi.dsr ∧
      (e.xi.natFlags ≠ .none → e.natAct.fr = e'.natAct.fr) ∧
      (e.xi.natFlags = .none → (e.natAct.portFr = 1 ↔ e'.natAct.portFr = 1)) ∧
      (d = .inbound ∧ p.key.l4proto = protoSctp ∧ e.xi.natFlags ≠ .none ∧ e.xi.dsr = false ∧
        e.xi.nv6 = false → e.xi.mhon = e'.xi.mhon) := by
  rcases e with ⟨_, _, _, _, _, _, _, _, ⟨f, xip, rip, xport, v6, dsr, mhon⟩, _, _, _, _, na⟩
  rcases e' with ⟨_, _, _, _, _, _, _, _, ⟨f', xip', rip', xport', v6', dsr', mhon'⟩, _, _, _, _, na'⟩
  subst hf hx hr hp
  by_cases hn : f = .none
  · simp [Entry.seen, Entry.fill, hn]
  · have hv' := hv hn
    simp [Entry.seen, Entry.fill, hn]
    rintro rfl
    split_ifs <;> grind

def Scratch.seen (s : Scratch B) (proto : UInt8) : Seen B × Seen B :=
  (s.fwd.seen proto, s.rev.seen proto)

theorem stored_seen (zero : B) (s s' : Scratch B) (p : CtPacket) (cidx : UInt32) (now : UInt64) :
    (stored zero s p cidx now).seen p.key.l4proto = (stored zero s' p cidx now).seen p.key.l4proto ↔
      Leftover p s s' := by
  obtain ⟨hflags, hdsr, hnv6⟩ := xi_eq p
  have hback := xxi_translates p
  have hfwd := transform_fwd s p
  have hfwd' := transform_fwd s' p
  have hrev := transform_rev s p
  have hrev' := transform_rev s' p
  have h1 := fill_seen_iff zero (s.transform p).fwd (s'.transform p).fwd p cidx .inbound p.nat.nv6
    now (by rw [hfwd, hfwd']) (by rw [hfwd, hfwd']) (by rw [hfwd, hfwd']) (by rw [hfwd, hfwd'])
    (fun _ => by rw [hfwd, hfwd'])
  have h2 := fill_seen_iff zero (s.transform p).rev (s'.transform p).rev p (cidx + 1) .outbound
    p.key.v6 now (by rw [hrev, hrev']) (by rw [hrev, hrev']) (by rw [hrev, hrev'])
    (by rw [hrev, hrev']) (fun hn => by
      rw [hrev] at hn
      rw [hrev, hrev', if_neg hn, if_neg hn])
  rw [hfwd, hfwd'] at h1
  rw [hrev, hrev'] at h2
  rw [hflags, hdsr, hnv6] at h1
  rw [hback] at h2
  rw [Prod.mk.injEq]
  refine (and_congr h1 h2).trans ⟨?_, ?_⟩
  · rintro ⟨⟨-, hfr, hport, hmhon⟩, hd, hbackFr, hbackPort, -⟩
    refine ⟨fun h0 => ?_, hfr, hport, hbackFr, fun hb => ?_, fun hs hf h0 hv => ?_⟩
    · rwa [h0, Bool.false_or, Bool.false_or] at hd
    · exact hbackPort (not_not.mp (mt hback.mp hb))
    · exact hmhon ⟨rfl, hs, hf, h0, hv⟩
  · intro h
    refine ⟨⟨rfl, h.fr, h.portFr, fun hm => h.mhon hm.2.1 hm.2.2.1 hm.2.2.2.1 hm.2.2.2.2⟩, ?_,
      h.backFr, fun hn => h.backPortFr fun hb => hback.mpr hb hn, fun hm => by cases hm.1⟩
    cases hd : p.nat.dsr with
    | true => rfl
    | false => exact h.dsr hd

/-- **the entries of a new connection after two histories** agree in all that is read later exactly
when the histories left the same `Leftover` -/
theorem stored_seen_iff (zero : B) (s : Scratch B) (h h' : List (ScratchEvent B)) (p : CtPacket)
    (cidx : UInt32) (now : UInt64) :
    (stored zero (s.history zero h) p cidx now).seen p.key.l4proto =
        (stored zero (s.history zero h') p cidx now).seen p.key.l4proto ↔
      Leftover p (s.history zero h) (s.history zero h') :=
  stored_seen zero _ _ p cidx now

end

/-! ## a history with a DSR connection -/

def blankEntry : Entry Unit :=
  { actType := .drop, cidx := 0, fwrid := 0, record := 0, rid := 0, aid := 0
    pi := ⟨(), false, 0, 0, 0, 0, 0⟩, dir := .inbound, xi := cleanXfrm, bytes := 0, packets := 0
    ito := 0, lts := 0
    natAct := ⟨.zero, .zero, 0, false, false, 0, 0, false, false, 0, 0, false, 0⟩ }

def blankScratch : Scratch Unit := ⟨blankEntry, blankEntry⟩

def sampleCt (dsr : Bool) : CtPacket :=
  { key := ctKey sampleUdp 1 0 0, nat := { sampleDnat 5353 with dsr := dsr }, fwRid := 0, dpRec := 0
    ruleId := 7, selAid := 0, cdis := 0, npmhh := 0, pmhh0 := 0, pmhh1 := 0, pmhh2 := 0
    ppv2 := false, rpolid := 0, ito := 0 }

/-- after one DSR connection on the CPU the reverse entry of a plain connection says DSR, and the
ager looks for its twin under another key -/
theorem dsr_left_behind :
    let before := [ScratchEvent.packet (sampleCt true) 2 true]
    let p := sampleCt false
    let a := stored () (blankScratch.history () []) p 4 100
    let b := stored () (blankScratch.history () before) p 4 100
    a.seen p.key.l4proto ≠ b.seen p.key.l4proto ∧
      ctmProtoXfkInit (pairOf p.key p.nat cleanXfrm cleanXfrm).xkey a.rev.xi a.rev.pi.frag = p.key ∧
      ctmProtoXfkInit (pairOf p.key p.nat cleanXfrm cleanXfrm).xkey b.rev.xi b.rev.pi.frag ≠
        p.key := by
  decide +kernel

end Ct
