import Mathlib.Data.List.Basic

/-!
# Connection keys and their translation

A connection has two entries in `ct_map`, one for each direction.  The key of the second one is
computed from the first key and the NAT transform (`dp_ct_proto_xfk_init`), and the ager computes
it again with its own copy (`ctm_proto_xfk_init`).  What the packet looks like on the wire is a
third computation (`dp_do_dnat`, `dp_do_snat` and their v6 forms).

* `protoXfkInit`, `ctmProtoXfkInit`   the key of the other direction, in the datapath and the ager;
* `doDnat`, `doSnat`                  the rewriting of the packet;
* `Pair`, `pairOf`                    the two entries that a first packet stores;
* `pair_inverse`                      when the three fit together.
-/

namespace Ct

/-! ## addresses, keys and transforms -/

/-- an address of four words; a v4 address has only the first -/
structure Addr where
  (w0 w1 w2 w3 : UInt32)
deriving DecidableEq

def Addr.zero : Addr := ⟨0, 0, 0, 0⟩
def Addr.low (a : Addr) : Addr := ⟨a.w0, 0, 0, 0⟩

/-- `struct dp_ct_key` -/
structure Key where
  (daddr saddr : Addr)
  (sport dport zone : UInt16)
  l4proto : UInt8
  v6 : Bool
  (ident type : UInt32)
deriving DecidableEq

/-- the NAT flags; the datapath sets one of them -/
inductive NatFlag where
  | none | dst | src | hdst | hsrc
deriving DecidableEq

/-- the fields of `nxfrm_inf_t` that connection tracking uses -/
structure Xfrm where
  natFlags : NatFlag
  (natXip natRip : Addr)
  natXport : UInt16
  (nv6 dsr mhon : Bool)
deriving DecidableEq

def protoIcmp : UInt8 := 1
def protoTcp : UInt8 := 6
def protoUdp : UInt8 := 17
def protoIcmpV6 : UInt8 := 58
def protoSctp : UInt8 := 132

def Key.swap (k : Key) : Key :=
  { k with daddr := k.saddr, saddr := k.daddr, sport := k.dport, dport := k.sport }

/-- `dp_ct_proto_xfk_init`: the transform itself (its port gets a default), the key of the other
direction and the transform of the other direction -/
def protoXfkInit (key : Key) (xi xxi : Xfrm) : Xfrm × Key × Xfrm :=
  let xkey := key.swap
  if xi.dsr then
    match xi.natFlags with
    | .dst =>
      (xi, xkey, { xxi with
        natFlags := .src, natXip := key.daddr, natXport := key.dport, nv6 := xi.nv6, dsr := xi.dsr })
    | _ => (xi, xkey, { xxi with dsr := xi.dsr })
  else
    let ported := decide (key.l4proto ≠ protoIcmp)
    match xi.natFlags with
    | .none => (xi, xkey, xxi)
    | .dst =>
      ({ xi with natXport := if ported && xi.natXport = 0 then key.dport else xi.natXport },
        { xkey with
          v6 := xi.nv6
          saddr := xi.natXip
          daddr := if xi.natRip = .zero then xkey.daddr else xi.natRip
          sport := if ported && xi.natXport ≠ 0 then xi.natXport else xkey.sport },
        { xxi with
          natFlags := .src
          nv6 := key.v6
          natXip := key.daddr
          natRip := if xi.natRip = .zero then xxi.natRip else key.saddr
          natXport := if ported then key.dport else xxi.natXport })
    | .src =>
      ({ xi with natXport := if ported && xi.natXport = 0 then key.sport else xi.natXport },
        { xkey with
          v6 := xi.nv6
          daddr := xi.natXip
          saddr := if xi.natRip = .zero then xkey.saddr else xi.natRip
          dport := if ported && xi.natXport ≠ 0 then xi.natXport else xkey.dport },
        { xxi with
          natFlags := .dst
          nv6 := key.v6
          natXip := key.saddr
          natRip := if xi.natRip = .zero then xxi.natRip else key.daddr
          natXport := if ported then key.sport else xxi.natXport })
    | .hdst =>
      ({ xi with
          natXip := .zero
          natXport := if ported && xi.natXport = 0 then key.dport else xi.natXport },
        { xkey with
          saddr := key.saddr
          daddr := key.daddr
          sport := if ported && xi.natXport ≠ 0 then xi.natXport else xkey.sport },
        { xxi with
          natFlags := .hsrc
          nv6 := key.v6
          natXip := .zero
          natXport := if ported then key.dport else xxi.natXport })
    | .hsrc =>
      ({ xi with
          natXip := .zero
          natXport := if ported && xi.natXport = 0 then key.sport else xi.natXport },
        { xkey with
          saddr := key.saddr
          daddr := key.daddr
          dport := if ported && xi.natXport ≠ 0 then xi.natXport else xkey.dport },
        { xxi with
          natFlags := .hdst
          nv6 := key.v6
          natXip := .zero
          natXport := if ported then key.sport else xxi.natXport })

/-- `ctm_proto_xfk_init`, the ager's copy: the key of the other direction of a stored entry -/
def ctmProtoXfkInit (key : Key) (xi : Xfrm) (frag : Bool) : Key :=
  let xkey := key.swap
  if xi.dsr || frag then xkey
  else
    let ported := decide (key.l4proto ≠ protoIcmp)
    match xi.natFlags with
    | .none => xkey
    | .dst =>
      { xkey with
        v6 := xi.nv6
        saddr := xi.natXip
        daddr := if xi.natRip = .zero then xkey.daddr else xi.natRip
        sport := if ported && xi.natXport ≠ 0 then xi.natXport else xkey.sport }
    | .src =>
      { xkey with
        v6 := xi.nv6
        daddr := xi.natXip
        saddr := if xi.natRip = .zero then xkey.saddr else xi.natRip
        dport := if ported && xi.natXport ≠ 0 then xi.natXport else xkey.dport }
    | .hdst =>
      { xkey with
        saddr := key.saddr
        daddr := key.daddr
        sport := if ported && xi.natXport ≠ 0 then xi.natXport else xkey.sport }
    | .hsrc =>
      { xkey with
        saddr := key.saddr
        daddr := key.daddr
        dport := if ported && xi.natXport ≠ 0 then xi.natXport else xkey.dport }

/-! ## packets -/

structure Tuple where
  (saddr daddr : Addr)
  (sport dport : UInt16)
  proto : UInt8
  v6 : Bool
deriving DecidableEq

/-- the same connection seen from the other side: the tuple of a reply -/
def Tuple.swap (t : Tuple) : Tuple :=
  { t with saddr := t.daddr, daddr := t.saddr, sport := t.dport, dport := t.sport }

def hasPorts (p : UInt8) : Bool := p = protoTcp || p = protoUdp || p = protoSctp

/-- `dp_do_dnat` and `dp_do_dnat6` differ in the width of the addresses and in the ICMP protocol -/
def dnatAs (icmp : UInt8) (t : Tuple) (xip rip : Addr) (xport : UInt16) : Tuple :=
  if hasPorts t.proto then
    if xip = .zero then { t with saddr := t.daddr, daddr := t.saddr, dport := xport }
    else { t with
      saddr := if rip = .zero then t.saddr else rip, daddr := xip, dport := xport }
  else if t.proto = icmp then
    { t with saddr := if rip = .zero then t.saddr else rip, daddr := xip }
  else t

/-- `dp_do_snat` and `dp_do_snat6`; a port of zero leaves the source port alone -/
def snatAs (icmp : UInt8) (t : Tuple) (xip rip : Addr) (xport : UInt16) : Tuple :=
  if hasPorts t.proto then
    let sport := if xport = 0 then t.sport else xport
    if xip = .zero then { t with saddr := t.daddr, daddr := t.saddr, sport := sport }
    else { t with
      saddr := xip, daddr := if rip = .zero then t.daddr else rip, sport := sport }
  else if t.proto = icmp then
    { t with saddr := xip, daddr := if rip = .zero then t.daddr else rip }
  else t

def doDnat (t : Tuple) (xip rip : Addr) (xport : UInt16) : Tuple :=
  dnatAs protoIcmp t xip.low rip.low xport

def doDnat6 (t : Tuple) (xip rip : Addr) (xport : UInt16) : Tuple :=
  dnatAs protoIcmpV6 t xip rip xport

def doSnat (t : Tuple) (xip rip : Addr) (xport : UInt16) : Tuple :=
  snatAs protoIcmp t xip.low rip.low xport

def doSnat6 (t : Tuple) (xip rip : Addr) (xport : UInt16) : Tuple :=
  snatAs protoIcmpV6 t xip rip xport

/-- which of the four a packet goes through; a packet whose transform is of the other family is not
part of this model -/
def rewrite (dnat : Bool) (t : Tuple) (xip rip : Addr) (xport : UInt16) : Tuple :=
  match dnat, t.v6 with
  | true, false => doDnat t xip rip xport
  | true, true => doDnat6 t xip rip xport
  | false, false => doSnat t xip rip xport
  | false, true => doSnat6 t xip rip xport

/-! ## the entries of a connection -/

/-- the NAT fields of a packet, `xf->pm.nf` and `xf->nm`, as `dp_do_nat` or a stored action sets
them -/
structure NatMeta where
  nf : NatFlag
  (nxip nrip : Addr)
  nxport : UInt16
  (nv6 dsr : Bool)
deriving DecidableEq

def NatMeta.send (n : NatMeta) (t : Tuple) : Tuple :=
  match n.nf with
  | .dst => rewrite true t n.nxip n.nrip n.nxport
  | .src => rewrite false t n.nxip n.nrip n.nxport
  | _ => t

/-- a missing address makes the transform a hairpin -/
def NatMeta.flags (n : NatMeta) : NatFlag :=
  if n.nxip = .zero then
    match n.nf with
    | .dst => .hdst
    | .src => .hsrc
    | f => f
  else n.nf

/-- `dp_ct_in` up to the key of the other direction: the transform of this packet over the first
scratch entry -/
def ctXi (n : NatMeta) (xi : Xfrm) : Xfrm :=
  { xi with
    natFlags := n.flags
    natXip := n.nxip
    natRip := n.nrip
    natXport := n.nxport
    nv6 := n.nv6
    dsr := n.dsr }

/-- the second scratch entry with the fields that are cleared -/
def ctXxi (xxi : Xfrm) : Xfrm :=
  { xxi with natFlags := .none, natXport := 0, natXip := .zero, natRip := .zero }

/-- the key of a packet; zone and tunnel are the same for both directions -/
def ctKey (t : Tuple) (zone : UInt16) (ident type : UInt32) : Key :=
  { daddr := t.daddr, saddr := t.saddr, sport := t.sport, dport := t.dport, zone := zone,
    l4proto := t.proto, v6 := t.v6, ident := ident, type := type }

/-- the two entries a first packet stores: their keys and transforms -/
structure Pair where
  key : Key
  xi : Xfrm
  xkey : Key
  xxi : Xfrm

/-- the entries `dp_ct_in` stores, from the scratch entries as it found them -/
def pairOf (key : Key) (n : NatMeta) (xi xxi : Xfrm) : Pair :=
  let r := protoXfkInit key (ctXi n xi) (ctXxi xxi)
  ⟨key, r.1, r.2.1, r.2.2⟩

/-- the NAT fields a packet gets from a stored entry (`dp_pipe_set_nat`); the action keeps the
`dsr` of the packet that stored it -/
def Xfrm.act (xi : Xfrm) (dsr : Bool) : NatMeta :=
  { nf := match xi.natFlags with
      | .dst | .hdst => .dst
      | _ => .src
    nxip := xi.natXip, nrip := xi.natRip, nxport := xi.natXport, nv6 := xi.nv6, dsr := dsr }

/-! ## the key of the other direction -/

/-- the key that the datapath and the ager both compute when there is no DSR -/
def Key.other (key : Key) (n : NatMeta) (f : NatFlag) : Key :=
  let ported := decide (key.l4proto ≠ protoIcmp)
  match f with
  | .none => key.swap
  | .dst =>
    { key.swap with
      v6 := n.nv6
      saddr := n.nxip
      daddr := if n.nrip = .zero then key.saddr else n.nrip
      sport := if ported && n.nxport ≠ 0 then n.nxport else key.dport }
  | .src =>
    { key.swap with
      v6 := n.nv6
      daddr := n.nxip
      saddr := if n.nrip = .zero then key.daddr else n.nrip
      dport := if ported && n.nxport ≠ 0 then n.nxport else key.sport }
  | .hdst =>
    { key.swap with
      saddr := key.saddr
      daddr := key.daddr
      sport := if ported && n.nxport ≠ 0 then n.nxport else key.dport }
  | .hsrc =>
    { key.swap with
      saddr := key.saddr
      daddr := key.daddr
      dport := if ported && n.nxport ≠ 0 then n.nxport else key.sport }

theorem ctm_other (key : Key) (xi : Xfrm) (h : xi.dsr = false) :
    ctmProtoXfkInit key xi false = key.other (xi.act false) xi.natFlags := by
  rcases xi with ⟨f, xip, rip, xport, nv6, dsr, mhon⟩
  subst h
  cases f <;> rfl

theorem xkey_other (key : Key) (n : NatMeta) (xi xxi : Xfrm) (h : n.dsr = false) :
    (pairOf key n xi xxi).xkey = key.other n n.flags := by
  rcases n with ⟨nf, xip, rip, xport, nv6, dsr⟩
  subst h
  unfold pairOf protoXfkInit ctXi
  generalize NatMeta.flags ⟨nf, xip, rip, xport, nv6, false⟩ = f
  cases f <;> rfl

/-! ## what a first packet stores -/

/-- the address and the port that the transform replaces, and the address of the other end -/
def Key.near (k : Key) (n : NatMeta) : Addr := if n.nf = .dst then k.daddr else k.saddr
def Key.nearPort (k : Key) (n : NatMeta) : UInt16 := if n.nf = .dst then k.dport else k.sport
def Key.far (k : Key) (n : NatMeta) : Addr := if n.nf = .dst then k.saddr else k.daddr

/-- the action later packets of the same direction find -/
def NatMeta.stored (n : NatMeta) (key : Key) : NatMeta :=
  { n with nxport := if key.l4proto ≠ protoIcmp ∧ n.nxport = 0 then key.nearPort n else n.nxport }

/-- the action the packets of the other direction find -/
def NatMeta.reverse (n : NatMeta) (key : Key) : NatMeta :=
  { nf := if n.nf = .dst then .src else .dst
    nxip := if n.nxip = .zero then .zero else key.near n
    nrip := if n.nxip = .zero ∨ n.nrip = .zero then .zero else key.far n
    nxport := if key.l4proto ≠ protoIcmp then key.nearPort n else 0
    nv6 := key.v6
    dsr := n.dsr }

def NatFlag.opposite : NatFlag → NatFlag
  | .none => .none
  | .dst => .src
  | .src => .dst
  | .hdst => .hsrc
  | .hsrc => .hdst

variable {n : NatMeta} {t : Tuple} {key : Key}

theorem flags_cases (h : n.nf = .dst ∨ n.nf = .src) :
    n.flags = if n.nxip = .zero then (if n.nf = .dst then .hdst else .hsrc) else n.nf := by
  unfold NatMeta.flags
  rcases h with h | h <;> rw [h] <;> rfl

theorem pair_actions (key : Key) (n : NatMeta) (xi xxi : Xfrm) (hn : n.nf = .dst ∨ n.nf = .src)
    (hd : n.dsr = false) :
    ((pairOf key n xi xxi).xi.act n.dsr = n.stored key ∧
      (pairOf key n xi xxi).xi.natFlags = n.flags ∧ (pairOf key n xi xxi).xi.dsr = false) ∧
    (pairOf key n xi xxi).xxi.act n.dsr = n.reverse key ∧
      (pairOf key n xi xxi).xxi.natFlags = n.flags.opposite ∧
      (pairOf key n xi xxi).xxi.dsr = xxi.dsr := by
  have hf := flags_cases hn
  rcases n with ⟨nf, xip, rip, xport, nv6, dsr⟩
  subst hd
  unfold pairOf protoXfkInit ctXi ctXxi
  rw [hf]
  rcases hn with rfl | rfl <;> by_cases hx : xip = .zero <;> by_cases hr : rip = .zero <;>
    simp [hx, hr, Xfrm.act, NatMeta.stored, NatMeta.reverse, Key.nearPort, Key.near, Key.far,
      NatFlag.opposite]

/-! ## keys against packets -/

def icmpOf (v6 : Bool) : UInt8 := if v6 then protoIcmpV6 else protoIcmp

structure SameFamily (t : Tuple) (n : NatMeta) : Prop where
  nat : n.nf = .dst ∨ n.nf = .src
  family : n.nv6 = t.v6
  narrow : t.v6 = false → n.nxip.low = n.nxip ∧ n.nrip.low = n.nrip
  proto : hasPorts t.proto = true ∨ t.proto = icmpOf t.v6

theorem send_eq (h : SameFamily t n) :
    n.send t = if n.nf = .dst then dnatAs (icmpOf t.v6) t n.nxip n.nrip n.nxport
      else snatAs (icmpOf t.v6) t n.nxip n.nrip n.nxport := by
  unfold NatMeta.send rewrite
  cases hv : t.v6 with
  | true =>
    rcases h.nat with hn | hn <;> rw [hn] <;> rfl
  | false =>
    obtain ⟨h1, h2⟩ := h.narrow hv
    rcases h.nat with hn | hn <;> simp only [hn, doDnat, doSnat, h1, h2] <;> rfl

theorem hasPorts_ne {p : UInt8} (h : hasPorts p = true) : p ≠ protoIcmp := by
  rintro rfl
  cases h

@[simp] theorem hasPorts_icmp : hasPorts protoIcmp = false := rfl
@[simp] theorem hasPorts_icmpV6 : hasPorts protoIcmpV6 = false := rfl
@[simp] theorem protoIcmpV6_ne : protoIcmpV6 ≠ protoIcmp := by decide

/-- a key follows a rewriting: no port is written as zero, an ICMP packet is not a hairpin, and an
ICMPv6 identifier keeps its value -/
def Wire (key : Key) (n : NatMeta) : Prop :=
  if hasPorts key.l4proto = true then n.nf = .dst → n.nxport ≠ 0 ∨ key.dport = 0
  else (n.nxip = .zero → key.far n = .zero ∧
      key.near n = if n.nrip = .zero then key.far n else n.nrip) ∧
    (key.v6 = true → n.nxport = 0 ∨ n.nxport = key.nearPort n)

/-- **the key of the reply to a packet that was sent** is the key of the other direction exactly
when the rewriting satisfies `Wire` -/
theorem reply_iff (h : SameFamily t n) (zone : UInt16) (ident type : UInt32) :
    ctKey (n.send t).swap zone ident type = (ctKey t zone ident type).other n n.flags ↔
      Wire (ctKey t zone ident type) n := by
  rw [send_eq h, flags_cases h.nat]
  obtain ⟨hn, hfam, -, hp⟩ := h
  rcases t with ⟨sa, da, sp, dp, pr, v6⟩
  rcases n with ⟨nf, xip, rip, xport, nv6, dsr⟩
  dsimp only at hn hfam hp ⊢
  subst hfam
  rcases hp with hp | rfl
  · have h1 := hasPorts_ne hp
    rcases hn with rfl | rfl <;> by_cases hx : xip = .zero <;> by_cases h0 : xport = 0 <;>
      simp [hx, hp, h1, h0, dnatAs, snatAs, Key.other, Key.swap, Tuple.swap, ctKey, Wire, eq_comm]
  · rcases hn with rfl | rfl <;> by_cases hx : xip = .zero <;> by_cases h0 : xport = 0 <;>
      cases nv6 <;>
      simp [hx, h0, dnatAs, snatAs, Key.other, Key.swap, Tuple.swap, ctKey, Wire, icmpOf,
        Key.far, Key.near, Key.nearPort]
    all_goals grind

theorem other_stored (hn : n.nf = .dst ∨ n.nf = .src) :
    key.other (n.stored key) n.flags = key.other n n.flags := by
  rw [flags_cases hn]
  rcases n with ⟨nf, xip, rip, xport, nv6, dsr⟩
  rcases hn with rfl | rfl <;> by_cases hx : xip = .zero <;> by_cases h0 : xport = 0 <;>
    by_cases hp : key.l4proto = protoIcmp <;>
    simp [hx, h0, hp, Key.other, NatMeta.stored, Key.nearPort]

theorem again_iff (hn : n.nf = .dst ∨ n.nf = .src) :
    (key.other n n.flags).other (n.reverse key) (n.reverse key).flags = key ↔
      (n.nxip ≠ .zero → key.near n ≠ .zero ∧ (n.nrip ≠ .zero → key.far n ≠ .zero)) ∧
      (key.l4proto ≠ protoIcmp → key.nearPort n ≠ 0 ∨ n.nxport = 0) := by
  rcases n with ⟨nf, xip, rip, xport, nv6, dsr⟩
  rcases key with ⟨da, sa, sp, dp, zone, pr, v6, ident, type⟩
  by_cases hx : xip = .zero
  · rcases hn with rfl | rfl <;>
      simp [hx, Key.other, NatMeta.reverse, NatMeta.flags, Key.nearPort, Key.swap] <;> grind
  · rcases hn with rfl | rfl <;> by_cases hs : sa = .zero <;> by_cases hd : da = .zero <;>
      by_cases hr : rip = .zero <;>
      simp [hx, hs, hd, hr, Key.other, NatMeta.reverse, NatMeta.flags, Key.nearPort, Key.near,
        Key.far, Key.swap] <;> grind

theorem wire_stored (h : Wire key n) : Wire key (n.stored key) := by
  unfold Wire NatMeta.stored Key.far Key.near Key.nearPort at *
  split_ifs at * <;> grind

theorem reverse_flags (hn : n.nf = .dst ∨ n.nf = .src) (h : n.nxip ≠ .zero → key.near n ≠ .zero) :
    (n.reverse key).flags = n.flags.opposite := by
  rcases n with ⟨nf, xip, rip, xport, nv6, dsr⟩
  by_cases hx : xip = .zero
  · rcases hn with rfl | rfl <;> simp [hx, NatMeta.reverse, NatMeta.flags, NatFlag.opposite]
  · have := h hx
    rcases hn with rfl | rfl <;> simp_all [NatMeta.reverse, NatMeta.flags, NatFlag.opposite]

/-- the key of a first packet: ports that are not zero, or an echo identifier in both ports -/
structure FirstKey (key : Key) (n : NatMeta) : Prop where
  nat : n.nf = .dst ∨ n.nf = .src
  family : n.nv6 = key.v6
  proto : (hasPorts key.l4proto = true ∧ key.sport ≠ 0 ∧ key.dport ≠ 0) ∨
    (key.l4proto = icmpOf key.v6 ∧ key.sport = key.dport)

/-- the transforms that the table can carry: a protocol with ports gets a destination port, the
identifier of an ICMPv6 echo stays, a hairpin has ports, and no replaced address is the unspecified
one -/
def Fits (key : Key) (n : NatMeta) : Prop :=
  (if hasPorts key.l4proto = true then n.nf = .dst → n.nxport ≠ 0
    else key.v6 = true → n.nxport = 0 ∨ n.nxport = key.nearPort n) ∧
  if n.nxip = .zero then
    hasPorts key.l4proto = true ∨ (key.saddr = .zero ∧ key.daddr = .zero ∧ n.nrip = .zero)
  else key.near n ≠ .zero ∧ (n.nrip ≠ .zero → key.far n ≠ .zero)

theorem fits_iff (h : FirstKey key n) :
    Fits key n ↔ Wire key n ∧ Wire (key.other n n.flags) (n.reverse key) ∧
      (key.other n n.flags).other (n.reverse key) (n.reverse key).flags = key := by
  rw [again_iff h.nat, flags_cases h.nat]
  obtain ⟨hn, hfam, hp⟩ := h
  rcases n with ⟨nf, xip, rip, xport, nv6, dsr⟩
  rcases key with ⟨da, sa, sp, dp, zone, pr, v6, ident, type⟩
  dsimp only at hn hfam hp ⊢
  subst hfam
  rcases hp with ⟨hp, hs, hd⟩ | ⟨rfl, rfl⟩
  · have h1 := hasPorts_ne hp
    rcases hn with rfl | rfl <;> by_cases hx : xip = .zero <;>
      simp [hx, hp, h1, hs, hd, Fits, Wire, Key.other, Key.swap, NatMeta.reverse, Key.far, Key.near,
        Key.nearPort]
  · rcases hn with rfl | rfl <;> by_cases hx : xip = .zero <;> cases nv6 <;>
      simp [hx, icmpOf, Fits, Wire, Key.other, Key.swap, NatMeta.reverse, Key.far, Key.near,
        Key.nearPort] <;> grind

def Unaltered (key : Key) (n : NatMeta) : Prop :=
  (if n.nxip = .zero then key.saddr = key.daddr
    else key.near n = n.nxip ∧ (n.nrip = .zero ∨ n.nrip = key.far n)) ∧
  (key.l4proto = protoIcmp ∨ n.nxport = 0 ∨ n.nxport = key.nearPort n)

theorem swap_other_iff (h : FirstKey key n) :
    (key.other n n.flags).swap = key ↔ Unaltered key n := by
  rw [flags_cases h.nat]
  obtain ⟨hn, hfam, -⟩ := h
  rcases n with ⟨nf, xip, rip, xport, nv6, dsr⟩
  rcases key with ⟨da, sa, sp, dp, zone, pr, v6, ident, type⟩
  rcases hn with rfl | rfl <;> by_cases hx : xip = .zero <;>
    simp [hx, Unaltered, Key.other, Key.swap, Key.far, Key.near, Key.nearPort] <;> grind

/-! ## the two halves of a connection -/

/-- a first packet and the transform of its rule, without DSR and within one family -/
structure Translates (t : Tuple) (n : NatMeta) : Prop where
  nat : n.nf = .dst ∨ n.nf = .src
  dsr : n.dsr = false
  family : n.nv6 = t.v6
  narrow : t.v6 = false → t.saddr.low = t.saddr ∧ t.daddr.low = t.daddr ∧
    n.nxip.low = n.nxip ∧ n.nrip.low = n.nrip
  proto : (hasPorts t.proto = true ∧ t.sport ≠ 0 ∧ t.dport ≠ 0) ∨
    (t.proto = icmpOf t.v6 ∧ t.sport = t.dport)

/-- the entries are inverse on the wire, in the datapath and for the ager; the first packet is sent
with the rule's own transform -/
structure Inverse (t : Tuple) (n : NatMeta) (zone : UInt16) (ident type : UInt32) (p : Pair) :
    Prop where
  reply : ctKey (n.send t).swap zone ident type = p.xkey
  replyLater : ctKey ((p.xi.act n.dsr).send t).swap zone ident type = p.xkey
  back : (p.xxi.act n.dsr).send (n.send t).swap = t.swap
  backLater : (p.xxi.act n.dsr).send ((p.xi.act n.dsr).send t).swap = t.swap
  again : ∀ xi xxi, (pairOf p.xkey (p.xxi.act n.dsr) xi xxi).xkey = p.key
  aged : ctmProtoXfkInit p.key p.xi false = p.xkey
  agedBack : ctmProtoXfkInit p.xkey p.xxi false = p.key

theorem ctKey_inj {u : Tuple} {zone : UInt16} {ident type : UInt32} :
    ctKey t zone ident type = ctKey u zone ident type ↔ t = u := by
  rcases t with ⟨sa, da, sp, dp, pr, v6⟩
  rcases u with ⟨sa', da', sp', dp', pr', v6'⟩
  simp only [ctKey, Key.mk.injEq, Tuple.mk.injEq]
  tauto

@[simp] theorem Tuple.swap_swap (t : Tuple) : t.swap.swap = t := rfl

theorem send_same (h : SameFamily t n) : (n.send t).v6 = t.v6 ∧ (n.send t).proto = t.proto := by
  rw [send_eq h]
  unfold dnatAs snatAs
  split_ifs <;> exact ⟨rfl, rfl⟩

section
variable {t : Tuple} {n : NatMeta} (h : Translates t n) (zone : UInt16) (ident type : UInt32)
  (xi xxi : Xfrm)
include h

theorem Translates.same : SameFamily t n :=
  ⟨h.nat, h.family, fun hv => (h.narrow hv).2.2, h.proto.imp And.left And.left⟩

theorem Translates.first : FirstKey (ctKey t zone ident type) n := { h with }

theorem Translates.sameReverse :
    SameFamily (n.send t).swap (n.reverse (ctKey t zone ident type)) := by
  obtain ⟨hv, hp⟩ := send_same h.same
  refine ⟨?_, hv.symm, ?_, ?_⟩
  · rcases h.nat with hn | hn <;> simp [NatMeta.reverse, hn]
  · intro hw
    obtain ⟨h1, h2, -, -⟩ := h.narrow (hv ▸ hw)
    unfold NatMeta.reverse Key.near Key.far
    constructor <;> dsimp only <;> split_ifs <;> first | rfl | exact h1 | exact h2
  · show hasPorts (n.send t).proto = true ∨ (n.send t).proto = icmpOf (n.send t).v6
    rw [hv, hp]
    exact h.same.proto

theorem send_stored (hw : Wire (ctKey t zone ident type) n) :
    (n.stored (ctKey t zone ident type)).send t = n.send t := by
  have hs : SameFamily t (n.stored (ctKey t zone ident type)) :=
    ⟨h.nat, h.family, h.same.narrow, h.same.proto⟩
  have first := (reply_iff h.same zone ident type).2 hw
  have later := (reply_iff hs zone ident type).2 (wire_stored hw)
  rw [show (n.stored (ctKey t zone ident type)).flags = n.flags from rfl, other_stored h.nat,
    ← first, ctKey_inj] at later
  rw [← Tuple.swap_swap (NatMeta.send _ t), later, Tuple.swap_swap]

theorem back_iff
    (hr : ctKey (n.send t).swap zone ident type = (ctKey t zone ident type).other n n.flags)
    (ha : ((ctKey t zone ident type).other n n.flags).other (n.reverse (ctKey t zone ident type))
      (n.reverse (ctKey t zone ident type)).flags = ctKey t zone ident type) :
    (n.reverse (ctKey t zone ident type)).send (n.send t).swap = t.swap ↔
      Wire ((ctKey t zone ident type).other n n.flags) (n.reverse (ctKey t zone ident type)) := by
  have hw := reply_iff (h.sameReverse zone ident type) zone ident type
  rw [hr, ha, ctKey_inj] at hw
  rw [← hw]
  constructor <;> intro e
  · rw [e, Tuple.swap_swap]
  · rw [← e, Tuple.swap_swap, e]

theorem aged_iff (key : Key) (hkey : key = ctKey t zone ident type)
    (ha : (key.other n n.flags).other (n.reverse key) (n.reverse key).flags = key) :
    ctmProtoXfkInit (key.other n n.flags) (pairOf key n xi xxi).xxi false = key ↔
      xxi.dsr = false ∨ Unaltered key n := by
  obtain ⟨-, hact, hflags, hdsr⟩ := pair_actions key n xi xxi h.nat h.dsr
  cases hd : xxi.dsr with
  | false =>
    have hz := ((again_iff h.nat).1 ha).1
    rw [ctm_other _ _ (hdsr.trans hd), ← h.dsr, hact, hflags,
      ← reverse_flags h.nat (fun hx => (hz hx).1), ha]
    simp
  | true =>
    subst hkey
    rw [ctmProtoXfkInit, hdsr.trans hd, Bool.true_or, if_pos rfl,
      swap_other_iff (h.first zone ident type)]
    simp

end

/-- **the two halves of a translated connection are inverse** exactly for the transforms of `Fits`,
as long as no `dsr` of an earlier connection is left in the scratch entry -/
theorem pair_inverse (t : Tuple) (n : NatMeta) (zone : UInt16) (ident type : UInt32)
    (xi xxi : Xfrm) (h : Translates t n) :
    Inverse t n zone ident type (pairOf (ctKey t zone ident type) n xi xxi) ↔
      Fits (ctKey t zone ident type) n ∧
        (xxi.dsr = false ∨ Unaltered (ctKey t zone ident type) n) := by
  obtain ⟨key, hkey⟩ : ∃ key, key = ctKey t zone ident type := ⟨_, rfl⟩
  rw [← hkey, fits_iff (hkey ▸ h.first zone ident type)]
  obtain ⟨⟨hact, hflags, hdsr⟩, hact', -⟩ := pair_actions key n xi xxi h.nat h.dsr
  have hx := xkey_other key n xi xxi h.dsr
  have hreply := hkey ▸ reply_iff h.same zone ident type
  have hagain : ∀ yi yyi, (pairOf (key.other n n.flags) (n.reverse key) yi yyi).xkey =
      (key.other n n.flags).other (n.reverse key) (n.reverse key).flags :=
    fun yi yyi => xkey_other _ _ yi yyi h.dsr
  constructor
  · rintro ⟨reply, -, back, -, again, -, agedBack⟩
    rw [hx] at reply again agedBack
    rw [hact'] at back again
    have ha := (hagain xi xxi).symm.trans (again xi xxi)
    refine ⟨⟨hreply.1 reply, ?_, ha⟩, (aged_iff h zone ident type xi xxi key hkey ha).1 agedBack⟩
    subst hkey
    exact (back_iff h zone ident type reply ha).1 back
  · rintro ⟨⟨hw, hw', ha⟩, hd⟩
    have reply := hreply.2 hw
    have later : (n.stored key).send t = n.send t := hkey ▸ send_stored h zone ident type (hkey ▸ hw)
    have back : (n.reverse key).send (n.send t).swap = t.swap := by
      subst hkey
      exact (back_iff h zone ident type reply ha).2 hw'
    refine ⟨?_, ?_, ?_, ?_, ?_, ?_, ?_⟩
    · rw [hx, reply]
    · rw [hx, hact, later, reply]
    · rw [hact', back]
    · rw [hact, hact', later, back]
    · intro yi yyi
      rw [hx, hact', hagain, ha]
      rfl
    · show ctmProtoXfkInit key (pairOf key n xi xxi).xi false = _
      rw [ctm_other _ _ hdsr, ← h.dsr, hact, hflags, other_stored h.nat, hx]
    · rw [hx]
      exact (aged_iff h zone ident type xi xxi key hkey ha).2 hd

def sampleAddr (a : UInt32) : Addr := ⟨a, 0, 0, 0⟩
def cleanXfrm : Xfrm := ⟨.none, .zero, .zero, 0, false, false, false⟩
def sampleUdp : Tuple := ⟨sampleAddr 1, sampleAddr 2, 40000, 53, protoUdp, false⟩
def sampleDnat (xport : UInt16) : NatMeta := ⟨.dst, sampleAddr 3, .zero, xport, false, false⟩

theorem sample_translates (xport : UInt16) : Translates sampleUdp (sampleDnat xport) :=
  ⟨.inl rfl, rfl, rfl, fun _ => ⟨rfl, rfl, rfl, rfl⟩, .inl (by decide)⟩

/-- a rule that names the endpoint's port satisfies the condition, and its entries are inverse -/
theorem named_port_inverse : Inverse sampleUdp (sampleDnat 5353) 1 0 0
      (pairOf (ctKey sampleUdp 1 0 0) (sampleDnat 5353) cleanXfrm cleanXfrm) :=
  (pair_inverse _ _ _ _ _ _ _ (sample_translates 5353)).2 ⟨⟨by decide, by decide⟩, .inl rfl⟩

/-- a rule that keeps the port: the first datagram leaves for port 0, and the reply to it has no
entry -/
theorem kept_port_lost : Translates sampleUdp (sampleDnat 0) ∧
      ((sampleDnat 0).send sampleUdp).dport = 0 ∧
      ¬Inverse sampleUdp (sampleDnat 0) 1 0 0
        (pairOf (ctKey sampleUdp 1 0 0) (sampleDnat 0) cleanXfrm cleanXfrm) :=
  ⟨sample_translates 0, rfl, fun h => absurd h.reply (by decide)⟩

end Ct
