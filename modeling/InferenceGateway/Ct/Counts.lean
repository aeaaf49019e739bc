import InferenceGateway.Ct.Scratch
import InferenceGateway.Lib.Assoc

/-!
# The connection counters of a rule

`nat_ep_map` holds for every rule the number of its live connections (`conc_conns`, compared with
the connection limit) and, for a least-connections rule, the number on each endpoint
(`active_sess`).  They are raised in the selector and in connection creation, and lowered in the
datapath's teardown and in the ager.

* `selNatEp`, `doNat`      the selector and the connection limit;
* `estEntries`, `Homes.doomed`   the further entries of a connection;
* `firstPacket`, `laterPacket`, `age`, `reset`   the operations on the table and the counters;
* `Balanced`               the counters are the live connections;
* `counters_balanced`      what keeps them so over a whole run.
-/

open Function List Option UInt32 Nat

namespace Ct

open Assoc

/-! ## rules and counters -/

/-- a rule index, the key of `nat_ep_map` -/
abbrev RuleId := Fin (4 * 1024)
def ctMapEntries : Nat := 256 * 1024 * 2

/-- `LLB_MAX_NXFRMS` endpoint slots -/
abbrev SlotId := Fin 32

inductive Selector where
  | rr | hash | prio | rrPersist | lc | n2 | n3 | chwbl | gpuAware | wrrHash
deriving DecidableEq

/-- `struct mf_xfrm_inf` of an endpoint -/
structure Slot where
  inactive : Bool
  (xip rip : Addr)
  xport : UInt16
  nv6 : Bool

/-- what a rule says besides its endpoints -/
structure RuleConf where
  (snat dsr : Bool)
  selType : Selector
  connLimit : UInt32

/-- `struct dp_nat_epacts`; `sess` is the action type `DP_SET_NACT_SESS` -/
structure EpActs where
  sess : Bool
  activeSess : SlotId → UInt16
  concConns : UInt32

def EpActs.zero : EpActs := ⟨false, fun _ => 0, 0⟩

/-- a counter of one slot, moved by `f` -/
def EpActs.mapSess (ep : EpActs) (i : SlotId) (f : UInt16 → UInt16) : EpActs :=
  { ep with activeSess := update ep.activeSess i (f (ep.activeSess i)) }

/-! ## selection -/

/-- the least-connections loop over the first half of the slots: the first active one with the
fewest sessions -/
def lcLoop (slots : SlotId → Slot) (as : SlotId → UInt16) : List SlotId → Option SlotId → Option SlotId
  | [], sel => sel
  | i :: is, sel =>
    if (slots i).inactive then lcLoop slots as is sel
    else
      match sel with
      | none => lcLoop slots as is (some i)
      | some j => lcLoop slots as is (if as j > as i then some i else some j)

def lcSlots : List SlotId := (finRange 32).take 16

/-- `dp_sel_nat_ep`.  Only the least-connections selector counts the session it selects; `pick` is
what the others come to -/
def selNatEp (sel : Selector) (slots : SlotId → Slot) (pick : Option SlotId) (ep : EpActs) :
    EpActs × Option SlotId :=
  match sel with
  | .lc =>
    let ep := { ep with sess := true }
    match lcLoop slots ep.activeSess lcSlots none with
    | some i => (ep.mapSess i (· + 1), some i)
    | none => (ep, none)
  | .rr | .prio | .hash | .n3 | .rrPersist => (ep, pick)
  | .n2 | .chwbl | .gpuAware | .wrrHash => (ep, none)

def full (rule : RuleConf) (ep : EpActs) : Bool :=
  rule.connLimit ≠ 0 && rule.connLimit ≤ ep.concConns

/-- `dp_do_nat` for the rule that was found: the counters, and the endpoint with the NAT fields of
the packet, or none when it is refused -/
def doNat (rule : RuleConf) (slots : SlotId → Slot) (pick : Option SlotId) (key : Key)
    (ep : EpActs) : EpActs × Option (SlotId × NatMeta) :=
  let r := selNatEp rule.selType slots pick ep
  match r.2 with
  | none => (r.1, none)
  | some i =>
    if full rule r.1 then (r.1, none)
    else
      let sl := slots i
      -- an endpoint that is the client itself
      let host := !sl.nv6 && !rule.snat && key.saddr.w0 = sl.xip.w0
      (r.1, some (i,
        { nf := if rule.snat then .src else .dst
          nxip := if host then { sl.xip with w0 := 0 } else sl.xip
          nrip := sl.rip, nxport := sl.xport, nv6 := sl.nv6, dsr := rule.dsr }))

/-! ## the table -/

/-- the fields of an entry of `ct_map` that matter here -/
structure CtEnt where
  dir : Dir
  xi : Xfrm
  (dsr frag : Bool)
  rid : RuleId
  aid : Nat
deriving DecidableEq

def CtEnt.nat (e : CtEnt) : Bool := e.xi.natFlags ≠ .none
abbrev CtTable := List (Key × CtEnt)

structure Tracker where
  table : CtTable
  eps : RuleId → EpActs

/-- `bpf_map_update_elem` on `ct_map`: a new key needs room -/
def ctUpdate (t : CtTable) (k : Key) (e : CtEnt) : CtTable :=
  if (t.lookup k).isSome || t.length < ctMapEntries then put t k e else t

def Tracker.setEp (s : Tracker) (r : RuleId) (ep : EpActs) : Tracker :=
  { s with eps := update s.eps r ep }

def tracked (p : UInt8) : Bool := hasPorts p || p = protoIcmp || p = protoIcmpV6

/-- the counters after a teardown: `dp_do_dec_nat_sess`, and the live count, which is kept from
going below zero -/
def EpActs.release (ep : EpActs) (aid : Nat) : EpActs :=
  let ep := if h : ep.sess = true ∧ aid < 32 then ep.mapSess ⟨aid, h.2⟩ (· - 1) else ep
  { ep with concConns := if 0 < ep.concConns then ep.concConns - 1 else ep.concConns }

/-! ## the further entries of a connection -/

/-- what `dp_ct_est` and `dp_ct_ctd` read of a packet and of the SCTP machine's record in its
entries: the addresses of the two sides, and the further addresses of the rule in both entries -/
structure Homes where
  /-- `mhon` in the inbound entry, and no heartbeat -/
  mhon : Bool
  npmhh : Bool
  saddr : UInt32
  (nh xnh : Nat)
  (mhHost xmhHost pmhh xpmhh : Nat → UInt32)
  (odst xosrc xodst : UInt32)

def maxMhosts : Nat := 3

/-- the pairs of addresses that `dp_ct_est` adds: each further address of the client with a further
one of the rule, then the first address with those left over -/
def Homes.alternates (h : Homes) : List Alternate :=
  let n := max 1 (min h.nh maxMhosts)
  if (range (min h.nh maxMhosts)).any (fun i => h.mhHost i = h.saddr) && h.xosrc ≠ 0 then
    ((range' 1 (n - 1)).map (fun i => (i, i - 1)) ++
        (range' (n - 1) (maxMhosts - (n - 1))).map (fun j => (0, j))).filterMap fun (i, j) =>
      if h.pmhh j ≠ 0 ∧ h.mhHost i ≠ 0 then
        some ⟨h.pmhh j, h.mhHost i, if h.xmhHost i ≠ 0 then h.xmhHost i else h.xosrc⟩
      else none
  else []

def Key.setLow (k : Key) (saddr daddr : UInt32) : Key :=
  { k with saddr := k.saddr.setLow saddr, daddr := k.daddr.setLow daddr }

/-- one pair more, in the order of its writes -/
def Alternate.pair (m : Alternate) (k xk : Key) (a b : CtEnt) : CtTable :=
  [(xk.setLow m.secondaryEp m.mhvip, { b with xi := { b.xi with
      mhon := false, natXip := b.xi.natXip.setLow m.mhvip, natRip := b.xi.natRip.setLow m.primarySrc } }),
    (k.setLow m.primarySrc m.mhvip, { a with xi := { a.xi with
      mhon := false, natRip := a.xi.natRip.setLow m.mhvip, natXip := a.xi.natXip.setLow m.secondaryEp } })]

/-- `dp_ct_est`: what it writes for the inbound entry `a` at `k` and the outbound entry `b`, after a
packet of direction `d` -/
def estEntries (slim : Bool) (d : Dir) (k xk : Key) (a b : CtEnt) (ssnid : UInt16) (h : Homes) : CtTable :=
  if a.xi.dsr || a.xi.nv6 then []
  else if k.l4proto = protoUdp then
    if ssnid = 0 then []
    else
      -- the key of the fragments that follow, which have no ports
      match d with
      | .inbound => [({ k with sport := ssnid, dport := ssnid }, { a with frag := true })]
      | .outbound => [({ xk with sport := ssnid, dport := ssnid }, { b with frag := true })]
  else if k.l4proto = protoSctp && !slim && h.mhon && d = .inbound then
    h.alternates.flatMap fun m => m.pair k xk a b
  else []

/-- `dp_ct_ctd`: the keys that it deletes -/
def Homes.doomed (slim : Bool) (h : Homes) (k xk : Key) : List Key :=
  if k.l4proto = protoSctp && !slim && h.npmhh then
    ((range (min h.nh maxMhosts)).flatMap fun i =>
      ((range maxMhosts).flatMap fun j => if h.pmhh j ≠ 0 ∧ h.mhHost i ≠ 0 then
        [k.setLow (h.mhHost i) (h.pmhh j), { xk with daddr := xk.daddr.setLow (h.pmhh j) }] else []) ++
      [k.setLow (h.mhHost i) h.odst]) ++
    (range (min h.xnh maxMhosts)).flatMap fun i =>
      ((range maxMhosts).flatMap fun j => if h.xpmhh j ≠ 0 ∧ h.xmhHost i ≠ 0 then
        [xk.setLow (h.xmhHost i) (h.xpmhh j)] else []) ++ [xk.setLow (h.xmhHost i) h.xodst]
  else []

/-- what the state machine comes to: `CT_SMR_EST` and `CT_SMR_UEST`, with the number of a fragmented
datagram; `CT_SMR_ERR` and `CT_SMR_CTD`; or anything else -/
inductive Answer where
  | going
  | est (ssnid : UInt16) (h : Homes)
  | torn (h : Homes)

/-- what an answer writes and what it deletes, for the entry `a` of the packet and its twin -/
def Answer.writes (slim : Bool) (k xk : Key) (a b : CtEnt) : Answer → CtTable
  | .est ssnid h =>
    if a.nat then
      match a.dir with
      | .inbound => estEntries slim .inbound k xk a b ssnid h
      | .outbound => estEntries slim .outbound xk k b a ssnid h
    else []
  | _ => []

def Answer.deletes (slim : Bool) (k xk : Key) (a : CtEnt) : Answer → List Key
  | .torn h =>
    match a.dir with
    | .inbound => h.doomed slim k xk
    | .outbound => h.doomed slim xk k
  | _ => []

/-- the end of `dp_ct_in` when the connection is given up -/
def Tracker.teardown (s : Tracker) (k xk : Key) (a : CtEnt) (gone : List Key) : Tracker :=
  let s' : Tracker := { s with table := (del (del s.table xk) k).filter fun p => !gone.contains p.1 }
  if a.nat then s'.setEp a.rid ((s.eps a.rid).release a.aid) else s'

/-- the end of `dp_ct_in`, when the packet has both its entries -/
def Tracker.meet (slim : Bool) (s : Tracker) (k xk : Key) (ans : Answer) : Tracker :=
  match s.table.lookup k, s.table.lookup xk with
  | some a, some b =>
    match ans with
    | .torn _ => s.teardown k xk a (ans.deletes slim k xk a)
    | _ => { s with table := (ans.writes slim k xk a b).foldl (fun t x => ctUpdate t x.1 x.2) s.table }
  | _, _ => s

def NatMeta.plain : NatMeta := ⟨.none, .zero, .zero, 0, false, false⟩

/-- `dp_ct_in` for a packet that has no entry: the count is raised before the key of the other
direction is looked up; with that key, when the two entries are written -/
def Tracker.create (s : Tracker) (key : Key) (n : NatMeta) (rid : RuleId) (aid : Nat) (xi xxi : Xfrm) :
    Tracker × Option Key :=
  let p := pairOf key n xi xxi
  let s := if p.xi.natFlags ≠ .none then
      s.setEp rid { s.eps rid with concConns := (s.eps rid).concConns + 1 } else s
  let e : CtEnt := ⟨.inbound, p.xi, n.dsr, false, rid, aid⟩
  let e' : CtEnt := ⟨.outbound, p.xxi, n.dsr, false, rid, aid⟩
  if (s.table.lookup p.xkey).isSome then (s, none)
  else ({ s with table := ctUpdate (ctUpdate s.table p.xkey e') key e }, some p.xkey)

/-! ## operations -/

/-- a packet of a connection that is not in the table: its rule and endpoints, the selector's
answer, the scratch transforms, and the state machine's answer -/
structure First where
  key : Key
  rule : Option RuleId
  slots : SlotId → Slot
  pick : Option SlotId
  (xi xxi : Xfrm)
  ans : Answer

/-- the build, and the rules -/
structure GwConf where
  slim : Bool
  rules : RuleId → RuleConf

section
variable (c : GwConf)

def opening (s : Tracker) (f : First) : Tracker × Option Key :=
  match f.rule with
  | none => if tracked f.key.l4proto then s.create f.key .plain 0 0 f.xi f.xxi else (s, none)
  | some r =>
    let d := doNat (c.rules r) f.slots f.pick f.key (s.eps r)
    let s := s.setEp r d.1
    if tracked f.key.l4proto then
      match d.2 with
      | some (i, n) => s.create f.key n r i f.xi f.xxi
      | none => s.create f.key .plain 0 0 f.xi f.xxi
    else (s, none)

def firstPacket (s : Tracker) (f : First) : Tracker :=
  if (s.table.lookup f.key).isSome then s
  else
    match opening c s f with
    | (s', some xk) => s'.meet c.slim f.key xk f.ans
    | (s', none) => s'

/-- the key under which a packet of an entry looks for the other one -/
def CtEnt.twin (e : CtEnt) (k : Key) (xi xxi : Xfrm) : Key :=
  (pairOf k (if e.nat then e.xi.act e.dsr else .plain) xi xxi).xkey

/-- a packet of a connection in the table that reaches the state machine -/
def laterPacket (s : Tracker) (k : Key) (xi xxi : Xfrm) (ans : Answer) : Tracker :=
  match s.table.lookup k with
  | none => s
  | some a => s.meet c.slim k (a.twin k xi xxi) ans

/-- `llb_nat_dec_act_sessions`: in the full build the test of the lookup is the wrong way round, and
nothing is written -/
def EpActs.decActSessions (ep : EpActs) (aid : Nat) : EpActs :=
  if h : c.slim = true ∧ aid < 32 then
    if 0 < ep.activeSess ⟨aid, h.2⟩ then ep.mapSess ⟨aid, h.2⟩ (· - 1) else ep
  else ep

/-- `ll_ct_map_ent_has_aged` on one entry; `due` is whether the times say that it goes -/
def age (s : Tracker) (k : Key) (due : Bool) : Tracker :=
  match s.table.lookup k with
  | none => s
  | some e =>
    let xk := ctmProtoXfkInit k e.xi e.frag
    if !due then s
    else if !e.frag && (s.table.lookup xk).isNone then { s with table := del s.table k }
    else
      let s' := if e.nat then s.setEp e.rid ((s.eps e.rid).decActSessions c e.aid) else s
      let t := if e.frag then s.table else del s.table xk
      { s' with table := del t k }

/-- `llb_nat_rst_act_sessions`, with the same test -/
def EpActs.rstActSessions (ep : EpActs) : EpActs := if c.slim then .zero else ep

/-- a rule is written again: its counters, and the connections of its inactive endpoints -/
def reset (s : Tracker) (r : RuleId) (aids : List Nat) : Tracker :=
  let s := s.setEp r ((s.eps r).rstActSessions c)
  { s with table := s.table.filter fun p => !(decide (p.2.rid = r) && aids.contains p.2.aid) }

inductive CtOp where
  | first (f : First)
  | later (k : Key) (xi xxi : Xfrm) (ans : Answer)
  | age (k : Key) (due : Bool)
  | reset (r : RuleId) (aids : List Nat)

def Tracker.step (s : Tracker) : CtOp → Tracker
  | .first f => firstPacket c s f
  | .later k xi xxi ans => laterPacket c s k xi xxi ans
  | .age k due => Ct.age c s k due
  | .reset r aids => Ct.reset c s r aids

def Tracker.start : Tracker := ⟨[], fun _ => .zero⟩

/-! ## the balance -/

/-- the entry of a translated pair that is counted: its inbound one, which is no fragments' entry -/
def CtEnt.leads (e : CtEnt) : Bool := e.dir = .inbound && e.nat && !e.frag

/-- the translated pairs of a table, by rule and endpoint -/
def pairs (t : CtTable) (q : RuleId → Nat → Bool) : Nat :=
  t.countP fun p => p.2.leads && q p.2.rid p.2.aid

def Tracker.live (s : Tracker) (r : RuleId) : Nat := pairs s.table fun r' _ => r' = r

def Tracker.liveOn (s : Tracker) (r : RuleId) (i : SlotId) : Nat :=
  pairs s.table fun r' j => r' = r && j = i

/-- **the counters are the live connections**, so no rule is over its limit and a rule without
connections accepts -/
structure Balanced (s : Tracker) : Prop where
  conc : ∀ r, (s.eps r).concConns.toNat = s.live r
  sess : ∀ r, (c.rules r).selType = .lc → ∀ i, ((s.eps r).activeSess i).toNat = s.liveOn r i
  limit : ∀ r, (c.rules r).connLimit ≠ 0 → (s.eps r).concConns ≤ (c.rules r).connLimit
  reopens : ∀ r, s.live r = 0 → full (c.rules r) (s.eps r) = false

/-- the two entries a teardown removes are one connection, with one counted entry, or none when it
is not translated -/
def own (k xk : Key) (a b : CtEnt) : Bool :=
  if a.nat then
    (a.leads && (xk = k || !b.leads)) || (!a.leads && b.leads && b.rid = a.rid && b.aid = a.aid)
  else !b.leads

/-- the counters follow the answer: it writes no counted entry and over none, so the association is
not multi-homed; or it removes one connection, and nothing else that is counted -/
def Tracker.follows (slim : Bool) (s : Tracker) (k xk : Key) (ans : Answer) : Bool :=
  match s.table.lookup k, s.table.lookup xk with
  | some a, some b =>
    match ans with
    | .torn _ => own k xk a b && s.table.all fun p =>
        p.1 = k || p.1 = xk || !(ans.deletes slim k xk a).contains p.1 || !p.2.leads
    | _ => (ans.writes slim k xk a b).all fun x => !x.2.leads && (s.table.lookup x.1).all (!·.leads)
  | _, _ => true

/-- a translated first packet finds its reverse key free and room for two entries, and a
least-connections rule refuses nobody it has selected and counts no untracked packet -/
def opens (s : Tracker) (f : First) : Bool :=
  match f.rule with
  | none => true
  | some r =>
    let d := doNat (c.rules r) f.slots f.pick f.key (s.eps r)
    match d.2 with
    | none => (c.rules r).selType ≠ .lc || (lcLoop f.slots (s.eps r).activeSess lcSlots none).isNone
    | some (i, n) =>
      if tracked f.key.l4proto then
        (s.table.lookup (pairOf f.key n f.xi f.xxi).xkey).isNone &&
          s.table.length + 2 ≤ ctMapEntries && ((s.eps r).activeSess i).toNat + 1 < 2 ^ 16
      else (c.rules r).selType ≠ .lc

/-- the steps that the counters follow: they follow what a first packet opens and what the state
machine answers, and ager, flush and (in the slim build) rewriting meet no translated entry -/
def accounted (s : Tracker) : CtOp → Bool
  | .first f =>
    (s.table.lookup f.key).isSome || opens c s f &&
      match opening c s f with
      | (s', some xk) => s'.follows c.slim f.key xk f.ans
      | (_, none) => true
  | .later k xi xxi ans =>
    match s.table.lookup k with
    | none => true
    | some a => s.follows c.slim k (a.twin k xi xxi) ans
  | .age k due =>
    match s.table.lookup k with
    | none => true
    | some e => !due || s.table.all fun p =>
        !((p.1 = k || p.1 = ctmProtoXfkInit k e.xi e.frag) && p.2.nat)
  | .reset r aids =>
    (s.table.all fun p => !(p.2.nat && p.2.rid = r && aids.contains p.2.aid)) &&
      (!c.slim || s.table.all fun p => !(p.2.nat && p.2.rid = r))

/-- the entry's slot is one, and its rule's counters are on if it needs them -/
def CtEnt.seated (e : CtEnt) (s : Tracker) : Prop :=
  e.aid < 32 ∧ (e.nat = true → (c.rules e.rid).selType = .lc → (s.eps e.rid).sess = true)

/-- the counters of a rule are its pairs in the table -/
structure Counts (rule : RuleConf) (ep : EpActs) (t : CtTable) (r : RuleId) : Prop where
  conc : ep.concConns.toNat = pairs t fun r' _ => r' = r
  sess : rule.selType = .lc → ∀ i : SlotId,
    (ep.activeSess i).toNat = pairs t fun r' j => r' = r && j = i
  limit : rule.connLimit ≠ 0 → ep.concConns ≤ rule.connLimit

/-- what the counters and the table keep -/
structure Tally (s : Tracker) : Prop where
  keyed : Assoc.Keyed s.table
  rules : ∀ r, Counts (c.rules r) (s.eps r) s.table r
  seated : ∀ p ∈ s.table, p.2.seated c s

variable {c} {s s' : Tracker} {t t' : CtTable} {k xk : Key} {a b e : CtEnt} {rule : RuleConf} {ep : EpActs}
  {r : RuleId}

theorem Tally.balanced (h : Tally c s) : Balanced c s where
  conc r := (h.rules r).conc
  sess r := (h.rules r).sess
  limit r := (h.rules r).limit
  reopens r hr := by
    have h0 := (h.rules r).conc
    rw [show pairs s.table _ = 0 from hr] at h0
    unfold full
    by_cases hl : (c.rules r).connLimit = 0
    · simp [hl]
    · have : ¬ (c.rules r).connLimit ≤ (s.eps r).concConns := by
        rw [le_iff_toNat_le, h0]
        intro hc
        exact hl (UInt32.toNat_inj.mp (le_zero.mp hc))
      simp [this]

theorem Counts.congr (h : Counts rule ep t r)
    (hp : ∀ q, (∀ r' j, q r' j = true → r' = r) → pairs t' q = pairs t q) : Counts rule ep t' r where
  conc := h.conc.trans (hp _ fun _ _ => of_decide_eq_true).symm
  sess hr i := (h.sess hr i).trans
    (hp _ fun _ _ hq => of_decide_eq_true (Bool.and_eq_true_iff.mp hq).1).symm
  limit := h.limit

theorem counts_zero : Counts rule .zero [] r :=
  ⟨rfl, fun _ _ => rfl, fun _ => le_iff_toNat_le.mpr (zero_le _)⟩

theorem Tally.keep (h : Tally c s) (hk : Assoc.Keyed t) (hp : ∀ q, pairs t q = pairs s.table q)
    (hseat : ∀ p ∈ t, p ∈ s.table ∨ p.2.seated c s) : Tally c { s with table := t } where
  keyed := hk
  rules r := (h.rules r).congr fun q _ => hp q
  seated p hp := (hseat p hp).elim (h.seated p) id

variable {q : RuleId → Nat → Bool} {x : Key × CtEnt} {i : Nat} {key : Key} {xi xxi : Xfrm}

theorem nat_of_leads (h : e.leads = true) : e.nat = true := by
  simp only [CtEnt.leads, Bool.and_eq_true] at h
  exact h.1.2

theorem leads_false (h : e.nat = false) : e.leads = false :=
  Bool.eq_false_iff.mpr fun hl => by rw [nat_of_leads hl] at h; cases h

theorem pairs_own (hk : Assoc.Keyed t) (ha : t.lookup k = some a) (hb : t.lookup xk = some b)
    (ho : own k xk a b = true) (q : RuleId → Nat → Bool) :
    pairs t q = pairs (del (del t xk) k) q + if a.nat && q a.rid a.aid then 1 else 0 := by
  have hplain := @leads_false a
  unfold pairs
  by_cases hx : xk = k
  · subst hx
    cases ha.symm.trans hb
    rw [del_of_not_mem (not_mem_del t xk), countP_del hk _ xk, weight_of_lookup ha]
    cases hn : a.nat <;> cases hl : a.leads <;> simp_all [own]
  · rw [countP_del hk _ xk, countP_del (hk.del xk) _ k, weight_of_ne (Ne.symm hx), weight_of_lookup ha,
      weight_of_lookup hb]
    cases hn : a.nat <;> cases hl : a.leads <;> cases hl' : b.leads <;> simp_all [own]

theorem pairs_filter {keep : Key × CtEnt → Bool} (hk : ∀ x ∈ t, keep x = false → x.2.leads = false)
    (q : RuleId → Nat → Bool) : pairs (t.filter keep) q = pairs t q := by
  unfold pairs
  rw [countP_filter]
  refine countP_congr fun x hx => ?_
  cases hkx : keep x with
  | true => simp
  | false => simp [hk x hx hkx]

theorem mem_del (h : x ∈ del t k) : x ∈ t := (mem_filter.mp h).1

theorem mem_of_lookup (h : t.lookup k = some a) : (k, a) ∈ t := by
  obtain ⟨l₁, l₂, rfl, -⟩ := lookup_eq_some_iff.mp h
  simp

theorem release_conc (ep : EpActs) (i : Nat) : (ep.release i).concConns.toNat = ep.concConns.toNat - 1 := by
  have hconc : (ep.release i).concConns =
      if 0 < ep.concConns then ep.concConns - 1 else ep.concConns := by
    unfold EpActs.release
    split <;> rfl
  rw [hconc]
  split
  · rename_i hpos
    exact UInt32.toNat_sub_of_le _ _ (UInt32.le_iff_toNat_le.mpr (UInt32.lt_iff_toNat_lt.mp hpos))
  · rename_i hpos
    change ¬ 0 < ep.concConns.toNat at hpos
    omega

theorem release_sess (hs : ep.sess = true) (hi : i < 32) (j : SlotId)
    (hpos : i = j → (ep.activeSess j).toNat ≠ 0) : ((ep.release i).activeSess j).toNat =
      (ep.activeSess j).toNat - if i = j then 1 else 0 := by
  have hrel : (ep.release i).activeSess =
      update ep.activeSess ⟨i, hi⟩ (ep.activeSess ⟨i, hi⟩ - 1) := by
    unfold EpActs.release
    rw [dif_pos ⟨hs, hi⟩]
    rfl
  rw [hrel]
  by_cases hj : i = j
  · subst hj
    rw [update_self, if_pos rfl]
    refine UInt16.toNat_sub_of_le _ _ (UInt16.le_iff_toNat_le.mpr ?_)
    exact one_le_iff_ne_zero.mpr (hpos rfl)
  · rw [update_of_ne fun hc => hj (congrArg Fin.val hc).symm, if_neg hj, Nat.sub_zero]

theorem release_flag (ep : EpActs) (i : Nat) : (ep.release i).sess = ep.sess := by
  unfold EpActs.release
  split <;> rfl

/-- **one rule's connections change, and its counters with them** -/
theorem Tally.set (h : Tally c s) (hk : Assoc.Keyed t)
    (hp : ∀ q, (∀ j, q r j = false) → pairs t q = pairs s.table q) (hcounts : Counts (c.rules r) ep t r)
    (hseat : ∀ p ∈ t, p ∈ s.table ∨ p.2.aid < 32 ∧ p.2.rid = r)
    (hflag : (c.rules r).selType = .lc → (∃ p ∈ t, p.2.nat = true ∧ p.2.rid = r) → ep.sess = true) :
    Tally c (({ s with table := t } : Tracker).setEp r ep) := by
  refine ⟨hk, fun r' => ?_, fun p hp => ?_⟩
  · show Counts _ (update s.eps r ep r') t r'
    by_cases hr : r' = r
    · subst hr
      rw [update_self]
      exact hcounts
    · rw [update_of_ne hr]
      exact (h.rules r').congr fun q hq =>
        hp q fun j => Bool.eq_false_iff.mpr fun hc => hr (hq r j hc).symm
  · have haid : p.2.aid < 32 := (hseat p hp).elim (fun hs => (h.seated p hs).1) And.left
    refine ⟨haid, fun hn hlc => ?_⟩
    show (update s.eps r ep p.2.rid).sess = true
    by_cases hr : p.2.rid = r
    · rw [hr, update_self]
      exact hflag (hr ▸ hlc) ⟨p, hp, hn, hr⟩
    · rw [update_of_ne hr]
      exact (h.seated p ((hseat p hp).resolve_right fun hc => hr hc.2)).2 hn hlc

theorem Tally.lose (h : Tally c s) (hk : Assoc.Keyed t) (hsub : ∀ p ∈ t, p ∈ s.table) (hi : i < 32)
    (hsess : (c.rules r).selType = .lc → (s.eps r).sess = true)
    (hp : ∀ q, pairs s.table q = pairs t q + if q r i then 1 else 0) :
    Tally c (({ s with table := t } : Tracker).setEp r ((s.eps r).release i)) := by
  obtain ⟨hconc, hact, hlimit⟩ := h.rules r
  refine h.set hk (fun q hq => ?_) ⟨?_, fun hlc j => ?_, fun hl => ?_⟩
    (fun p hp => .inl (hsub p hp)) fun hlc _ => (release_flag _ i).trans (hsess hlc)
  · rw [hp, hq, if_neg Bool.false_ne_true, add_zero]
  · rw [release_conc, hconc, hp, if_pos (decide_eq_true rfl), Nat.add_sub_cancel]
  · have h1 := hact hlc j
    simp only [hp, decide_true, Bool.true_and, decide_eq_true_eq] at h1
    rw [release_sess (hsess hlc) hi j fun hj => by rw [h1, if_pos hj]; omega, h1, Nat.add_sub_cancel]
  · have h1 := hlimit hl
    rw [le_iff_toNat_le] at h1 ⊢
    rw [release_conc]
    omega

theorem Tally.teardown (h : Tally c s) (ha : s.table.lookup k = some a)
    (hb : s.table.lookup xk = some b) (ho : own k xk a b = true) {gone : List Key}
    (hg : ∀ p ∈ s.table, ((p.1 = k ∨ p.1 = xk) ∨ gone.contains p.1 = false) ∨ p.2.leads = false) :
    Tally c (s.teardown k xk a gone) := by
  have hsub : ∀ p ∈ del (del s.table xk) k, p ∈ s.table := fun p hp => mem_del (mem_del hp)
  have hkeep : ∀ p ∈ del (del s.table xk) k, (!gone.contains p.1) = false → p.2.leads = false := by
    intro p hp hc
    have h1 := of_decide_eq_true (mem_filter.mp hp).2
    have h2 := of_decide_eq_true (mem_filter.mp (mem_del hp)).2
    refine (hg p (hsub p hp)).resolve_left fun hn => ?_
    rw [(hn.resolve_left (not_or.mpr ⟨h1, h2⟩))] at hc
    cases hc
  have hpairs : ∀ q, pairs s.table q = pairs ((del (del s.table xk) k).filter fun p =>
      !gone.contains p.1) q + if a.nat && q a.rid a.aid then 1 else 0 := fun q => by
    rw [pairs_filter hkeep]
    exact pairs_own h.keyed ha hb ho q
  have hkeyed := ((h.keyed.del xk).del k).filter fun p => !gone.contains p.1
  unfold Tracker.teardown
  cases hn : a.nat with
  | false =>
    simp only [hn, Bool.false_and, Bool.false_eq_true, if_false, add_zero] at hpairs ⊢
    exact h.keep hkeyed (fun q => (hpairs q).symm) fun p hp => .inl (hsub p (mem_filter.mp hp).1)
  | true =>
    simp only [hn, Bool.true_and] at hpairs ⊢
    have hseat := h.seated _ (mem_of_lookup ha)
    exact h.lose hkeyed (fun p hp => hsub p (mem_filter.mp hp).1) hseat.1 (hseat.2 hn) hpairs

theorem ctUpdate_keyed (h : Assoc.Keyed t) (k : Key) (e : CtEnt) : Assoc.Keyed (ctUpdate t k e) := by
  unfold ctUpdate
  split
  · exact h.put k e
  · exact h

theorem mem_ctUpdate (h : x ∈ ctUpdate t k e) : x = (k, e) ∨ x ∈ t := by
  unfold ctUpdate at h
  split at h
  · exact (mem_cons.mp h).imp_right mem_del
  · exact .inr h

theorem ctUpdate_self (h : (ctUpdate t k e).lookup k = some a) : a = e := by
  unfold ctUpdate at h
  split at h
  · rw [put, lookup_cons_self] at h
    exact (Option.some.inj h).symm
  · rename_i hc
    rw [h] at hc
    exact absurd rfl hc

theorem ctUpdate_other (hk : xk ≠ k) : (ctUpdate t k e).lookup xk = t.lookup xk := by
  unfold ctUpdate
  split
  · exact lookup_put_of_ne hk
  · rfl

theorem pairs_ctUpdate (h : Assoc.Keyed t) (hold : ∀ a, t.lookup k = some a → a.leads = false)
    (hroom : e.leads = true → t.length < ctMapEntries) :
    pairs (ctUpdate t k e) q = pairs t q + if e.leads && q e.rid e.aid then 1 else 0 := by
  have hw : weight (fun p : Key × CtEnt => p.2.leads && q p.2.rid p.2.aid) t k = 0 := by
    unfold weight
    split
    · simp only [hold _ ‹_›, Bool.false_and, Bool.false_eq_true, if_false]
    · rfl
  unfold pairs ctUpdate
  split
  · rw [put, countP_cons, countP_del h _ k, hw, add_zero]
  · rename_i hc
    rw [Bool.or_eq_true, not_or, decide_eq_true_eq] at hc
    rw [if_neg fun hp => hc.2 (hroom (Bool.and_eq_true_iff.mp hp).1), add_zero]

theorem pairs_pair (h : Assoc.Keyed t) (hk : t.lookup k = none) (hxk : t.lookup xk = none)
    (ha : a.leads = true) (hb : b.leads = false) (hroom : t.length + 2 ≤ ctMapEntries) :
    pairs (ctUpdate (ctUpdate t xk b) k a) q = pairs t q + if q a.rid a.aid then 1 else 0 := by
  have hlen : (ctUpdate t xk b).length ≤ t.length + 1 := by
    unfold ctUpdate
    split
    · exact succ_le_succ (length_filter_le _ _)
    · exact le_succ _
  rw [pairs_ctUpdate (ctUpdate_keyed h xk b) (fun e he => ?_) (fun _ => by omega),
    pairs_ctUpdate h (fun e he => by rw [hxk] at he; cases he) (fun _ => by omega), ha, hb]
  · rfl
  · by_cases hx : k = xk
    · subst hx
      rw [ctUpdate_self he, hb]
    · rw [ctUpdate_other hx, hk] at he
      cases he

/-- an entry that is not counted, over none that is -/
theorem Tally.write (h : Tally c s) (he : e.leads = false)
    (hold : ∀ a, s.table.lookup k = some a → a.leads = false) (hseat : e.seated c s) :
    Tally c { s with table := ctUpdate s.table k e } := by
  refine h.keep (ctUpdate_keyed h.keyed k e) (fun q => ?_) fun p hp => ?_
  · rw [pairs_ctUpdate h.keyed hold fun hc => absurd (he.symm.trans hc) Bool.false_ne_true, he]
    rfl
  · exact (mem_ctUpdate hp).elim (fun he => .inr (he ▸ hseat)) .inl

theorem Tally.writes (l : CtTable) : ∀ s, Tally c s → (∀ x ∈ l, x.2.leads = false ∧
      (∀ a, s.table.lookup x.1 = some a → a.leads = false) ∧ x.2.seated c s) →
    Tally c { s with table := l.foldl (fun t x => ctUpdate t x.1 x.2) s.table } := by
  induction l with
  | nil => exact fun s h _ => h
  | cons x l ih =>
    intro s h hl
    obtain ⟨hx, hold, hseat⟩ := hl x mem_cons_self
    refine ih { s with table := ctUpdate s.table x.1 x.2 } (h.write hx hold hseat) fun y hy => ?_
    obtain ⟨hy, holdy, hseaty⟩ := hl y (mem_cons_of_mem _ hy)
    refine ⟨hy, fun a ha => ?_, hseaty⟩
    by_cases hk : y.1 = x.1
    · rw [hk] at ha
      rw [ctUpdate_self ha]
      exact hx
    · exact holdy a (ctUpdate_other hk ▸ ha)

/-- what an answer writes is a copy of one of the two entries, as far as the counters go -/
theorem writes_seated (slim : Bool) (k xk : Key) (ans : Answer) (ha : a.seated c s) (hb : b.seated c s) :
    ∀ x ∈ ans.writes slim k xk a b, x.2.seated c s := by
  have hest : ∀ d k xk a b ssnid h, CtEnt.seated c a s → CtEnt.seated c b s →
      ∀ x ∈ estEntries slim d k xk a b ssnid h, x.2.seated c s := by
    intro d k xk a b ssnid h ha hb x hx
    unfold estEntries at hx
    split_ifs at hx <;> try cases hx
    · cases d <;> cases mem_singleton.mp hx <;> assumption
    · obtain ⟨m, -, hm⟩ := mem_flatMap.mp hx
      simp only [Alternate.pair, mem_cons, not_mem_nil, or_false] at hm
      rcases hm with rfl | rfl <;> assumption
  intro x hx
  cases ans with
  | est ssnid h =>
    unfold Answer.writes at hx
    split_ifs at hx
    · cases hd : a.dir <;> rw [hd] at hx
      · exact hest _ _ _ _ _ _ _ ha hb x hx
      · exact hest _ _ _ _ _ _ _ hb ha x hx
    · cases hx
  | going | torn => cases hx

theorem Tally.meet (h : Tally c s) {ans : Answer} (hok : s.follows c.slim k xk ans = true) :
    Tally c (s.meet c.slim k xk ans) := by
  unfold Tracker.follows at hok
  unfold Tracker.meet
  cases ha : s.table.lookup k with
  | none => exact h
  | some a =>
    cases hb : s.table.lookup xk with
    | none => exact h
    | some b =>
      rw [ha, hb] at hok
      have hseats := writes_seated c.slim k xk ans (h.seated _ (mem_of_lookup ha))
        (h.seated _ (mem_of_lookup hb))
      cases ans with
      | torn =>
        simp only [Bool.and_eq_true, List.all_eq_true, Bool.or_eq_true, decide_eq_true_eq,
          Bool.not_eq_true'] at hok
        exact h.teardown ha hb hok.1 hok.2
      | going | est =>
        simp only [List.all_eq_true, Bool.and_eq_true, Bool.not_eq_true', Option.all_eq_true] at hok
        exact h.writes _ s fun x hx => ⟨(hok x hx).1, (hok x hx).2, hseats x hx⟩

theorem pair_nat (key : Key) (n : NatMeta) (xi xxi : Xfrm) :
    (pairOf key n xi xxi).xi.natFlags = n.flags := by
  unfold pairOf protoXfkInit
  split <;> split <;> rfl

theorem flags_none (n : NatMeta) : n.flags = .none ↔ n.nf = .none := by
  unfold NatMeta.flags
  cases n.nf <;> split <;> simp

theorem selNatEp_plain {sel : Selector} (hs : sel ≠ .lc) (slots : SlotId → Slot)
    (pick : Option SlotId) (ep : EpActs) : (selNatEp sel slots pick ep).1 = ep := by
  cases sel <;> first | rfl | exact absurd rfl hs

theorem selNatEp_lc {slots : SlotId → Slot} {pick : Option SlotId} {i : SlotId}
    (h : (selNatEp .lc slots pick ep).2 = some i) :
    (selNatEp .lc slots pick ep).1 = ({ ep with sess := true } : EpActs).mapSess i (· + 1) := by
  unfold selNatEp at h ⊢
  dsimp only at h ⊢
  split at h
  · cases h
    rfl
  · cases h

theorem selNatEp_conc (sel : Selector) (slots : SlotId → Slot) (pick : Option SlotId) (ep : EpActs) :
    (selNatEp sel slots pick ep).1.concConns = ep.concConns := by
  by_cases hs : sel = .lc
  · subst hs
    unfold selNatEp
    dsimp only
    split <;> rfl
  · rw [selNatEp_plain hs]

theorem doNat_spec (rule : RuleConf) (slots : SlotId → Slot) (pick : Option SlotId) (key : Key)
    (ep : EpActs) : (doNat rule slots pick key ep).1 = (selNatEp rule.selType slots pick ep).1 ∧
      ∀ i n, (doNat rule slots pick key ep).2 = some (i, n) →
        (selNatEp rule.selType slots pick ep).2 = some i ∧
        full rule (selNatEp rule.selType slots pick ep).1 = false ∧ n.nf ≠ .none := by
  unfold doNat
  dsimp only
  split
  · exact ⟨rfl, fun _ _ h => by cases h⟩
  · split
    · exact ⟨rfl, fun _ _ h => by cases h⟩
    · rename_i i hi hfull
      refine ⟨rfl, ?_⟩
      rintro j n h
      cases h
      refine ⟨hi, by simpa using hfull, ?_⟩
      split <;> exact nofun

section
variable (h : Tally c s)
include h

theorem Tally.gain (hk : s.table.lookup k = none) (hxk : s.table.lookup xk = none)
    (ha : a.leads = true) (hb : b.leads = false) (hroom : s.table.length + 2 ≤ ctMapEntries)
    (hi : a.aid < 32) (hab : b.rid = a.rid ∧ b.aid = a.aid)
    (hconc : ep.concConns = (s.eps a.rid).concConns) (hfull : full (c.rules a.rid) ep = false)
    (hsess : (c.rules a.rid).selType = .lc → ep.sess = true ∧
      ∀ j, (ep.activeSess j).toNat = ((s.eps a.rid).activeSess j).toNat + if a.aid = j then 1 else 0) :
    Tally c (({ s with table := ctUpdate (ctUpdate s.table xk b) k a } : Tracker).setEp a.rid
      { ep with concConns := ep.concConns + 1 }) := by
  have hpairs : ∀ q, pairs (ctUpdate (ctUpdate s.table xk b) k a) q =
      pairs s.table q + if q a.rid a.aid then 1 else 0 := fun q => pairs_pair h.keyed hk hxk ha hb hroom
  obtain ⟨hlive, hon, -⟩ := h.rules a.rid
  have hadd : (ep.concConns + 1).toNat = (s.eps a.rid).concConns.toNat + 1 := by
    have hle : pairs s.table (fun r' _ => r' = a.rid) ≤ _ := countP_le_length
    unfold ctMapEntries at hroom
    rw [UInt32.toNat_add, hconc, mod_eq_of_lt (by show _ + 1 < _; omega)]
    rfl
  refine h.set (ctUpdate_keyed (ctUpdate_keyed h.keyed _ _) _ _) (fun q hq => ?_)
    ⟨?_, fun hlc j => ?_, fun hl => ?_⟩ (fun p hp => ?_) fun hlc _ => (hsess hlc).1
  · rw [hpairs, hq, if_neg Bool.false_ne_true, add_zero]
  · rw [hpairs, if_pos (decide_eq_true rfl), ← hlive]
    exact hadd
  · rw [(hsess hlc).2 j, hon hlc, hpairs]
    simp
  · show ep.concConns + 1 ≤ _
    have hfull' : ¬ (c.rules a.rid).connLimit ≤ ep.concConns := by
      intro hc
      rw [full, Bool.and_eq_false_iff] at hfull
      rcases hfull with hf | hf
      · exact of_decide_eq_false hf hl
      · exact of_decide_eq_false hf hc
    rw [le_iff_toNat_le] at hfull' ⊢
    rw [hconc] at hfull'
    omega
  · rcases mem_ctUpdate hp with rfl | hp
    · exact .inr ⟨hi, rfl⟩
    · rcases mem_ctUpdate hp with rfl | hp
      · exact .inr ⟨hab.2 ▸ hi, hab.1⟩
      · exact .inl hp

theorem Tally.plain (hk : s.table.lookup key = none) (xi xxi : Xfrm) :
    Tally c (s.create key .plain 0 0 xi xxi).1 := by
  have hnat : (pairOf key .plain xi xxi).xi.natFlags = .none := pair_nat key .plain xi xxi
  unfold Tracker.create
  dsimp only
  rw [if_neg (not_not.mpr hnat)]
  split
  · exact h
  · rename_i hx
    rw [Bool.not_eq_true, isSome_eq_false_iff, isNone_iff_eq_none] at hx
    -- neither entry is counted
    have hseat : ∀ e : CtEnt, e.aid < 32 → e.nat = false → e.leads = false ∧ e.seated c s :=
      fun e hi hn => ⟨leads_false hn, hi, fun hc => absurd (hn.symm.trans hc) Bool.false_ne_true⟩
    have hb := hseat ⟨.outbound, (pairOf key .plain xi xxi).xxi, false, false, 0, 0⟩ (zero_lt_succ _) rfl
    have ha := hseat ⟨.inbound, (pairOf key .plain xi xxi).xi, false, false, 0, 0⟩ (zero_lt_succ _)
      (decide_eq_false (not_not.mpr hnat))
    refine h.writes [(_, _), (_, _)] s fun x hmem => ?_
    rcases mem_cons.mp hmem with rfl | hmem
    · exact ⟨hb.1, fun _ hc => (nomatch hx.symm.trans hc), hb.2⟩
    · cases mem_singleton.mp hmem
      exact ⟨ha.1, fun _ hc => (nomatch hk.symm.trans hc), ha.2⟩

/-- **a translated first packet** that finds its reverse key free and room -/
theorem Tally.translated {i : SlotId} {n : NatMeta} (hk : s.table.lookup key = none)
    (hx : s.table.lookup (pairOf key n xi xxi).xkey = none)
    (hroom : s.table.length + 2 ≤ ctMapEntries) (hn : n.nf ≠ .none)
    (hconc : ep.concConns = (s.eps r).concConns) (hfull : full (c.rules r) ep = false)
    (hsess : (c.rules r).selType = .lc → ep.sess = true ∧
      ∀ j, (ep.activeSess j).toNat = ((s.eps r).activeSess j).toNat + if (i : Nat) = j then 1 else 0) :
    Tally c ((s.setEp r ep).create key n r i xi xxi).1 := by
  have hnat : (pairOf key n xi xxi).xi.natFlags ≠ .none := by
    rw [pair_nat]
    exact mt (flags_none n).mp hn
  have ha : CtEnt.leads ⟨.inbound, (pairOf key n xi xxi).xi, n.dsr, false, r, i⟩ = true := by
    simp [CtEnt.leads, CtEnt.nat, hnat]
  have hfree : ¬ (s.table.lookup (pairOf key n xi xxi).xkey).isSome = true := by
    rw [hx]
    exact Bool.false_ne_true
  have heps : update (s.setEp r ep).eps r
      { (s.setEp r ep).eps r with concConns := ((s.setEp r ep).eps r).concConns + 1 } =
      update s.eps r { ep with concConns := ep.concConns + 1 } := by
    unfold Tracker.setEp
    dsimp only
    rw [update_self, update_idem]
  unfold Tracker.create
  dsimp only
  rw [if_pos hnat]
  split
  · exact absurd ‹_› hfree
  show Tally c ⟨_, update (s.setEp r ep).eps r _⟩
  rw [heps]
  exact h.gain hk hx ha rfl hroom i.isLt ⟨rfl, rfl⟩ hconc hfull hsess

omit h in
theorem setEp_self (s : Tracker) (r : RuleId) : s.setEp r (s.eps r) = s := by
  unfold Tracker.setEp
  rw [update_eq_self]

theorem Tally.opening {f : First} (hkey : s.table.lookup f.key = none) (hok : opens c s f = true) :
    Tally c (opening c s f).1 := by
  unfold Ct.opening
  dsimp only [opens] at hok
  cases hr : f.rule with
  | none =>
    dsimp only
    split
    · exact h.plain hkey _ _
    · exact h
  | some r =>
    rw [hr] at hok
    dsimp only at hok ⊢
    obtain ⟨hd, hsel⟩ := doNat_spec (c.rules r) f.slots f.pick f.key (s.eps r)
    set y := doNat (c.rules r) f.slots f.pick f.key (s.eps r)
    have hother : (c.rules r).selType ≠ .lc → y.1 = s.eps r := fun hne => hd.trans (selNatEp_plain hne _ _ _)
    cases hd2 : y.2 with
    | none =>
      rw [hd2] at hok
      have h1 : Tally c (s.setEp r y.1) := by
        by_cases hlc : (c.rules r).selType = .lc
        · have hnone : lcLoop f.slots (s.eps r).activeSess lcSlots none = none := by
            simpa [hlc] using hok
          have hep : y.1 = { s.eps r with sess := true } := by
            rw [hd, hlc]
            simp only [selNatEp, hnone]
          rw [hep]
          obtain ⟨hconc, hact, hlimit⟩ := h.rules r
          exact h.set h.keyed (fun _ _ => rfl) ⟨hconc, hact, hlimit⟩ (fun p hp => .inl hp) fun _ _ => rfl
        · rw [hother hlc, setEp_self]
          exact h
      split
      · exact h1.plain hkey _ _
      · exact h1
    | some x =>
      obtain ⟨i, n⟩ := x
      rw [hd2] at hok
      dsimp only at hok ⊢
      obtain ⟨h1, h2, h3⟩ := hsel i n hd2
      split at hok
      · simp only [Bool.and_eq_true, isNone_iff_eq_none, decide_eq_true_eq] at hok
        rw [if_pos ‹_›]
        refine h.translated hkey hok.1.1 hok.1.2 h3 (hd ▸ selNatEp_conc _ _ _ _) (hd ▸ h2)
          fun hlc => ?_
        rw [hlc] at h1
        rw [hd, hlc, selNatEp_lc h1]
        refine ⟨rfl, fun j => ?_⟩
        show (update (s.eps r).activeSess i ((s.eps r).activeSess i + 1) j).toNat = _
        by_cases hj : j = i
        · subst hj
          rw [update_self, if_pos rfl]
          exact mod_eq_of_lt hok.2
        · rw [update_of_ne hj, if_neg fun hc => hj (Fin.ext hc).symm, add_zero]
      · rw [if_neg ‹_›, hother (of_decide_eq_true hok), setEp_self]
        exact h

theorem Tally.first {f : First} (hok : accounted c s (.first f) = true) :
    Tally c (firstPacket c s f) := by
  unfold firstPacket
  dsimp only [accounted] at hok
  split
  · exact h
  · rename_i hkey
    rw [Bool.or_eq_true, or_iff_right hkey, Bool.and_eq_true] at hok
    rw [Bool.not_eq_true, isSome_eq_false_iff, isNone_iff_eq_none] at hkey
    have hopen := h.opening hkey hok.1
    revert hok
    split
    · rename_i s' xk heq
      rw [heq] at hopen
      exact fun hok => hopen.meet hok.2
    · rename_i s' heq
      rw [heq] at hopen
      exact fun _ => hopen

theorem Tally.later {ans : Answer} (hok : accounted c s (.later k xi xxi ans) = true) :
    Tally c (laterPacket c s k xi xxi ans) := by
  unfold laterPacket
  dsimp only [accounted] at hok
  cases ha : s.table.lookup k with
  | none => exact h
  | some a =>
    rw [ha] at hok
    exact h.meet hok

theorem Tally.drop {keep : Key × CtEnt → Bool}
    (hk : ∀ p ∈ s.table, keep p = false → p.2.nat = false) :
    Tally c { s with table := s.table.filter keep } := by
  exact h.keep (h.keyed.filter _) (pairs_filter fun p hp hc => leads_false (hk p hp hc))
    fun p hp => .inl (mem_filter.mp hp).1

theorem Tally.aged {due : Bool} (hok : accounted c s (.age k due) = true) :
    Tally c (age c s k due) := by
  unfold age
  dsimp only [accounted] at hok
  cases he : s.table.lookup k with
  | none => exact h
  | some e =>
    rw [he] at hok
    dsimp only at hok ⊢
    cases due with
    | false => exact h
    | true =>
      rw [Bool.not_true, Bool.false_or, List.all_eq_true] at hok
      simp only [Bool.not_true, Bool.false_eq_true, if_false]
      have hk : ∀ {t : CtTable}, (∀ p ∈ t, p ∈ s.table) →
          ∀ p ∈ t, decide (p.1 ≠ k) = false → p.2.nat = false := fun hsub p hp hc => by
        have := hok p (hsub p hp)
        simp_all
      have hxk : ∀ p ∈ s.table, decide (p.1 ≠ ctmProtoXfkInit k e.xi e.frag) = false →
          p.2.nat = false := fun p hp hc => by
        have := hok p hp
        simp_all
      split
      · exact h.drop (hk fun _ hp => hp)
      · have hn : ¬ e.nat = true := by
          rw [hk (fun _ hp => hp) _ (mem_of_lookup he) (by simp)]
          exact Bool.false_ne_true
        split
        · exact h.drop (hk fun _ hp => hp)
        · exact (h.drop hxk).drop (hk fun _ hp => mem_del hp)

theorem Tally.reset {aids : List Nat} (hok : accounted c s (.reset r aids) = true) :
    Tally c (reset c s r aids) := by
  dsimp only [accounted] at hok
  rw [Bool.and_eq_true, List.all_eq_true] at hok
  have hkeep : ∀ p ∈ s.table, (!(decide (p.2.rid = r) && aids.contains p.2.aid)) = false →
      p.2.nat = false := by
    intro p hp hc
    have := hok.1 p hp
    simp_all
  have hdrop := h.drop hkeep
  unfold Ct.reset EpActs.rstActSessions
  cases hs : c.slim with
  | false =>
    rw [if_neg Bool.false_ne_true, setEp_self]
    exact hdrop
  | true =>
    rw [hs, Bool.not_true, Bool.false_or, List.all_eq_true] at hok
    have hnone : ∀ p ∈ s.table, ¬ (p.2.nat = true ∧ p.2.rid = r) := fun p hp hc => by
      have := hok.2 p hp
      simp_all
    have hzero : ∀ q : RuleId → Nat → Bool, (∀ r' j, q r' j = true → r' = r) →
        pairs (s.table.filter fun p => !(decide (p.2.rid = r) && aids.contains p.2.aid)) q = 0 :=
      fun q hq => countP_eq_zero.mpr fun p hp hc =>
        have hc := Bool.and_eq_true_iff.mp hc
        hnone p (mem_filter.mp hp).1 ⟨nat_of_leads hc.1, hq _ _ hc.2⟩
    exact hdrop.set hdrop.keyed (fun _ _ => rfl) (counts_zero.congr hzero) (fun p hp => .inl hp)
      fun _ ⟨p, hp, hc⟩ => absurd hc (hnone p (mem_filter.mp hp).1)

theorem Tally.step (o : CtOp) (hok : accounted c s o = true) : Tally c (s.step c o) := by
  cases o with
  | first f => exact h.first hok
  | later k xi xxi ans => exact h.later hok
  | age k due => exact h.aged hok
  | reset r aids => exact h.reset hok

end

theorem tally_start : Tally c .start :=
  ⟨Assoc.Keyed.nil, fun _ => counts_zero, fun _ hp => absurd hp not_mem_nil⟩

end

def oneConnection : GwConf := ⟨false, fun _ => ⟨false, false, .lc, 1⟩⟩

/-- a packet that is not of a multi-homed association -/
def noHomes : Homes := ⟨false, false, 0, 0, 0, fun _ => 0, fun _ => 0, fun _ => 0, fun _ => 0, 0, 0, 0⟩

def firstDatagram (ans : Answer) : First :=
  ⟨ctKey sampleUdp 1 0 0, some 0, fun _ => ⟨false, sampleAddr 3, .zero, 8080, false⟩, none, cleanXfrm,
    cleanXfrm, ans⟩

/-- the first datagram is a fragment, whose entry outlasts the connection -/
def openedClosed : List CtOp :=
  [.first (firstDatagram (.est 7 noHomes)), .later (ctKey sampleUdp 1 0 0) cleanXfrm cleanXfrm .going,
    .later (ctKey sampleUdp 1 0 0) cleanXfrm cleanXfrm (.torn noHomes)]

-- a second address of the client and one of the rule: two pairs, of which one is counted
example :
    let key := { ctKey sampleUdp 1 0 0 with l4proto := protoSctp }
    let homes : Homes := { noHomes with
      mhon := true, saddr := 1, nh := 2, mhHost := fun i => i.toUInt32 + 1
      pmhh := fun j => if j = 0 then 9 else 0, xosrc := 3 }
    let s := [CtOp.first { firstDatagram .going with key := key },
      .later key cleanXfrm cleanXfrm (.est 0 homes)].foldl (Tracker.step oneConnection) .start
    s.live 0 = 2 ∧ (s.eps 0).concConns = 1 := by
  decide +kernel

end Ct
