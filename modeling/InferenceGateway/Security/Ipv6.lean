import Mathlib.Data.List.Basic
import Mathlib.Data.Nat.Bitwise

/-!
# IPv6 header chains and the flood guards

`security_ipv6_transport` walks at most eight extension headers of an IPv6 packet,
`dp_prepare_security_ipv6` decides what becomes of the packet, and
`dp_do_security_rate_main_xdp` presents it to the rate checks.  A byte outside the packet cannot be
read: every read is an `Option`, and `none` of a whole function would be such a read.

* `walk`, `securityIpv6Transport`   the bounded walk;
* `prepareSecurityIpv6`, `securityRateMain`   the decision and what the rate checks are told;
* `Reads`       what a chain of headers means, of any length;
* `walk_spec`   the walk against the meaning.
-/

open List Option Nat

namespace Security

abbrev Frame := List UInt8

/-! ## the walk -/

inductive WalkStatus where
  | ok | malformed | tooDeep | nonInitialFragment
deriving DecidableEq

/-- `struct security_ipv6_transport` -/
structure Transport where
  offset : Nat
  protocol : UInt8
  fragmented : Bool
  status : WalkStatus
deriving DecidableEq

/-- the headers with a length byte: hop-by-hop, routing, destination options, authentication -/
def isOptions (p : UInt8) : Bool := p = 0 || p = 43 || p = 60 || p = 51
def isExtension (p : UInt8) : Bool := isOptions p || p = 44

/-- authentication headers count in words of four bytes, less two; the others in words of eight,
less one -/
def headerLength (p len : UInt8) : Nat :=
  if p = 51 then (len.toNat + 2) * 4 else (len.toNat + 1) * 8

def be16 (high low : UInt8) : Nat := high.toNat * 256 + low.toNat
def maxExtensions : Nat := 8

/-- the loop of `security_ipv6_transport`: the rounds that are left, the cursor as an offset from
the start of the packet, the protocol and whether a fragment header was seen -/
def walk (ip : Frame) (limit : Nat) : Nat → Nat → UInt8 → Bool → Option Transport
  | 0, off, p, frag => some ⟨off, p, frag, if isExtension p then .tooDeep else .ok⟩
  | i + 1, off, p, frag =>
    if p = 44 then
      if frag = true ∨ ip.length < off + 8 ∨ limit < off + 8 then
        some ⟨off, p, frag, .malformed⟩
      else do
        let next ← ip[off]?
        let high ← ip[off + 2]?
        let low ← ip[off + 3]?
        if be16 high low &&& 0xfff8 ≠ 0 then some ⟨off + 8, next, true, .nonInitialFragment⟩
        else walk ip limit i (off + 8) next true
    else if isOptions p = false then some ⟨off, p, frag, .ok⟩
    else if ip.length < off + 2 ∨ limit < off + 2 then some ⟨off, p, frag, .malformed⟩
    else do
      let len ← ip[off + 1]?
      if headerLength p len < 8 ∨ ip.length < off + headerLength p len ∨
          limit < off + headerLength p len then some ⟨off, p, frag, .malformed⟩
      else do
        let next ← ip[off]?
        walk ip limit i (off + headerLength p len) next frag

/-- `security_ipv6_transport`; `ip` is the packet from its IPv6 header to its last byte -/
def securityIpv6Transport (ip : Frame) : Option Transport :=
  if ip.length < 40 then some ⟨0, 0, false, .malformed⟩
  else do
    let version : UInt8 ← ip[0]?
    if version >>> 4 ≠ 6 then some ⟨0, 0, false, .malformed⟩
    else do
      let high ← ip[4]?
      let low ← ip[5]?
      if ip.length < 40 + be16 high low then some ⟨0, 0, false, .malformed⟩
      else do
        let next ← ip[6]?
        walk ip (40 + be16 high low) maxExtensions 40 next false

/-! ## the decision -/

/-- the guards as `dp_get_security_rate_config` and `sec_rate_cfg` give them -/
structure RateConfig where
  (synEnabled connEnabled udpEnabled : Bool)
  (version aggregateSyn aggregateConnRate aggregateUdpPkt aggregateUdpBandwidth : UInt32)
deriving DecidableEq

def RateConfig.tcpGuard (c : RateConfig) : Bool :=
  c.synEnabled || c.connEnabled ||
    (c.version ≠ 0 && (c.aggregateSyn ≠ 0 || c.aggregateConnRate ≠ 0))

def RateConfig.udpGuard (c : RateConfig) : Bool :=
  c.udpEnabled || (c.version ≠ 0 && (c.aggregateUdpPkt ≠ 0 || c.aggregateUdpBandwidth ≠ 0))

/-- the fields of `struct xfi` that are read here -/
structure Parsed where
  valid : Bool
  (nwProto tcpFlags : UInt8)
  saddr : Frame
deriving DecidableEq

/-- the flags `dp_parse_tcp` leaves for a TCP header right behind the IPv6 header, when it is in the
packet -/
def parseTcp (ip : Frame) (next : UInt8) : Option UInt8 :=
  if next = 6 ∧ 60 ≤ ip.length then (ip[53]?).map (· &&& 0x3f) else some 0

/-- `dp_parse_ipv6` as far as the rate checks see it: a packet to or from a multicast address, or
without a whole header, is left unparsed -/
def parseIpv6 (ip : Frame) : Option Parsed :=
  if ip.length < 40 then some ⟨false, 0, 0, []⟩
  else do
    let dst ← ip[24]?
    let src ← ip[8]?
    if dst = 0xff ∨ src = 0xff then some ⟨false, 0, 0, []⟩
    else do
      let next ← ip[6]?
      let flags ← parseTcp ip next
      some ⟨true, next, flags, (ip.drop 8).take 16⟩

/-- the protocol of a packet that was not read to its end, or that is a fragment, is guarded -/
def guardedProtocol (c : RateConfig) (r : Transport) : Bool :=
  if r.protocol = 6 then c.tcpGuard
  else if r.protocol = 17 then c.udpGuard
  else (isExtension r.protocol || r.status = .malformed) && (c.tcpGuard || c.udpGuard)

/-- the transport header of a whole packet: its flags, or that it is cut short -/
def readTransport (ip : Frame) (x : Parsed) (r : Transport) : Option (Transport × Parsed) :=
  if r.status = .ok ∧ r.fragmented = false ∧ (r.protocol = 6 ∨ r.protocol = 17) then
    let required := if r.protocol = 6 then 20 else 8
    if ip.length < 40 ∨ ip.length < r.offset + required then some ({ r with status := .malformed }, x)
    else do
      let high ← ip[4]?
      let low ← ip[5]?
      if 40 + be16 high low < r.offset + required then some ({ r with status := .malformed }, x)
      else if r.protocol = 6 then do
        let flags ← ip[r.offset + 13]?
        some (r, { x with nwProto := r.protocol, tcpFlags := flags })
      else some (r, { x with nwProto := r.protocol })
  else some (r, x)

/-- `dp_prepare_security_ipv6`: whether the packet is dropped, and what is known of it then -/
def prepareSecurityIpv6 (c : RateConfig) (allow : Frame → Bool) (ip : Frame) (x : Parsed) :
    Option (Bool × Parsed) := do
  let r ← securityIpv6Transport ip
  let (r, x) ← readTransport ip x r
  if r.status = .ok ∧ r.fragmented = false then some (false, x)
  else if guardedProtocol c r = false then some (false, x)
  else if x.valid && allow x.saddr then some (false, x)
  else some (true, x)

/-- what becomes of a packet: dropped, passed without a check, or presented to the rate checks of
`dp_do_security_rate_check_v6_xdp` as a SYN or as UDP -/
inductive Handling where
  | drop | pass
  | present (isSyn isUdp : Bool)
deriving DecidableEq

/-- `dp_do_security_rate_check_v6_xdp` up to its first check: what was not parsed is passed, and a
whitelisted source is passed -/
def rateCheckV6 (allow : Frame → Bool) (x : Parsed) (isSyn isUdp : Bool) : Handling :=
  if x.valid = false then .pass else if allow x.saddr then .pass else .present isSyn isUdp

/-- a SYN that is not the answer to one -/
def opensConnection (flags : UInt8) : Bool := flags &&& 0x02 ≠ 0 && flags &&& 0x10 = 0

/-- `dp_do_security_rate_main_xdp` for an IPv6 packet, after `dp_parse_ipv6` -/
def securityRateMain (c : RateConfig) (allow : Frame → Bool) (ip : Frame) : Option Handling := do
  let x ← parseIpv6 ip
  let (dropped, x) ← prepareSecurityIpv6 c allow ip x
  if dropped then some .drop
  else if x.nwProto = 6 then some (rateCheckV6 allow x (opensConnection x.tcpFlags) false)
  else if x.nwProto = 17 then some (rateCheckV6 allow x false true)
  else some .pass

/-! ## what a chain of headers means -/

/-- how reading a chain ends: at an upper-layer header, with the fragment headers and the extension
headers that were passed, or at a later fragment, whose bytes are no headers -/
inductive Ending where
  | upper (protocol : UInt8) (rest : Frame) (fragments headers : Nat)
  | tail (protocol : UInt8)
deriving DecidableEq

/-- one more header in front of the chain -/
def Ending.after (fragments : Nat) : Ending → Ending
  | .upper p rest k n => .upper p rest (k + fragments) (n + 1)
  | .tail p => .tail p

/-- the chain that starts with a header of the given kind at the given bytes -/
inductive Reads : UInt8 → Frame → Ending → Prop
  | upper {p : UInt8} {rest : Frame} (hp : isExtension p = false) : Reads p rest (.upper p rest 0 0)
  | options {p next len : UInt8} {more : Frame} {e : Ending} (hp : isOptions p = true)
      (hlen : headerLength p len ≤ (next :: len :: more).length)
      (hr : Reads next ((next :: len :: more).drop (headerLength p len)) e) :
      Reads p (next :: len :: more) (e.after 0)
  | first {next res high low : UInt8} {more : Frame} {e : Ending} (hlen : 4 ≤ more.length)
      (hoff : be16 high low / 8 = 0) (hr : Reads next (more.drop 4) e) :
      Reads 44 (next :: res :: high :: low :: more) (e.after 1)
  | later {next res high low : UInt8} {more : Frame} (hlen : 4 ≤ more.length)
      (hoff : be16 high low / 8 ≠ 0) : Reads 44 (next :: res :: high :: low :: more) (.tail next)

variable {p p' next : UInt8} {rest rest' ip payload : Frame} {e : Ending} {k n limit off : Nat}
  {c : RateConfig} {allow : Frame → Bool} {x x' : Parsed} {r : Transport}

theorem isExtension_of_options (h : isOptions p = true) : isExtension p = true := by
  rw [isExtension, h, Bool.true_or]

theorem headerLength_ge (p len : UInt8) : 8 ≤ headerLength p len := by
  unfold headerLength
  split <;> omega

theorem after_upper {f : Nat} (h : Ending.upper p rest k n = e.after f) :
    ∃ k' n', e = .upper p rest k' n' ∧ k = k' + f ∧ n = n' + 1 := by
  cases e with
  | tail _ => cases h
  | upper _ _ k' n' =>
    cases h
    exact ⟨k', n', rfl, rfl, rfl⟩

theorem Reads.options_inv (hp : isOptions p = true) (h : Reads p rest e) :
    ∃ next len more e', rest = next :: len :: more ∧ headerLength p len ≤ rest.length ∧
      Reads next (rest.drop (headerLength p len)) e' ∧ e = e'.after 0 := by
  cases h with
  | upper hp' =>
    rw [isExtension_of_options hp] at hp'
    cases hp'
  | options _ hlen hr => exact ⟨_, _, _, _, rfl, hlen, hr, rfl⟩
  | first | later => cases hp

theorem Reads.fragment_inv (h : Reads 44 rest e) :
    ∃ next res high low more, rest = next :: res :: high :: low :: more ∧ 4 ≤ more.length ∧
      ((be16 high low / 8 = 0 ∧ ∃ e', Reads next (more.drop 4) e' ∧ e = e'.after 1) ∨
        (be16 high low / 8 ≠ 0 ∧ e = .tail next)) := by
  cases h with
  | upper hp | options hp => cases hp
  | first hlen hoff hr => exact ⟨_, _, _, _, _, rfl, hlen, .inl ⟨hoff, _, hr, rfl⟩⟩
  | later hlen hoff => exact ⟨_, _, _, _, _, rfl, hlen, .inr ⟨hoff, rfl⟩⟩

theorem Reads.unique {e' : Ending} (h : Reads p rest e) (h' : Reads p rest e') : e = e' := by
  induction h generalizing e' with
  | upper hp =>
    cases h' with
    | upper _ => rfl
    | options hp' _ _ =>
      rw [isExtension_of_options hp'] at hp
      cases hp
    | first | later => cases hp
  | options hp _ _ ih =>
    obtain ⟨_, _, _, _, hrest, -, hr, rfl⟩ := h'.options_inv hp
    cases hrest
    rw [ih hr]
  | first _ hoff _ ih =>
    obtain ⟨_, _, _, _, _, hrest, -, ⟨-, _, hr, rfl⟩ | ⟨hoff', -⟩⟩ := h'.fragment_inv <;> cases hrest
    · rw [ih hr]
    · exact absurd hoff hoff'
  | later _ hoff =>
    obtain ⟨_, _, _, _, _, hrest, -, ⟨hoff', -⟩ | ⟨-, rfl⟩⟩ := h'.fragment_inv <;> cases hrest
    · exact absurd hoff' hoff
    · rfl

theorem Reads.headers_pos (h : Reads p rest (.upper p' rest' k n)) : isExtension p = true ↔ 0 < n := by
  generalize he : Ending.upper p' rest' k n = e at h
  cases h with
  | upper hp =>
    cases he
    exact iff_of_false (Bool.not_eq_true _ ▸ hp) (lt_irrefl 0)
  | options hp _ _ =>
    obtain ⟨_, _, -, -, rfl⟩ := after_upper he
    exact iff_of_true (isExtension_of_options hp) (succ_pos _)
  | first _ _ _ =>
    obtain ⟨_, _, -, -, rfl⟩ := after_upper he
    exact iff_of_true rfl (succ_pos _)
  | later _ _ => cases he

theorem Reads.fragments_le (h : Reads p rest (.upper p' rest' k n)) : k ≤ n := by
  generalize he : Ending.upper p' rest' k n = e at h
  induction h generalizing k n with
  | upper hp =>
    cases he
    exact le_rfl
  | options _ _ _ ih | first _ _ _ ih =>
    obtain ⟨k, n, rfl, rfl, rfl⟩ := after_upper he
    have := ih rfl
    omega
  | later _ _ => cases he

/-! ## bytes of the payload -/

def window (ip : Frame) (limit off : Nat) : Frame := (ip.take limit).drop off

theorem window_length (hl : limit ≤ ip.length) (off : Nat) :
    (window ip limit off).length = limit - off := by
  rw [window, length_drop, length_take, min_eq_left hl]

theorem window_drop (ip : Frame) (limit off k : Nat) :
    (window ip limit off).drop k = window ip limit (off + k) := by
  rw [window, drop_drop, window]

theorem window_cons (hl : limit ≤ ip.length) (ho : off < limit) :
    ∃ b, ip[off]? = some b ∧ window ip limit off = b :: window ip limit (off + 1) := by
  have hlt : off < (ip.take limit).length := by
    rw [length_take]
    omega
  refine ⟨ip[off], getElem?_eq_getElem (by omega), ?_⟩
  rw [window, drop_eq_getElem_cons hlt, getElem_take]
  rfl

theorem and_fragment_mask {x : Nat} (hx : x < 2 ^ 16) : x &&& 0xfff8 = 0 ↔ x / 8 = 0 := by
  have hdiv : (x &&& 0xfff8) / 2 ^ 3 = x / 2 ^ 3 % 2 ^ 13 := by
    rw [and_div_two_pow, ← and_two_pow_sub_one_eq_mod]
  have hmod : (x &&& 0xfff8) % 2 ^ 3 = 0 := by
    rw [and_mod_two_pow]
    exact and_zero _
  omega

theorem be16_lt (high low : UInt8) : be16 high low < 2 ^ 16 := by
  have h1 := high.toNat_lt
  have h2 := low.toNat_lt
  unfold be16
  omega

/-! ## the walk against the meaning -/

theorem window_fragment (hl : limit ≤ ip.length) (ho : off + 8 ≤ limit) :
    ∃ next res high low more, ip[off]? = some next ∧ ip[off + 2]? = some high ∧
      ip[off + 3]? = some low ∧ window ip limit off = next :: res :: high :: low :: more ∧
      4 ≤ more.length ∧ more.drop 4 = window ip limit (off + 8) := by
  obtain ⟨next, h0, w0⟩ := window_cons hl (show off < limit by omega)
  obtain ⟨res, -, w1⟩ := window_cons hl (show off + 1 < limit by omega)
  obtain ⟨high, h2, w2⟩ := window_cons hl (show off + 2 < limit by omega)
  obtain ⟨low, h3, w3⟩ := window_cons hl (show off + 3 < limit by omega)
  refine ⟨next, res, high, low, window ip limit (off + 4), h0, h2, h3, ?_, ?_, ?_⟩
  · rw [w0, w1, w2, w3]
  · rw [window_length hl]
    omega
  · rw [window_drop]

theorem window_options (hl : limit ≤ ip.length) (ho : off + 2 ≤ limit) :
    ∃ next len, ip[off]? = some next ∧ ip[off + 1]? = some len ∧
      window ip limit off = next :: len :: window ip limit (off + 2) := by
  obtain ⟨next, h0, w0⟩ := window_cons hl (show off < limit by omega)
  obtain ⟨len, h1, w1⟩ := window_cons hl (show off + 1 < limit by omega)
  exact ⟨next, len, h0, h1, by rw [w0, w1]⟩

/-- what the walk may answer at a cursor: the upper header the chain leads to, a later fragment, or
a header that could not be passed, and then the chain leads nowhere within the bounds -/
inductive Walked (ip : Frame) (limit i off : Nat) (p : UInt8) (frag : Bool) : Transport → Prop
  | ok {off' : Nat} {p' : UInt8} {k n : Nat} (hoff : off' ≤ limit)
      (hr : Reads p (window ip limit off) (.upper p' (window ip limit off') k n)) (hn : n ≤ i)
      (hk : k + frag.toNat ≤ 1) : Walked ip limit i off p frag ⟨off', p', frag || k ≠ 0, .ok⟩
  | tail {off' : Nat} {p' : UInt8} (hr : Reads p (window ip limit off) (.tail p')) :
      Walked ip limit i off p frag ⟨off', p', true, .nonInitialFragment⟩
  | bad {r : Transport} (hp : isExtension r.protocol = true)
      (hst : r.status = .malformed ∨ r.status = .tooDeep)
      (hr : ∀ p' rest k n, Reads p (window ip limit off) (.upper p' rest k n) →
        i < n ∨ 1 < k + frag.toNat) : Walked ip limit i off p frag r

theorem not_ok {r : Transport} (h : r.status = .malformed ∨ r.status = .tooDeep) : r.status ≠ .ok := by
  rcases h with h | h <;> rw [h] <;> exact nofun

theorem Walked.front {f i off' : Nat} {frag frag' : Bool} (hf : frag'.toNat = f + frag.toNat)
    (hread : ∀ e, Reads p (window ip limit off) e ↔
      ∃ e', Reads next (window ip limit off') e' ∧ e = e'.after f)
    (h : Walked ip limit i off' next frag' r) : Walked ip limit (i + 1) off p frag r := by
  cases h with
  | @ok _ _ k _ hoff hr hn hk =>
    have hfrag : (frag' || decide (k ≠ 0)) = (frag || decide (k + f ≠ 0)) := by
      rw [Bool.eq_iff_iff, Bool.or_eq_true, Bool.or_eq_true, decide_eq_true_eq, decide_eq_true_eq,
        ← Bool.toNat_eq_one, ← Bool.toNat_eq_one]
      omega
    rw [hfrag]
    exact .ok hoff ((hread _).mpr ⟨_, hr, rfl⟩) (by omega) (by omega)
  | tail hr => exact .tail ((hread _).mpr ⟨_, hr, rfl⟩)
  | bad hext hst hr =>
    refine .bad hext hst ?_
    intro p' rest k n he
    obtain ⟨e', hr', he'⟩ := (hread _).mp he
    obtain ⟨k', n', rfl, rfl, rfl⟩ := after_upper he'
    have := hr _ _ _ _ hr'
    omega

theorem Walked.options {i : Nat} {len : UInt8} {frag : Bool} (hp : isOptions p = true)
    (hw : window ip limit off = next :: len :: window ip limit (off + 2))
    (hlen : headerLength p len ≤ (window ip limit off).length)
    (h : Walked ip limit i (off + headerLength p len) next frag r) :
    Walked ip limit (i + 1) off p frag r := by
  refine h.front (zero_add _).symm fun e => ⟨fun he => ?_, ?_⟩
  · obtain ⟨_, _, _, e', hrest, -, hr, he'⟩ := he.options_inv hp
    rw [hw] at hrest
    cases hrest
    rw [window_drop] at hr
    exact ⟨e', hr, he'⟩
  · rintro ⟨e', hr, rfl⟩
    rw [← window_drop] at hr
    rw [hw] at hlen hr ⊢
    exact .options hp hlen hr

theorem Walked.first {i : Nat} {res high low : UInt8} {more : Frame}
    (hw : window ip limit off = next :: res :: high :: low :: more)
    (hlen : 4 ≤ more.length) (hdrop : more.drop 4 = window ip limit (off + 8))
    (hoff : be16 high low / 8 = 0) (h : Walked ip limit i (off + 8) next true r) :
    Walked ip limit (i + 1) off 44 false r := by
  refine h.front rfl fun e => ⟨fun he => ?_, ?_⟩
  · obtain ⟨_, _, _, _, _, hrest, -, ⟨-, e', hr, he'⟩ | ⟨hne, -⟩⟩ := he.fragment_inv <;>
      rw [hw] at hrest <;> cases hrest
    · rw [hdrop] at hr
      exact ⟨e', hr, he'⟩
    · exact absurd hoff hne
  · rintro ⟨e', hr, rfl⟩
    rw [hw]
    exact .first hlen hoff (hdrop ▸ hr)

theorem Walked.here (i : Nat) (frag : Bool) (ho : off ≤ limit) (hp : isExtension p = false) :
    Walked ip limit i off p frag ⟨off, p, frag, .ok⟩ := by
  have h : Walked ip limit i off p frag ⟨off, p, frag || decide (0 ≠ 0), .ok⟩ :=
    .ok ho (.upper hp) (zero_le i) (by
      rw [zero_add]
      exact Bool.toNat_le frag)
  rw [show (frag || decide (0 ≠ 0)) = frag from Bool.or_false frag] at h
  exact h

theorem Walked.fragment_bad (i : Nat) {frag : Bool} (hl : limit ≤ ip.length)
    (h : frag = true ∨ ip.length < off + 8 ∨ limit < off + 8) :
    Walked ip limit i off 44 frag ⟨off, 44, frag, .malformed⟩ := by
  refine .bad rfl (.inl rfl) ?_
  intro p' rest k n hr
  obtain ⟨next, res, high, low, more, hw, hlen, hcase⟩ := hr.fragment_inv
  have hlong : 8 ≤ limit - off := by
    have := congrArg List.length hw
    rw [window_length hl] at this
    simp only [length_cons] at this
    omega
  have hfrag : frag = true := by
    rcases h with h | h | h
    · exact h
    · omega
    · omega
  right
  rcases hcase with ⟨-, e', -, he⟩ | ⟨-, he⟩
  · obtain ⟨_, _, -, rfl, -⟩ := after_upper he
    rw [hfrag, Bool.toNat_true]
    omega
  · cases he

theorem Walked.options_bad (i : Nat) (frag : Bool) (hl : limit ≤ ip.length)
    (hp : isOptions p = true)
    (h : ∀ len, ip[off + 1]? = some len → ip.length < off + headerLength p len ∨
      limit < off + headerLength p len) :
    Walked ip limit i off p frag ⟨off, p, frag, .malformed⟩ := by
  refine .bad (isExtension_of_options hp) (.inl rfl) ?_
  intro p' rest k n hr
  exfalso
  obtain ⟨next, len, more, e', hw, hlen, -, -⟩ := hr.options_inv hp
  have hge := headerLength_ge p len
  rw [window_length hl] at hlen
  obtain ⟨next', len', -, h1, hw'⟩ := window_options hl (show off + 2 ≤ limit by omega)
  rw [hw'] at hw
  cases hw
  rcases h len h1 with h | h
  · omega
  · omega

/-- **the walk**: it reads no byte outside the packet, and its answer is what the chain says -/
theorem walk_spec (hl : limit ≤ ip.length) (i : Nat) (ho : off ≤ limit) (p : UInt8) (frag : Bool) :
    ∃ r, walk ip limit i off p frag = some r ∧ Walked ip limit i off p frag r := by
  induction i generalizing off p frag with
  | zero =>
    refine ⟨_, rfl, ?_⟩
    by_cases hp : isExtension p = true
    · exact .bad hp (.inr (if_pos hp)) fun p' rest k n hr => .inl (hr.headers_pos.mp hp)
    · rw [if_neg hp]
      exact Walked.here 0 frag ho (Bool.not_eq_true _ ▸ hp)
  | succ i ih =>
    unfold walk
    by_cases h44 : p = 44
    · subst h44
      rw [if_pos rfl]
      split
      · rename_i hbad
        exact ⟨_, rfl, Walked.fragment_bad (i + 1) hl hbad⟩
      · rename_i hgood
        rw [not_or, not_or, Bool.not_eq_true, not_lt, not_lt] at hgood
        obtain ⟨hfrag, -, hroom⟩ := hgood
        subst hfrag
        obtain ⟨next, res, high, low, more, h0, h2, h3, hw, hlen, hdrop⟩ := window_fragment hl hroom
        simp only [h0, h2, h3, bind_eq_bind, bind_some]
        have hmask := and_fragment_mask (be16_lt high low)
        by_cases hoff : be16 high low / 8 = 0
        · rw [if_neg (not_not.mpr (hmask.mpr hoff))]
          obtain ⟨r, hr, hwalk⟩ := ih (show off + 8 ≤ limit from hroom) next true
          exact ⟨r, hr, hwalk.first hw hlen hdrop hoff⟩
        · rw [if_pos (fun h => hoff (hmask.mp h))]
          refine ⟨_, rfl, .tail ?_⟩
          rw [hw]
          exact .later hlen hoff
    · rw [if_neg h44]
      by_cases hp : isOptions p = true
      · rw [if_neg (by rw [hp]; decide)]
        split
        · refine ⟨_, rfl, Walked.options_bad (i + 1) frag hl hp ?_⟩
          intro len hlen
          have := headerLength_ge p len
          omega
        · obtain ⟨next, len, h0, h1, hw⟩ := window_options hl (show off + 2 ≤ limit by omega)
          simp only [h0, h1, bind_eq_bind, bind_some]
          split
          · refine ⟨_, rfl, Walked.options_bad (i + 1) frag hl hp ?_⟩
            intro len' hlen'
            rw [h1] at hlen'
            cases hlen'
            have := headerLength_ge p len
            omega
          · obtain ⟨r, hr, hwalk⟩ := ih (show off + headerLength p len ≤ limit by omega) next frag
            refine ⟨r, hr, hwalk.options hp hw ?_⟩
            rw [window_length hl]
            omega
      · rw [Bool.not_eq_true] at hp
        rw [if_pos hp]
        refine ⟨_, rfl, Walked.here (i + 1) frag ho ?_⟩
        rw [isExtension, hp]
        exact decide_eq_false h44

/-! ## whole packets -/

/-- an IPv6 packet that is all there, the kind of its first header and its payload -/
structure Ipv6Packet (ip : Frame) (next : UInt8) (payload : Frame) : Prop where
  whole : 40 ≤ ip.length
  version : ∃ b : UInt8, ip[0]? = some b ∧ b >>> 4 = 6
  length : ∃ high low, ip[4]? = some high ∧ ip[5]? = some low ∧ 40 + be16 high low ≤ ip.length ∧
    payload = (ip.drop 40).take (be16 high low)
  next : ip[6]? = some next

theorem transport_of_packet (h : Ipv6Packet ip next payload) :
    ∃ high low r, ip[4]? = some high ∧ ip[5]? = some low ∧ 40 + be16 high low ≤ ip.length ∧
      payload = window ip (40 + be16 high low) 40 ∧ securityIpv6Transport ip = some r ∧
      Walked ip (40 + be16 high low) maxExtensions 40 next false r := by
  obtain ⟨high, low, h4, h5, hlen, hpay⟩ := h.length
  obtain ⟨v, h0, hv⟩ := h.version
  obtain ⟨r, hr, hw⟩ := walk_spec hlen maxExtensions (le_add_right 40 _) next false
  refine ⟨high, low, r, h4, h5, hlen, ?_, ?_, hw⟩
  · rw [hpay, window, drop_take, Nat.add_sub_cancel_left]
  · unfold securityIpv6Transport
    rw [if_neg (not_lt.mpr h.whole)]
    simp only [h0, h4, h5, h.next, bind_eq_bind, bind_some]
    rw [if_neg (not_not.mpr hv), if_neg (not_lt.mpr hlen), hr]

theorem byte_at {i : Nat} (h : i < ip.length) : ∃ b, ip[i]? = some b :=
  ⟨ip[i], getElem?_eq_getElem h⟩

theorem transport_of_not_packet (h : ¬ ∃ next payload, Ipv6Packet ip next payload) :
    securityIpv6Transport ip = some ⟨0, 0, false, .malformed⟩ := by
  unfold securityIpv6Transport
  by_cases hlen : ip.length < 40
  · rw [if_pos hlen]
  · rw [if_neg hlen]
    obtain ⟨v, h0⟩ := byte_at (show 0 < ip.length by omega)
    obtain ⟨high, h4⟩ := byte_at (show 4 < ip.length by omega)
    obtain ⟨low, h5⟩ := byte_at (show 5 < ip.length by omega)
    obtain ⟨next, h6⟩ := byte_at (show 6 < ip.length by omega)
    simp only [h0, h4, h5, h6, bind_eq_bind, bind_some]
    by_cases hv : v >>> 4 = 6
    · rw [if_neg (not_not.mpr hv)]
      by_cases hroom : ip.length < 40 + be16 high low
      · rw [if_pos hroom]
      · exact absurd ⟨next, _, not_lt.mp hlen, ⟨v, h0, hv⟩,
          ⟨high, low, h4, h5, not_lt.mp hroom, rfl⟩, h6⟩ h
    · rw [if_pos hv]

/-! ## what the first parse leaves -/

def source (ip : Frame) : Frame := (ip.drop 8).take 16
def multicast (ip : Frame) : Bool := ip[24]? = some 0xff || ip[8]? = some 0xff

/-- `dp_parse_ipv6` reads no byte outside the packet, and leaves a packet unparsed when it is cut
short or multicast -/
theorem parse_spec (ip : Frame) :
    ∃ x, parseIpv6 ip = some x ∧ (x.valid = true ↔ 40 ≤ ip.length ∧ multicast ip = false) ∧
      (x.valid = true → x.saddr = source ip) ∧ (x.valid = true → ip[6]? = some x.nwProto) ∧
      (x.valid = false → x.nwProto = 0) := by
  unfold parseIpv6
  by_cases hlen : ip.length < 40
  · rw [if_pos hlen]
    refine ⟨_, rfl, ?_, nofun, nofun, fun _ => rfl⟩
    exact ⟨nofun, fun h => absurd h.1 (not_le.mpr hlen)⟩
  · rw [if_neg hlen]
    obtain ⟨dst, h24⟩ := byte_at (show 24 < ip.length by omega)
    obtain ⟨src, h8⟩ := byte_at (show 8 < ip.length by omega)
    obtain ⟨next, h6⟩ := byte_at (show 6 < ip.length by omega)
    have hm : multicast ip = true ↔ dst = 0xff ∨ src = 0xff := by
      unfold multicast
      rw [h24, h8, Bool.or_eq_true, decide_eq_true_eq, decide_eq_true_eq, some_inj, some_inj]
    simp only [h24, h8, h6, bind_eq_bind, bind_some]
    by_cases hmc : dst = 0xff ∨ src = 0xff
    · rw [if_pos hmc]
      refine ⟨_, rfl, ?_, nofun, nofun, fun _ => rfl⟩
      rw [hm.mpr hmc]
      exact ⟨nofun, fun h => Bool.noConfusion h.2⟩
    · rw [if_neg hmc]
      have hmf : multicast ip = false := by
        rw [← Bool.not_eq_true]
        exact fun h => hmc (hm.mp h)
      obtain ⟨flags, hflags⟩ : ∃ flags, parseTcp ip next = some flags := by
        unfold parseTcp
        split
        · obtain ⟨b, hb⟩ := byte_at (show 53 < ip.length by omega)
          rw [hb]
          exact ⟨_, rfl⟩
        · exact ⟨0, rfl⟩
      rw [hflags]
      exact ⟨_, rfl, ⟨fun _ => ⟨not_lt.mp hlen, hmf⟩, fun _ => rfl⟩, fun _ => rfl, fun _ => rfl, nofun⟩

/-! ## the answers -/

theorem read_stopped (ip : Frame) (x : Parsed) (h : ¬ (r.status = .ok ∧ r.fragmented = false)) :
    readTransport ip x r = some (r, x) := by
  unfold readTransport
  rw [if_neg fun hr => h ⟨hr.1, hr.2.1⟩]

theorem source_drop (hsrc : allow (source ip) = false) (hr : securityIpv6Transport ip = some r)
    (hbad : ¬ (r.status = .ok ∧ r.fragmented = false)) (hg : guardedProtocol c r = true) :
    securityRateMain c allow ip = some .drop := by
  obtain ⟨x, hx, -, hsaddr, -, -⟩ := parse_spec ip
  have ha : (x.valid && allow x.saddr) = false := by
    cases hv : x.valid with
    | false => rfl
    | true => rw [hsaddr hv, hsrc, Bool.and_false]
  have hprep : prepareSecurityIpv6 c allow ip x = some (true, x) := by
    unfold prepareSecurityIpv6
    simp only [hr, read_stopped ip x hbad, bind_eq_bind, bind_some]
    rw [if_neg hbad, if_neg (by rw [hg]; decide), if_neg (by rw [ha]; decide)]
  unfold securityRateMain
  simp only [hx, hprep, bind_eq_bind, bind_some, if_true]

theorem main_of_prepare (hx : parseIpv6 ip = some x)
    (hprep : prepareSecurityIpv6 c allow ip x = some (false, x')) :
    securityRateMain c allow ip = some
      (if x'.nwProto = 6 then rateCheckV6 allow x' (opensConnection x'.tcpFlags) false
       else if x'.nwProto = 17 then rateCheckV6 allow x' false true else .pass) := by
  unfold securityRateMain
  simp only [hx, hprep, bind_eq_bind, bind_some, Bool.false_eq_true, if_false]
  split
  · rfl
  · split <;> rfl

theorem rateCheckV6_ne_drop (isSyn isUdp : Bool) : rateCheckV6 allow x isSyn isUdp ≠ .drop := by
  unfold rateCheckV6
  split
  · exact nofun
  · split <;> exact nofun

theorem main_ne_drop (hx : parseIpv6 ip = some x)
    (hprep : prepareSecurityIpv6 c allow ip x = some (false, x')) :
    ∃ out, securityRateMain c allow ip = some out ∧ out ≠ .drop := by
  refine ⟨_, main_of_prepare hx hprep, ?_⟩
  split
  · exact rateCheckV6_ne_drop _ _
  · split
    · exact rateCheckV6_ne_drop _ _
    · exact nofun

theorem prepare_fragment (hr : securityIpv6Transport ip = some r) (hf : r.fragmented = true)
    (hg : guardedProtocol c r = false) :
    prepareSecurityIpv6 c allow ip x = some (false, x) := by
  have hbad : ¬ (r.status = .ok ∧ r.fragmented = false) :=
    fun h => Bool.noConfusion (hf.symm.trans h.2)
  unfold prepareSecurityIpv6
  simp only [hr, read_stopped ip x hbad, bind_eq_bind, bind_some]
  rw [if_neg hbad, if_pos hg]

theorem read_whole {high low : UInt8} (hst : r.status = .ok) (hf : r.fragmented = false) (hlen : 40 ≤ ip.length)
    (h4 : ip[4]? = some high) (h5 : ip[5]? = some low) (hfit : 40 + be16 high low ≤ ip.length)
    (htcp : r.protocol = 6 → r.offset + 20 ≤ 40 + be16 high low)
    (hudp : r.protocol = 17 → r.offset + 8 ≤ 40 + be16 high low) :
    readTransport ip x r = some (r,
      if r.protocol = 6 then { x with nwProto := 6, tcpFlags := (ip[r.offset + 13]?).getD 0 }
      else if r.protocol = 17 then { x with nwProto := 17 } else x) := by
  unfold readTransport
  by_cases h6 : r.protocol = 6
  · have hroom := htcp h6
    have hget : ip[r.offset + 13]? = some ip[r.offset + 13] := getElem?_eq_getElem (by omega)
    rw [if_pos ⟨hst, hf, .inl h6⟩]
    simp only [h6, if_true, h4, h5, hget, bind_eq_bind, bind_some, getD_some]
    rw [if_neg (by omega), if_neg (by omega)]
  by_cases h17 : r.protocol = 17
  · have hroom := hudp h17
    rw [if_pos ⟨hst, hf, .inr h17⟩]
    simp only [h17, if_neg (show (17 : UInt8) ≠ 6 by decide), if_true, h4, h5,
      bind_eq_bind, bind_some]
    rw [if_neg (by omega), if_neg (by omega)]
  · rw [if_neg fun h => h.2.2.elim h6 h17, if_neg h6, if_neg h17]

/-! ## no packet hides its transport -/

def guards (c : RateConfig) (p : UInt8) : Bool :=
  if p = 6 then c.tcpGuard else if p = 17 then c.udpGuard else false

/-- a whole TCP header with SYN and without ACK, or a whole UDP header, and the flags the rate
checks have to be told -/
def Rated (p : UInt8) (rest : Frame) (isSyn isUdp : Bool) : Prop :=
  (p = 6 ∧ 20 ≤ rest.length ∧ (∃ flags, rest[13]? = some flags ∧ opensConnection flags = true) ∧
    isSyn = true ∧ isUdp = false) ∨
  (p = 17 ∧ 8 ≤ rest.length ∧ isSyn = false ∧ isUdp = true)

theorem window_getElem? {i : Nat} (h : off + i < limit) :
    (window ip limit off)[i]? = ip[off + i]? := by
  rw [window, getElem?_drop, getElem?_take_of_lt h]

theorem unrated_extension (h : isExtension p = true) : p ≠ 6 ∧ p ≠ 17 := by
  constructor <;> rintro rfl <;> cases h

theorem guarded_extension (hg : (c.tcpGuard || c.udpGuard) = true)
    (h : isExtension r.protocol = true) : guardedProtocol c r = true := by
  obtain ⟨h6, h17⟩ := unrated_extension h
  rw [guardedProtocol, if_neg h6, if_neg h17, h, Bool.true_or, Bool.true_and, hg]

theorem guardedProtocol_rated (hp : r.protocol = 6 ∨ r.protocol = 17) :
    guardedProtocol c r = guards c r.protocol := by
  unfold guardedProtocol guards
  rcases hp with h | h
  · rw [if_pos h, if_pos h]
  · rw [h]
    rfl

theorem guarded_of_guards (h : guards c r.protocol = true) : guardedProtocol c r = true := by
  have hp : r.protocol = 6 ∨ r.protocol = 17 := by
    by_contra hp
    rw [not_or] at hp
    rw [guards, if_neg hp.1, if_neg hp.2] at h
    cases h
  rw [guardedProtocol_rated hp, h]

section
variable (hg : (c.tcpGuard || c.udpGuard) = true) (hsrc : allow (source ip) = false)
  (hpkt : Ipv6Packet ip next payload)

include hpkt in
/-- the walk of a packet whose chain leads to an upper header: that header, or a header it would
not pass because there are too many -/
theorem transport_upper (hr : Reads next payload (.upper p rest k n)) :
    ∃ high low r, ip[4]? = some high ∧ ip[5]? = some low ∧ 40 + be16 high low ≤ ip.length ∧
      securityIpv6Transport ip = some r ∧
      ((n ≤ 8 ∧ k ≤ 1 ∧ r.status = .ok ∧ r.protocol = p ∧ r.fragmented = decide (k ≠ 0) ∧
          r.offset ≤ 40 + be16 high low ∧ rest = window ip (40 + be16 high low) r.offset) ∨
        ((8 < n ∨ 1 < k) ∧ isExtension r.protocol = true ∧ r.status ≠ .ok)) := by
  obtain ⟨high, low, r, h4, h5, hlen, hpay, ht, hw⟩ := transport_of_packet hpkt
  refine ⟨high, low, r, h4, h5, hlen, ht, ?_⟩
  rw [hpay] at hr
  cases hw with
  | ok hoff hr' hn hk =>
    have he := hr.unique hr'
    cases he
    exact .inl ⟨hn, hk, rfl, rfl, Bool.false_or _, hoff, rfl⟩
  | tail hr' => exact absurd (hr.unique hr') nofun
  | bad hext hst hr' => exact .inr ⟨hr' _ _ _ _ hr, hext, not_ok hst⟩

include hg hsrc

theorem unreadable_dropped
    (h : ¬ ∃ next payload e, Ipv6Packet ip next payload ∧ Reads next payload e) :
    securityRateMain c allow ip = some .drop := by
  by_cases hpkt : ∃ next payload, Ipv6Packet ip next payload
  · obtain ⟨next, payload, hp⟩ := hpkt
    obtain ⟨high, low, r, -, -, -, hpay, ht, hw⟩ := transport_of_packet hp
    cases hw with
    | ok _ hr | tail hr => exact absurd ⟨next, payload, _, hp, hpay ▸ hr⟩ h
    | bad hext hst _ =>
      exact source_drop hsrc ht (fun hok => not_ok hst hok.1) (guarded_extension hg hext)
  · exact source_drop hsrc (transport_of_not_packet hpkt) (fun hok => WalkStatus.noConfusion hok.1)
      (guarded_extension hg rfl)

include hpkt

theorem upper_dropped (hr : Reads next payload (.upper p rest k n))
    (h : (8 < n ∨ 1 < k) ∨ k ≠ 0 ∧ guards c p = true) : securityRateMain c allow ip = some .drop := by
  obtain ⟨high, low, r, -, -, -, ht, hcase⟩ := transport_upper hpkt hr
  rcases hcase with ⟨hn, hk1, -, hrp, hfrag, -, -⟩ | ⟨-, hext, hst⟩
  · obtain ⟨hk, hp⟩ := h.resolve_left (by omega)
    refine source_drop hsrc ht (fun hok => ?_) (guarded_of_guards (by rw [hrp]; exact hp))
    rw [hfrag, decide_eq_true hk] at hok
    exact Bool.noConfusion hok.2
  · exact source_drop hsrc ht (fun hok => hst hok.1) (guarded_extension hg hext)

theorem tail_dropped (hr : Reads next payload (.tail p))
    (hp : guards c p = true ∨ isExtension p = true) :
    securityRateMain c allow ip = some .drop := by
  obtain ⟨high, low, r, -, -, -, hpay, ht, hw⟩ := transport_of_packet hpkt
  rw [hpay] at hr
  cases hw with
  | ok _ hr' _ _ => exact absurd (hr.unique hr') nofun
  | tail hr' =>
    have he := hr.unique hr'
    cases he
    refine source_drop hsrc ht (fun hok => WalkStatus.noConfusion hok.1) ?_
    rcases hp with hp | hp
    · exact guarded_of_guards hp
    · exact guarded_extension hg hp
  | bad hext hst _ =>
    exact source_drop hsrc ht (fun hok => not_ok hst hok.1) (guarded_extension hg hext)

omit hg hsrc

variable (c allow) in
theorem whole_prepared (x : Parsed)
    (hr : Reads next payload (.upper p rest 0 n)) (hn : n ≤ 8) (htcp : p = 6 → 20 ≤ rest.length)
    (hudp : p = 17 → 8 ≤ rest.length) :
    prepareSecurityIpv6 c allow ip x = some (false,
      if p = 6 then { x with nwProto := 6, tcpFlags := (rest[13]?).getD 0 }
      else if p = 17 then { x with nwProto := 17 } else x) := by
  obtain ⟨high, low, r, h4, h5, hfit, ht, hcase⟩ := transport_upper hpkt hr
  rcases hcase with ⟨-, -, hst, hrp, hfrag, hoff, hrest⟩ | ⟨hmany, -, -⟩
  · have hlen : rest.length = 40 + be16 high low - r.offset := by
      rw [hrest, window_length hfit]
    have hread := @read_whole ip x r _ _ hst hfrag hpkt.whole h4 h5 hfit
      (fun h => by have := htcp (hrp ▸ h); omega) (fun h => by have := hudp (hrp ▸ h); omega)
    unfold prepareSecurityIpv6
    simp only [ht, hread, bind_eq_bind, bind_some]
    rw [if_pos ⟨hst, hfrag⟩, hrp]
    by_cases h6 : p = 6
    · have hroom := htcp h6
      rw [if_pos h6, if_pos h6, hrest, window_getElem? (by omega)]
    · rw [if_neg h6, if_neg h6]
  · omega

include hsrc in
theorem whole_rated (hr : Reads next payload (.upper p rest 0 n)) (hn : n ≤ 8) {isSyn isUdp : Bool}
    (hrated : Rated p rest isSyn isUdp) :
    securityRateMain c allow ip =
      some (if multicast ip = true then .pass else .present isSyn isUdp) := by
  obtain ⟨x, hx, hvalid, hsaddr, -, -⟩ := parse_spec ip
  have hcheck : ∀ (x' : Parsed) (a b : Bool), x'.valid = x.valid → x'.saddr = x.saddr →
      rateCheckV6 allow x' a b = if multicast ip = true then .pass else .present a b := by
    intro x' a b hv hs
    unfold rateCheckV6
    rw [hv, hs]
    by_cases hm : multicast ip = true
    · have hxv : x.valid = false := by
        rw [← Bool.not_eq_true, hvalid, hm]
        exact fun h => Bool.noConfusion h.2
      rw [if_pos hxv, if_pos hm]
    · have hxv : x.valid = true := hvalid.mpr ⟨hpkt.whole, Bool.not_eq_true _ ▸ hm⟩
      rw [if_neg (by rw [hxv]; decide), if_neg (by rw [hsaddr hxv, hsrc]; decide), if_neg hm]
  rcases hrated with ⟨rfl, hlen, ⟨flags, hflags, hopen⟩, rfl, rfl⟩ | ⟨rfl, hlen, rfl, rfl⟩
  · have hprep := whole_prepared c allow hpkt x hr hn (fun _ => hlen)
      (fun h => absurd h (by decide))
    rw [if_pos rfl, hflags, getD_some] at hprep
    rw [main_of_prepare hx hprep, hopen]
    exact congrArg some (hcheck _ _ _ rfl rfl)
  · have hprep := whole_prepared c allow hpkt x hr hn (fun h => absurd h (by decide))
      (fun _ => hlen)
    rw [main_of_prepare hx hprep]
    exact congrArg some (hcheck _ _ _ rfl rfl)

/-- a first fragment of a protocol without a guard is passed by: its own first header is none that
is looked at -/
theorem fragment_unguarded (hr : Reads next payload (.upper p rest 1 n)) (hn : n ≤ 8)
    (hp : p = 6 ∨ p = 17) (hg : guards c p = false) : securityRateMain c allow ip = some .pass := by
  obtain ⟨x, hx, -, -, hfirst, hnone⟩ := parse_spec ip
  obtain ⟨high, low, r, -, -, -, ht, hcase⟩ := transport_upper hpkt hr
  have hext : isExtension next = true := hr.headers_pos.mpr (by
    have := hr.fragments_le
    omega)
  rcases hcase with ⟨-, -, -, hrp, hfrag, -, -⟩ | ⟨hmany, -, -⟩
  · have hguard : guardedProtocol c r = false := by
      rw [guardedProtocol_rated (by rw [hrp]; exact hp), hrp, hg]
    rw [main_of_prepare hx (prepare_fragment ht hfrag hguard)]
    have hproto : isExtension x.nwProto = true := by
      cases hv : x.valid with
      | false =>
        rw [hnone hv]
        rfl
      | true =>
        have h6 := hfirst hv
        rw [hpkt.next] at h6
        cases h6
        exact hext
    obtain ⟨h6, h17⟩ := unrated_extension hproto
    rw [if_neg h6, if_neg h17]
  · omega

end

theorem readTransport_isSome (ip : Frame) (x : Parsed) (r : Transport) :
    ∃ y, readTransport ip x r = some y := by
  unfold readTransport
  by_cases hread : r.status = .ok ∧ r.fragmented = false ∧ (r.protocol = 6 ∨ r.protocol = 17)
  · rw [if_pos hread]
    dsimp only
    generalize hreq : (if r.protocol = 6 then 20 else 8) = required
    split
    · exact ⟨_, rfl⟩
    · obtain ⟨high, h4⟩ := byte_at (show 4 < ip.length by omega)
      obtain ⟨low, h5⟩ := byte_at (show 5 < ip.length by omega)
      simp only [h4, h5, bind_eq_bind, bind_some]
      split
      · exact ⟨_, rfl⟩
      · split
        · rw [if_pos ‹_›] at hreq
          obtain ⟨flags, hf⟩ := byte_at (show r.offset + 13 < ip.length by omega)
          rw [hf]
          exact ⟨_, rfl⟩
        · exact ⟨_, rfl⟩
  · rw [if_neg hread]
    exact ⟨_, rfl⟩

theorem main_isSome (c : RateConfig) (allow : Frame → Bool) (ip : Frame) :
    (securityRateMain c allow ip).isSome = true := by
  obtain ⟨x, hx, -⟩ := parse_spec ip
  obtain ⟨r, hr⟩ : ∃ r, securityIpv6Transport ip = some r := by
    by_cases h : ∃ next payload, Ipv6Packet ip next payload
    · obtain ⟨next, payload, hp⟩ := h
      obtain ⟨_, _, r, -, -, -, -, hr, -⟩ := transport_of_packet hp
      exact ⟨r, hr⟩
    · exact ⟨_, transport_of_not_packet h⟩
  obtain ⟨⟨r', x'⟩, hread⟩ := readTransport_isSome ip x r
  obtain ⟨⟨d, x''⟩, hprep⟩ : ∃ y, prepareSecurityIpv6 c allow ip x = some y := by
    unfold prepareSecurityIpv6
    simp only [hr, hread, bind_eq_bind, bind_some]
    split
    · exact ⟨_, rfl⟩
    · split
      · exact ⟨_, rfl⟩
      · split <;> exact ⟨_, rfl⟩
  cases d with
  | false =>
    rw [main_of_prepare hx hprep]
    rfl
  | true =>
    unfold securityRateMain
    simp only [hx, hprep, bind_eq_bind, bind_some, if_true]
    rfl

/-- **no IPv6 packet hides its transport**: no byte outside the packet is read; a SYN or a UDP
datagram at the end of the chain is presented with its flags or dropped, exactly unless the packet
is multicast (or a fragment of an unguarded protocol); and a whole packet is never dropped here -/
theorem ipv6_transport_not_hidden (c : RateConfig) (allow : Frame → Bool) (ip : Frame)
    (hg : (c.tcpGuard || c.udpGuard) = true) (hsrc : allow (source ip) = false) :
    (securityRateMain c allow ip).isSome = true ∧
    (∀ next payload p rest k n isSyn isUdp, Ipv6Packet ip next payload →
      Reads next payload (.upper p rest k n) → Rated p rest isSyn isUdp →
      ((securityRateMain c allow ip = some (.present isSyn isUdp) ∨
          securityRateMain c allow ip = some .drop) ↔
        (8 < n ∨ 1 < k ∨ (k = 1 ∧ guards c p = true) ∨ (k = 0 ∧ multicast ip = false)))) ∧
    ((¬ ∃ next payload e, Ipv6Packet ip next payload ∧ Reads next payload e) →
      securityRateMain c allow ip = some .drop) ∧
    (∀ next payload p rest k n, Ipv6Packet ip next payload →
      Reads next payload (.upper p rest k n) → k ≠ 0 → guards c p = true →
      securityRateMain c allow ip = some .drop) ∧
    (∀ next payload p, Ipv6Packet ip next payload → Reads next payload (.tail p) →
      guards c p = true ∨ isExtension p = true → securityRateMain c allow ip = some .drop) ∧
    (∀ next payload p rest n, Ipv6Packet ip next payload →
      Reads next payload (.upper p rest 0 n) → n ≤ 8 → (p = 6 → 20 ≤ rest.length) →
      (p = 17 → 8 ≤ rest.length) → securityRateMain c allow ip ≠ some .drop) := by
  refine ⟨main_isSome c allow ip, ?_, unreadable_dropped hg hsrc,
    fun next payload p rest k n hpkt hr hk hp => upper_dropped hg hsrc hpkt hr (.inr ⟨hk, hp⟩),
    fun next payload p hpkt hr hp => tail_dropped hg hsrc hpkt hr hp, ?_⟩
  · intro next payload p rest k n isSyn isUdp hpkt hr hrated
    have hp : p = 6 ∨ p = 17 := hrated.imp And.left And.left
    by_cases hmany : 8 < n ∨ 1 < k
    · refine ⟨fun _ => by tauto, fun _ => .inr (upper_dropped hg hsrc hpkt hr (.inl hmany))⟩
    · rw [not_or, not_lt] at hmany
      obtain rfl | rfl : k = 0 ∨ k = 1 := by omega
      · rw [whole_rated hsrc hpkt hr hmany.1 hrated]
        by_cases hm : multicast ip = true
        · rw [hm]
          simp [hmany.1]
        · rw [if_neg hm]
          simp [hm]
      · by_cases hpg : guards c p = true
        · have hdrop := upper_dropped hg hsrc hpkt hr (.inr ⟨one_ne_zero, hpg⟩)
          exact ⟨fun _ => by tauto, fun _ => .inr hdrop⟩
        · rw [fragment_unguarded hpkt hr hmany.1 hp (Bool.not_eq_true _ ▸ hpg)]
          simp [hmany.1, hpg]
  · intro next payload p rest n hpkt hr hn htcp hudp hdrop
    obtain ⟨x, hx, -⟩ := parse_spec ip
    obtain ⟨out, hout, hne⟩ := main_ne_drop hx (whole_prepared c allow hpkt x hr hn htcp hudp)
    rw [hout] at hdrop
    exact hne (Option.some.inj hdrop)

def udpOnly : RateConfig := ⟨false, false, true, 0, 0, 0, 0, 0⟩

/-- a packet with this length, protocol and payload -/
def packetTo (dst len next : UInt8) (payload : Frame) : Frame :=
  [0x60, 0, 0, 0, 0, len, next, 64] ++ ([0x20, 0x01] ++ replicate 14 1) ++ (dst :: replicate 15 1) ++
    payload

def datagram : Frame := [0, 53, 0, 53, 0, 8, 0, 0]

/-- the datagram behind destination options -/
def behind : Frame := [17, 0, 1, 4, 0, 0, 0, 0] ++ datagram

/-- a datagram to a unicast address is presented as UDP or dropped -/
theorem unicast_udp_presented :
    securityRateMain udpOnly (fun _ => false) (packetTo 0x20 16 60 behind) = some (.present false true) ∨
      securityRateMain udpOnly (fun _ => false) (packetTo 0x20 16 60 behind) = some .drop := by
  have hpkt : Ipv6Packet (packetTo 0x20 16 60 behind) 60 behind :=
    ⟨by decide, ⟨0x60, rfl, by decide⟩, ⟨0, 16, rfl, rfl, by decide, rfl⟩, rfl⟩
  have hreads : Reads 60 behind (.upper 17 datagram 0 1) := .options rfl (by decide) (.upper rfl)
  exact ((ipv6_transport_not_hidden udpOnly (fun _ => false) _ rfl rfl).2.1 60 _ 17 _ 0 1
    false true hpkt hreads (.inr ⟨rfl, by decide, rfl, rfl⟩)).mpr (by decide)

/-- a datagram to a multicast address passes without any check -/
theorem multicast_udp_hidden : Ipv6Packet (packetTo 0xff 8 17 datagram) 17 datagram ∧
      Reads 17 datagram (.upper 17 datagram 0 0) ∧
      securityRateMain udpOnly (fun _ => false) (packetTo 0xff 8 17 datagram) = some .pass :=
  ⟨⟨by decide, ⟨0x60, rfl, by decide⟩, ⟨0, 8, rfl, rfl, by decide, rfl⟩, rfl⟩, .upper rfl, by decide⟩

end Security
