import InferenceGateway.Lib.Run

/-!
# The firewall: the rule list, the kernel table and the lookup

The control plane keeps its rules in a list ordered by preference (`pdi_rule_insert`,
`pdi_rule_delete`) and rewrites the part of the kernel's array that an operation moved
(`llb_add_mf_map_elem__`, `llb_del_mf_map_elem__`).  The kernel walks the array in passes of bounded
length, with a tail call between them (`dp_do_fw4_main`, `dp_do_fw6_main`).  The IPv4 and the IPv6
side are one text over two address fields: `fw4` and `fw6` are the two instances.

`Ruled` is what the table is for: it holds the rules that were added and not deleted, and a packet
gets the first of them that matches it.
-/

set_option linter.unusedSectionVars false

open Function List Run Bool

namespace Fw

/-- a value and its mask (`PDI_DEF_FIELD`) -/
structure Tup (n : Nat) where
  (val valid : BitVec n)
deriving DecidableEq, Inhabited

/-- the two members of the union lie over each other: `first` is `min` or `val`, `second` is `max` or
`valid` (`PDI_DEF_RANGE_FIELD`) -/
structure RTup where
  hasRange : BitVec 32
  (first second : BitVec 16)
deriving DecidableEq, Inhabited

/-- an IPv6 address field, byte by byte (`PDI_DEF_ARR_FIELD`) -/
abbrev Arr := Fin 16 → Tup 8

def Tup.pdiMatch {n : Nat} (v1 v2 : Tup n) : Bool :=
  v2.valid = 0 || (v2.valid ≠ 0 && v1.val &&& v2.valid = v2.val)

def Tup.matchAll {n : Nat} (v1 v2 : Tup n) : Bool :=
  v2.valid = v1.valid && v1.val &&& v2.valid = v2.val

def RTup.pdiMatch (v1 v2 : RTup) : Bool :=
  (v2.hasRange ≠ 0 && (v2.first ≤ v1.first && v1.first ≤ v2.second)) ||
    (v2.hasRange = 0 && (v2.second = 0 || (v2.second ≠ 0 && v1.first &&& v2.second = v2.first)))

def RTup.matchAll (v1 v2 : RTup) : Bool :=
  v1.hasRange = v2.hasRange &&
    if v2.hasRange ≠ 0 then v1.first = v2.first && v1.second = v2.second
    else v1.second = v2.second && v1.first = v2.first

def match6 (v1 v2 : Arr) : Bool :=
  decide (∀ i, ¬ ((v2 i).valid ≠ 0 ∧ (v1 i).val &&& (v2 i).valid ≠ (v2 i).val))

def match6All (v1 v2 : Arr) : Bool :=
  decide (∀ i, ¬ ((v2 i).valid ≠ (v1 i).valid ∧ (v1 i).val &&& (v2 i).valid ≠ (v2 i).val))

/-- what the two sides differ in: the address field `A` with its comparisons, how it is made from a
packet's address `B`, the size of the table and the rounds of one pass -/
structure Family (A B : Type) where
  (addrMatch addrAll : A → A → Bool)
  addrVal : B → A
  (entries loops : Nat)
  entries_pos : 0 < entries
  entries_lt : entries < 2 ^ 16
  loops_pos : 0 < loops

def valInit {n : Nat} (v : BitVec n) : Tup n := ⟨v, BitVec.allOnes n⟩

def fw4 : Family (Tup 32) (BitVec 32) :=
  ⟨Tup.pdiMatch, Tup.matchAll, valInit, 8192, 400, by decide, by decide, by decide⟩

def fw6 : Family Arr (Fin 16 → BitVec 8) :=
  ⟨match6, match6All, fun v i => valInit (v i), 1024, 100, by decide, by decide, by decide⟩

/-- `struct pdi_key`, `struct pdi6_key`; the count `nr` is a field of the table's entries -/
structure Key (A : Type) where
  (dest source : A)
  (dport sport : RTup)
  (inport zone bd : Tup 16)
  protocol : Tup 8
deriving DecidableEq, Inhabited

/-- the action types a firewall entry may name -/
inductive Act where
  | drop | toCp | rdrPort (oport : BitVec 16) | nop | other (type : UInt8)
deriving DecidableEq, Inhabited

/-- the operations of a rule; `unset` is what `calloc` leaves -/
inductive Op where
  | unset | drop | trap | rdr (port : BitVec 16) | fwd
deriving DecidableEq

/-- what the kernel does with a packet that a rule hits -/
inductive Verdict where
  | pass | redirect (oport : BitVec 16) | trap | drop
deriving DecidableEq

/-- a rule's number, mark and record flag, with its action at one of three levels -/
structure Tact (T : Type) where
  (cidx mark : BitVec 32)
  record : BitVec 16
  act : T
deriving DecidableEq, Inhabited

def Tact.map {T U : Type} (f : T → U) (a : Tact T) : Tact U := ⟨a.cidx, a.mark, a.record, f a.act⟩

/-- `llb_dp_ufw2pdiop` -/
def Act.toOp : Act → Op
  | .drop => .drop
  | .toCp => .trap
  | .rdrPort p => .rdr p
  | .nop => .fwd
  | .other _ => .unset

/-- `llb_dp_pdiop2_ufwa`; an operation that is not set leaves the type 0, `DP_SET_DROP` -/
def Op.toAct : Op → Act
  | .unset => .drop
  | .drop => .drop
  | .trap => .toCp
  | .rdr p => .rdrPort p
  | .fwd => .nop

/-- the end of `dp_do_fw4_main` -/
def Act.verdict : Act → Verdict
  | .nop => .pass
  | .rdrPort p => .redirect p
  | .toCp => .trap
  | .drop => .drop
  | .other _ => .drop

/-- an entry as the control plane hands it over; `pref` travels in `oaux` -/
@[ext]
structure Given (A : Type) where
  key : Key A
  pref : BitVec 16
  fwa : Tact Act
deriving DecidableEq

/-- `struct pdi_rule` -/
structure Rule (A : Type) where
  key : Key A
  pref : BitVec 16
  data : Tact Op

/-- `struct dp_fwv4_ent`, `struct dp_fwv6_ent` -/
structure Entry (A : Type) where
  key : Key A
  nr : BitVec 16
  fwa : Tact Act
deriving Inhabited

section
variable {A B : Type} (f : Family A B)

/-- `PDI_KEY_EQ`, `PDI_KEY6_EQ` -/
def keyEq (v1 v2 : Key A) : Bool :=
  f.addrAll v1.dest v2.dest && f.addrAll v1.source v2.source && v1.dport.matchAll v2.dport &&
    v1.sport.matchAll v2.sport && v1.inport.matchAll v2.inport && v1.zone.matchAll v2.zone &&
    v1.protocol.matchAll v2.protocol && v1.bd.matchAll v2.bd

/-- `PDI_PKEY_EQ`, `PDI_PKEY6_EQ` -/
def pkeyEq (v1 v2 : Key A) : Bool :=
  f.addrMatch v1.dest v2.dest && f.addrMatch v1.source v2.source && v1.dport.pdiMatch v2.dport &&
    v1.sport.pdiMatch v2.sport && v1.inport.pdiMatch v2.inport && v1.zone.pdiMatch v2.zone &&
    v1.protocol.pdiMatch v2.protocol && v1.bd.pdiMatch v2.bd

/-- `llb_dp_ufw42_pdik` and `llb_dp_ufw2pdiop`: the bridge domain is not copied -/
def ruleOf (g : Given A) : Rule A := ⟨{ g.key with bd := default }, g.pref, g.fwa.map Act.toOp⟩

/-- `llb_dp_pdik2_ufw4` and `llb_dp_pdiop2_ufwa`, with the count for the first entry -/
def entryOf (r : Rule A) (nr : BitVec 16) [Inhabited A] : Entry A :=
  ⟨{ r.key with bd := default }, nr, r.data.map Op.toAct⟩

/-- `pdi_rule_insert`: the new list and how many rules stand before the new one, `none` for
`-EEXIST` -/
def ruleInsert (new : Rule A) : List (Rule A) → Option (List (Rule A) × Nat)
  | [] => some ([new], 0)
  | node :: rest =>
    if new.pref > node.pref then some (new :: node :: rest, 0)
    else if new.pref = node.pref ∧ keyEq f new.key node.key = true then none
    else (ruleInsert new rest).map fun x => (node :: x.1, x.2 + 1)

/-- `pdi_rule_delete` -/
def ruleDelete (key : Key A) (pref : BitVec 16) : List (Rule A) → Option (List (Rule A) × Nat)
  | [] => none
  | node :: rest =>
    if pref = node.pref ∧ keyEq f key node.key = true then some (rest, 0)
    else (ruleDelete key pref rest).map fun x => (node :: x.1, x.2 + 1)

variable [Inhabited A]

/-- the kernel's array: an update past its end fails -/
def write (t : Nat → Entry A) (n : Nat) (e : Entry A) : Nat → Entry A :=
  if n < f.entries then update t n e else t

/-- the loop over the rules after an operation at place `nr`: the first entry, which carries the
count, and everything from that place on -/
def publish (nr count : Nat) : Nat → List (Rule A) → (Nat → Entry A) → Nat → Entry A
  | _, [], t => t
  | n, r :: rs, t =>
    publish nr count (n + 1) rs (if n = 0 ∨ nr ≤ n then
        write f t n (entryOf r (if n = 0 then BitVec.ofNat 16 count else default))
      else t)

/-- `while (n < LLB_FW4_MAP_ENTRIES)`: `k` entries from `n` on are emptied -/
def wipe : Nat → Nat → (Nat → Entry A) → Nat → Entry A
  | 0, _, t => t
  | k + 1, n, t => wipe k (n + 1) (write f t n default)

/-- `struct pdi_map` and the kernel's table -/
structure Wall (A : Type) where
  rules : List (Rule A)
  nr : Nat
  table : Nat → Entry A

def Wall.empty : Wall A := ⟨[], 0, fun _ => default⟩

/-- `llb_add_mf_map_elem__` -/
def addElem (w : Wall A) (g : Given A) : Wall A :=
  match ruleInsert f (ruleOf g) w.rules with
  | none => w
  | some (rules, nr) => ⟨rules, w.nr + 1, publish f nr (w.nr + 1) 0 rules w.table⟩

/-- `llb_del_mf_map_elem__` -/
def delElem (w : Wall A) (g : Given A) : Wall A :=
  match ruleDelete f (ruleOf g).key (ruleOf g).pref w.rules with
  | none => w
  | some (rules, nr) =>
    ⟨rules, w.nr - 1, wipe f (f.entries - rules.length) rules.length
      (publish f nr (w.nr - 1) 0 rules w.table)⟩

/-- what the lookup reads of a packet -/
structure Packet (B : Type) where
  (iport zone bd : BitVec 16)
  (daddr saddr : B)
  (dport sport : BitVec 16)
  protocol : BitVec 8

def Packet.key (p : Packet B) : Key A where
  dest := f.addrVal p.daddr
  source := f.addrVal p.saddr
  dport := ⟨0, p.dport, BitVec.allOnes 16⟩
  sport := ⟨0, p.sport, BitVec.allOnes 16⟩
  inport := valInit p.iport
  zone := valInit p.zone
  bd := valInit p.bd
  protocol := valInit p.protocol

/-- how a pass ends: a hit, the end of the array, or `i` at its bound with the count in `fw_mid` -/
inductive Scan (A : Type) where
  | hit (e : Entry A) | miss | more (mid : Nat)

/-- the loop of one pass from `fw_lid = lid`, with `k` rounds to go at `i` -/
def scan (t : Nat → Entry A) (key : Key A) (lid : Nat) : Nat → Nat → Nat → Scan A
  | 0, _, mid => .more mid
  | k + 1, i, mid =>
    if lid + i < f.entries then
      if lid + i ≠ 0 ∧ mid ≤ i + lid then .more mid
      else if (t (lid + i)).key.zone.val ≠ 0 ∧ pkeyEq f key (t (lid + i)).key = true then
        .hit (t (lid + i))
      else scan t key lid k (i + 1) (if lid + i = 0 then (t (lid + i)).nr.toNat else mid)
    else .miss

/-- the passes, one for each tail call; `none` when they are not over -/
def passes (t : Nat → Entry A) (key : Key A) : Nat → Nat → Nat → Option (Option (Entry A))
  | 0, _, _ => none
  | fuel + 1, lid, mid =>
    match scan f t key lid f.loops 0 mid with
    | .hit e => some (some e)
    | .miss => some none
    | .more mid =>
      if f.entries ≤ lid + f.loops ∨ mid < lid + f.loops then some none
      else passes t key fuel (lid + f.loops) mid

/-- `dp_do_fw4_main`, `dp_do_fw6_main` over all passes: what is done with the packet, if a rule hits -/
def fwMain (t : Nat → Entry A) (p : Packet B) (fuel : Nat) : Option (Option (Tact Verdict)) :=
  (passes f t (p.key f) fuel 0 0).map fun e => e.map fun e => e.fwa.map Act.verdict

end

section
variable {A B : Type} [Inhabited A] [DecidableEq A] (f : Family A B)

/-- one rule: the same key at the same preference -/
def Given.same (a b : Given A) : Bool := a.key = b.key ∧ a.pref = b.pref

inductive Cmd (A : Type) where
  | add (g : Given A)
  | del (g : Given A)

/-- the rules that were added and not deleted: a rule that exists takes the new action, another one
stands before the first of lower preference -/
def live (L : List (Given A)) : Cmd A → List (Given A)
  | .add g =>
    if L.any g.same then L.map fun q => if g.same q then g else q
    else L.orderedInsert (fun a b => b.pref < a.pref) g
  | .del g => L.eraseP g.same

/-- the control plane's rules beside the wall -/
def step (x : Wall A × List (Given A)) (c : Cmd A) : Wall A × List (Given A) :=
  (match c with
    | .add g => addElem f x.1 g
    | .del g => delElem f x.1 g, live x.2 c)

/-- **the kernel's firewall is the rule list** `L` -/
structure Ruled (L : List (Given A)) (t : Nat → Entry A) : Prop where
  sorted : L.Pairwise fun a b => b.pref ≤ a.pref
  entry : ∀ i g, L[i]? = some g → (t i).key = g.key ∧
    (t i).fwa.map Act.verdict = g.fwa.map Act.verdict
  count : (t 0).nr.toNat = L.length
  behind : ∀ i, L.length ≤ i → i < f.entries → t i = default
  lookup : ∀ (p : Packet B) (fuel : Nat), f.entries ≤ fuel → fwMain f t p fuel =
    some ((L.find? fun g => pkeyEq f (p.key f) g.key).map fun g => g.fwa.map Act.verdict)

/-- within the table, and with a zone -/
def Cmd.fits (L : List (Given A)) : Cmd A → Bool
  | .add g => g.key.zone.val ≠ 0 && (L.any g.same || L.length < f.entries)
  | .del _ => true

/-- the rule matches no bridge domain, the comparison of keys is right about the rules of its
preference, and it does not come again with another action -/
def Cmd.plain (L : List (Given A)) : Cmd A → Bool
  | .add g => g.key.bd = default &&
      L.all fun q => q.pref ≠ g.pref || (keyEq f g.key q.key = decide (g.key = q.key) &&
        (g.key ≠ q.key || g.fwa = q.fwa))
  | .del g => g.key.bd = default &&
      L.all fun q => q.pref ≠ g.pref || keyEq f g.key q.key = decide (g.key = q.key)

/-- the entry at place `i` of the table of `L` -/
def tableOf (L : List (Given A)) (i : Nat) : Entry A :=
  match L[i]? with
  | some g => entryOf (ruleOf g) (if i = 0 then BitVec.ofNat 16 L.length else default)
  | none => default

structure Kept (x : Wall A × List (Given A)) : Prop where
  rules : x.1.rules = x.2.map ruleOf
  nr : x.1.nr = x.2.length
  within : x.2.length ≤ f.entries
  sorted : x.2.Pairwise fun a b => b.pref ≤ a.pref
  bare : ∀ g ∈ x.2, g.key.bd = default ∧ g.key.zone.val ≠ 0
  table : ∀ i < f.entries, x.1.table i = tableOf x.2 i

variable {f} {L L' : List (Given A)} {g : Given A}

theorem same_iff {q : Given A} (hg : g.key.bd = default) (hq : q.key.bd = default)
    (hk : q.pref = g.pref → keyEq f g.key q.key = decide (g.key = q.key)) :
    ((ruleOf g).pref = (ruleOf q).pref ∧ keyEq f (ruleOf g).key (ruleOf q).key = true) ↔
      g.same q = true := by
  have hkey : ∀ {r : Given A}, r.key.bd = default → (ruleOf r).key = r.key := by
    intro r hr
    show { r.key with bd := default } = r.key
    rw [← hr]
  rw [hkey hg, hkey hq, Given.same, decide_eq_true_eq]
  constructor
  · rintro ⟨h1, h2⟩
    rw [hk h1.symm] at h2
    exact ⟨of_decide_eq_true h2, h1⟩
  · rintro ⟨h1, h2⟩
    exact ⟨h2, by rw [hk h2.symm]; exact decide_eq_true h1⟩

section
variable (hk : ∀ q ∈ L, ((ruleOf g).pref = (ruleOf q).pref ∧
    keyEq f (ruleOf g).key (ruleOf q).key = true) ↔ g.same q = true)
include hk

/-- a rule that is not there is put before the first of lower preference; what stands before it
stays -/
theorem insert_cases (hs : L.Pairwise fun a b => b.pref ≤ a.pref) :
    if L.any g.same then ruleInsert f (ruleOf g) (L.map ruleOf) = none
    else ∃ k, ruleInsert f (ruleOf g) (L.map ruleOf) =
        some ((L.orderedInsert (fun a b => b.pref < a.pref) g).map ruleOf, k) ∧
      (L.orderedInsert (fun a b => b.pref < a.pref) g).take k = L.take k := by
  induction L with
  | nil => exact ⟨0, rfl, rfl⟩
  | cons q L ih =>
    have hs' := pairwise_cons.mp hs
    have ih := ih (fun r hr => hk r (mem_cons_of_mem _ hr)) hs'.2
    have hkey := hk q mem_cons_self
    rw [map_cons, ruleInsert, orderedInsert, any_cons]
    by_cases hlt : q.pref < g.pref
    · -- below the new rule nothing can be the same one
      have hnone : ¬ (g.same q || L.any g.same) = true := by
        simp only [or_eq_true, any_eq_true, Given.same, decide_eq_true_eq]
        rintro (⟨-, hp⟩ | ⟨r, hr, -, hp⟩)
        · bv_omega
        · have := hs'.1 r hr
          bv_omega
      rw [if_pos hlt, if_neg hnone]
      exact ⟨0, if_pos hlt, rfl⟩
    · rw [if_neg (show ¬ (ruleOf g).pref > (ruleOf q).pref from hlt), if_neg hlt]
      by_cases hsame : g.same q = true
      · rw [hsame, Bool.true_or, if_pos rfl, if_pos (hkey.mpr hsame)]
      · rw [if_neg (mt hkey.mp hsame), eq_false_iff.mpr hsame]
        split at ih
        · rw [if_pos ‹_›, ih]
          rfl
        · rw [if_neg ‹_›]
          obtain ⟨k, h1, h2⟩ := ih
          refine ⟨k + 1, by rw [h1]; rfl, ?_⟩
          rw [take_succ_cons, take_succ_cons, h2]

theorem delete_cases :
    if L.any g.same then ∃ k, ruleDelete f (ruleOf g).key (ruleOf g).pref (L.map ruleOf) =
        some ((L.eraseP g.same).map ruleOf, k) ∧ (L.eraseP g.same).take k = L.take k
    else ruleDelete f (ruleOf g).key (ruleOf g).pref (L.map ruleOf) = none := by
  induction L with
  | nil => rfl
  | cons q L ih =>
    have ih := ih fun r hr => hk r (mem_cons_of_mem _ hr)
    have hkey := hk q mem_cons_self
    rw [map_cons, ruleDelete, eraseP_cons, any_cons]
    by_cases hsame : g.same q = true
    · rw [hsame, if_pos (hkey.mpr hsame)]
      exact ⟨0, rfl, rfl⟩
    · rw [if_neg (mt hkey.mp hsame), eq_false_iff.mpr hsame]
      split at ih
      · rw [if_pos ‹_›]
        obtain ⟨k, h1, h2⟩ := ih
        refine ⟨k + 1, by rw [h1]; rfl, ?_⟩
        rw [cond_false, take_succ_cons, take_succ_cons, h2]
      · rw [if_neg ‹_›, ih]
        rfl

end

variable {n i : Nat}

theorem write_self (t : Nat → Entry A) (e : Entry A) (hn : n < f.entries) :
    write f t n e n = e := by
  rw [write, if_pos hn, update_self]

theorem write_of_ne (t : Nat → Entry A) (e : Entry A) (h : i ≠ n) : write f t n e i = t i := by
  unfold write
  split
  · exact update_of_ne h e t
  · rfl

theorem publish_before (nr count : Nat) (h : i < n) (rs : List (Rule A)) (t : Nat → Entry A) :
    publish f nr count n rs t i = t i := by
  induction rs generalizing n t with
  | nil => rfl
  | cons r rs ih =>
    rw [publish, ih (by omega)]
    split
    · exact write_of_ne t _ (by omega)
    · rfl

theorem publish_apply (nr count n j : Nat) (rs : List (Rule A)) (t : Nat → Entry A)
    (hi : n + j < f.entries) : publish f nr count n rs t (n + j) =
      match rs[j]? with
      | some r => if n + j = 0 ∨ nr ≤ n + j then
          entryOf r (if n + j = 0 then BitVec.ofNat 16 count else default) else t (n + j)
      | none => t (n + j) := by
  induction rs generalizing n j t with
  | nil => rfl
  | cons r rs ih =>
    rw [publish]
    cases j with
    | zero =>
      rw [publish_before _ _ (by omega), Nat.add_zero]
      split
      · exact write_self t _ hi
      · rfl
    | succ j =>
      have hj : n + (j + 1) = n + 1 + j := by omega
      have hrest : (if n = 0 ∨ nr ≤ n then write f t n (entryOf r (if n = 0 then
          BitVec.ofNat 16 count else default)) else t) (n + 1 + j) = t (n + 1 + j) := by
        split
        · exact write_of_ne t _ (by omega)
        · rfl
      rw [hj, ih (n + 1) j _ (by omega), hrest, getElem?_cons_succ]

theorem wipe_apply (k n : Nat) (t : Nat → Entry A) (hi : i < f.entries) :
    wipe f k n t i = if n ≤ i ∧ i < n + k then default else t i := by
  induction k generalizing n t with
  | zero => rw [wipe, if_neg (by omega)]
  | succ k ih =>
    rw [wipe, ih]
    by_cases hn : i = n
    · subst hn
      rw [if_neg (by omega), write_self t _ hi, if_pos (by omega)]
    · rw [write_of_ne t _ hn]
      exact if_congr (by omega) rfl rfl

/-- the table after the rewriting loop: what stands before the place of the change is right already -/
theorem publish_table {k : Nat} (hk : L'.take k = L.take k) {t : Nat → Entry A}
    (ht : ∀ i < f.entries, t i = tableOf L i) (hi : i < f.entries) :
    publish f k L'.length 0 (L'.map ruleOf) t i =
      if i < L'.length then tableOf L' i else tableOf L i := by
  have h := publish_apply (f := f) k L'.length 0 i (L'.map ruleOf) t (by omega)
  rw [Nat.zero_add, getElem?_map] at h
  rw [h]
  by_cases hl : i < L'.length
  · rw [getElem?_eq_getElem hl]
    dsimp only [Option.map_some]
    split
    · rw [tableOf, getElem?_eq_getElem hl]
    · -- an entry that was not rewritten
      have hget : L[i]? = L'[i]? := by
        rw [← getElem?_take_of_lt (show i < k by omega), ← hk, getElem?_take_of_lt (by omega)]
      rw [ht i hi, tableOf, tableOf, hget]
      simp only [if_neg (show ¬ i = 0 by omega)]
  · rw [if_neg hl, getElem?_eq_none (by omega)]
    exact ht i hi

theorem tableOf_behind (h : L.length ≤ i) : tableOf L i = default := by
  rw [tableOf, getElem?_eq_none h]

theorem sorted_insert (hs : L.Pairwise fun a b => b.pref ≤ a.pref) :
    (L.orderedInsert (fun a b => b.pref < a.pref) g).Pairwise fun a b => b.pref ≤ a.pref := by
  induction L with
  | nil => exact pairwise_singleton _ _
  | cons q L ih =>
    have hs' := pairwise_cons.mp hs
    rw [orderedInsert]
    split
    · refine pairwise_cons.mpr ⟨fun r hr => ?_, hs⟩
      rcases mem_cons.mp hr with rfl | hr
      · bv_omega
      · have := hs'.1 r hr
        bv_omega
    · refine pairwise_cons.mpr ⟨fun r hr => ?_, ih hs'.2⟩
      rcases (mem_orderedInsert _).mp hr with rfl | hr
      · bv_omega
      · exact hs'.1 r hr

variable {x : Wall A × List (Given A)}

theorem Kept.add (h : Kept f x) (hf : (Cmd.add g).fits f x.2 = true)
    (hp : (Cmd.add g).plain f x.2 = true) : Kept f (step f x (.add g)) := by
  simp only [Cmd.fits, Cmd.plain, and_eq_true, or_eq_true, decide_eq_true_eq, all_eq_true] at hf hp
  obtain ⟨hbd, hp⟩ := hp
  have hk : ∀ q ∈ x.2, q.pref = g.pref → keyEq f g.key q.key = decide (g.key = q.key) :=
    fun q hq he => ((hp q hq).resolve_left fun hne => hne he).1
  have hins := insert_cases (fun q hq => same_iff hbd (h.bare q hq).1 (hk q hq)) h.sorted
  have hstep : step f x (.add g) = (addElem f x.1 g, live x.2 (.add g)) := rfl
  rw [hstep, addElem, live, h.rules]
  split at hins
  · -- the rule is there, with the same action
    rename_i hany
    rw [hins, if_pos hany]
    have hsame : (x.2.map fun q => if g.same q then g else q) = x.2 := by
      conv_rhs => rw [← map_id x.2]
      refine map_congr_left fun q hq => ?_
      split
      · rename_i hs
        rw [Given.same, decide_eq_true_eq] at hs
        have hact := ((hp q hq).resolve_left fun hne => hne hs.2.symm).2.resolve_left
          fun hne => hne hs.1
        exact Given.ext hs.1 hs.2 hact
      · rfl
    rw [hsame]
    exact h
  · rename_i hany
    obtain ⟨k, h1, h2⟩ := hins
    have hlen := orderedInsert_length (fun a b => b.pref < a.pref) x.2 g
    rw [h1, if_neg hany]
    refine ⟨rfl, ?_, ?_, sorted_insert h.sorted, ?_, fun i hi => ?_⟩
    · rw [hlen, ← h.nr]
    · rw [hlen]
      exact hf.2.resolve_left hany
    · intro q hq
      rcases (mem_orderedInsert _).mp hq with rfl | hq
      · exact ⟨hbd, hf.1⟩
      · exact h.bare q hq
    · show publish f k (x.1.nr + 1) 0 _ x.1.table i = tableOf (x.2.orderedInsert _ g) i
      rw [h.nr, ← hlen, publish_table h2 h.table hi]
      split
      · rfl
      · rw [tableOf_behind (by omega), tableOf_behind (by omega)]

theorem Kept.del (h : Kept f x) (hp : (Cmd.del g).plain f x.2 = true) :
    Kept f (step f x (.del g)) := by
  simp only [Cmd.plain, and_eq_true, or_eq_true, decide_eq_true_eq, all_eq_true] at hp
  have hk : ∀ q ∈ x.2, q.pref = g.pref → keyEq f g.key q.key = decide (g.key = q.key) :=
    fun q hq he => (hp.2 q hq).resolve_left fun hne => hne he
  have hdel := delete_cases fun q hq => same_iff hp.1 (h.bare q hq).1 (hk q hq)
  have hstep : step f x (.del g) = (delElem f x.1 g, x.2.eraseP g.same) := rfl
  rw [hstep, delElem, h.rules]
  split at hdel
  · rename_i hany
    obtain ⟨k, h1, h2⟩ := hdel
    obtain ⟨q, hq, hsame⟩ := any_eq_true.mp hany
    have hlen := length_eraseP_of_mem hq hsame
    have hsub := eraseP_sublist (p := g.same) (l := x.2)
    rw [h1]
    refine ⟨rfl, ?_, hsub.length_le.trans h.within, h.sorted.sublist hsub,
      fun q hq => h.bare q (hsub.mem hq), fun i hi => ?_⟩
    · rw [hlen, ← h.nr]
    · have hw := h.within
      show wipe f _ _ (publish f k (x.1.nr - 1) 0 _ x.1.table) i = tableOf (x.2.eraseP g.same) i
      rw [length_map, wipe_apply _ _ _ hi, h.nr, ← hlen, publish_table h2 h.table hi]
      by_cases hl : i < (x.2.eraseP g.same).length
      · rw [if_neg (by omega), if_pos hl]
      · rw [if_pos (by omega), tableOf_behind (by omega)]
  · rename_i hany
    rw [hdel, eraseP_of_forall_not fun q hq => ?_]
    · exact h
    · exact fun hc => hany (any_eq_true.mpr ⟨q, hq, hc⟩)

/-! ### The lookup -/

theorem tableOf_some (hi : L[i]? = some g) (hb : g.key.bd = default) :
    (tableOf L i).key = g.key ∧ (tableOf L i).fwa.map Act.verdict = g.fwa.map Act.verdict := by
  rw [tableOf, hi]
  constructor
  · show { g.key with bd := default } = g.key
    rw [← hb]
  · show Tact.map Act.verdict ((g.fwa.map Act.toOp).map Op.toAct) = _
    unfold Tact.map
    cases g.fwa.act <;> rfl

theorem tableOf_count (h : L.length ≤ f.entries) : (tableOf L 0).nr.toNat = L.length := by
  cases L with
  | nil => rfl
  | cons g L =>
    show (BitVec.ofNat 16 (g :: L).length).toNat = _
    rw [BitVec.toNat_ofNat, Nat.mod_eq_of_lt (h.trans_lt f.entries_lt)]

section
variable {t : Nat → Entry A} (ht : ∀ i < f.entries, t i = tableOf L i)
  (hb : ∀ g ∈ L, g.key.bd = default ∧ g.key.zone.val ≠ 0) (hl : L.length ≤ f.entries) (key : Key A)
include ht hb hl

/-- one pass finds the first rule of its part that matches, or comes to the end of its part -/
theorem scan_spec (lid k i mid : Nat) (hm : lid + i ≠ 0 → mid = L.length) :
    match ((L.drop (lid + i)).take k).find? fun g => pkeyEq f key g.key with
    | some g => ∃ e, scan f t key lid k i mid = .hit e ∧
        e.fwa.map Act.verdict = g.fwa.map Act.verdict
    | none => (scan f t key lid k i mid = .miss ∧ f.entries ≤ lid + i + k) ∨
        ∃ m, scan f t key lid k i mid = .more m ∧ (lid + i + k ≠ 0 → m = L.length) := by
  induction k generalizing i mid with
  | zero => exact .inr ⟨mid, rfl, hm⟩
  | succ k ih =>
    rw [scan]
    by_cases hlt : lid + i < f.entries
    · rw [if_pos hlt, ht _ hlt]
      by_cases hend : lid + i ≠ 0 ∧ mid ≤ i + lid
      · have hmid := hm hend.1
        rw [if_pos hend, drop_eq_nil_of_le (by omega)]
        exact .inr ⟨mid, rfl, fun _ => hmid⟩
      · rw [if_neg hend]
        have hnext : lid + (i + 1) ≠ 0 → (if lid + i = 0 then (tableOf L (lid + i)).nr.toNat else mid)
            = L.length := by
          intro _
          split
          · rename_i h0
            rw [h0, tableOf_count hl]
          · exact hm ‹_›
        have ih := ih (i + 1) _ hnext
        have hk : lid + i + (k + 1) = lid + i + 1 + k := by omega
        by_cases hin : lid + i < L.length
        · have hg := hb _ (getElem_mem hin)
          obtain ⟨h1, h2⟩ := tableOf_some (getElem?_eq_getElem hin) hg.1
          rw [drop_eq_getElem_cons hin, take_succ_cons, find?_cons, h1, hk]
          cases hmatch : pkeyEq f key L[lid + i].key with
          | true => exact ⟨_, if_pos ⟨hg.2, rfl⟩, h2⟩
          | false =>
            rw [if_neg fun hc => Bool.false_ne_true hc.2]
            exact ih
        · -- only the first entry of an empty table is looked at past the last rule
          rw [if_neg fun hc => hc.1 (by rw [tableOf_behind (by omega)]; rfl), hk]
          rw [drop_eq_nil_of_le (by omega), take_nil] at ih ⊢
          exact ih
    · rw [if_neg hlt, drop_eq_nil_of_le (by omega)]
      exact .inl ⟨rfl, by omega⟩

/-- the passes together find the first rule that matches -/
theorem passes_spec (fuel lid mid : Nat) (hm : lid ≠ 0 → mid = L.length) (hlid : lid < f.entries)
    (hfuel : f.entries ≤ lid + fuel) :
    (passes f t key fuel lid mid).map (fun e => e.map fun e => e.fwa.map Act.verdict) =
      some (((L.drop lid).find? fun g => pkeyEq f key g.key).map fun g => g.fwa.map Act.verdict) := by
  induction fuel generalizing lid mid with
  | zero => omega
  | succ fuel ih =>
    have hpos := f.loops_pos
    have hscan := scan_spec ht hb hl key lid f.loops 0 mid hm
    have hfind : ((L.drop lid).find? fun g => pkeyEq f key g.key) =
        (((L.drop lid).take f.loops).find? fun g => pkeyEq f key g.key).or
          ((L.drop (lid + f.loops)).find? fun g => pkeyEq f key g.key) := by
      rw [← drop_drop, ← find?_append, take_append_drop]
    rw [passes, hfind]
    rw [Nat.add_zero] at hscan
    split at hscan
    · rename_i g hg
      obtain ⟨e, h1, h2⟩ := hscan
      rw [h1, hg]
      exact congrArg (fun x => some (some x)) h2
    · rename_i hg
      rw [hg]
      have hover : L.length ≤ lid + f.loops → ((L.drop (lid + f.loops)).find? fun g =>
          pkeyEq f key g.key) = none := by
        intro h
        rw [drop_eq_nil_of_le h, find?_nil]
      rcases hscan with ⟨h1, h2⟩ | ⟨m, h1, h2⟩
      · rw [h1, hover (by omega)]
        rfl
      · have hmid := h2 (by omega)
        rw [h1]
        dsimp only
        split
        · rw [hover (by omega)]
          rfl
        · exact ih _ _ (fun _ => hmid) (by omega) (by omega)

end

theorem Kept.ruled (h : Kept f x) : Ruled f x.2 x.1.table where
  sorted := h.sorted
  entry i g hg := by
    have hi := (List.getElem?_eq_some_iff.mp hg).1
    rw [h.table i (hi.trans_le h.within)]
    exact tableOf_some hg (h.bare g (mem_of_getElem? hg)).1
  count := by rw [h.table 0 f.entries_pos, tableOf_count h.within]
  behind i hi hlt := by rw [h.table i hlt, tableOf_behind hi]
  lookup p fuel hfuel := passes_spec h.table h.bare h.within (p.key f) fuel 0 0
    (fun hc => absurd rfl hc) f.entries_pos (by omega)

/-- **the kernel's firewall is the control plane's rule set**: in a run within the table, of rules
with a zone and no bridge domain whose keys compare right and none of which comes again with
another action, every packet gets the first rule that matches it -/
theorem wall_ruled (f : Family A B) (cs : List (Cmd A))
    (hfits : ∀ pre c post, cs = pre ++ c :: post →
      c.fits f (pre.foldl (step f) (Wall.empty, [])).2 = true)
    (hplain : ∀ pre c post, cs = pre ++ c :: post →
      c.plain f (pre.foldl (step f) (Wall.empty, [])).2 = true)
    (pre post : List (Cmd A)) (he : cs = pre ++ post) :
    Ruled f (pre.foldl (step f) (Wall.empty, [])).2
      (pre.foldl (step f) (Wall.empty, [])).1.table := by
  refine (prefix_inv (step f) (Wall.empty, []) (Kept f)
    (fun x c => c.fits f x.2 = true ∧ c.plain f x.2 = true) ?_ ?_
    (fun pre c post h => ⟨hfits pre c post h, hplain pre c post h⟩) pre post he).ruled
  · exact ⟨rfl, rfl, Nat.zero_le _, List.Pairwise.nil, fun _ h => absurd h not_mem_nil,
      fun _ _ => rfl⟩
  · rintro x (g | g) h ⟨h1, h2⟩
    · exact h.add h1 h2
    · exact h.del h2

end

def dropTo (host : BitVec 8) : Given Arr where
  key := { (default : Key Arr) with
    dest := fun i => ⟨if i = 15 then host else 0, 255⟩
    zone := ⟨1, 65535⟩ }
  pref := 10
  fwa := ⟨0, 0, 0, .drop⟩

def packetTo (host : BitVec 8) : Packet (Fin 16 → BitVec 8) :=
  ⟨1, 1, 0, fun i => if i = 15 then host else 0, fun _ => 0, 80, 1024, 6⟩

/-- everything passes that no rule of a higher preference takes -/
def passAll : Given Arr :=
  { key := { (default : Key Arr) with zone := ⟨1, 65535⟩ }, pref := 5, fwa := ⟨0, 0, 0, .nop⟩ }

def addedDeleted : List (Cmd Arr) :=
  [.add passAll, .add (dropTo 1), .add { dropTo 2 with pref := 20, fwa := ⟨0, 0, 0, .toCp⟩ },
    .del (dropTo 1)]

theorem added_deleted_ruled :
    let x := addedDeleted.foldl (step fw6) (Wall.empty, [])
    Ruled fw6 x.2 x.1.table ∧ x.2.map (·.pref) = [20, 5] ∧
      fwMain fw6 x.1.table (packetTo 2) 1024 = some (some ⟨0, 0, 0, .trap⟩) ∧
      fwMain fw6 x.1.table (packetTo 1) 1024 = some (some ⟨0, 0, 0, .pass⟩) := by
  have h := wall_ruled fw6 addedDeleted
    (of_throughout (show throughout (step fw6) (fun x c => Cmd.fits fw6 x.2 c)
      (Wall.empty, []) addedDeleted = true by decide +kernel))
    (of_throughout (show throughout (step fw6) (fun x c => Cmd.plain fw6 x.2 c)
      (Wall.empty, []) addedDeleted = true by decide +kernel)) addedDeleted [] rfl
  exact ⟨h, by decide +kernel, (h.lookup (packetTo 2) 1024 le_rfl).trans (by decide +kernel),
    (h.lookup (packetTo 1) 1024 le_rfl).trans (by decide +kernel)⟩

/-- two rules for two hosts, with the same masks: the second is taken for the first and never
installed, and a packet to its host passes -/
theorem second_host_hidden : (live (live [] (.add (dropTo 1))) (.add (dropTo 2))).length = 2 ∧
      ([Cmd.add (dropTo 1), .add (dropTo 2)].foldl (step fw6) (Wall.empty, [])).1.nr = 1 ∧
      fwMain fw6 ([Cmd.add (dropTo 1), .add (dropTo 2)].foldl (step fw6) (Wall.empty, [])).1.table
        (packetTo 2) 1024 = some none := by
  decide +kernel

end Fw
