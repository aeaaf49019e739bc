import Mathlib.Data.List.TakeDrop
import Mathlib.Data.List.TakeWhile

/-!
# Routing by host, path and model

`find_endpoint_lpm` looks the pools of a listener up under text keys: host, path prefix and model
joined by `|` and cut to the key buffer.  A rule's fields have no `|`, so its whole key can be read
back (`readKey`); what a client writes in its host and path is not checked.

* `readKey_iff`         reading a key back gives the fields it was built from;
* `keysBuilt`           the keys the lookup asks for;
* `routes_own_model`    for which requests and rules no other model's pool is ever returned;
* `routes_elsewhere`    a `|` in the path selects another model's pool.
-/

open List Option

namespace Route

/-! ## keys -/

def bar : UInt8 := 0x7C
def keyMax : Nat := 511

/-- the text `build_ephash_key` prints -/
def fullKey (host path model : List UInt8) : List UInt8 :=
  if path ≠ [] ∧ model ≠ [] then host ++ bar :: (path ++ bar :: model)
  else if path ≠ [] then host ++ bar :: path
  else if model ≠ [] then host ++ bar :: bar :: model
  else host

def buildEphashKey (host path model : List UInt8) : List UInt8 :=
  (fullKey host path model).take keyMax

/-- a routing rule with its pool: fields without the separator, within their buffers -/
structure Rule where
  (host path : List UInt8)
  /-- empty for a wildcard pool -/
  model : List UInt8
  /-- `path_match_mode == 2` -/
  exactPath : Bool
  host_bar : bar ∉ host
  path_bar : bar ∉ path
  model_bar : bar ∉ model
  host_le : host.length ≤ 255
  path_le : path.length ≤ 255
  model_le : model.length ≤ 127

/-- `ephash_key` of the rule's pool -/
def Rule.key (r : Rule) : List UInt8 := buildEphashKey r.host r.path r.model
def Rule.whole (r : Rule) : Bool := decide ((fullKey r.host r.path r.model).length ≤ keyMax)

variable {r : Rule} {a b c self host model requestPath : List UInt8}

theorem Rule.key_of_whole (h : r.whole = true) : r.key = fullKey r.host r.path r.model :=
  take_of_length_le (of_decide_eq_true h)

/-- `sp_pool_index_find`: at most one pool has a key -/
def indexFind (rules : List Rule) (key : List UInt8) : Option Rule :=
  rules.find? fun r => r.key == key

/-! ## the lookup -/

def slash : UInt8 := 0x2F

/-- the path without its last segment, from the last slash on -/
def cutSegment (path : List UInt8) : Option (List UInt8) :=
  if slash ∈ path then some (path.reverse.dropWhile (· != slash)).tail.reverse else none

/-- the path prefixes that are tried, longest first; the fuel is the length of the path -/
def prefixes : Nat → List UInt8 → List (List UInt8)
  | 0, _ => []
  | fuel + 1, path =>
    if path = [] then []
    else path :: match cutSegment path with
      | some [] => [[slash]]               -- only the leading slash is left
      | some shorter => prefixes fuel shorter
      | none => []

/-- `path`: the root when the request has none -/
def pathOf (requestPath : List UInt8) : List UInt8 :=
  if requestPath = [] then [slash] else requestPath

/-- the URI path without its query -/
def uriPath (requestPath : List UInt8) : List UInt8 := (pathOf requestPath).takeWhile (· != 0x3F)
def pathCopy (requestPath : List UInt8) : List UInt8 := (uriPath requestPath).take 255

def prefixesOf (requestPath : List UInt8) : List (List UInt8) :=
  prefixes (pathCopy requestPath).length (pathCopy requestPath)

/-- the loop over the path prefixes: an exact rule only matches the whole path -/
def findPrefix (rules : List Rule) (host requestPath model : List UInt8) : Option Rule :=
  (prefixesOf requestPath).findSome? fun path =>
    (indexFind rules (buildEphashKey host path model)).filter fun r =>
      !r.exactPath || path.length == (uriPath requestPath).length

def findEndpointForHost (rules : List Rule) (host requestPath model : List UInt8) : Option Rule :=
  (findPrefix rules host requestPath model).or <| (if model = [] then none
      else (indexFind rules (buildEphashKey host [] model)).or
        (findPrefix rules host requestPath [])).or <|
    indexFind rules (buildEphashKey host [] [])

/-- `find_endpoint_lpm` on a listener with the text `self` for its own address and port -/
def findEndpointLpm (rules : List Rule) (self host requestPath model : List UInt8) : Option Rule :=
  (findEndpointForHost rules host requestPath model).or <|
    (findEndpointForHost rules self requestPath model).or <|
    indexFind rules (buildEphashKey [] [] [])

/-- `sp_pool_key_model`: what follows the second separator of the pool's key -/
def spPoolKeyModel (r : Rule) : List UInt8 :=
  match r.key.dropWhile (· != bar) with
  | [] => []
  | _ :: rest => (rest.dropWhile (· != bar)).tail

/-- `sp_route_hostless`; `none` when the request is refused or the listener has no pool -/
def spRouteHostless (rules : List Rule) (model : List UInt8) : Option Rule :=
  if rules.all fun r => spPoolKeyModel r == [] then rules.head?
  else if model = [] then none
  else rules.find? fun r => spPoolKeyModel r != [] && spPoolKeyModel r == model

/-- the model of a request: what admission resolved, the header's and the body's; empty when there
is none -/
structure Asked where
  (effective header body : List UInt8)

def spRouteModel (a : Asked) : List UInt8 :=
  if a.effective ≠ [] then a.effective else if a.header ≠ [] then a.header else a.body

/-! ## reading keys back -/

section
variable {a t : List UInt8}

theorem takeWhile_bar (h : bar ∉ a) : (a ++ bar :: t).takeWhile (· != bar) = a := by
  rw [takeWhile_append_of_pos (by
    intro x hx
    exact bne_iff_ne.mpr fun hb => h (hb ▸ hx)), takeWhile_cons_of_neg (by simp),
    append_nil]

theorem dropWhile_bar (h : bar ∉ a) : (a ++ bar :: t).dropWhile (· != bar) = bar :: t := by
  rw [dropWhile_append_of_pos (by
    intro x hx
    exact bne_iff_ne.mpr fun hb => h (hb ▸ hx)), dropWhile_cons_of_neg (by simp)]

theorem takeWhile_plain (h : bar ∉ a) : a.takeWhile (· != bar) = a :=
  takeWhile_eq_self_iff.mpr fun _ hx => bne_iff_ne.mpr fun hb => h (hb ▸ hx)

theorem dropWhile_plain (h : bar ∉ a) : a.dropWhile (· != bar) = [] :=
  dropWhile_eq_nil_iff.mpr fun _ hx => bne_iff_ne.mpr fun hb => h (hb ▸ hx)

end

/-- the fields of a key, split at its separators; `none` for a text that no rule has for a key -/
def readKey (k : List UInt8) : Option (List UInt8 × List UInt8 × List UInt8) :=
  let host := k.takeWhile (· != bar)
  match k.dropWhile (· != bar) with
  | [] => some (host, [], [])
  | _ :: rest =>
    let path := rest.takeWhile (· != bar)
    match rest.dropWhile (· != bar) with
    | [] => if path = [] then none else some (host, path, [])
    | _ :: model => if model = [] ∨ bar ∈ model then none else some (host, path, model)

theorem readKey_fullKey (ha : bar ∉ a) (hb : bar ∉ b) (hc : bar ∉ c) :
    readKey (fullKey a b c) = some (a, b, c) := by
  unfold fullKey readKey
  by_cases hpath : b = []
  · by_cases hmodel : c = []
    · subst hpath hmodel
      simp [takeWhile_plain ha, dropWhile_plain ha]
    · subst hpath
      simp [hmodel, hc, takeWhile_bar ha, dropWhile_bar ha]
  · by_cases hmodel : c = []
    · subst hmodel
      simp [hpath, takeWhile_bar ha, dropWhile_bar ha, takeWhile_plain hb, dropWhile_plain hb]
    · simp [hpath, hmodel, hc, takeWhile_bar ha, dropWhile_bar ha, takeWhile_bar hb,
        dropWhile_bar hb]

theorem readKey_iff {k : List UInt8} :
    readKey k = some (a, b, c) ↔ bar ∉ a ∧ bar ∉ b ∧ bar ∉ c ∧ fullKey a b c = k := by
  constructor
  · intro h
    by_cases hk : bar ∈ k
    · obtain ⟨x, t, rfl, hx⟩ := eq_append_cons_of_mem hk
      simp only [readKey, takeWhile_bar hx, dropWhile_bar hx] at h
      by_cases ht : bar ∈ t
      · obtain ⟨y, z, rfl, hy⟩ := eq_append_cons_of_mem ht
        simp only [takeWhile_bar hy, dropWhile_bar hy] at h
        split at h
        · cases h
        · next hz =>
          cases h
          obtain ⟨hne, hbar⟩ := not_or.mp hz
          refine ⟨hx, hy, hbar, ?_⟩
          by_cases hpath : b = []
          · subst hpath
            simp [fullKey, hne]
          · simp [fullKey, hpath, hne]
      · simp only [takeWhile_plain ht, dropWhile_plain ht] at h
        split at h
        · cases h
        · next hne =>
          cases h
          exact ⟨hx, ht, by simp, by simp [fullKey, hne]⟩
    · simp only [readKey, takeWhile_plain hk, dropWhile_plain hk] at h
      cases h
      exact ⟨hk, by simp, by simp, by simp [fullKey]⟩
  · rintro ⟨ha, hb, hc, rfl⟩
    exact readKey_fullKey ha hb hc

theorem Rule.readKey_key (h : r.whole = true) : readKey r.key = some (r.host, r.path, r.model) := by
  rw [key_of_whole h]
  exact readKey_fullKey r.host_bar r.path_bar r.model_bar

/-! ## the keys a request asks for -/

/-- the keys `find_endpoint_for_host` builds -/
def keysForHost (host requestPath model : List UInt8) : List (List UInt8) :=
  (prefixesOf requestPath).map (buildEphashKey host · model) ++ ((if model = [] then []
      else buildEphashKey host [] model :: (prefixesOf requestPath).map (buildEphashKey host · [])) ++
    [buildEphashKey host [] []])

/-- the keys `find_endpoint_lpm` builds -/
def keysBuilt (self host requestPath model : List UInt8) : List (List UInt8) :=
  keysForHost host requestPath model ++
    (keysForHost self requestPath model ++ [buildEphashKey [] [] []])

section
variable {rules : List Rule} {host requestPath model key : List UInt8} {r : Rule}

theorem of_indexFind (h : indexFind rules key = some r) : r ∈ rules ∧ r.key = key :=
  ⟨mem_of_find?_eq_some h, by simpa using find?_some h⟩

theorem of_findPrefix (h : findPrefix rules host requestPath model = some r) :
    r ∈ rules ∧ r.key ∈ (prefixesOf requestPath).map (buildEphashKey host · model) := by
  obtain ⟨path, hpath, hfound⟩ := exists_of_findSome?_eq_some h
  obtain ⟨hfind, -⟩ := filter_eq_some_iff.mp hfound
  obtain ⟨hr, hkey⟩ := of_indexFind hfind
  exact ⟨hr, List.mem_map.mpr ⟨path, hpath, hkey.symm⟩⟩

theorem of_findEndpointForHost (h : findEndpointForHost rules host requestPath model = some r) :
    r ∈ rules ∧ r.key ∈ keysForHost host requestPath model := by
  unfold keysForHost
  rcases or_eq_some_iff.mp h with h1 | ⟨-, h2⟩
  · obtain ⟨hr, hkey⟩ := of_findPrefix h1
    exact ⟨hr, mem_append_left _ hkey⟩
  · rcases or_eq_some_iff.mp h2 with h3 | ⟨-, h4⟩
    · split at h3
      · cases h3
      · next hm =>
        rw [if_neg hm]
        rcases or_eq_some_iff.mp h3 with h5 | ⟨-, h6⟩
        · obtain ⟨hr, hkey⟩ := of_indexFind h5
          exact ⟨hr, by simp [hkey]⟩
        · obtain ⟨hr, hkey⟩ := of_findPrefix h6
          refine ⟨hr, mem_append_right _ (mem_append_left _ (mem_cons_of_mem _ hkey))⟩
    · obtain ⟨hr, hkey⟩ := of_indexFind h4
      exact ⟨hr, by simp [hkey]⟩

theorem of_findEndpointLpm {self : List UInt8}
    (h : findEndpointLpm rules self host requestPath model = some r) :
    r ∈ rules ∧ r.key ∈ keysBuilt self host requestPath model := by
  unfold keysBuilt
  rcases or_eq_some_iff.mp h with h1 | ⟨-, h2⟩
  · obtain ⟨hr, hkey⟩ := of_findEndpointForHost h1
    exact ⟨hr, mem_append_left _ hkey⟩
  · rcases or_eq_some_iff.mp h2 with h3 | ⟨-, h4⟩
    · obtain ⟨hr, hkey⟩ := of_findEndpointForHost h3
      exact ⟨hr, mem_append_right _ (mem_append_left _ hkey)⟩
    · obtain ⟨hr, hkey⟩ := of_indexFind h4
      exact ⟨hr, by simp [hkey]⟩

/-! ## a listener with one rule -/

theorem indexFind_one : indexFind [r] r.key = some r := by
  simp [indexFind]

theorem findPrefix_one (hr : r.exactPath = false)
    (h : r.key ∈ (prefixesOf requestPath).map (buildEphashKey host · model)) :
    (findPrefix [r] host requestPath model).isSome = true := by
  obtain ⟨path, hpath, hkey⟩ := List.mem_map.mp h
  unfold findPrefix
  rw [findSome?_isSome_iff]
  refine ⟨path, hpath, ?_⟩
  rw [hkey, indexFind_one]
  simp [hr]

theorem findEndpointForHost_one (hr : r.exactPath = false)
    (h : r.key ∈ keysForHost host requestPath model) :
    (findEndpointForHost [r] host requestPath model).isSome = true := by
  unfold findEndpointForHost
  simp only [isSome_or, Bool.or_eq_true]
  rcases mem_append.mp h with h1 | h2
  · exact .inl (findPrefix_one hr h1)
  · right
    rcases mem_append.mp h2 with h3 | h4
    · left
      split at h3
      · cases h3
      · next hm =>
        rw [if_neg hm, isSome_or, Bool.or_eq_true]
        rcases mem_cons.mp h3 with h5 | h6
        · left
          rw [← h5, indexFind_one]
          rfl
        · exact .inr (findPrefix_one hr h6)
    · right
      rw [← mem_singleton.mp h4, indexFind_one]
      rfl

theorem findEndpointLpm_one {self : List UInt8} (hr : r.exactPath = false)
    (h : r.key ∈ keysBuilt self host requestPath model) :
    findEndpointLpm [r] self host requestPath model = some r := by
  have hsome : (findEndpointLpm [r] self host requestPath model).isSome = true := by
    unfold findEndpointLpm
    simp only [isSome_or, Bool.or_eq_true]
    rcases mem_append.mp h with h1 | h2
    · exact .inl (findEndpointForHost_one hr h1)
    · right
      rcases mem_append.mp h2 with h3 | h4
      · exact .inl (findEndpointForHost_one hr h3)
      · right
        rw [← mem_singleton.mp h4, indexFind_one]
        rfl
  obtain ⟨x, hx⟩ := isSome_iff_exists.mp hsome
  have hmem := (of_findEndpointLpm hx).1
  rw [hx, mem_singleton.mp hmem]

end

/-! ## whose pool is returned -/

/-- a pool of this host and model may serve the request -/
def Serves (self host model ruleHost ruleModel : List UInt8) : Prop :=
  (ruleModel = model ∨ ruleModel = []) ∧ (ruleHost = host ∨ ruleHost = self ∨ ruleHost = [])

instance (self host model ruleHost ruleModel : List UInt8) :
    Decidable (Serves self host model ruleHost ruleModel) := by
  unfold Serves
  infer_instance

/-- the key reads as the fields of a rule, within their buffers, that may not serve the request -/
def foreign (self host model key : List UInt8) : Bool :=
  match readKey key with
  | none => false
  | some (a, b, c) =>
    decide (a.length ≤ 255 ∧ b.length ≤ 255 ∧ c.length ≤ 127 ∧ ¬ Serves self host model a c)

/-- no key built for the request reads as another host's or model's -/
def Clear (self host requestPath model : List UInt8) : Prop :=
  ∀ key ∈ keysBuilt self host requestPath model, foreign self host model key = false

theorem foreign_of_key (hw : r.whole = true) (hn : ¬ Serves self host model r.host r.model) :
    foreign self host model r.key = true := by
  unfold foreign
  rw [Rule.readKey_key hw]
  exact decide_eq_true ⟨r.host_le, r.path_le, r.model_le, hn⟩

theorem key_of_foreign {key : List UInt8} (hle : key.length ≤ keyMax)
    (h : foreign self host model key = true) :
    ∃ r : Rule, r.exactPath = false ∧ r.whole = true ∧ r.key = key ∧
      ¬ Serves self host model r.host r.model := by
  unfold foreign at h
  split at h
  · cases h
  · next a b c hread =>
    obtain ⟨ha, hb, hc, hn⟩ := of_decide_eq_true h
    obtain ⟨hab, hbb, hcb, hkey⟩ := readKey_iff.mp hread
    refine ⟨⟨a, b, c, false, hab, hbb, hcb, ha, hb, hc⟩, rfl, ?_, ?_, hn⟩
    · exact decide_eq_true (hkey ▸ hle)
    · change (fullKey a b c).take keyMax = key
      rw [hkey, take_of_length_le hle]

theorem length_keysForHost {key : List UInt8} (h : key ∈ keysForHost host requestPath model) :
    key.length ≤ keyMax := by
  have hbuild : ∀ a b c, (buildEphashKey a b c).length ≤ keyMax := fun a b c =>
    length_take_le _ _
  unfold keysForHost at h
  split at h <;> simp only [mem_append, List.mem_map, mem_cons, not_mem_nil,
    or_false, false_or] at h
  · rcases h with ⟨path, -, rfl⟩ | rfl <;> exact hbuild _ _ _
  · rcases h with ⟨path, -, rfl⟩ | (rfl | ⟨path, -, rfl⟩) | rfl <;> exact hbuild _ _ _

theorem length_keysBuilt {key : List UInt8} (h : key ∈ keysBuilt self host requestPath model) :
    key.length ≤ keyMax := by
  rcases mem_append.mp h with h1 | h2
  · exact length_keysForHost h1
  · rcases mem_append.mp h2 with h3 | h4
    · exact length_keysForHost h3
    · rw [mem_singleton.mp h4]
      exact Nat.zero_le _

/-! ## requests without a host -/

theorem spPoolKeyModel_whole (h : r.whole = true) : spPoolKeyModel r = r.model := by
  unfold spPoolKeyModel
  rw [Rule.key_of_whole h]
  have ha := r.host_bar
  have hb := r.path_bar
  unfold fullKey
  by_cases hpath : r.path = []
  · by_cases hmodel : r.model = []
    · simp [hpath, hmodel, dropWhile_plain ha]
    · simp [hpath, hmodel, dropWhile_bar ha]
  · by_cases hmodel : r.model = []
    · simp [hpath, hmodel, dropWhile_bar ha, dropWhile_plain hb]
    · simp [hpath, hmodel, dropWhile_bar ha, dropWhile_bar hb]

theorem hostless_of_whole {rules : List Rule} (hwhole : ∀ r ∈ rules, r.whole = true)
    (h : spRouteHostless rules model = some r) :
    r.model = model ∨ r.model = [] := by
  unfold spRouteHostless at h
  split at h
  · next hall =>
    have hr : r ∈ rules := mem_of_head? h
    right
    rw [← spPoolKeyModel_whole (hwhole r hr)]
    simpa using List.all_eq_true.mp hall r hr
  · split at h
    · cases h
    · left
      have hr : r ∈ rules := mem_of_find?_eq_some h
      rw [← spPoolKeyModel_whole (hwhole r hr)]
      have hfound := find?_some h
      rw [Bool.and_eq_true, beq_iff_eq] at hfound
      exact hfound.2

theorem spPoolKeyModel_cut (h : r.whole = false) : (spPoolKeyModel r).length < r.model.length := by
  have hlen : keyMax < (fullKey r.host r.path r.model).length := by
    simpa [Rule.whole] using h
  have hhost := r.host_le
  have hpath := r.path_le
  have hmodel : r.model ≠ [] := by
    intro hm
    unfold fullKey at hlen
    by_cases hp : r.path = []
    · simp [hp, hm, keyMax] at hlen
      omega
    · simp [hp, hm, keyMax] at hlen
      omega
  have hpos := length_pos_iff.mpr hmodel
  have hfull : fullKey r.host r.path r.model = r.host ++ bar :: (r.path ++ bar :: r.model) := by
    unfold fullKey
    by_cases hp : r.path = []
    · simp [hp, hmodel]
    · simp [hp, hmodel]
  rw [hfull] at hlen
  simp only [length_append, length_cons, keyMax] at hlen
  have hone : 511 - r.host.length = (510 - r.host.length) + 1 := by omega
  have hcut : r.key = r.host ++ bar :: (r.path ++
      (bar :: r.model).take (510 - r.host.length - r.path.length)) := by
    unfold Rule.key buildEphashKey
    rw [hfull, keyMax, take_append, take_of_length_le (by omega), hone,
      take_succ_cons, take_append, take_of_length_le (by omega)]
  unfold spPoolKeyModel
  rw [hcut, dropWhile_bar r.host_bar]
  cases hn : 510 - r.host.length - r.path.length with
  | zero =>
    rw [take_zero, append_nil]
    dsimp only
    rw [dropWhile_plain r.path_bar]
    exact hpos
  | succ n =>
    rw [take_succ_cons]
    dsimp only
    rw [dropWhile_bar r.path_bar, tail_cons, length_take]
    omega

theorem hostless_one_iff (r : Rule) :
    (∀ model x, spRouteHostless [r] model = some x → x.model = model ∨ x.model = []) ↔
      r.whole = true := by
  constructor
  · intro hall
    by_contra hw
    have hshort := spPoolKeyModel_cut (Bool.not_eq_true _ ▸ hw)
    have hne : r.model ≠ [] := by
      intro hnil
      rw [hnil] at hshort
      exact absurd hshort (Nat.not_lt_zero _)
    -- a request for what is left of the model's name, or for any other model when nothing is
    by_cases hkey : spPoolKeyModel r = []
    · have hroute : spRouteHostless [r] (0 :: r.model) = some r := by
        simp [spRouteHostless, hkey]
      rcases hall _ _ hroute with heq | hnil
      · exact absurd (congrArg length heq) (by simp)
      · exact hne hnil
    · have hroute : spRouteHostless [r] (spPoolKeyModel r) = some r := by
        simp [spRouteHostless, hkey]
      rcases hall _ _ hroute with heq | hnil
      · rw [← heq] at hshort
        exact absurd hshort (Nat.lt_irrefl _)
      · exact hne hnil
  · intro hw model x hx
    exact hostless_of_whole (by simpa using hw) hx

/-- **a request never reaches another model's pool**, exactly for the requests none of whose keys
reads as another host's or model's, as long as no cut key of a rule is among them; and the pool is
of the model that admission resolved -/
theorem routes_own_model (self host requestPath model : List UInt8) (one : Rule) (asked : Asked) :
    ((∀ rules : List Rule, (∀ r ∈ rules, r.whole = true) → ∀ r,
        findEndpointLpm rules self host requestPath model = some r →
        Serves self host model r.host r.model) ↔ Clear self host requestPath model) ∧
    (Clear self host requestPath model → ∀ rules : List Rule,
      (∀ r ∈ rules, r.key ∈ keysBuilt self host requestPath model → r.whole = true) → ∀ r,
        findEndpointLpm rules self host requestPath model = some r →
        Serves self host model r.host r.model) ∧
    (∀ rules : List Rule, (∀ r ∈ rules, r.whole = true) → ∀ r,
      spRouteHostless rules model = some r → r.model = model ∨ r.model = []) ∧
    ((∀ model x, spRouteHostless [one] model = some x → x.model = model ∨ x.model = []) ↔
      one.whole = true) ∧
    (asked.effective ≠ [] → Clear self host requestPath asked.effective →
      ∀ rules : List Rule, (∀ r ∈ rules, r.whole = true) → ∀ r,
        findEndpointLpm rules self host requestPath (spRouteModel asked) = some r ∨
          spRouteHostless rules (spRouteModel asked) = some r →
        r.model = asked.effective ∨ r.model = []) := by
  have own : ∀ {model}, Clear self host requestPath model → ∀ rules : List Rule,
      (∀ r ∈ rules, r.key ∈ keysBuilt self host requestPath model → r.whole = true) → ∀ r,
      findEndpointLpm rules self host requestPath model = some r →
      Serves self host model r.host r.model := by
    intro model hclear rules hwhole r hfind
    obtain ⟨hr, hkey⟩ := of_findEndpointLpm hfind
    by_contra hn
    have hf := foreign_of_key (hwhole r hr hkey) hn
    rw [hclear r.key hkey] at hf
    cases hf
  refine ⟨⟨?_, fun hclear rules hwhole => own hclear rules fun r hr _ => hwhole r hr⟩, own,
    fun _ hwhole _ h => hostless_of_whole hwhole h, hostless_one_iff one, ?_⟩
  · intro hall key hkey
    by_contra hf
    obtain ⟨r, hexact, hwhole, hrk, hn⟩ :=
      key_of_foreign (length_keysBuilt hkey) (Bool.not_eq_false _ ▸ hf)
    rw [← hrk] at hkey
    exact hn (hall [r] (by simpa using hwhole) r (findEndpointLpm_one hexact hkey))
  · intro hne hclear rules hwhole r hfind
    rw [show spRouteModel asked = asked.effective from if_pos hne] at hfind
    rcases hfind with hfind | hfind
    · exact (own hclear rules (fun r hr _ => hwhole r hr) r hfind).1
    · exact hostless_of_whole hwhole hfind

def ruleL : Rule :=
  { host := [0x68], path := [0x2F, 0x76], model := [0x6C], exactPath := false
    host_bar := by decide, path_bar := by decide, model_bar := by decide
    host_le := by decide, path_le := by decide, model_le := by decide }

def ruleCut : Rule :=
  { host := replicate 255 0x68, path := replicate 255 0x70, model := [0x6C], exactPath := false
    host_bar := by decide +kernel, path_bar := by decide +kernel, model_bar := by decide
    host_le := length_replicate.le, path_le := length_replicate.le
    model_le := by decide }

/-- a request for model `m` with path `/v|l` gets the pool of model `l`; so does one without a host
where the key of the rule for `l` was cut -/
theorem routes_elsewhere :
    (findEndpointLpm [ruleL] [0x31] [0x68] [0x2F, 0x76, 0x7C, 0x6C] [0x6D]).map Rule.model =
      some [0x6C] ∧
    (spRouteHostless [ruleCut] [0x6D]).map Rule.model = some [0x6C] := by
  decide +kernel

/-! ## requests without separators -/

theorem of_mem_prefixes {fuel : Nat} {path : List UInt8} (h : c ∈ prefixes fuel path) :
    c.length ≤ path.length ∧ (bar ∈ c → bar ∈ path) := by
  induction fuel generalizing path with
  | zero => cases h
  | succ fuel ih =>
    unfold prefixes at h
    split at h
    · cases h
    · next hne =>
      rcases mem_cons.mp h with rfl | htail
      · exact ⟨le_rfl, id⟩
      · split at htail
        · rw [mem_singleton.mp htail]
          exact ⟨length_pos_iff.mpr hne, fun hb => absurd hb (by decide)⟩
        · next shorter _ hcut =>
          obtain ⟨hlen, hbar⟩ := ih htail
          unfold cutSegment at hcut
          split at hcut
          · cases hcut
            have hsub : ((path.reverse.dropWhile (· != slash)).tail.reverse).Sublist path := by
              rw [← reverse_sublist, reverse_reverse]
              exact (tail_sublist _).trans (dropWhile_sublist _)
            exact ⟨hlen.trans hsub.length_le, fun hb => hsub.mem (hbar hb)⟩
          · cases hcut
        · cases htail

theorem not_foreign (hlen : (fullKey a b c).length ≤ keyMax) (ha : bar ∉ a) (hb : bar ∉ b)
    (hs : Serves self host model a c) :
    foreign self host model (buildEphashKey a b c) = false := by
  unfold foreign buildEphashKey
  rw [take_of_length_le hlen]
  by_cases hc : bar ∈ c
  · have hne : c ≠ [] := ne_nil_of_mem hc
    have hread : readKey (fullKey a b c) = none := by
      unfold fullKey readKey
      by_cases hpath : b = []
      · simp [hpath, hne, hc, dropWhile_bar ha]
      · simp [hpath, hne, hc, dropWhile_bar ha, dropWhile_bar hb]
    rw [hread]
  · rw [readKey_fullKey ha hb hc]
    simp [hs]

theorem length_fullKey_le (a b c : List UInt8) :
    (fullKey a b c).length ≤ a.length + b.length + c.length + 2 := by
  unfold fullKey
  split_ifs
  · simp only [length_append, length_cons]
    omega
  · simp only [length_append, length_cons]
    omega
  · simp only [length_append, length_cons]
    omega
  · omega

/-- a request whose host and path have no `|` and whose keys are not cut is clear, whatever its
model is -/
theorem clear_of_plain (hself : bar ∉ self) (hhost : bar ∉ host) (hpath : bar ∉ uriPath requestPath)
    (hl : host.length + (pathCopy requestPath).length + model.length + 2 ≤ keyMax)
    (hls : self.length + (pathCopy requestPath).length + model.length + 2 ≤ keyMax) :
    Clear self host requestPath model := by
  have hany : ∀ a, bar ∉ a → (a = host ∨ a = self) → ∀ key ∈ keysForHost a requestPath model,
      foreign self host model key = false := by
    intro a ha hor key hkey
    have hal : a.length + (pathCopy requestPath).length + model.length + 2 ≤ keyMax := by
      rcases hor with rfl | rfl <;> assumption
    have hserves : ∀ c, c = model ∨ c = [] → Serves self host model a c := fun c hc =>
      ⟨hc, by rcases hor with h | h <;> simp [h]⟩
    have hone : ∀ b c, b.length ≤ (pathCopy requestPath).length → bar ∉ b →
        (c = model ∨ c = []) → foreign self host model (buildEphashKey a b c) = false := by
      intro b c hbl hb hc
      refine not_foreign ?_ ha hb (hserves c hc)
      have hle := length_fullKey_le a b c
      have hcl : c.length ≤ model.length := by rcases hc with rfl | rfl <;> simp
      omega
    have hpre : ∀ b ∈ prefixesOf requestPath, ∀ c, (c = model ∨ c = []) →
        foreign self host model (buildEphashKey a b c) = false := by
      intro b hb c hc
      obtain ⟨hbl, hbb⟩ := of_mem_prefixes hb
      exact hone b c hbl (fun h => hpath (mem_of_mem_take (hbb h))) hc
    have hnil : ∀ c, (c = model ∨ c = []) →
        foreign self host model (buildEphashKey a [] c) = false := fun c hc =>
      hone [] c (Nat.zero_le _) (by simp) hc
    unfold keysForHost at hkey
    split at hkey <;> simp only [mem_append, List.mem_map, mem_cons, not_mem_nil,
      or_false, false_or] at hkey
    · rcases hkey with ⟨b, hb, rfl⟩ | rfl
      · exact hpre b hb model (.inl rfl)
      · exact hnil [] (.inr rfl)
    · rcases hkey with ⟨b, hb, rfl⟩ | (rfl | ⟨b, hb, rfl⟩) | rfl
      · exact hpre b hb model (.inl rfl)
      · exact hnil model (.inl rfl)
      · exact hpre b hb [] (.inr rfl)
      · exact hnil [] (.inr rfl)
  intro key hkey
  rcases mem_append.mp hkey with h1 | h2
  · exact hany host hhost (.inl rfl) key h1
  · rcases mem_append.mp h2 with h3 | h4
    · exact hany self hself (.inr rfl) key h3
    · rw [mem_singleton.mp h4]
      exact not_foreign (Nat.zero_le _) (by simp) (by simp) ⟨.inr rfl, .inr (.inr rfl)⟩

theorem clear_of_v1 : Clear [48] [104] [47, 118] [109] :=
  clear_of_plain (by decide) (by decide) (by decide) (by decide) (by decide)

end Route
