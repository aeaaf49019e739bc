import Mathlib.Data.List.Basic

/-!
# The prefix trie of the prefill selection

A compressed radix trie of linked nodes: a node holds its edge label, its list of child entries, the
link to its parent with the key it is stored under, the endpoint learned for its prefix (negative when
there is none) and the time of its last use.  The nodes live in a heap; reading, changing or freeing a
node that is not there is `none`, as is a loop that does not end within its fuel.

* `pdTrieMatch`      the endpoint of the longest learned prefix;
* `pdTrieInsert`     learns an endpoint, splitting an edge where the text leaves it;
* `pdTrieRemoveEp`   forgets an endpoint, then prunes what it collected and merges what is left over;
* `pdTrieEvictLru`   drops the leaf used longest ago while there are too many nodes.
-/

open Function

namespace PdTrie

abbrev Addr := Nat

/-- how a node hangs in the trie -/
structure Frame where
  label : List UInt8
  /-- the child entries, each under its key -/
  children : List (UInt8 × Addr)
  parent : Option Addr
  parentKey : UInt8
  deriving DecidableEq

/-- `pd_trie_node_t` -/
structure Node extends Frame where
  epIdx : Int
  accessTs : Nat
  deriving DecidableEq

/-- `struct pd_trie`, with the heap and the first address never given out -/
structure Trie where
  heap : Addr → Option Node
  (next root : Addr)
  nodeCount : Nat

namespace Trie

def put (t : Trie) (a : Addr) (n : Option Node) : Trie := { t with heap := update t.heap a n }

def modify (t : Trie) (a : Addr) (f : Node → Node) : Option Trie :=
  (t.heap a).map fun n => t.put a (some (f n))

def free (t : Trie) (a : Addr) : Option Trie := (t.heap a).map fun _ => t.put a none
@[simp] theorem put_heap (t : Trie) (a : Addr) (n : Option Node) : (t.put a n).heap = update t.heap a n := rfl

theorem modify_eq {t : Trie} {a : Addr} {n : Node} (h : t.heap a = some n) (f : Node → Node) :
    t.modify a f = some (t.put a (some (f n))) := by
  rw [modify, h, Option.map_some]

end Trie

/-! ## helpers -/

def sharedPrefixLen : List UInt8 → List UInt8 → Nat
  | a :: as, b :: bs => if a = b then sharedPrefixLen as bs + 1 else 0
  | _, _ => 0

def Node.findChild (n : Node) (key : UInt8) : Option Addr :=
  (n.children.find? (·.1 == key)).map Prod.snd

/-- `alloc_node`: the trie with the new node, and its address -/
def allocNode (t : Trie) (label : List UInt8) : Trie × Addr :=
  let n : Node := { label := label, children := [], parent := none, parentKey := 0, epIdx := -1, accessTs := 0 }
  ({ t.put t.next (some n) with next := t.next + 1 }, t.next)

/-- `add_child`: the entry goes to the head of the list -/
def addChild (t : Trie) (parent : Addr) (key : UInt8) (child : Addr) : Option Trie := do
  let t ← t.modify parent fun n => { n with children := (key, child) :: n.children }
  t.modify child fun n => { n with parent := some parent, parentKey := key }

def removeChild (t : Trie) (parent : Addr) (key : UInt8) : Option Trie :=
  t.modify parent fun n => { n with children := n.children.eraseP (·.1 == key) }

/-- the first entry that is meant is given a new content -/
def redirect (meant : UInt8 × Addr → Bool) (entry : UInt8 × Addr) : List (UInt8 × Addr) → List (UInt8 × Addr)
  | [] => []
  | e :: es => if meant e then entry :: es else e :: redirect meant entry es

def mergeWithSingleChild (t : Trie) (node : Addr) : Option Trie :=
  if node = t.root then some t
  else do
    let n ← t.heap node
    if n.epIdx ≥ 0 then some t
    else
      match n.children with
      | [(_, child)] => do
        let t ← t.modify child fun c => { c with label := n.label ++ c.label }
        let t ← match n.parent with
          | none => some t
          | some grandparent => do
            let t ← t.modify child fun c => { c with parentKey := n.parentKey, parent := some grandparent }
            t.modify grandparent fun g =>
              { g with children := redirect (·.2 == node) (n.parentKey, child) g.children }
        let t ← t.free node
        some { t with nodeCount := t.nodeCount - 1 }
      | _ => some t

/-! ## the public functions -/

def pdTrieCreate : Trie :=
  let (t, root) := allocNode { heap := fun _ => none, next := 0, root := 0, nodeCount := 0 } []
  { t with root := root, nodeCount := 1 }

/-- the loop of `pd_trie_match` over the text not yet matched, with the last endpoint seen and where;
`clock pos` is the time read when `pos` bytes are matched -/
def matchLoop (clock : Nat → Nat) :
    Nat → Trie → Addr → Nat → List UInt8 → Int → Nat → Option (Trie × Int × Nat)
  | _, t, _, _, [], lastEp, lastEpPos => some (t, lastEp, lastEpPos)
  | 0, _, _, _, _ :: _, _, _ => none
  | fuel + 1, t, cur, pos, b :: rest, lastEp, lastEpPos => do
    let n ← t.heap cur
    match n.findChild b with
    | none => some (t, lastEp, lastEpPos)
    | some child => do
      let c ← t.heap child
      let m := sharedPrefixLen c.label (b :: rest)
      if m = 0 then some (t, lastEp, lastEpPos)
      else if m = c.label.length then
        if c.epIdx ≥ 0 then do
          let t ← t.modify child fun c => { c with accessTs := clock (pos + m) }
          matchLoop clock fuel t child (pos + m) ((b :: rest).drop m) c.epIdx (pos + m)
        else matchLoop clock fuel t child (pos + m) ((b :: rest).drop m) lastEp lastEpPos
      else some (t, lastEp, lastEpPos)

/-- what a match gives back: the endpoint, and the match rate as `matched / len` -/
structure Hit where
  epIdx : Int
  (matched len : Nat)
  deriving DecidableEq

/-- `pd_trie_match`: the trie with its new times, and the hit if there is one -/
def pdTrieMatch (t : Trie) (text : List UInt8) (clock : Nat → Nat) : Option (Trie × Option Hit) :=
  if text = [] then some (t, none)
  else do
    let r ← t.heap t.root
    let (t, lastEp, lastEpPos) ←
      matchLoop clock text.length t t.root 0 text (if r.epIdx ≥ 0 then r.epIdx else -1) 0
    some (t, if lastEp ≥ 0 then some ⟨lastEp, lastEpPos, text.length⟩ else none)

/-- a leaf for the text that is left, below the node -/
def newLeaf (t : Trie) (parent : Addr) (text : List UInt8) (epIdx : Int) (now : Nat) : Option Trie := do
  let (t, leaf) := allocNode t text
  let t ← t.modify leaf fun n => { n with epIdx := epIdx, accessTs := now }
  let t ← addChild t parent (text.headD 0) leaf
  some { t with nodeCount := t.nodeCount + 1 }

/-- the edge to the child is cut after `m` bytes of its label: a new node in the middle takes the
child's place in the entry under the key, and the child hangs below it -/
def splitEdge (t : Trie) (cur : Addr) (key : UInt8) (child : Addr) (label : List UInt8) (m : Nat) :
    Option (Trie × Addr) := do
  let (t, mid) := allocNode t (label.take m)
  let t ← t.modify cur fun n => { n with children := redirect (·.1 == key) (key, mid) n.children }
  let t ← t.modify mid fun n => { n with parent := some cur, parentKey := key }
  let t ← t.modify child fun c => { c with label := label.drop m }
  let t ← addChild t mid ((label.drop m).headD 0) child
  some ({ t with nodeCount := t.nodeCount + 1 }, mid)

/-- the loop of `pd_trie_insert` over the text not yet placed -/
def insertLoop (epIdx : Int) (now : Nat) : Nat → Trie → Addr → List UInt8 → Option Trie
  | _, t, cur, [] => t.modify cur fun n => { n with epIdx := epIdx, accessTs := now }
  | 0, _, _, _ :: _ => none
  | fuel + 1, t, cur, b :: rest => do
    let n ← t.heap cur
    match n.findChild b with
    | none => newLeaf t cur (b :: rest) epIdx now
    | some child => do
      let c ← t.heap child
      let m := sharedPrefixLen c.label (b :: rest)
      if m = c.label.length then insertLoop epIdx now fuel t child ((b :: rest).drop m)
      else do
        let (t, mid) ← splitEdge t cur b child c.label m
        if m < (b :: rest).length then do
          let t ← newLeaf t mid ((b :: rest).drop m) epIdx now
          -- the shared prefix inherits the endpoint of the old child
          t.modify mid fun n => if n.epIdx < 0 then { n with epIdx := c.epIdx } else n
        else t.modify mid fun n => { n with epIdx := epIdx, accessTs := now }

def pdTrieInsert (t : Trie) (text : List UInt8) (epIdx : Int) (now : Nat) : Option Trie :=
  if text = [] then some t else insertLoop epIdx now text.length t t.root text

def maxPruneBatch : Nat := 256

def removeEpClearDfs (epIdx : Int) : Nat → Trie → Addr → List Addr → Option (Trie × List Addr)
  | 0, _, _, _ => none
  | fuel + 1, t, node, prune => do
    let n ← t.heap node
    let (t, prune) ← n.children.foldlM (fun s e => removeEpClearDfs epIdx fuel s.1 e.2 s.2) (t, prune)
    let n ← t.heap node
    if n.epIdx = epIdx then do
      let t ← t.modify node fun n => { n with epIdx := -1 }
      some (t, if n.children = [] ∧ prune.length < maxPruneBatch then prune ++ [node] else prune)
    else some (t, prune)

/-- a childless node is taken out and freed, and its parent merged with an only child left -/
def dropLeaf (t : Trie) (victim : Addr) : Option Trie := do
  let v ← t.heap victim
  let t ← match v.parent with
    | none => some t
    | some parent => removeChild t parent v.parentKey
  let t ← t.free victim
  let t := { t with nodeCount := t.nodeCount - 1 }
  match v.parent with
  | none => some t
  | some parent => if parent = t.root then some t else mergeWithSingleChild t parent

/-- the second pass of `remove_ep_dfs` over the collected nodes -/
def pruneLoop (t : Trie) : List Addr → Option Trie
  | [] => some t
  | victim :: prune => do
    let v ← t.heap victim
    if v.children ≠ [] ∨ victim = t.root then pruneLoop t prune
    else do
      let t ← dropLeaf t victim
      pruneLoop t prune

def pdTrieRemoveEp (t : Trie) (epIdx : Int) : Option Trie := do
  let (t, prune) ← removeEpClearDfs epIdx t.nodeCount t t.root []
  pruneLoop t prune

/-- `find_oldest_leaf`: the oldest leaf so far, with its time -/
def findOldestLeaf (t : Trie) : Nat → Addr → Option (Addr × Nat) → Option (Option (Addr × Nat))
  | 0, _, _ => none
  | fuel + 1, node, oldest => do
    let n ← t.heap node
    let oldest :=
      if n.epIdx ≥ 0 ∧ n.children = [] ∧ oldest.all (fun o => n.accessTs < o.2) then some (node, n.accessTs)
      else oldest
    n.children.foldlM (fun oldest e => findOldestLeaf t fuel e.2 oldest) oldest

/-- one round of `pd_trie_evict_lru`; the inner `none` when there is no leaf to evict -/
def evictStep (t : Trie) : Option (Option Trie) := do
  match ← findOldestLeaf t t.nodeCount t.root none with
  | none => some none
  | some (oldest, _) => (dropLeaf t oldest).map some

def evictLoop (maxNodes : Nat) : Nat → Trie → Option Trie
  | 0, t => if t.nodeCount > maxNodes then none else some t
  | fuel + 1, t =>
    if t.nodeCount > maxNodes then do
      match ← evictStep t with
      | none => some t
      | some t => evictLoop maxNodes fuel t
    else some t

def pdTrieEvictLru (t : Trie) (maxNodes : Nat) : Option Trie := evictLoop maxNodes t.nodeCount t

end PdTrie
