/-
# The multi-tenant prefix tree of the gateway

A transcription of `Tree` (`tree.rs`), for one caller at a time.  Nodes own their children, so a
node is named by the characters under which it and its ancestors are stored (`nodeAt`), and the
parent of a node is the node of the shorter path; eviction and removal, which keep references to
nodes, never move one.

`TreeEnv` holds what one call does not decide: the value of the global epoch counter, the order in
which a `DashMap` is read, and the order of entries with equal timestamps in the heap.  Counts are
natural numbers.  `insert` and the lookups descend by at least one character in each step, and
`remove_tenant` takes the tenant out of one node in each step, which bounds their loops.
-/
import Sglang.Gateway.Bucket
import Sglang.Gateway.CharText
import Sglang.Lib.AssocList

namespace Sglang

open CharText Lib.AssocList List

/-- `Node`: its text, the last access of the tenants that own it, the cached tenant and the
children by their first character. -/
inductive TenantNode
  | node (text : NodeText) (tenants : LoadMap String) (lastTenant : Option String)
    (children : List (Char × TenantNode))

variable {t : String}

namespace TenantNode

/-- `text`. -/
def text : TenantNode → NodeText
  | node text _ _ _ => text

/-- `tenant_last_access_time`. -/
def tenants : TenantNode → LoadMap String
  | node _ tenants _ _ => tenants

/-- `last_tenant`. -/
def lastTenant : TenantNode → Option String
  | node _ _ lastTenant _ => lastTenant

/-- `children`. -/
def children : TenantNode → List (Char × TenantNode)
  | node _ _ _ children => children

/-- The node with another map of tenants. -/
def withTenants (n : TenantNode) (tenants : LoadMap String) : TenantNode :=
  node n.text tenants n.lastTenant n.children

/-- The node with other children. -/
def withChildren (n : TenantNode) (children : List (Char × TenantNode)) : TenantNode :=
  node n.text n.tenants n.lastTenant children

/-- `children.get(&c)`. -/
def child? (n : TenantNode) (c : Char) : Option TenantNode := n.children.lookup c

/-- `children.insert(c, m)`. -/
def setChild (n : TenantNode) (c : Char) (m : TenantNode) : TenantNode :=
  n.withChildren (setEntry c m n.children)

/-- `children.remove(&c)`. -/
def eraseChild (n : TenantNode) (c : Char) : TenantNode :=
  n.withChildren (eraseEntry c n.children)

/-- The node under a path of characters. -/
def nodeAt : TenantNode → List Char → Option TenantNode
  | n, [] => some n
  | n, c :: path => (n.child? c).bind fun m => nodeAt m path

mutual

/-- The paths of all nodes. -/
def paths : TenantNode → List (List Char)
  | node _ _ _ children => [] :: pathsOf children

def pathsOf : List (Char × TenantNode) → List (List Char)
  | [] => []
  | (c, n) :: l => n.paths.map (c :: ·) ++ pathsOf l

end

mutual

/-- A sum over all nodes, of a weight of the text and the tenants. -/
def total (w : NodeText → LoadMap String → ℕ) : TenantNode → ℕ
  | node text tenants _ children => w text tenants + totalOf w children

def totalOf (w : NodeText → LoadMap String → ℕ) : List (Char × TenantNode) → ℕ
  | [] => 0
  | (_, n) :: l => n.total w + totalOf w l

end

/-- The characters of the nodes that a tenant owns: `get_used_size_per_tenant`. -/
def usedSize (t : String) : TenantNode → ℕ :=
  total fun text tenants => if t ∈ tenants then text.charCount else 0

/-- The number of pairs of a node and one of its tenants. -/
def ownership : TenantNode → ℕ := total fun _ tenants => tenants.entries.length

/-- Whether the node has the tenant and none of its children has it. -/
def isLeafFor (n : TenantNode) (t : String) : Bool :=
  decide (t ∈ n.tenants) && !n.children.any fun e => decide (t ∈ e.2.tenants)

variable {n m m' : TenantNode} {c d : Char}

@[simp] theorem text_node (a b l ch) : (node a b l ch).text = a := rfl

@[simp] theorem tenants_node (a b l ch) : (node a b l ch).tenants = b := rfl

@[simp] theorem children_node (a b l ch) : (node a b l ch).children = ch := rfl

@[simp] theorem text_withTenants (ts) : (n.withTenants ts).text = n.text := rfl

@[simp] theorem tenants_withTenants (ts) : (n.withTenants ts).tenants = ts := rfl

@[simp] theorem children_withTenants (ts) : (n.withTenants ts).children = n.children := rfl

@[simp] theorem text_setChild : (n.setChild c m).text = n.text := rfl

@[simp] theorem tenants_setChild : (n.setChild c m).tenants = n.tenants := rfl

@[simp] theorem text_eraseChild : (n.eraseChild c).text = n.text := rfl

@[simp] theorem tenants_eraseChild : (n.eraseChild c).tenants = n.tenants := rfl

theorem child?_setChild : (n.setChild c m).child? d = if d = c then some m else n.child? d :=
  lookup_setEntry c d m n.children

theorem child?_eraseChild : (n.eraseChild c).child? d = if d = c then none else n.child? d :=
  lookup_eraseEntry c d n.children

theorem totalOf_eq (w) : ∀ l, totalOf w l = (l.map (total w ·.2)).sum
  | [] => by rw [totalOf, map_nil, sum_nil]
  | (_, m) :: l => by rw [totalOf, totalOf_eq w l, map_cons, sum_cons]

theorem total_eq (w) (n : TenantNode) :
    n.total w = w n.text n.tenants + (n.children.map (total w ·.2)).sum := by
  cases n with
  | node => rw [total, totalOf_eq]; rfl

theorem usedSize_eq (t : String) (n : TenantNode) : n.usedSize t =
    (if t ∈ n.tenants then n.text.charCount else 0) + (n.children.map (usedSize t ·.2)).sum :=
  total_eq _ n

/-- The size depends on the text, on whether the tenant owns the node, and on the children. -/
theorem usedSize_congr {n n' : TenantNode} (htext : n'.text = n.text)
    (hmem : t ∈ n'.tenants ↔ t ∈ n.tenants) (hch : n'.children = n.children) :
    n'.usedSize t = n.usedSize t := by
  rw [usedSize_eq, usedSize_eq t n, htext, hch, if_congr hmem rfl rfl]

theorem total_withTenants (w) (ts) :
    (n.withTenants ts).total w + w n.text n.tenants = n.total w + w n.text ts := by
  rw [total_eq, total_eq w n, text_withTenants, tenants_withTenants, children_withTenants]
  omega

theorem total_setChild (w) (h : n.child? c = some m) :
    (n.setChild c m').total w + m.total w = n.total w + m'.total w := by
  have hsum := @sum_setEntry_of_lookup _ _ _ c m n.children (total w) m' h
  rw [total_eq, total_eq w n, text_setChild, tenants_setChild]
  change _ + ((setEntry c m' n.children).map (total w ·.2)).sum + _ = _
  omega

theorem total_setChild_of_none (w) (h : n.child? c = none) :
    (n.setChild c m').total w = n.total w + m'.total w := by
  have hsum := @sum_setEntry_of_lookup_none _ _ _ c m' n.children (total w) h
  rw [total_eq, total_eq w n, text_setChild, tenants_setChild]
  change _ + ((setEntry c m' n.children).map (total w ·.2)).sum = _
  omega

theorem total_eraseChild_le (w) : (n.eraseChild c).total w ≤ n.total w := by
  have hsum := sum_eraseEntry_le (total w) c n.children
  rw [total_eq, total_eq w n, text_eraseChild, tenants_eraseChild]
  change _ + ((eraseEntry c n.children).map (total w ·.2)).sum ≤ _
  omega

theorem total_eraseChild (w) (hnd : (n.children.map Prod.fst).Nodup) (h : n.child? c = some m) :
    (n.eraseChild c).total w + m.total w = n.total w := by
  have hsum := sum_eraseEntry (total w) hnd h
  rw [total_eq, total_eq w n, text_eraseChild, tenants_eraseChild]
  change _ + ((eraseEntry c n.children).map (total w ·.2)).sum + _ = _
  omega

end TenantNode

/-- An entry of the heap; `node` is the path of the node. -/
structure EvictionEntry where
  timestamp : ℕ
  tenant : String
  node : List Char

/-- What one call of the tree does not decide. -/
structure TreeEnv where
  /-- the value of `get_epoch()` -/
  epoch : ℕ
  tenantOrder : List (Sigma fun _ : String => ℕ) → List (Sigma fun _ : String => ℕ)
  nodeOrder : List (List Char) → List (List Char)
  heapOrder : List EvictionEntry → List EvictionEntry
  perm_tenantOrder : ∀ l, (tenantOrder l).Perm l
  perm_nodeOrder : ∀ l, (nodeOrder l).Perm l
  perm_heapOrder : ∀ l, (heapOrder l).Perm l
  sorted_heapOrder : ∀ l, (heapOrder l).Pairwise fun e e' => e.timestamp ≤ e'.timestamp

/-- `Tree`. -/
structure TenantTree where
  root : TenantNode
  tenantCharCount : LoadMap String

namespace TenantTree

open TenantNode

/-- `Tree::new`. -/
def new : TenantTree where
  root := node NodeText.empty ∅ none []
  tenantCharCount := ∅

/-! ## 1. `insert` -/

/-- `entry(tenant).and_modify(|count| *count += n).or_insert(n)`. -/
def addCount (counts : LoadMap String) (t : String) (n : ℕ) : LoadMap String :=
  counts.insert t ((counts.lookup t).getD 0 + n)

/-- `entry(tenant).or_insert(0)`. -/
def orInsertZero (m : LoadMap String) (t : String) : LoadMap String :=
  if t ∈ m then m else m.insert t 0

/-- The new node over a node that is split at `n` characters. -/
def splitNode (m : TenantNode) (n : ℕ) : TenantNode :=
  let (matched, contracted) := m.text.splitAtChar n
  node matched m.tenants m.lastTenant
    [((contracted.firstChar).getD ' ', node contracted m.tenants m.lastTenant m.children)]

/-- The tenant is attached to an intermediate node that it does not own yet. -/
def ensureTenant (t : String) (m : TenantNode) (counts : LoadMap String) :
    TenantNode × LoadMap String :=
  if t ∈ m.tenants then (m, counts)
  else (m.withTenants (m.tenants.insert t 0), addCount counts t m.text.charCount)

/-- The leaf for the rest of a text. -/
def leaf (t : String) (epoch : ℕ) (remaining : List Char) : TenantNode :=
  node (NodeText.new remaining) ((∅ : LoadMap String).insert t epoch) (some t) []

/-- The loop of `insert` from a node on, with the node and the counts afterwards. -/
def insertLoop (t : String) (epoch : ℕ) :
    ℕ → List Char → TenantNode → LoadMap String → TenantNode × LoadMap String
  | 0, _, prev, counts => (prev, counts)
  | _ + 1, [], prev, counts => (prev.withTenants (prev.tenants.insert t epoch), counts)
  | fuel + 1, c :: remaining, prev, counts =>
    match prev.child? c with
    | none => (prev.setChild c (leaf t epoch (c :: remaining)),
        addCount counts t (c :: remaining).length)
    | some matched =>
      let shared := sharedPrefixCount (c :: remaining) matched.text.text
      let next := if shared < matched.text.charCount then splitNode matched shared else matched
      let (next, counts) := ensureTenant t next counts
      let (next, counts) :=
        insertLoop t epoch fuel (advanceByChars (c :: remaining) shared) next counts
      (prev.setChild c next, counts)

/-- `insert`. -/
def insert (env : TreeEnv) (T : TenantTree) (text : List Char) (t : String) : TenantTree :=
  let root := T.root.withTenants (orInsertZero T.root.tenants t)
  let counts := orInsertZero T.tenantCharCount t
  let (root, counts) := insertLoop t env.epoch (text.length + 1) text root counts
  ⟨root, counts⟩

/-! ## 2. Lookups -/

/-- The first tenant of a map in the order it is read. -/
def firstTenant (env : TreeEnv) (tenants : LoadMap String) : String :=
  ((env.tenantOrder tenants.entries).head?.map Sigma.fst).getD "empty"

/-- The tenant of the node that was matched: the cached one, if it still owns the node. -/
def chooseTenant (env : TreeEnv) (n : TenantNode) : String :=
  match n.lastTenant with
  | some t => if t ∈ n.tenants then t else firstTenant env n.tenants
  | none => firstTenant env n.tenants

/-- What `prefix_match_with_counts` does to the node that was matched. -/
def touchMatched (env : TreeEnv) (n : TenantNode) : TenantNode :=
  let t := chooseTenant env n
  node n.text (if env.epoch % 8 = 0 then n.tenants.insert t env.epoch else n.tenants) (some t)
    n.children

/-- The loop of `prefix_match_with_counts` from a node on: the node afterwards, the tenant, and the
number of characters matched below. -/
def matchLoop (env : TreeEnv) : ℕ → List Char → TenantNode → TenantNode × String × ℕ
  | 0, _, prev => (touchMatched env prev, chooseTenant env prev, 0)
  | _ + 1, [], prev => (touchMatched env prev, chooseTenant env prev, 0)
  | fuel + 1, c :: remaining, prev =>
    match prev.child? c with
    | none => (touchMatched env prev, chooseTenant env prev, 0)
    | some matched =>
      let shared := sharedPrefixCount (c :: remaining) matched.text.text
      if shared = matched.text.charCount then
        let (next, t, n) := matchLoop env fuel (advanceByChars (c :: remaining) shared) matched
        (prev.setChild c next, t, shared + n)
      else (prev.setChild c (touchMatched env matched), chooseTenant env matched, shared)

/-- `PrefixMatchResult`. -/
structure PrefixMatchResult where
  tenant : String
  matchedCharCount : ℕ
  inputCharCount : ℕ

/-- `prefix_match_with_counts`. -/
def prefixMatchWithCounts (env : TreeEnv) (T : TenantTree) (text : List Char) :
    TenantTree × PrefixMatchResult :=
  let (root, t, n) := matchLoop env (text.length + 1) text T.root
  ({ T with root := root }, ⟨t, n, text.length⟩)

/-- What `prefix_match_tenant` does to the node that was matched. -/
def touchTenant (env : TreeEnv) (t : String) (n : TenantNode) : TenantNode :=
  if t ∈ n.tenants then n.withTenants (n.tenants.insert t env.epoch) else n

/-- The loop of `prefix_match_tenant` from a node on. -/
def matchTenantLoop (env : TreeEnv) (t : String) : ℕ → List Char → TenantNode → TenantNode × ℕ
  | 0, _, prev => (touchTenant env t prev, 0)
  | _ + 1, [], prev => (touchTenant env t prev, 0)
  | fuel + 1, c :: remaining, prev =>
    match prev.child? c with
    | none => (touchTenant env t prev, 0)
    | some matched =>
      if t ∉ matched.tenants then (touchTenant env t prev, 0)
      else
        let shared := sharedPrefixCount (c :: remaining) matched.text.text
        if shared = matched.text.charCount then
          let (next, n) :=
            matchTenantLoop env t fuel (advanceByChars (c :: remaining) shared) matched
          (prev.setChild c next, shared + n)
        else (prev.setChild c (touchTenant env t matched), shared)

/-- `prefix_match_tenant`. -/
def prefixMatchTenant (env : TreeEnv) (T : TenantTree) (text : List Char) (t : String) :
    TenantTree × List Char :=
  let (root, n) := matchTenantLoop env t (text.length + 1) text T.root
  ({ T with root := root }, takeChars text n)

/-! ## 3. Removal -/

/-- A tenant is removed from the node under a path, and the node from its parent if nothing is left
of it. -/
def dropTenant (t : String) : List Char → TenantNode → TenantNode
  | [], n => n.withTenants (n.tenants.erase t)
  | c :: path, n =>
    match n.child? c with
    | none => n
    | some m =>
      let m := dropTenant t path m
      if path = [] ∧ m.children = [] ∧ m.tenants.entries = [] then
        match m.text.firstChar with
        | some fc => (n.setChild c m).eraseChild fc
        | none => n.setChild c m
      else n.setChild c m

/-- The parent of a node, if the tenant is left there and in none of its children. -/
def parentLeaf (root : TenantNode) (t : String) (path : List Char) : Option (List Char) :=
  if path = [] then none
  else if (root.nodeAt path.dropLast).any (·.isLeafFor t) then some path.dropLast
  else none

/-- The second loop of `remove_tenant`. -/
def removeLoop (t : String) : ℕ → TenantNode → List (List Char) → TenantNode
  | 0, root, _ => root
  | _ + 1, root, [] => root
  | fuel + 1, root, path :: queue =>
    let root := dropTenant t path root
    removeLoop t fuel root (queue ++ (parentLeaf root t path).toList)

/-- The leaves of a tenant. -/
def leavesFor (env : TreeEnv) (root : TenantNode) (t : String) : List (List Char) :=
  (env.nodeOrder root.paths).filter fun path => (root.nodeAt path).any (·.isLeafFor t)

/-- `remove_tenant`. -/
def removeTenant (env : TreeEnv) (T : TenantTree) (t : String) : TenantTree where
  root := removeLoop t T.root.paths.length T.root (leavesFor env T.root t)
  tenantCharCount := T.tenantCharCount.erase t

/-! ## 4. Eviction -/

/-- `leaf_of`. -/
def leafOf (n : TenantNode) : List String := n.tenants.keys.filter fun t => n.isLeafFor t

/-- The heap at the start. -/
def evictionEntries (env : TreeEnv) (root : TenantNode) : List EvictionEntry :=
  (env.nodeOrder root.paths).flatMap fun path =>
    match root.nodeAt path with
    | none => []
    | some n => (leafOf n).filterMap fun t =>
        (n.tenants.lookup t).map fun timestamp => ⟨timestamp, t, path⟩

/-- The parent of a node as a new entry of the heap. -/
def parentEntry (root : TenantNode) (t : String) (path : List Char) : List EvictionEntry :=
  match parentLeaf root t path with
  | none => []
  | some parent =>
    (((root.nodeAt parent).bind fun n => n.tenants.lookup t).map fun timestamp =>
      (⟨timestamp, t, parent⟩ : EvictionEntry)).toList

/-- A tenant is evicted from a node with `nodeLen` characters. -/
def evictFrom (T : TenantTree) (t : String) (path : List Char) (nodeLen : ℕ) : TenantTree where
  root := dropTenant t path T.root
  tenantCharCount := match T.tenantCharCount.lookup t with
    | some count => T.tenantCharCount.insert t (count - nodeLen)
    | none => T.tenantCharCount

theorem ownership_erase_lt {ts : LoadMap String} (h : t ∈ ts) :
    (ts.erase t).entries.length < ts.entries.length := by
  obtain ⟨x, l₁, l₂, -, hl, hk⟩ := exists_of_kerase (AList.mem_keys.mp h)
  change (ts.entries.kerase t).length < _
  rw [hk, hl, length_append, length_append, length_cons]
  omega

/-- Removing a tenant from a node that it owns leaves fewer pairs of a node and a tenant. -/
theorem ownership_dropTenant_lt : ∀ {path : List Char} {n m : TenantNode},
    n.nodeAt path = some m → t ∈ m.tenants → (dropTenant t path n).ownership < n.ownership
  | [], n, m, h, ht => by
    cases h
    have := total_withTenants (n := n) (fun _ tenants => tenants.entries.length) (n.tenants.erase t)
    have := ownership_erase_lt ht
    rw [dropTenant, ownership]
    omega
  | c :: path, n, m, h, ht => by
    obtain ⟨k, hk, hm⟩ := Option.bind_eq_some_iff.mp h
    have ih := ownership_dropTenant_lt hm ht
    have hlt : (n.setChild c (dropTenant t path k)).ownership < n.ownership := by
      have hset : (n.setChild c (dropTenant t path k)).ownership + _ = _ := total_setChild _ hk
      rw [ownership] at ih hset ⊢
      omega
    rw [dropTenant, hk]
    dsimp only
    split
    · split
      · exact Nat.lt_of_le_of_lt (total_eraseChild_le _) hlt
      · exact hlt
    · exact hlt

/-- The loop of `evict_tenant_by_size`. -/
def evictLoop (env : TreeEnv) (maxSize : ℕ) (T : TenantTree) (pq : List EvictionEntry) :
    TenantTree :=
  match _heap : env.heapOrder pq with
  | [] => T
  | e :: rest =>
    if (T.tenantCharCount.lookup e.tenant).any (· ≤ maxSize) then evictLoop env maxSize T rest
    else match _at : T.root.nodeAt e.node with
      | none => evictLoop env maxSize T rest
      | some n =>
        if _leaf : n.isLeafFor e.tenant then
          let T' := evictFrom T e.tenant e.node n.text.charCount
          evictLoop env maxSize T' (parentEntry T'.root e.tenant e.node ++ rest)
        else evictLoop env maxSize T rest
termination_by (T.root.ownership, pq.length)
decreasing_by
  · have := (env.perm_heapOrder pq).length_eq
    rw [_heap] at this
    exact Prod.Lex.right _ (by simp only [length_cons] at this; omega)
  · have := (env.perm_heapOrder pq).length_eq
    rw [_heap] at this
    exact Prod.Lex.right _ (by simp only [length_cons] at this; omega)
  · have hmem : e.tenant ∈ n.tenants := by
      rw [isLeafFor, Bool.and_eq_true] at _leaf
      exact of_decide_eq_true _leaf.1
    exact Prod.Lex.left _ _ (ownership_dropTenant_lt _at hmem)
  · have := (env.perm_heapOrder pq).length_eq
    rw [_heap] at this
    exact Prod.Lex.right _ (by simp only [length_cons] at this; omega)

/-- `evict_tenant_by_size`. -/
def evictTenantBySize (env : TreeEnv) (T : TenantTree) (maxSize : ℕ) : TenantTree :=
  evictLoop env maxSize T (evictionEntries env T.root)

/-! ## 5. Histories -/

/-- A call of the tree. -/
inductive Op
  | insert (env : TreeEnv) (text : List Char) (tenant : String)
  | prefixMatchWithCounts (env : TreeEnv) (text : List Char)
  | prefixMatchTenant (env : TreeEnv) (text : List Char) (tenant : String)
  | evictTenantBySize (env : TreeEnv) (maxSize : ℕ)
  | removeTenant (env : TreeEnv) (tenant : String)

/-- The tree after a call. -/
def step (T : TenantTree) : Op → TenantTree
  | .insert env text t => T.insert env text t
  | .prefixMatchWithCounts env text => (T.prefixMatchWithCounts env text).1
  | .prefixMatchTenant env text t => (T.prefixMatchTenant env text t).1
  | .evictTenantBySize env maxSize => T.evictTenantBySize env maxSize
  | .removeTenant env t => T.removeTenant env t

/-- The tree after a history. -/
def run (ops : List Op) : TenantTree := ops.foldl step new

/-- The texts inserted for a tenant since it was last removed, after one more call. -/
def record (texts : String → List (List Char)) : Op → String → List (List Char)
  | .insert _ text t => fun t' => if t' = t then text :: texts t' else texts t'
  | .removeTenant _ t => fun t' => if t' = t then [] else texts t'
  | _ => texts

/-- The texts inserted for a tenant since it was last removed. -/
def texts (ops : List Op) : String → List (List Char) := ops.foldl record fun _ => []

end TenantTree

end Sglang
