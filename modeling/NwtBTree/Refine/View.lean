import NwtBTree.Memory.Links
import NwtBTree.Source.Erase

/-!
# The heap field by field

A write to one member of one node leaves every other member of every node alone.
The view of a state keeps the members apart as maps from addresses, so that this
frame condition is what a write *is*: each primitive write of the source model
updates one of the maps, and the later proofs only speak about the maps.
-/

namespace NwtBTree

variable {K D : Type}

/-- The slots of a node, without its pointers and flags. -/
inductive Body (K D : Type) where
  | leaf (s : LeafSlots K D)
  | inner (s : InnerSlots K)

def Node.body : Node K D → Body K D
  | .leaf l => .leaf l.toLeafSlots
  | .inner n => .inner n.toInnerSlots

def Node.parent : Node K D → Option Addr
  | .leaf l => l.parent
  | .inner n => n.parent

def Node.isrootnode : Node K D → Bool
  | .leaf l => l.isrootnode
  | .inner n => n.isrootnode

def Node.nextLeaf : Node K D → Option Addr
  | .leaf l => l.nextLeaf
  | .inner _ => none

def Node.prevLeaf : Node K D → Option Addr
  | .leaf l => l.prevLeaf
  | .inner _ => none

/-- A state with the members of the nodes as separate maps. -/
structure View (K D : Type) where
  body : Addr → Option (Body K D)
  par : Addr → Option Addr
  flag : Addr → Bool
  links : Links
  size : Nat
  root : Option Addr
  tailleaf : Option Addr
  headleaf : Option Addr
  count : Nat

namespace View

def setBody (v : View K D) (a : Addr) (b : Body K D) : View K D :=
  { v with body := Function.update v.body a (some b) }

def setPar (v : View K D) (a : Addr) (p : Option Addr) : View K D :=
  { v with par := Function.update v.par a p }

def setFlag (v : View K D) (a : Addr) (b : Bool) : View K D :=
  { v with flag := Function.update v.flag a b }

def setLinks (v : View K D) (l : Links) : View K D := { v with links := l }

/-- A new node. Before, its address read as a node with no parent, not the root and in
no chain, and that is how it starts. -/
def alloc (v : View K D) (b : Body K D) : View K D :=
  { v with body := Function.update v.body v.size (some b), size := v.size + 1 }

/-- A freed node reads as nothing. -/
def free (v : View K D) (a : Addr) : View K D where
  body := Function.update v.body a none
  par := Function.update v.par a none
  flag := Function.update v.flag a false
  links := ⟨Function.update v.links.nxt a none, Function.update v.links.prv a none⟩
  size := v.size
  root := v.root
  tailleaf := v.tailleaf
  headleaf := v.headleaf
  count := v.count

section Fields

variable (v : View K D) (a c : Addr) (b : Body K D) (p : Option Addr) (f : Bool) (l : Links)

@[simp] theorem body_setBody : (v.setBody a b).body c = if c = a then some b else v.body c := by
  simp [setBody, Function.update_apply]
@[simp] theorem par_setBody : (v.setBody a b).par = v.par := rfl
@[simp] theorem flag_setBody : (v.setBody a b).flag = v.flag := rfl
@[simp] theorem links_setBody : (v.setBody a b).links = v.links := rfl
@[simp] theorem size_setBody : (v.setBody a b).size = v.size := rfl
@[simp] theorem root_setBody : (v.setBody a b).root = v.root := rfl
@[simp] theorem tailleaf_setBody : (v.setBody a b).tailleaf = v.tailleaf := rfl
@[simp] theorem headleaf_setBody : (v.setBody a b).headleaf = v.headleaf := rfl
@[simp] theorem count_setBody : (v.setBody a b).count = v.count := rfl

@[simp] theorem body_setPar : (v.setPar a p).body = v.body := rfl
@[simp] theorem par_setPar : (v.setPar a p).par c = if c = a then p else v.par c := by
  simp [setPar, Function.update_apply]
@[simp] theorem flag_setPar : (v.setPar a p).flag = v.flag := rfl
@[simp] theorem links_setPar : (v.setPar a p).links = v.links := rfl
@[simp] theorem size_setPar : (v.setPar a p).size = v.size := rfl
@[simp] theorem root_setPar : (v.setPar a p).root = v.root := rfl
@[simp] theorem tailleaf_setPar : (v.setPar a p).tailleaf = v.tailleaf := rfl
@[simp] theorem headleaf_setPar : (v.setPar a p).headleaf = v.headleaf := rfl
@[simp] theorem count_setPar : (v.setPar a p).count = v.count := rfl

@[simp] theorem body_setFlag : (v.setFlag a f).body = v.body := rfl
@[simp] theorem par_setFlag : (v.setFlag a f).par = v.par := rfl
@[simp] theorem flag_setFlag : (v.setFlag a f).flag c = if c = a then f else v.flag c := by
  simp [setFlag, Function.update_apply]
@[simp] theorem links_setFlag : (v.setFlag a f).links = v.links := rfl
@[simp] theorem size_setFlag : (v.setFlag a f).size = v.size := rfl
@[simp] theorem root_setFlag : (v.setFlag a f).root = v.root := rfl
@[simp] theorem tailleaf_setFlag : (v.setFlag a f).tailleaf = v.tailleaf := rfl
@[simp] theorem headleaf_setFlag : (v.setFlag a f).headleaf = v.headleaf := rfl
@[simp] theorem count_setFlag : (v.setFlag a f).count = v.count := rfl

@[simp] theorem body_setLinks : (v.setLinks l).body = v.body := rfl
@[simp] theorem par_setLinks : (v.setLinks l).par = v.par := rfl
@[simp] theorem flag_setLinks : (v.setLinks l).flag = v.flag := rfl
@[simp] theorem links_setLinks : (v.setLinks l).links = l := rfl
@[simp] theorem size_setLinks : (v.setLinks l).size = v.size := rfl
@[simp] theorem root_setLinks : (v.setLinks l).root = v.root := rfl
@[simp] theorem tailleaf_setLinks : (v.setLinks l).tailleaf = v.tailleaf := rfl
@[simp] theorem headleaf_setLinks : (v.setLinks l).headleaf = v.headleaf := rfl
@[simp] theorem count_setLinks : (v.setLinks l).count = v.count := rfl
@[simp] theorem setLinks_self : v.setLinks v.links = v := rfl
@[simp] theorem setLinks_setLinks (l' : Links) : (v.setLinks l).setLinks l' = v.setLinks l' := rfl

@[simp] theorem body_alloc : (v.alloc b).body c = if c = v.size then some b else v.body c := by
  simp [alloc, Function.update_apply]
@[simp] theorem par_alloc : (v.alloc b).par = v.par := rfl
@[simp] theorem flag_alloc : (v.alloc b).flag = v.flag := rfl
@[simp] theorem links_alloc : (v.alloc b).links = v.links := rfl
@[simp] theorem size_alloc : (v.alloc b).size = v.size + 1 := rfl
@[simp] theorem root_alloc : (v.alloc b).root = v.root := rfl
@[simp] theorem tailleaf_alloc : (v.alloc b).tailleaf = v.tailleaf := rfl
@[simp] theorem headleaf_alloc : (v.alloc b).headleaf = v.headleaf := rfl
@[simp] theorem count_alloc : (v.alloc b).count = v.count := rfl

@[simp] theorem body_free : (v.free a).body c = if c = a then none else v.body c := by
  simp [free, Function.update_apply]
@[simp] theorem par_free : (v.free a).par c = if c = a then none else v.par c := by
  simp [free, Function.update_apply]
@[simp] theorem flag_free : (v.free a).flag c = if c = a then false else v.flag c := by
  simp [free, Function.update_apply]
@[simp] theorem nxt_free : (v.free a).links.nxt c = if c = a then none else v.links.nxt c := by
  simp [free, Function.update_apply]
@[simp] theorem prv_free : (v.free a).links.prv c = if c = a then none else v.links.prv c := by
  simp [free, Function.update_apply]
@[simp] theorem size_free : (v.free a).size = v.size := rfl
@[simp] theorem root_free : (v.free a).root = v.root := rfl
@[simp] theorem tailleaf_free : (v.free a).tailleaf = v.tailleaf := rfl
@[simp] theorem headleaf_free : (v.free a).headleaf = v.headleaf := rfl
@[simp] theorem count_free : (v.free a).count = v.count := rfl

end Fields

end View

namespace BTree

def view (t : BTree K D) : View K D where
  body a := (t.nodes.get a).map Node.body
  par a := (t.nodes.get a).bind Node.parent
  flag a := ((t.nodes.get a).map Node.isrootnode).getD false
  links := ⟨fun a => (t.nodes.get a).bind Node.nextLeaf,
    fun a => (t.nodes.get a).bind Node.prevLeaf⟩
  size := t.nodes.size
  root := t.root
  tailleaf := t.tailleaf
  headleaf := t.headleaf
  count := t.totalkeycount

variable {t : BTree K D} {a : Addr}

@[simp] theorem size_view (t : BTree K D) : t.view.size = t.nodes.size := rfl
@[simp] theorem root_view (t : BTree K D) : t.view.root = t.root := rfl
@[simp] theorem tailleaf_view (t : BTree K D) : t.view.tailleaf = t.tailleaf := rfl
@[simp] theorem headleaf_view (t : BTree K D) : t.view.headleaf = t.headleaf := rfl
@[simp] theorem count_view (t : BTree K D) : t.view.count = t.totalkeycount := rfl

theorem body_lt_size {b : Body K D} (h : t.view.body a = some b) : a < t.nodes.size := by
  obtain ⟨n, hn, -⟩ := Option.map_eq_some_iff.mp h
  exact Store.lt_size_of_get hn

/-- An address that was never handed out reads as a node with no parent, not the root. -/
theorem view_new (h : t.nodes.size ≤ a) : t.view.par a = none ∧ t.view.flag a = false := by
  have hnone : t.nodes.get a = none := by
    cases hg : t.nodes.get a with
    | none => rfl
    | some m => exact absurd (Store.lt_size_of_get hg) (Nat.not_lt.mpr h)
  simp [view, hnone]

/-- It is in no chain either. -/
theorem links_new (h : t.nodes.size ≤ a) :
    t.view.links.nxt a = none ∧ t.view.links.prv a = none := by
  have hnone : t.nodes.get a = none := by
    cases hg : t.nodes.get a with
    | none => rfl
    | some m => exact absurd (Store.lt_size_of_get hg) (Nat.not_lt.mpr h)
  simp [view, hnone]

/-! ## Reads -/

theorem leaf_eq {s : LeafSlots K D} (h : t.view.body a = some (.leaf s)) :
    t.leaf a = .ok ⟨s, t.view.flag a, t.view.par a, t.view.links.nxt a, t.view.links.prv a⟩ := by
  obtain ⟨n, hn, hb⟩ := Option.map_eq_some_iff.mp h
  cases n with
  | inner n => simp [Node.body] at hb
  | leaf l =>
    simp only [Node.body, Body.leaf.injEq] at hb
    subst hb
    simp [leaf, node, view, hn, Node.isrootnode, Node.parent, Node.nextLeaf, Node.prevLeaf]

theorem inner_eq {s : InnerSlots K} (h : t.view.body a = some (.inner s)) :
    t.inner a = .ok ⟨s, t.view.flag a, t.view.par a⟩ := by
  obtain ⟨n, hn, hb⟩ := Option.map_eq_some_iff.mp h
  cases n with
  | leaf l => simp [Node.body] at hb
  | inner n =>
    simp only [Node.body, Body.inner.injEq] at hb
    subst hb
    simp [inner, node, view, hn, Node.isrootnode, Node.parent]

theorem inner_leaf {s : LeafSlots K D} (h : t.view.body a = some (.leaf s)) :
    t.inner a = .error .badCast := by
  obtain ⟨n, hn, hb⟩ := Option.map_eq_some_iff.mp h
  cases n with
  | inner n => simp [Node.body] at hb
  | leaf l => simp [inner, node, hn]

theorem leaf_inner {s : InnerSlots K} (h : t.view.body a = some (.inner s)) :
    t.leaf a = .error .badCast := by
  obtain ⟨n, hn, hb⟩ := Option.map_eq_some_iff.mp h
  cases n with
  | inner n => simp [leaf, node, hn]
  | leaf l => simp [Node.body] at hb

theorem isleaf_leaf {s : LeafSlots K D} (h : t.view.body a = some (.leaf s)) :
    t.isleaf a = .ok true := by
  obtain ⟨n, hn, hb⟩ := Option.map_eq_some_iff.mp h
  cases n with
  | inner n => simp [Node.body] at hb
  | leaf l => simp [isleaf, node, hn]

theorem isleaf_inner {s : InnerSlots K} (h : t.view.body a = some (.inner s)) :
    t.isleaf a = .ok false := by
  obtain ⟨n, hn, hb⟩ := Option.map_eq_some_iff.mp h
  cases n with
  | leaf l => simp [Node.body] at hb
  | inner n => simp [isleaf, node, hn]

theorem isleaf_of_inner {n : InnerNode K} (h : t.inner a = .ok n) : t.isleaf a = .ok false := by
  cases hn : t.node a with
  | error e => simp [inner, hn] at h
  | ok m =>
    cases m with
    | leaf l => simp [inner, hn] at h
    | inner i => simp [isleaf, hn]

theorem body_of_leaf {l : LeafNode K D} (h : t.leaf a = .ok l) :
    t.view.body a = some (.leaf l.toLeafSlots) ∧ t.view.links.nxt a = l.nextLeaf := by
  simp only [leaf, node] at h
  cases hn : t.nodes.get a with
  | none => simp [hn] at h
  | some m =>
    cases m with
    | inner i => simp [hn] at h
    | leaf l' =>
      obtain rfl : l' = l := by simpa [hn] using h
      simp [view, hn, Node.body, Node.nextLeaf]

theorem body_of_node {n : Node K D} (h : t.node a = .ok n) : t.view.body a = some n.body := by
  simp only [node] at h
  cases hn : t.nodes.get a with
  | none => simp [hn] at h
  | some m =>
    obtain rfl : m = n := by simpa [hn] using h
    simp [view, hn]

theorem body_of_inner {n : InnerNode K} (h : t.inner a = .ok n) :
    t.view.body a = some (.inner n.toInnerSlots) := by
  obtain ⟨m, hm, h⟩ := bind_eq_ok.mp h
  cases m with
  | leaf l => simp at h
  | inner i =>
    obtain rfl : i = n := by simpa using h
    exact body_of_node hm

/-! ## Writes -/

theorem view_put {n m : Node K D} (h : t.nodes.get a = some n) :
    (t.put a m).view =
      { t.view with
        body := Function.update t.view.body a (some m.body)
        par := Function.update t.view.par a m.parent
        flag := Function.update t.view.flag a m.isrootnode
        links := ⟨Function.update t.view.links.nxt a m.nextLeaf,
          Function.update t.view.links.prv a m.prevLeaf⟩ } := by
  have hget : ∀ b, (t.put a m).nodes.get b = if b = a then some m else t.nodes.get b :=
    Store.get_put h
  simp only [view, View.mk.injEq, Links.mk.injEq]
  refine ⟨?_, ?_, ?_, ⟨?_, ?_⟩, ?_, rfl, rfl, rfl, rfl⟩
  · funext b
    rw [hget, Function.update_apply]
    split_ifs <;> simp
  · funext b
    rw [hget, Function.update_apply]
    split_ifs <;> simp
  · funext b
    rw [hget, Function.update_apply]
    split_ifs <;> simp
  · funext b
    rw [hget, Function.update_apply]
    split_ifs <;> simp
  · funext b
    rw [hget, Function.update_apply]
    split_ifs <;> simp
  · simp [put]

theorem get_of_leaf {s : LeafSlots K D} (h : t.view.body a = some (.leaf s)) :
    t.nodes.get a = some (.leaf
      ⟨s, t.view.flag a, t.view.par a, t.view.links.nxt a, t.view.links.prv a⟩) := by
  obtain ⟨n, hn, hb⟩ := Option.map_eq_some_iff.mp h
  cases n with
  | inner n => simp [Node.body] at hb
  | leaf l =>
    simp only [Node.body, Body.leaf.injEq] at hb
    subst hb
    simp [view, hn, Node.isrootnode, Node.parent, Node.nextLeaf, Node.prevLeaf]

theorem get_of_inner {s : InnerSlots K} (h : t.view.body a = some (.inner s)) :
    t.nodes.get a = some (.inner ⟨s, t.view.flag a, t.view.par a⟩) := by
  obtain ⟨n, hn, hb⟩ := Option.map_eq_some_iff.mp h
  cases n with
  | leaf l => simp [Node.body] at hb
  | inner n =>
    simp only [Node.body, Body.inner.injEq] at hb
    subst hb
    simp [view, hn, Node.isrootnode, Node.parent]

/-- An inner node is in no chain. -/
theorem links_of_inner {s : InnerSlots K} (h : t.view.body a = some (.inner s)) :
    t.view.links.nxt a = none ∧ t.view.links.prv a = none := by
  simp only [view]
  rw [get_of_inner h]
  exact ⟨rfl, rfl⟩

theorem setLeaf_view {s : LeafSlots K D} (h : t.view.body a = some (.leaf s))
    (s' : LeafSlots K D) :
    ∃ t', t.setLeaf a s' = .ok t' ∧ t'.view = t.view.setBody a (.leaf s') := by
  refine ⟨_, by rw [setLeaf, leaf_eq h]; rfl, ?_⟩
  rw [view_put (get_of_leaf h)]
  have hpar : Function.update t.view.par a (t.view.par a) = t.view.par := by simp
  have hflag : Function.update t.view.flag a (t.view.flag a) = t.view.flag := by simp
  have hnxt : Function.update t.view.links.nxt a (t.view.links.nxt a) = t.view.links.nxt := by simp
  have hprv : Function.update t.view.links.prv a (t.view.links.prv a) = t.view.links.prv := by simp
  simp only [View.setBody, Node.body, Node.isrootnode, Node.parent, Node.nextLeaf,
    Node.prevLeaf, hpar, hflag, hnxt, hprv]

/-- Writing a whole inner node back does not touch the chain. -/
private theorem view_put_inner {s : InnerSlots K} (h : t.view.body a = some (.inner s))
    (n : InnerNode K) :
    (t.put a (.inner n)).view =
      { t.view with
        body := Function.update t.view.body a (some (.inner n.toInnerSlots))
        par := Function.update t.view.par a n.parent
        flag := Function.update t.view.flag a n.isrootnode } := by
  obtain ⟨hn, hp⟩ := links_of_inner h
  have hnxt : Function.update t.view.links.nxt a none = t.view.links.nxt := by simp [hn]
  have hprv : Function.update t.view.links.prv a none = t.view.links.prv := by simp [hp]
  rw [view_put (get_of_inner h)]
  simp only [Node.body, Node.isrootnode, Node.parent, Node.nextLeaf, Node.prevLeaf, hnxt, hprv]

theorem setInner_view {s : InnerSlots K} (h : t.view.body a = some (.inner s))
    (s' : InnerSlots K) :
    ∃ t', t.setInner a s' = .ok t' ∧ t'.view = t.view.setBody a (.inner s') := by
  refine ⟨_, by rw [setInner, inner_eq h]; rfl, ?_⟩
  rw [view_put_inner h]
  simp [View.setBody]

theorem setParent_view {b : Body K D} (h : t.view.body a = some b) (p : Option Addr) :
    ∃ t', t.setParent a p = .ok t' ∧ t'.view = t.view.setPar a p := by
  have hb : Function.update t.view.body a (some b) = t.view.body := by simp [h]
  cases b with
  | leaf s =>
    refine ⟨_, by rw [setParent, node, get_of_leaf h]; rfl, ?_⟩
    rw [view_put (get_of_leaf h)]
    simp [View.setPar, Node.body, Node.isrootnode, Node.parent, Node.nextLeaf, Node.prevLeaf, hb]
  | inner s =>
    refine ⟨_, by rw [setParent, node, get_of_inner h]; rfl, ?_⟩
    rw [view_put_inner h]
    simp [View.setPar, hb]

theorem setIsRoot_view {b : Body K D} (h : t.view.body a = some b) (f : Bool) :
    ∃ t', t.setIsRoot a f = .ok t' ∧ t'.view = t.view.setFlag a f := by
  have hb : Function.update t.view.body a (some b) = t.view.body := by simp [h]
  cases b with
  | leaf s =>
    refine ⟨_, by rw [setIsRoot, node, get_of_leaf h]; rfl, ?_⟩
    rw [view_put (get_of_leaf h)]
    simp [View.setFlag, Node.body, Node.isrootnode, Node.parent, Node.nextLeaf, Node.prevLeaf, hb]
  | inner s =>
    refine ⟨_, by rw [setIsRoot, node, get_of_inner h]; rfl, ?_⟩
    rw [view_put_inner h]
    simp [View.setFlag, hb]

theorem setNextLeaf_view {s : LeafSlots K D} (h : t.view.body a = some (.leaf s))
    (p : Option Addr) :
    ∃ t', t.setNextLeaf a p = .ok t' ∧
      t'.view = t.view.setLinks ⟨Function.update t.view.links.nxt a p, t.view.links.prv⟩ := by
  refine ⟨_, by rw [setNextLeaf, leaf_eq h]; rfl, ?_⟩
  have hb : Function.update t.view.body a (some (.leaf s)) = t.view.body := by simp [h]
  rw [view_put (get_of_leaf h)]
  simp [View.setLinks, Node.body, Node.isrootnode, Node.parent, Node.nextLeaf, Node.prevLeaf, hb]

theorem setPrevLeaf_view {s : LeafSlots K D} (h : t.view.body a = some (.leaf s))
    (p : Option Addr) :
    ∃ t', t.setPrevLeaf a p = .ok t' ∧
      t'.view = t.view.setLinks ⟨t.view.links.nxt, Function.update t.view.links.prv a p⟩ := by
  refine ⟨_, by rw [setPrevLeaf, leaf_eq h]; rfl, ?_⟩
  have hb : Function.update t.view.body a (some (.leaf s)) = t.view.body := by simp [h]
  rw [view_put (get_of_leaf h)]
  simp [View.setLinks, Node.body, Node.isrootnode, Node.parent, Node.nextLeaf, Node.prevLeaf, hb]

theorem linkLeaves_view {d l : Addr} {s s' : LeafSlots K D}
    (hd : t.view.body d = some (.leaf s)) (hl : t.view.body l = some (.leaf s')) :
    ∃ t', t.linkLeaves (some d) (some l) = .ok t' ∧
      t'.view = t.view.setLinks (t.view.links.link d l) := by
  obtain ⟨t1, h1, v1⟩ := setPrevLeaf_view hl (some d)
  obtain ⟨t2, h2, v2⟩ := setNextLeaf_view (t := t1) (a := d) (s := s)
    (by rw [v1]; simpa using hd) (some l)
  refine ⟨t2, by simp [linkLeaves, deref, h1, h2], ?_⟩
  rw [v2, v1]
  rfl

theorem freeNode_view {b : Body K D} (h : t.view.body a = some b) :
    ∃ t', t.freeNode a = .ok t' ∧ t'.view = t.view.free a := by
  obtain ⟨n, hn, -⟩ := Option.map_eq_some_iff.mp h
  refine ⟨_, by rw [freeNode, node, hn]; rfl, ?_⟩
  simp only [view, View.free, View.mk.injEq, Links.mk.injEq, and_true]
  refine ⟨?_, ?_, ?_, ⟨?_, ?_⟩, ?_⟩
  · funext b
    rw [Store.get_free, Function.update_apply]
    split_ifs <;> rfl
  · funext b
    rw [Store.get_free, Function.update_apply]
    split_ifs <;> rfl
  · funext b
    rw [Store.get_free, Function.update_apply]
    split_ifs <;> rfl
  · funext b
    rw [Store.get_free, Function.update_apply]
    split_ifs <;> rfl
  · funext b
    rw [Store.get_free, Function.update_apply]
    split_ifs <;> rfl
  · simp

private theorem view_alloc (t : BTree K D) (n : Node K D) (hp : n.parent = none)
    (hf : n.isrootnode = false) (hn : n.nextLeaf = none) (hv : n.prevLeaf = none) :
    ({ t with nodes := t.nodes.alloc n } : BTree K D).view = t.view.alloc n.body := by
  have hnone : t.nodes.get t.nodes.size = none := by
    cases h : t.nodes.get t.nodes.size with
    | none => rfl
    | some m => exact absurd (Store.lt_size_of_get h) (Nat.lt_irrefl _)
  simp only [view, View.alloc, View.mk.injEq, Links.mk.injEq, and_true]
  refine ⟨?_, ?_, ?_, ⟨?_, ?_⟩, ?_⟩
  · funext b
    rw [Store.get_alloc, Function.update_apply]
    split_ifs <;> simp
  · funext b
    rw [Store.get_alloc]
    split_ifs with hb <;> simp [hb, hp, hnone]
  · funext b
    rw [Store.get_alloc]
    split_ifs with hb <;> simp [hb, hf, hnone]
  · funext b
    rw [Store.get_alloc]
    split_ifs with hb <;> simp [hb, hn, hnone]
  · funext b
    rw [Store.get_alloc]
    split_ifs with hb <;> simp [hb, hv, hnone]
  · simp

theorem newLeaf_view (P : Template K D) (t : BTree K D) :
    (t.newLeaf P).view = t.view.alloc (.leaf (LeafNode.fresh P t.nodes.size).toLeafSlots) :=
  view_alloc t _ rfl rfl rfl rfl

theorem newInner_view (P : Template K D) (t : BTree K D) :
    (t.newInner P).view = t.view.alloc (.inner (InnerNode.fresh P t.nodes.size).toInnerSlots) :=
  view_alloc t _ rfl rfl rfl rfl

end BTree

end NwtBTree
