import Mathlib.Order.Lattice
import NwtBTree.Memory.Store

/-!
# Nodes and the tree object

The data of `btree<_Key, _Datatype, _nodeslots, _leafslots>`. The members of
`leafNode` and `innerNode` are grouped in two: the arrays with the counters that
say how much of them is live, and the pointers and flags. `unsigned short` and
`unsigned int` counters are naturals reduced by hand where the source increments
or decrements them.
-/

namespace NwtBTree

/-- The template arguments, with what the language leaves open: the value that a
never-written key slot of the node at an address reads as, and what `new
data_type[]` fills a slot with. `emptyData` is the `data_type` made from `""`. -/
structure Template (K D : Type) where
  nodeslots : Nat
  leafslots : Nat
  junkKey : Addr → Nat → K
  newData : D
  emptyData : D

variable {K D : Type}

/-- Keys are compared by their order, pairs by their key and their data. -/
instance lawfulBEq_key [LinearOrder K] : LawfulBEq K := inferInstance
instance lawfulBEq_pair [LinearOrder K] [DecidableEq D] : LawfulBEq (K × D) := inferInstance

namespace Template

/-- The four capacities are `unsigned short` constants. -/
def leafnodemax (P : Template K D) : Nat := P.leafslots % 65536
def leafnodemin (P : Template K D) : Nat := P.leafslots / 2 % 65536
def innernodemax (P : Template K D) : Nat := P.nodeslots % 65536
def innernodemin (P : Template K D) : Nat := P.nodeslots / 2 % 65536

end Template

/-- `slotsinuse++` on an `unsigned short`. -/
def inc16 (n : Nat) : Nat := (n + 1) % 65536

/-- `slotsinuse--` on an `unsigned short`. -/
def dec16 (n : Nat) : Nat := (n + 65535) % 65536

structure LeafSlots (K D : Type) where
  slots : Nat
  slotsinuse : Nat
  keySlots : List K
  dataSlots : List D
  deriving DecidableEq, Repr

structure InnerSlots (K : Type) where
  slots : Nat
  slotsinuse : Nat
  keySlots : List K
  firstChild : List (Option Addr)
  numChildren : Nat
  deriving DecidableEq, Repr

structure LeafNode (K D : Type) extends LeafSlots K D where
  isrootnode : Bool
  parent : Option Addr
  nextLeaf : Option Addr
  prevLeaf : Option Addr
  deriving DecidableEq, Repr

structure InnerNode (K : Type) extends InnerSlots K where
  isrootnode : Bool
  parent : Option Addr
  deriving DecidableEq, Repr

/-- A node; the constructor is the member `isleafnode`. -/
inductive Node (K D : Type) where
  | leaf (l : LeafNode K D)
  | inner (n : InnerNode K)
  deriving DecidableEq, Repr

/-- `new leafNode` at address `a`, and its initialisation. -/
def LeafNode.fresh (P : Template K D) (a : Addr) : LeafNode K D where
  slots := P.leafnodemax
  slotsinuse := 0
  keySlots := (List.range P.leafnodemax).map (P.junkKey a)
  dataSlots := List.replicate P.leafnodemax P.newData
  isrootnode := false
  parent := none
  nextLeaf := none
  prevLeaf := none

/-- `new innerNode` at address `a`, and its initialisation. -/
def InnerNode.fresh (P : Template K D) (a : Addr) : InnerNode K where
  slots := P.innernodemax
  slotsinuse := 0
  keySlots := (List.range P.innernodemax).map (P.junkKey a)
  firstChild := List.replicate (P.innernodemax + 1) none
  numChildren := 0
  isrootnode := false
  parent := none

def LeafSlots.isfull (P : Template K D) (l : LeafSlots K D) : Bool :=
  l.slotsinuse == P.leafnodemax

def LeafSlots.isunderflow (P : Template K D) (l : LeafSlots K D) : Bool :=
  l.slotsinuse < P.leafnodemin

def InnerSlots.isunderflow (P : Template K D) (n : InnerSlots K) : Bool :=
  n.numChildren < P.innernodemin + 1

section Compare

variable [LinearOrder K]

/-- `keyless` is `std::less`; the four comparisons are derived from it. -/
def keylessequal (a b : K) : Bool := !decide (b < a)
def keygreater (a b : K) : Bool := decide (b < a)
def keygreaterequal (a b : K) : Bool := !decide (a < b)
def keyequal (a b : K) : Bool := !decide (a < b) && !decide (b < a)

@[simp] theorem keylessequal_iff (a b : K) : keylessequal a b = true ↔ a ≤ b := by
  simp [keylessequal]

@[simp] theorem keygreater_iff (a b : K) : keygreater a b = true ↔ b < a := by
  simp [keygreater]

@[simp] theorem keygreaterequal_iff (a b : K) : keygreaterequal a b = true ↔ b ≤ a := by
  simp [keygreaterequal]

@[simp] theorem keyequal_iff (a b : K) : keyequal a b = true ↔ a = b := by
  simp only [keyequal, Bool.and_eq_true, Bool.not_eq_true', decide_eq_false_iff_not, not_lt]
  exact ⟨fun h => le_antisymm h.2 h.1, fun h => ⟨ge_of_eq h, le_of_eq h⟩⟩

end Compare

/-- The tree object with the heap its nodes live in. -/
structure BTree (K D : Type) where
  nodes : Store (Node K D)
  root : Option Addr
  tailleaf : Option Addr
  headleaf : Option Addr
  totalkeycount : Nat

/-- Dereference a pointer. -/
def deref (p : Option Addr) : Except Fault Addr :=
  match p with
  | some a => .ok a
  | none => .error .nullDeref

namespace BTree

/-- The constructor `btree()`. -/
def init : BTree K D where
  nodes := .init
  root := none
  tailleaf := none
  headleaf := none
  totalkeycount := 0

/-- `size()`: the unsigned counter returned as an `int`. -/
def size (t : BTree K D) : Int :=
  if t.totalkeycount < 2147483648 then t.totalkeycount else t.totalkeycount - 4294967296

/-- `empty()`. -/
def empty (t : BTree K D) : Bool := t.root.isNone

def upkeycount (t : BTree K D) : BTree K D :=
  { t with totalkeycount := (t.totalkeycount + 1) % 4294967296 }

def downkeycount (t : BTree K D) : BTree K D :=
  { t with totalkeycount := (t.totalkeycount + 4294967295) % 4294967296 }

/-- A chain of pointers without a cycle visits no more nodes than were ever allocated. -/
def fuel (t : BTree K D) : Nat := t.nodes.size + 1

/-! ## Member access through a node pointer -/

def node (t : BTree K D) (a : Addr) : Except Fault (Node K D) :=
  match t.nodes.get a with
  | some n => .ok n
  | none => .error .freed

/-- `*static_cast<leafNode*>(a)`. -/
def leaf (t : BTree K D) (a : Addr) : Except Fault (LeafNode K D) := do
  match ← t.node a with
  | .leaf l => .ok l
  | .inner _ => .error .badCast

/-- `*static_cast<innerNode*>(a)`. -/
def inner (t : BTree K D) (a : Addr) : Except Fault (InnerNode K) := do
  match ← t.node a with
  | .leaf _ => .error .badCast
  | .inner n => .ok n

def isleaf (t : BTree K D) (a : Addr) : Except Fault Bool := do
  match ← t.node a with
  | .leaf _ => .ok true
  | .inner _ => .ok false

def put (t : BTree K D) (a : Addr) (n : Node K D) : BTree K D :=
  { t with nodes := t.nodes.put a n }

def setLeaf (t : BTree K D) (a : Addr) (s : LeafSlots K D) : Except Fault (BTree K D) := do
  let l ← t.leaf a
  return t.put a (.leaf { l with toLeafSlots := s })

def setInner (t : BTree K D) (a : Addr) (s : InnerSlots K) : Except Fault (BTree K D) := do
  let n ← t.inner a
  return t.put a (.inner { n with toInnerSlots := s })

def setParent (t : BTree K D) (a : Addr) (p : Option Addr) : Except Fault (BTree K D) := do
  match ← t.node a with
  | .leaf l => return t.put a (.leaf { l with parent := p })
  | .inner n => return t.put a (.inner { n with parent := p })

def setIsRoot (t : BTree K D) (a : Addr) (b : Bool) : Except Fault (BTree K D) := do
  match ← t.node a with
  | .leaf l => return t.put a (.leaf { l with isrootnode := b })
  | .inner n => return t.put a (.inner { n with isrootnode := b })

def setNextLeaf (t : BTree K D) (a : Addr) (p : Option Addr) : Except Fault (BTree K D) := do
  let l ← t.leaf a
  return t.put a (.leaf { l with nextLeaf := p })

def setPrevLeaf (t : BTree K D) (a : Addr) (p : Option Addr) : Except Fault (BTree K D) := do
  let l ← t.leaf a
  return t.put a (.leaf { l with prevLeaf := p })

/-- `new leafNode` and its initialisation; the new node is at `t.nodes.size`. -/
def newLeaf (P : Template K D) (t : BTree K D) : BTree K D :=
  { t with nodes := t.nodes.alloc (.leaf (.fresh P t.nodes.size)) }

/-- `new innerNode` and its initialisation; the new node is at `t.nodes.size`. -/
def newInner (P : Template K D) (t : BTree K D) : BTree K D :=
  { t with nodes := t.nodes.alloc (.inner (.fresh P t.nodes.size)) }

/-- `freeNode`: `delete` of a live node. -/
def freeNode (t : BTree K D) (a : Addr) : Except Fault (BTree K D) := do
  let _ ← t.node a
  return { t with nodes := t.nodes.free a }

end BTree

end NwtBTree
