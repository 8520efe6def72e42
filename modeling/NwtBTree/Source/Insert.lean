import NwtBTree.Source.Find

/-!
# `insert`, `makeroot` and `insert_in_parent`

The two split loops keep two counters, `i` over the node that is split and
`slot` over the positions filled so far; after an insertion in the middle `i` is
moved back by one and `slot` is not. Both loops are run with enough fuel for one
iteration more than the node has keys.
-/

namespace NwtBTree

variable {K D : Type} [LinearOrder K]

/-! ## The leaf split -/

/-- The locals of the leaf split loop. -/
structure LeafSplit (K D : Type) where
  ln : LeafSlots K D
  lp : LeafSlots K D
  i : Nat
  slot : Nat
  j : Nat
  added : Bool

/-- The body of the leaf split loop; the loop increments are in `leafSplitLoop`. -/
def leafSplitBody (P : Template K D) (n : LeafSlots K D) (k : K) (data : D) (s : LeafSplit K D) :
    Except Fault (LeafSplit K D) := do
  let key ← load n.keySlots s.i
  if keygreater key k ∧ s.slot = s.i then
    if s.i < n.slotsinuse / 2 then
      let ln ← insertLeafSlotsAt P s.ln k data s.slot
      return { s with ln := ln, added := true, i := s.i - 1 }
    else
      let lp ← insertLeafSlotsAt P s.lp k data s.j
      return { s with lp := lp, j := s.j + 1, added := true, i := s.i - 1 }
  else if s.i < n.slotsinuse / 2 then
    let ln ← insertLeafSlotsAt P s.ln key (← load n.dataSlots s.i) s.slot
    return { s with ln := ln }
  else
    let lp ← insertLeafSlotsAt P s.lp key (← load n.dataSlots s.i) s.j
    return { s with lp := lp, j := s.j + 1 }

/-- `for (int i = 0, slot = 0; i < n->keyCount(); i++, slot++)`. -/
def leafSplitLoop (P : Template K D) (n : LeafSlots K D) (k : K) (data : D) :
    Nat → LeafSplit K D → Except Fault (LeafSplit K D)
  | 0, _ => .error .diverges
  | fuel + 1, s =>
    if s.i < n.slotsinuse then do
      let s ← leafSplitBody P n k data s
      leafSplitLoop P n k data fuel { s with i := s.i + 1, slot := s.slot + 1 }
    else .ok s

/-- The two new leaves of a split: the loop, then the new pair at the end when no
key of the leaf is greater. -/
def leafSplit (P : Template K D) (n ln lp : LeafSlots K D) (k : K) (data : D) :
    Except Fault (LeafSlots K D × LeafSlots K D) := do
  let s ← leafSplitLoop P n k data (n.slotsinuse + 2) ⟨ln, lp, 0, 0, 0, false⟩
  if s.added then
    return (s.ln, s.lp)
  else
    let lp ← insertLeafSlotsAt P s.lp k data s.j
    return (s.ln, lp)

namespace BTree

/-! ## The split of an inner node -/

/-- The locals of the split loop of `insert_in_parent`, and the heap it works on. -/
structure InnerSplit (K D : Type) where
  t : BTree K D
  i : Nat
  slot : Nat
  j : Nat
  added : Bool
  kp : Option K

/-- `insertInnerNodeKeyAt` on the node at `a`. -/
def insertKeyAt (t : BTree K D) (a : Addr) (k : K) (index : Nat) : Except Fault (BTree K D) := do
  let n ← t.inner a
  let (_, s) ← insertInnerNodeKeyAt n.toInnerSlots k index
  t.setInner a s

/-- `insertInnerNodeChildAt` where the result is not used. -/
def insertChildAt (t : BTree K D) (a : Addr) (c : Option Addr) (index : Nat) :
    Except Fault (BTree K D) := do
  let (_, t) ← t.insertInnerNodeChildAt a c index
  return t

/-- First `if` of the loop body: try to insert the pushed up key and its children. -/
def splitPushed (p pNode : Addr) (N : Addr) (k : K) (Nprime : Addr) (s : InnerSplit K D) :
    Except Fault (InnerSplit K D) := do
  let pn ← s.t.inner p
  if keygreater (← load pn.keySlots s.i) k ∧ s.slot = s.i then
    if s.i < pn.slotsinuse / 2 + 1 then
      let t ← s.t.insertKeyAt pNode k s.slot
      let t ← t.insertChildAt pNode (some N) s.slot
      let t ← t.insertChildAt pNode (some Nprime) (s.slot + 1)
      return { s with t := t, added := true, i := s.i - 1 }
    else
      let t ← s.t.insertKeyAt pNode k s.j
      let t ← t.insertChildAt pNode (some N) s.j
      let t ← t.insertChildAt pNode (some Nprime) (s.j + 1)
      return { s with t := t, j := s.j + 1, added := true, i := s.i - 1 }
  else
    return s

/-- Second `if`: copy into the first node. -/
def splitFirst (p pNode : Addr) (s : InnerSplit K D) : Except Fault (InnerSplit K D) := do
  let pn ← s.t.inner p
  if s.i < pn.slotsinuse / 2 + 1 ∧ s.slot = s.i then
    let t ← s.t.insertKeyAt pNode (← load pn.keySlots s.i) s.slot
    let t ← t.insertChildAt pNode (← load pn.firstChild s.i) s.slot
    return { s with t := t }
  else
    return s

/-- Third `if`: copy into the second node. -/
def splitSecond (p ppNode : Addr) (s : InnerSplit K D) : Except Fault (InnerSplit K D) := do
  let pn ← s.t.inner p
  if pn.slotsinuse / 2 < s.i then
    let t ← s.t.insertKeyAt ppNode (← load pn.keySlots s.i) s.j
    let t ← t.insertChildAt ppNode (← load pn.firstChild s.i) s.j
    return { s with t := t, j := s.j + 1 }
  else
    return s

/-- Fourth `if`: take the last key of the first node as the key that moves up. -/
def splitMiddle (p pNode : Addr) (s : InnerSplit K D) : Except Fault (InnerSplit K D) := do
  let pn ← s.t.inner p
  if s.i = pn.slotsinuse / 2 + 1 then
    let q ← s.t.inner pNode
    let kp ← load q.keySlots (s.i - 1)
    let t ← s.t.setInner pNode { q.toInnerSlots with slotsinuse := dec16 q.slotsinuse }
    let child ← load pn.firstChild s.i
    let t ← (if ← t.isleaf (← deref child) then do
        t.linkLeaves (← load pn.firstChild (s.i - 1)) child
      else .ok t)
    return { s with t := t, kp := some kp }
  else
    return s

/-- `for (i = 0, slot = 0; i < p->keyCount(); i++, slot++)`. -/
def innerSplitLoop (p pNode ppNode : Addr) (N : Addr) (k : K) (Nprime : Addr) :
    Nat → InnerSplit K D → Except Fault (InnerSplit K D)
  | 0, _ => .error .diverges
  | fuel + 1, s => do
    let pn ← s.t.inner p
    if s.i < pn.slotsinuse then
      let s ← splitPushed p pNode N k Nprime s
      let s ← splitFirst p pNode s
      let s ← splitSecond p ppNode s
      let s ← splitMiddle p pNode s
      innerSplitLoop p pNode ppNode N k Nprime fuel { s with i := s.i + 1, slot := s.slot + 1 }
    else
      return s

/-- `if (added < 0)`: the pushed up key and its children go to the end of the second node. -/
def splitEnd (t : BTree K D) (ppNode N : Addr) (k : K) (Nprime : Addr) (j : Nat) :
    Except Fault (BTree K D) := do
  let q ← t.inner ppNode
  let t ← t.setInner ppNode { q.toInnerSlots with numChildren := q.numChildren - 1 }
  let t ← t.insertChildAt ppNode (some N) j
  let t ← t.insertKeyAt ppNode k j
  t.insertChildAt ppNode (some Nprime) (j + 1)

/-- The full-parent branch of `insert_in_parent` up to the recursive call: the new
nodes are at `t.nodes.size` and the address after it; returns the key for the
grandparent. -/
def splitInner (P : Template K D) (t : BTree K D) (p N : Addr) (k : K) (Nprime : Addr) :
    Except Fault (K × BTree K D) := do
  let pNode := t.nodes.size
  let ppNode := t.nodes.size + 1
  let t := (t.newInner P).newInner P
  let pn ← t.inner p
  let s ← innerSplitLoop p pNode ppNode N k Nprime (pn.slotsinuse + 2)
    ⟨t, 0, 0, 0, false, none⟩
  let last ← load pn.firstChild s.i
  let t ← (if last.isSome then s.t.insertChildAt ppNode last s.j else .ok s.t)
  let t ← (if s.added then .ok t else t.splitEnd ppNode N k Nprime s.j)
  let q ← t.inner pNode
  let _ ← load q.keySlots q.slotsinuse
  match s.kp with
  | some kp => return (kp, t)
  | none => throw .uninitialized

/-- The branch of `insert_in_parent` for a parent with room. -/
def insertInRoom (t : BTree K D) (p N : Addr) (k : K) (Nprime : Addr) :
    Except Fault (BTree K D) := do
  let pn ← t.inner p
  let t ← t.setInner p { pn.toInnerSlots with numChildren := pn.numChildren - 1 }
  let (loc, t) ← t.insertInnerNodePair p k N
  if 1 ≤ loc then
    let (_, t) ← t.insertInnerNodeChildAt p (some Nprime) (loc + 1)
    return t
  else
    return t

/-- The branch of `insert_in_parent` without a parent: a new root. -/
def insertNewRoot (P : Template K D) (t : BTree K D) (N : Addr) (k : K) (Nprime : Addr) :
    Except Fault (BTree K D) := do
  let tnode := t.nodes.size
  let t := t.newInner P
  let t ← t.setIsRoot tnode true
  let t ← t.insertKeyAt tnode k 0
  let t ← t.insertChildAt tnode (some N) 0
  let t ← t.insertChildAt tnode (some Nprime) 1
  return { t with root := some tnode }

/-- `insert_in_parent`. -/
def insertInParent (P : Template K D) : Nat → BTree K D → Option Addr → Addr → K → Addr →
    Except Fault (BTree K D)
  | 0, _, _, _, _, _ => .error .diverges
  | _ + 1, t, none, N, k, Nprime => insertNewRoot P t N k Nprime
  | fuel + 1, t, some p, N, k, Nprime => do
    let pn ← t.inner p
    if pn.numChildren < P.innernodemax + 1 then
      insertInRoom t p N k Nprime
    else
      let pNode := t.nodes.size
      let ppNode := t.nodes.size + 1
      let (kp, t) ← splitInner P t p N k Nprime
      let pn ← t.inner p
      insertInParent P fuel t pn.parent pNode kp ppNode

/-! ## `insert` -/

variable [DecidableEq D]

/-- `makeroot`. -/
def makeRoot (P : Template K D) (t : BTree K D) (k : K) (data : D) : Except Fault (BTree K D) := do
  let l := t.nodes.size
  let t := t.newLeaf P
  let t ← t.setIsRoot l true
  let (_, t) ← t.insertLeafPair P l k data
  return { t with headleaf := some l, root := some l }

/-- The part of `insert` that splits the full leaf `n`. -/
def splitLeaf (P : Template K D) (t : BTree K D) (n : Addr) (k : K) (data : D) :
    Except Fault (BTree K D) := do
  let l ← t.leaf n
  let ln := t.nodes.size
  let lp := t.nodes.size + 1
  let t := (t.newLeaf P).newLeaf P
  let a ← t.leaf ln
  let b ← t.leaf lp
  let (a, b) ← leafSplit P l.toLeafSlots a.toLeafSlots b.toLeafSlots k data
  let t ← t.setLeaf ln a
  let t ← t.setLeaf lp b
  let kp ← load b.keySlots 0
  let t := t.upkeycount
  let t ← t.linkLeaves (some ln) (some lp)
  let t ← insertInParent P t.fuel t l.parent ln kp lp
  t.freeNode n

/-- `insert`. -/
def insert (P : Template K D) (t : BTree K D) (k : K) (data : D) :
    Except Fault (Int × BTree K D) := do
  if t.root.isNone then
    let t ← t.makeRoot P k data
    return (1, t.upkeycount)
  let n ← t.find P k
  -- `find` gives `NULL` only when there is no root; the source then takes a new leaf
  let (n, t) := match n with
    | some n => (n, t)
    | none => (t.nodes.size, t.newLeaf P)
  let (out, t) ← t.insertLeafPair P n k data
  if out = -2 then
    return (out, t)
  if out = -1 then
    let l ← t.leaf n
    if l.slotsinuse = P.innernodemax then
      let t ← t.splitLeaf P n k data
      return (1, t)
  return (1, t.upkeycount)

end BTree

end NwtBTree
