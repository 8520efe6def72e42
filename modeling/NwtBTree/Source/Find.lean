import NwtBTree.Source.Inner
import NwtBTree.Source.Leaf

/-!
# `find`, `exists` and `get`

`find` is a descent to a leaf followed by a walk along the leaf chain. The
descent only advances when `numChildren > keyCount()`; a node that breaks this
is visited again for ever, which `Fault.diverges` stands for.
-/

namespace NwtBTree

namespace BTree

variable {K D : Type} [LinearOrder K]

/-- One iteration of the descent loop at the inner node `a`. -/
def descendStep (t : BTree K D) (k : K) (a : Addr) : Except Fault Addr := do
  let cur ← t.inner a
  match ← scan (keygreater · k) cur.keySlots cur.slotsinuse 0 with
  | some slot =>
    if cur.slotsinuse < cur.numChildren then
      match ← getChild cur.toInnerSlots slot with
      | some c => return c
      | none =>
        match ← getChild cur.toInnerSlots ((cur.numChildren : Int) - 1) with
        | some c => return c
        | none => throw .assertFailed
    else
      return a
  | none => deref (← getChild cur.toInnerSlots cur.slotsinuse)

/-- `while (!(rootNode->isleaf()))`. -/
def descend (t : BTree K D) (k : K) : Nat → Addr → Except Fault Addr
  | 0, _ => .error .diverges
  | fuel + 1, a => do
    if ← t.isleaf a then return a
    let b ← t.descendStep k a
    descend t k fuel b

/-- `while (lnode != NULL)`, entered at a leaf. -/
def leafWalk (P : Template K D) (t : BTree K D) (k : K) : Nat → Addr → Except Fault Addr
  | 0, _ => .error .diverges
  | fuel + 1, a => do
    let l ← t.leaf a
    match ← scan (keygreaterequal · k) l.keySlots l.slotsinuse 0 with
    | some _ => return a
    | none =>
      if l.isfull P then
        match l.nextLeaf with
        | some b => leafWalk P t k fuel b
        | none => return a
      else
        return a

/-- `find`. -/
def find (P : Template K D) (t : BTree K D) (k : K) : Except Fault (Option Addr) := do
  match t.root with
  | none => return none
  | some r =>
    let l ← t.descend k t.fuel r
    let l ← t.leafWalk P k t.fuel l
    return some l

/-- `exists`. -/
def existsKey (P : Template K D) (t : BTree K D) (k : K) : Except Fault Bool := do
  match ← t.find P k with
  | none => return false
  | some a =>
    let l ← t.leaf a
    match ← scan (keyequal · k) l.keySlots l.slotsinuse 0 with
    | some _ => return true
    | none => return false

/-- `get`. -/
def get (P : Template K D) (t : BTree K D) (k : K) : Except Fault (D × Bool) := do
  match ← t.find P k with
  | none => return (P.emptyData, false)
  | some a =>
    let l ← t.leaf a
    match ← scan (keyequal · k) l.keySlots l.slotsinuse 0 with
    | some i => return (← load l.dataSlots i, true)
    | none => return (P.emptyData, false)

end BTree

end NwtBTree
