import NwtBTree.Source.Find

/-!
# Iterators

`begin()`, `end()`, and `operator++` and `operator--` in both forms.
-/

namespace NwtBTree

variable {K D : Type}

structure Iterator where
  currnode : Option Addr
  currslot : Nat
  deriving DecidableEq, Repr

namespace BTree

/-- `begin()`. -/
def beginIter (t : BTree K D) : Iterator := ⟨t.headleaf, 0⟩

/-- `end()`. -/
def endIter (t : BTree K D) : Except Fault Iterator := do
  match t.tailleaf with
  | none => return ⟨none, 0⟩
  | some a =>
    let l ← t.leaf a
    return ⟨some a, l.slotsinuse⟩

/-- `operator*`. -/
def deref (t : BTree K D) (it : Iterator) : Except Fault (K × D) := do
  let a ← NwtBTree.deref it.currnode
  let l ← t.leaf a
  return (← load l.keySlots it.currslot, ← load l.dataSlots it.currslot)

/-- `operator++`. -/
def next (t : BTree K D) (it : Iterator) : Except Fault Iterator := do
  let a ← NwtBTree.deref it.currnode
  let l ← t.leaf a
  if it.currslot + 1 < l.slotsinuse then
    return ⟨some a, it.currslot + 1⟩
  else
    match l.nextLeaf with
    | some b => return ⟨some b, 0⟩
    | none => return ⟨some a, l.slotsinuse⟩

/-- `operator++(int)`: the copy that is returned, and the iterator afterwards. -/
def nextPost (t : BTree K D) (it : Iterator) : Except Fault (Iterator × Iterator) := do
  let tmp := it
  let a ← NwtBTree.deref it.currnode
  let l ← t.leaf a
  if it.currslot + 1 < l.slotsinuse then
    return (tmp, ⟨some a, it.currslot + 1⟩)
  else
    match l.nextLeaf with
    | some b => return (tmp, ⟨some b, 0⟩)
    | none => return (tmp, ⟨some a, l.slotsinuse⟩)

/-- `operator--`. -/
def prev (t : BTree K D) (it : Iterator) : Except Fault Iterator := do
  let a ← NwtBTree.deref it.currnode
  let l ← t.leaf a
  if 0 < it.currslot then
    return ⟨some a, it.currslot - 1⟩
  else
    match l.prevLeaf with
    | some b => return ⟨some b, dec16 (← t.leaf b).slotsinuse⟩
    | none => return ⟨some a, 0⟩

/-- `operator--(int)`: the copy that is returned, and the iterator afterwards. -/
def prevPost (t : BTree K D) (it : Iterator) : Except Fault (Iterator × Iterator) := do
  let tmp := it
  let a ← NwtBTree.deref it.currnode
  let l ← t.leaf a
  if 0 < it.currslot then
    return (tmp, ⟨some a, it.currslot - 1⟩)
  else
    match l.prevLeaf with
    | some b => return (tmp, ⟨some b, dec16 (← t.leaf b).slotsinuse⟩)
    | none => return (tmp, ⟨some a, 0⟩)

end BTree

end NwtBTree
