import NwtBTree.Source.Node

/-!
# Operations on leaves

The searches inside one leaf, the two parallel insertion helpers, and
`insertleafpair` with its scan for duplicates along the leaf chain.
-/

namespace NwtBTree

variable {K D : Type}

section Slots

variable [LinearOrder K]

/-- `findKeyLoc`: the lower bound, `slotsinuse` when every key is smaller. -/
def findKeyLoc (l : LeafSlots K D) (k : K) : Except Fault Nat := do
  match ← scan (keygreaterequal · k) l.keySlots l.slotsinuse 0 with
  | some i => return i
  | none => return l.slotsinuse

/-- `findKeyEqual` on a leaf that is not `NULL`; `slotsinuse` when there is no equal key. -/
def findKeyEqual (l : LeafSlots K D) (k : K) : Except Fault Nat := do
  match ← scan (keyequal · k) l.keySlots l.slotsinuse 0 with
  | some i => return i
  | none => return l.slotsinuse

/-- `find_lowerkey` on a leaf that is not `NULL`; `-1` when every key is smaller. -/
def findLowerKey (l : LeafSlots K D) (k : K) : Except Fault Int := do
  if l.slotsinuse = 0 then
    return 0
  match ← scan (keylessequal k ·) l.keySlots l.slotsinuse 0 with
  | some i => return i
  | none => return -1

end Slots

/-- `insertleafDataAt`: the slot is overwritten, nothing is shifted. -/
def insertLeafDataAt (P : Template K D) (l : LeafSlots K D) (data : D) (index : Int) :
    Except Fault (Int × LeafSlots K D) := do
  if (P.leafnodemax : Int) ≤ index ∨ index < 0 then
    return (-1, l)
  let ds ← store l.dataSlots index.toNat data
  return (index, { l with dataSlots := ds })

/-- `insertleafKeyAt`. -/
def insertLeafKeyAt (l : LeafSlots K D) (k : K) (index : Int) :
    Except Fault (Int × LeafSlots K D) := do
  if (l.slots : Int) ≤ index ∨ index < 0 then
    return (-1, l)
  if l.slotsinuse = 0 ∨ (l.slotsinuse : Int) ≤ index then
    let keys ← store l.keySlots index.toNat k
    return (1, { l with keySlots := keys, slotsinuse := inc16 l.slotsinuse })
  let keys ← shiftUp l.keySlots index.toNat l.slotsinuse
  let keys ← store keys index.toNat k
  return (1, { l with keySlots := keys, slotsinuse := inc16 l.slotsinuse })

/-- The two helpers that `insertleafpair` and the leaf split call one after the other. -/
def insertLeafSlotsAt (P : Template K D) (l : LeafSlots K D) (k : K) (data : D) (index : Int) :
    Except Fault (LeafSlots K D) := do
  let (_, l) ← insertLeafKeyAt l k index
  let (_, l) ← insertLeafDataAt P l data index
  return l

section Pair

variable [LinearOrder K] [DecidableEq D]

/-- The inner loop of the duplicate scan over one leaf, from slot `j` on. -/
def duplicateIn (l : LeafSlots K D) (k : K) (data : D) : Nat → Nat → Except Fault Bool
  | 0, _ => .ok false
  | n + 1, j => do
    if keyequal (← load l.keySlots j) k then
      if data = (← load l.dataSlots j) then return true
      duplicateIn l k data n (j + 1)
    else
      return false

namespace BTree

/-- The duplicate scan of `insertleafpair`: from slot `j` of `cur`, then along `nextLeaf`. -/
def duplicateScan (t : BTree K D) (k : K) (data : D) :
    Nat → Option Addr → Nat → Except Fault Bool
  | 0, _, _ => .error .diverges
  | _ + 1, none, _ => .ok false
  | fuel + 1, some cur, j => do
    let l ← t.leaf cur
    if keyequal (← load l.keySlots j) k then
      if ← duplicateIn l.toLeafSlots k data (l.slotsinuse - j) j then return true
      duplicateScan t k data fuel l.nextLeaf 0
    else
      return false

/-- `insertleafpair`. -/
def insertLeafPair (P : Template K D) (t : BTree K D) (l : Addr) (k : K) (data : D) :
    Except Fault (Int × BTree K D) := do
  let s ← t.leaf l
  if s.isfull P then
    return (-1, t)
  let loc ← findKeyLoc s.toLeafSlots k
  if ← t.duplicateScan k data t.fuel (some l) loc then
    return (-2, t)
  let s ← insertLeafSlotsAt P s.toLeafSlots k data loc
  let t ← t.setLeaf l s
  return (1, t)

omit [DecidableEq D] in
/-- `deleteleafpair`; the argument `data` of the source is never looked at. -/
def deleteLeafPair (t : BTree K D) (l : Addr) (k : K) (_data : D) :
    Except Fault (Int × BTree K D) := do
  let s ← t.leaf l
  if s.slotsinuse < 1 then
    return (-1, t)
  let loc ← findLowerKey s.toLeafSlots k
  if keyequal k (← loadInt s.keySlots loc) then
    let i := loc.toNat
    let keys ← shiftDown s.keySlots i (s.slotsinuse - 1 - i)
    let ds ← shiftDown s.dataSlots i (s.slotsinuse - 1 - i)
    let t ← t.setLeaf l { s.toLeafSlots with
      keySlots := keys, dataSlots := ds, slotsinuse := dec16 s.slotsinuse }
    return (loc, t.downkeycount)
  else
    return (-1, t)

end BTree

end Pair

end NwtBTree
