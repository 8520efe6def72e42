import NwtBTree.Source.Insert

/-!
# `erase`, `delete_pair`, `balancetree` and `deleteInnerNode`
-/

namespace NwtBTree

namespace BTree

variable {K D : Type} [LinearOrder K]

/-! ## Taking a child out of an inner node -/

/-- The shifting loop over `firstChild` in `deleteInnerNode`, at `i` with `n`
iterations left; leaves are linked to their new left neighbour as they move. -/
def shiftChildren (t : BTree K D) (N : Addr) (i : Nat) : Nat → Except Fault (BTree K D)
  | 0 => .ok t
  | n + 1 => do
    let s ← t.inner N
    if ¬ i + 1 < s.slotsinuse then
      throw .assertFailed
    let moved ← load s.firstChild (i + 1)
    let children ← store s.firstChild i moved
    let t ← t.setInner N { s.toInnerSlots with firstChild := children }
    let cur ← deref moved
    let t ← (if ← t.isleaf cur then
        if 1 ≤ i then do t.linkLeaves (← load children (i - 1)) (some cur)
        else t.setPrevLeaf cur none
      else .ok t)
    shiftChildren t N (i + 1) n

/-- The move of the last child after the loop. -/
def shiftLastChild (t : BTree K D) (N : Addr) (i : Nat) : Except Fault (BTree K D) := do
  let s ← t.inner N
  let moved ← load s.firstChild (i + 1)
  let children ← store s.firstChild i moved
  let children ← store children (i + 1) none
  let t ← t.setInner N { s.toInnerSlots with firstChild := children }
  let cur ← deref moved
  if ← t.isleaf cur then
    if 1 ≤ i then
      let prev ← load children (i - 1)
      t.linkLeaves prev (some cur)
    else
      return t
  else
    return t

/-- `deleteInnerNode` from the two searches down to the decrements: the child at
`loc` is unlinked and freed and the key at `keyloc` goes. -/
def removeChild (t : BTree K D) (N : Addr) (loc : Nat) (keyloc : Nat) :
    Except Fault (BTree K D) := do
  let s ← t.inner N
  let child ← deref (← load s.firstChild loc)
  let t ← (if 0 < loc then do
      if ← t.isleaf child then
        let prev ← deref (← load s.firstChild (loc - 1))
        let cur ← t.leaf child
        t.setNextLeaf prev cur.nextLeaf
      else .ok t
    else .ok t)
  let t ← t.freeNode child
  let keys ← shiftDown s.keySlots keyloc (s.slotsinuse - 1 - keyloc)
  let t ← t.setInner N { s.toInnerSlots with keySlots := keys }
  let t ← t.shiftChildren N loc (s.slotsinuse - 1 - loc)
  let t ← (if s.slotsinuse < s.numChildren ∧ loc + 1 < s.numChildren then
      t.shiftLastChild N (max loc (s.slotsinuse - 1))
    else .ok t)
  let s ← t.inner N
  t.setInner N { s.toInnerSlots with
    slotsinuse := dec16 s.slotsinuse, numChildren := s.numChildren - 1 }

/-! ## Rebalancing inner nodes -/

/-- Loop of the merge into `next`: the keys and children of `child` from slot `n - 1`
down to slot `0` are each inserted at the front of `next`. -/
def prependAll (t : BTree K D) (child next : Addr) : Nat → Except Fault (BTree K D)
  | 0 => .ok t
  | n + 1 => do
    let c ← t.inner child
    let t ← t.insertKeyAt next (← load c.keySlots n) 0
    let t ← t.insertChildAt next (← load c.firstChild n) 0
    prependAll t child next n

/-- Merge the underflowing `child` into its right neighbour, up to the recursive call. -/
def mergeIntoNext (t : BTree K D) (sep : K) (child next : Addr) : Except Fault (BTree K D) := do
  let c ← t.inner child
  let t ← t.insertKeyAt next sep 0
  let t ← t.insertChildAt next (← getChild c.toInnerSlots ((c.numChildren : Int) - 1)) 0
  t.prependAll child next c.slotsinuse

/-- `insertInnerNodeKeyAt(prev, k, prev->keyCount())` and the same for a child. -/
def appendPair (t : BTree K D) (prev : Addr) (k : K) (c : Option Addr) :
    Except Fault (BTree K D) := do
  let q ← t.inner prev
  let t ← t.insertKeyAt prev k q.slotsinuse
  t.insertChildAt prev c q.numChildren

/-- Loop of the merge into `prev`: key `i` and child `i + 1` of `child` go to the end. -/
def appendAll (t : BTree K D) (child prev : Addr) (i : Nat) : Nat → Except Fault (BTree K D)
  | 0 => .ok t
  | n + 1 => do
    let c ← t.inner child
    let t ← t.appendPair prev (← load c.keySlots i) (← load c.firstChild (i + 1))
    appendAll t child prev (i + 1) n

/-- Merge the underflowing `child` into its left neighbour, up to the recursive call. -/
def mergeIntoPrev (t : BTree K D) (sep : K) (child prev : Addr) : Except Fault (BTree K D) := do
  let c ← t.inner child
  let t ← t.appendPair prev sep (← load c.firstChild 0)
  t.appendAll child prev 0 c.slotsinuse

/-- Move the first child of `next` to the end of `child`. -/
def redistributeFromNext (t : BTree K D) (sep : K) (child next : Addr) :
    Except Fault (BTree K D) := do
  let q ← t.inner next
  let t ← t.appendPair child sep (← load q.firstChild 0)
  let q ← t.inner next
  let (_, t) ← t.replaceKey q.parent sep (← load q.keySlots 0)
  let q ← t.inner next
  let n := q.slotsinuse - 1
  let keys ← shiftDown q.keySlots 0 n
  let children ← shiftDown q.firstChild 0 n
  let children ← (if q.slotsinuse < q.numChildren then do
      store children n (← load children (n + 1))
    else .ok children)
  t.setInner next { q.toInnerSlots with
    keySlots := keys, firstChild := children
    slotsinuse := dec16 q.slotsinuse, numChildren := q.numChildren - 1 }

/-- Move the last child of `prev` to `child`. The source asks the `NULL` pointer
`next` for the parent, here the argument `next`. -/
def redistributeFromPrev (t : BTree K D) (sep : K) (child prev : Addr) (next : Option Addr) :
    Except Fault (BTree K D) := do
  let c ← t.inner child
  let q ← t.inner prev
  let t ← t.insertKeyAt child sep c.slotsinuse
  let t ← t.insertChildAt child (← load q.firstChild (q.numChildren - 1)) 0
  let next ← deref next
  let r ← t.inner next
  let q ← t.inner prev
  let (_, t) ← t.replaceKey r.parent sep (← loadInt q.keySlots ((q.slotsinuse : Int) - 1))
  let q ← t.inner prev
  let children ← store q.firstChild (q.numChildren - 1) none
  t.setInner prev { q.toInnerSlots with
    firstChild := children, numChildren := q.numChildren - 1, slotsinuse := dec16 q.slotsinuse }

/-- `deleteInnerNode`. -/
def deleteInnerNode (P : Template K D) : Nat → BTree K D → Addr → K → Addr →
    Except Fault (Int × BTree K D)
  | 0, _, _, _, _ => .error .diverges
  | fuel + 1, t, N, kP, child => do
    let loc ← t.findInnerNodeLoc (some N) (some child)
    let s ← t.inner N
    let keyloc ← findInnerNodeKey s.toInnerSlots kP
    if loc < 0 then
      return (loc, t)
    let _ ← loadInt s.keySlots keyloc
    let t ← (if loc < s.numChildren then t.removeChild N loc.toNat keyloc.toNat else .ok t)
    let s ← t.inner N
    if s.isrootnode then
      if s.numChildren = 1 then
        let c ← deref (← load s.firstChild 0)
        let t ← t.setParent c none
        let t ← t.setIsRoot c true
        let t ← BTree.freeNode { t with root := some c } N
        return (1, t)
      return (loc, t)
    else if s.isunderflow P then
      let loc ← t.findInnerNodeLoc s.parent (some N)
      let g ← deref s.parent
      let parent ← t.inner g
      let prev ← (if 0 ≤ loc - 1 then loadInt parent.firstChild (loc - 1) else .ok none)
      let next ← (if loc + 1 < parent.numChildren then loadInt parent.firstChild (loc + 1)
        else .ok none)
      let loc := if loc = (parent.numChildren : Int) - 1 then loc - 1 else loc
      match next, prev with
      | some next, _ =>
        let q ← t.inner next
        let sep ← loadInt parent.keySlots loc
        if q.numChildren + s.numChildren ≤ P.innernodemax + 1 then
          let t ← t.mergeIntoNext sep N next
          let (_, t) ← deleteInnerNode P fuel t g sep N
          return (loc, t)
        else
          let t ← t.redistributeFromNext sep N next
          return (loc, t)
      | none, some prev =>
        let q ← t.inner prev
        let sep ← loadInt parent.keySlots loc
        if q.numChildren + s.numChildren ≤ P.innernodemax + 1 then
          let t ← t.mergeIntoPrev sep N prev
          let (_, t) ← deleteInnerNode P fuel t g sep N
          return (loc, t)
        else
          let t ← t.redistributeFromPrev sep N prev none
          return (loc, t)
      | none, none => return (loc, t)
    else
      return (loc, t)

/-! ## Rebalancing leaves -/

variable [DecidableEq D]

/-- `for (i = 0; i < leaf->keyCount(); i++) insertleafpair(dest, ...)`. -/
def moveAll (P : Template K D) (t : BTree K D) (leaf dest : Addr) (i : Nat) :
    Nat → Except Fault (BTree K D)
  | 0 => .ok t
  | n + 1 => do
    let l ← t.leaf leaf
    let (_, t) ← t.insertLeafPair P dest (← load l.keySlots i) (← load l.dataSlots i)
    moveAll P t leaf dest (i + 1) n

/-- Merge `leaf` into `prev`, its left neighbour under the same parent. -/
def mergeLeafIntoPrev (P : Template K D) (t : BTree K D) (leaf prev : Addr) (parentloc : Int) :
    Except Fault (BTree K D) := do
  let l ← t.leaf leaf
  let loc ← t.findInnerNodeLoc l.parent (some leaf)
  let t ← t.moveAll P leaf prev 0 l.slotsinuse
  if loc < 0 then
    throw .assertFailed
  let g ← deref l.parent
  let p ← t.inner g
  if parentloc = p.numChildren then
    throw .uninitialized
  let k ← loadInt p.keySlots (parentloc - 1)
  let (_, t) ← deleteInnerNode P t.fuel t g k leaf
  return t

/-- Move the last pair of `prev` to `leaf`. -/
def borrowFromPrev (P : Template K D) (t : BTree K D) (leaf prev : Addr) (parentloc : Int) :
    Except Fault (BTree K D) := do
  let l ← t.leaf leaf
  let q ← t.leaf prev
  if ¬ l.slotsinuse < q.slotsinuse then
    throw .assertFailed
  let last := (q.slotsinuse : Int) - 1
  let (_, t) ← t.insertLeafPair P leaf (← loadInt q.keySlots last) (← loadInt q.dataSlots last)
  let g ← deref l.parent
  let p ← t.inner g
  let replacee ← loadInt p.keySlots (parentloc - 1)
  let l ← t.leaf leaf
  let (_, t) ← t.replaceKey l.parent replacee (← load l.keySlots 0)
  let q ← t.leaf prev
  let last := (q.slotsinuse : Int) - 1
  let (_, t) ← t.deleteLeafPair prev (← loadInt q.keySlots last) (← loadInt q.dataSlots last)
  return t.upkeycount

/-- Merge `leaf` into `next`, the leaf after it in the chain. -/
def mergeLeafIntoNext (P : Template K D) (t : BTree K D) (leaf next : Addr) :
    Except Fault (BTree K D) := do
  let l ← t.leaf leaf
  let t ← t.moveAll P leaf next 0 l.slotsinuse
  let loc ← t.findInnerNodeLoc l.parent (some leaf)
  if loc < 0 then
    throw .assertFailed
  let g ← deref l.parent
  let p ← t.inner g
  let k ← (if loc < p.numChildren then loadInt p.keySlots loc else loadInt p.keySlots (loc + 1))
  let (_, t) ← deleteInnerNode P t.fuel t g k leaf
  return t

/-- Move the first pair of `next` to `leaf`. -/
def borrowFromNext (P : Template K D) (t : BTree K D) (leaf next : Addr) :
    Except Fault (BTree K D) := do
  let l ← t.leaf leaf
  let q ← t.leaf next
  if ¬ l.slotsinuse < q.slotsinuse then
    throw .assertFailed
  let (_, t) ← t.insertLeafPair P leaf (← load q.keySlots 0) (← load q.dataSlots 0)
  let q ← t.leaf next
  let (_, t) ← t.replaceKey q.parent (← load q.keySlots 0) (← load q.keySlots 1)
  let q ← t.leaf next
  let (_, t) ← t.deleteLeafPair next (← load q.keySlots 0) (← load q.dataSlots 0)
  return t.upkeycount

/-- `balancetree`; its argument `loc` is not used. -/
def balanceTree (P : Template K D) (t : BTree K D) (leaf : Addr) : Except Fault (BTree K D) := do
  let l ← t.leaf leaf
  let parentloc ← t.findInnerNodeLoc l.parent (some leaf)
  if l.isunderflow P then
    match l.prevLeaf, l.nextLeaf, decide (0 < parentloc) with
    | some prev, _, true =>
      let q ← t.leaf prev
      if q.slotsinuse + l.slotsinuse < P.leafnodemax then
        t.mergeLeafIntoPrev P leaf prev parentloc
      else
        t.borrowFromPrev P leaf prev parentloc
    | _, some next, _ =>
      let q ← t.leaf next
      if q.slotsinuse + l.slotsinuse < P.leafnodemax then
        t.mergeLeafIntoNext P leaf next
      else
        t.borrowFromNext P leaf next
    | _, none, _ => return t
  else
    return t

/-! ## `erase` and `delete_pair` -/

/-- `erase`: only the keys are shifted. -/
def erase (P : Template K D) (t : BTree K D) (k : K) : Except Fault (Int × BTree K D) := do
  match ← t.find P k with
  | none => return (-1, t)
  | some a =>
    let l ← t.leaf a
    let loc ← findKeyEqual l.toLeafSlots k
    if keyequal k (← load l.keySlots loc) then
      let keys ← shiftDown l.keySlots loc (l.slotsinuse - 1 - loc)
      let t ← t.setLeaf a { l.toLeafSlots with
        keySlots := keys, slotsinuse := dec16 l.slotsinuse }
      let t := t.downkeycount
      if l.isrootnode then
        return (loc, t)
      else
        let t ← t.balanceTree P a
        return (loc, t)
    else
      return (-1, t)

/-- `delete_pair`. -/
def deletePair (P : Template K D) (t : BTree K D) (k : K) (data : D) :
    Except Fault (Int × BTree K D) := do
  match ← t.find P k with
  | none => return (-1, t)
  | some a =>
    let (loc, t) ← t.deleteLeafPair a k data
    if loc < 0 then
      return (-1, t)
    else
      let t ← t.balanceTree P a
      return (loc, t)

end BTree

end NwtBTree
