import NwtBTree.Source.Node

/-!
# Operations on inner nodes

`findInnerNodeLoc`, `findInnerNodeKey`, `getChild`, the two positional insertion
helpers, `insertinnernodepair`, `replacekey` and `deleteinnerpair`.
-/

namespace NwtBTree

variable {K D : Type}

/-- `getChild`; `firstChild` is an array, so the `NULL` test on it never holds. -/
def getChild (n : InnerSlots K) (i : Int) : Except Fault (Option Addr) :=
  if i < 0 ∨ (n.slotsinuse : Int) < i then .ok none else load n.firstChild i.toNat

/-- `insertInnerNodeKeyAt`. -/
def insertInnerNodeKeyAt (n : InnerSlots K) (k : K) (index : Int) :
    Except Fault (Int × InnerSlots K) := do
  if (n.slots : Int) ≤ index ∨ index < 0 then
    return (-1, n)
  if n.slotsinuse = 0 ∨ (n.slotsinuse : Int) ≤ index then
    let keys ← store n.keySlots index.toNat k
    return (1, { n with keySlots := keys, slotsinuse := inc16 n.slotsinuse })
  let keys ← shiftUp n.keySlots index.toNat n.slotsinuse
  let keys ← store keys index.toNat k
  return (1, { n with keySlots := keys, slotsinuse := inc16 n.slotsinuse })

/-- `for (j = i; i < p->keyCount() - 1; j++)`: the bound is tested for `i`, which the loop never
changes. Also the last value of `j`. -/
def deleteInnerLoop (i : Nat) : Nat → Nat → InnerSlots K → Except Fault (Nat × InnerSlots K)
  | 0, _, _ => .error .diverges
  | fuel + 1, j, p =>
    if i + 1 < p.slotsinuse then do
      let c ← load p.firstChild (j + 1)
      let children ← store p.firstChild j c
      let k ← load p.keySlots (j + 1)
      let keys ← store p.keySlots j k
      deleteInnerLoop i fuel (j + 1) { p with firstChild := children, keySlots := keys }
    else .ok (j, p)

/-- `deleteinnerpair`, which no other function calls; its argument `n` is not used. Every round of
the inner loop needs one more slot. -/
def deleteInnerPair [LinearOrder K] (p : InnerSlots K) (k : K) :
    Except Fault (Int × InnerSlots K) := do
  if p.slotsinuse < 1 then
    return (-1, p)
  match ← scan (keyequal k ·) p.keySlots p.slotsinuse 0 with
  | some i =>
    let (j, p) ← deleteInnerLoop i (p.keySlots.length + 1) i p
    let children ← (if j + 2 = p.numChildren then do
      store p.firstChild (j + 1) (← load p.firstChild (j + 2)) else .ok p.firstChild)
    return (i, { p with
      firstChild := children, slotsinuse := dec16 p.slotsinuse, numChildren := p.numChildren - 1 })
  | none => return (-1, p)

namespace BTree

/-- `l->prevLeaf = d; d->nextLeaf = l;` for neighbours that may be `NULL` pointers. -/
def linkLeaves (t : BTree K D) (d l : Option Addr) : Except Fault (BTree K D) := do
  let d ← deref d
  let l ← deref l
  let t ← t.setPrevLeaf l (some d)
  t.setNextLeaf d (some l)

/-- The two `if`s of `insertInnerNodeChildAt` that link a leaf `n`, now child `i` of
`num` in the array `children`, to its neighbours. -/
def linkNeighbours (t : BTree K D) (children : List (Option Addr)) (num : Nat)
    (n : Option Addr) (i : Nat) : Except Fault (BTree K D) := do
  let t ← (if 1 ≤ i then do t.linkLeaves (← load children (i - 1)) n else .ok t)
  if i + 1 < num then t.linkLeaves n (← load children (i + 1)) else .ok t

/-- `insertInnerNodeChildAt`. -/
def insertInnerNodeChildAt (t : BTree K D) (dest : Addr) (n : Option Addr) (index : Int) :
    Except Fault (Int × BTree K D) := do
  let d ← t.inner dest
  if (d.slots : Int) < index ∨ index < 0 then
    return (-1, t)
  let i := index.toNat
  let children ← (if i < d.numChildren then shiftUp d.firstChild i d.numChildren
    else .ok d.firstChild)
  let children ← store children i n
  let c ← deref n
  let t ← t.setInner dest { d.toInnerSlots with
    firstChild := children, numChildren := d.numChildren + 1 }
  let t ← t.setParent c (some dest)
  let t ← (if ← t.isleaf c then t.linkNeighbours children (d.numChildren + 1) n i else .ok t)
  return (0, t)

variable [LinearOrder K]

/-- `findInnerNodeLoc`. Both branches of the source run the same loop; they differ
in which child they compare at the end and in what they return there. -/
def findInnerNodeLoc (t : BTree K D) (n c : Option Addr) : Except Fault Int := do
  match c, n with
  | none, _ => return -1
  | _, none => return -1
  | some c, some n =>
    if ← t.isleaf c then
      let child ← t.leaf c
      let k ← load child.keySlots 0
      let p ← t.inner n
      match ← scan (keygreater · k) p.keySlots p.slotsinuse 0 with
      | some i => return i
      | none =>
        if p.slotsinuse < p.numChildren then
          let last ← deref (← load p.firstChild p.slotsinuse)
          let last ← t.leaf last
          if keyequal (← load last.keySlots 0) k then
            return p.slotsinuse
        return -1
    else
      let child ← t.inner c
      let k ← load child.keySlots 0
      let p ← t.inner n
      match ← scan (keygreater · k) p.keySlots p.slotsinuse 0 with
      | some i => return i
      | none =>
        if p.slotsinuse < p.numChildren then
          let last ← deref (← load p.firstChild (p.numChildren - 1))
          let last ← t.inner last
          let _ ← load last.keySlots 0
        return p.slotsinuse

/-- `findInnerNodeKey`. -/
def findInnerNodeKey (n : InnerSlots K) (k : K) : Except Fault Int := do
  match ← scan (keyequal · k) n.keySlots n.slotsinuse 0 with
  | some i => return i
  | none => return -1

/-- `insertinnernodepair`. The search loop has no `break`, so it ends on the last
key that is greater than `k`. -/
def insertInnerNodePair (t : BTree K D) (n : Addr) (k : K) (child : Addr) :
    Except Fault (Int × BTree K D) := do
  let s ← t.inner n
  if ¬ s.slotsinuse < s.slots then
    throw .assertFailed
  let loc ← scanLast (keygreater · k) s.keySlots s.slotsinuse 0 none
  let loc := loc.getD s.slotsinuse
  let (_, s) ← insertInnerNodeKeyAt s.toInnerSlots k loc
  let t ← t.setInner n s
  let (_, t) ← t.insertInnerNodeChildAt n (some child) loc
  return (loc, t)

/-- `replacekey`. -/
def replaceKey (t : BTree K D) (n : Option Addr) (replacee replacer : K) :
    Except Fault (Int × BTree K D) := do
  match n with
  | none => return (-1, t)
  | some n =>
    let s ← t.inner n
    match ← scan (keyequal · replacee) s.keySlots s.slotsinuse 0 with
    | some i =>
      let keys ← store s.keySlots i replacer
      let t ← t.setInner n { s.toInnerSlots with keySlots := keys }
      return (1, t)
    | none => return (-1, t)

end BTree

end NwtBTree
