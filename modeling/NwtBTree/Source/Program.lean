import NwtBTree.Machine.Run
import NwtBTree.Source.Api
import NwtBTree.Source.Erase

/-!
# `printleaves` and the program of `test.cc`

What is printed is the result of a function here. The bounds of the loops of `main`
are arguments.
-/

namespace NwtBTree

namespace BTree

variable {K D : Type} [LinearOrder K]

/-- The inner loop of `printleaves`. -/
def printKeys (l : LeafSlots K D) : Except Fault (List K) :=
  (List.range l.slotsinuse).mapM (load l.keySlots)

/-- `while (l != NULL)`. -/
def printFrom (t : BTree K D) : Nat → Option Addr → Except Fault (List K)
  | _, none => .ok []
  | 0, some _ => .error .diverges
  | fuel + 1, some a => do
    let l ← t.leaf a
    let ks ← printKeys l.toLeafSlots
    return ks ++ (← printFrom t fuel l.nextLeaf)

/-- `printleaves`; `zero` is the key 0. -/
def printLeaves (P : Template K D) (zero : K) (t : BTree K D) : Except Fault (List K) := do
  let l ← t.find P zero
  t.printFrom t.fuel l

end BTree

/-- What the calls of `main` return and print. -/
structure TestOutput where
  inserted : List Int
  erased : List Int
  again : List Int
  printed : List Int32
  found : List (List UInt8 × Bool)
  deriving DecidableEq

/-- `string value("we")`. -/
def we : List UInt8 := [119, 101]

/-- `main` of `test.cc`, where `n`, `m`, `r` and `g` are 2000, 5, 1000 and 100: the keys below `n`
are inserted, those from `m` on are erased from the greatest one down, those below `r` are inserted
once more, and those below `g` are looked up. -/
def testMain (P : Template Int32 (List UInt8)) (n m r g : Nat) : Except Fault TestOutput := do
  let (inserted, t) ← run (fun t i => t.insert P (.ofNat i) we) BTree.init (List.range n)
  let (erased, t) ← run (fun t j => t.erase P (.ofNat j)) t (List.range' m (n - m)).reverse
  let (again, t) ← run (fun t i => t.insert P (.ofNat i) we) t (List.range r)
  let printed ← t.printLeaves P 0
  let found ← (List.range g).mapM fun j => t.get P (.ofNat j)
  return ⟨inserted, erased, again, printed, found⟩

end NwtBTree
