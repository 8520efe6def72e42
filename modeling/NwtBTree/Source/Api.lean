import Mathlib.Data.List.Lex
import NwtBTree.Source.Find
import NwtBTree.Source.Registry

/-!
# Records through the interface

`get`, and `insertRecord` up to its switch. Locals that are declared without a
value hold whatever was in their place before: this is an argument here. What is
printed is left out.
-/

namespace NwtBTree

instance instLinearOrderInt16 : LinearOrder Int16 where
  le_refl := Int16.le_refl
  le_trans _ _ _ := Int16.le_trans
  le_antisymm _ _ := Int16.le_antisymm
  le_total := Int16.le_total
  lt_iff_le_not_ge a b := by grind
  toDecidableLE := inferInstance

instance instLinearOrderInt32 : LinearOrder Int32 where
  le_refl := Int32.le_refl
  le_trans _ _ _ := Int32.le_trans
  le_antisymm _ _ := Int32.le_antisymm
  le_total := Int32.le_total
  lt_iff_le_not_ge a b := by grind
  toDecidableLE := inferInstance

instance instLinearOrderUInt8 : LinearOrder UInt8 where
  le_refl := UInt8.le_refl
  le_trans _ _ _ := UInt8.le_trans
  le_antisymm _ _ := UInt8.le_antisymm
  le_total := UInt8.le_total
  lt_iff_le_not_ge a b := by grind
  toDecidableLE := inferInstance

/-- Fail where there is nothing. -/
def orFault {α : Type} (e : Fault) : Option α → Except Fault α
  | some a => .ok a
  | none => .error e

structure Record where
  key : Key
  payload : Vector UInt8 101
  deriving DecidableEq, Repr

structure TXNState where
  tid : UInt32
  deriving DecidableEq, Repr

/-- The template arguments of the three trees. -/
structure Templates where
  short : Template Int16 (List UInt8)
  int : Template Int32 (List UInt8)
  varchar : Template (List UInt8) (List UInt8)

/-- What the local `k` of the three branches of `get` holds when it is declared. -/
structure Locals where
  short : Int16
  int : Int32
  varchar : Option Ptr

/-- `p_setKeyDataFromKey` for its callers: `key` is passed by value. -/
def setKeyData (k : Key) (key : Option Ptr) (m : Memory) : Except Fault (Int × Key × Memory) := do
  let (ret, _, k, m) ← pSetKeyDataFromKey k key m
  return (ret, k, m)

/-- Read a local `short`; `k` is what it held before anything was written. -/
def readShort (m : Memory) (a : Addr) (k : Int16) : Int16 :=
  match m.get a with
  | some [some b0, some b1] => (b0.toUInt16 ||| b1.toUInt16 <<< 8).toInt16
  | _ => k

def readInt (m : Memory) (a : Addr) (k : Int32) : Int32 :=
  match m.get a with
  | some [some b0, some b1, some b2, some b3] =>
    (b0.toUInt32 ||| b1.toUInt32 <<< 8 ||| b2.toUInt32 <<< 16 ||| b3.toUInt32 <<< 24).toInt32
  | _ => k

/-- `string sk(k)`. -/
def readString (u : Keyval) (m : Memory) : Option Ptr → Except Fault (List UInt8)
  | none => .error .nullDeref
  | some (.keyval offset) => orFault .outOfRange (cString (u.toList.drop offset))
  | some (.block a) => do
    let bytes ← orFault .freed (m.get a)
    let bytes ← orFault .uninitialized (bytes.mapM id)
    orFault .outOfRange (cString bytes)

/-- `c_str()`: the string up to its first null byte. -/
def cStr (s : List UInt8) : List UInt8 := s.takeWhile (· ≠ 0)

/-- `strcpy` into the payload of a record: the string, a null byte, and what was behind them. -/
def strcpy (payload : Vector UInt8 101) (s : List UInt8) : Except Fault (Vector UInt8 101) :=
  if h : s.length < 101 then
    .ok ⟨(s ++ 0 :: payload.toList.drop (s.length + 1)).toArray, by simp; omega⟩
  else .error .outOfRange

namespace Nbt

/-- `(nbtree_st *) state->nbt`, and the same for the other trees. -/
def asShort : Nbt → Except Fault (BTree Int16 (List UInt8))
  | .short t => .ok t
  | _ => .error .badCast

def asInt : Nbt → Except Fault (BTree Int32 (List UInt8))
  | .int t => .ok t
  | _ => .error .badCast

def asVarchar : Nbt → Except Fault (BTree (List UInt8) (List UInt8))
  | .varchar t => .ok t
  | _ => .error .badCast

end Nbt

/-- The key that the `SHORT` branch of `get` looks up. -/
def shortKey (k : Key) (m : Memory) (f : Locals) : Except Fault (Int16 × Key × Memory) := do
  let a := m.size
  let m := m.alloc (List.replicate 2 none)
  let (_, k, m) ← setKeyData k (some (.block a)) m
  return (readShort m a f.short, k, m)

def intKey (k : Key) (m : Memory) (f : Locals) : Except Fault (Int32 × Key × Memory) := do
  let a := m.size
  let m := m.alloc (List.replicate 4 none)
  let (_, k, m) ← setKeyData k (some (.block a)) m
  return (readInt m a f.int, k, m)

def varcharKey (k : Key) (m : Memory) (f : Locals) : Except Fault (List UInt8 × Key × Memory) := do
  let (_, k, m) ← setKeyData k f.varchar m
  let sk ← readString k.keyval m f.varchar
  return (sk, k, m)

namespace Server

def nbt (s : Server) (state : STXDBState) : Except Fault Nbt := do
  let a ← deref state.nbt
  orFault .badCast s.trees[a]?

/-- What `get` does behind its switch. -/
def afterSwitch (s : Server) (idxState : Addr) (state : STXDBState) (txn : Option TXNState)
    (record : Record) : Except Fault Server := do
  let txne ← orFault .nullDeref txn
  let state := if txne.tid ≠ state.tid then
    { state with tid := txne.tid, lastKey := .zero, keyNotFound := 1 } else state
  let state := { state with lastKey := record.key, keyNotFound := 0 }
  return { s with states := s.states.set idxState state }

/-- The code is `none` where the function ends without a `return`. -/
def get (P : Templates) (s : Server) (idxState : Addr) (txn : Option TXNState) (record : Record)
    (m : Memory) (f : Locals) : Except Fault (Option ErrCode × Server × Record × Memory) := do
  let state ← orFault .badCast s.states[idxState]?
  match state.type with
  | .short =>
    let shtree ← (← s.nbt state).asShort
    let (k, key, m) ← shortKey record.key m f
    let ret ← shtree.get P.short k
    let payload ← strcpy record.payload (cStr ret.1)
    let record := ⟨key, payload⟩
    -- `break` stands in front of the `return`
    let s ← s.afterSwitch idxState state txn record
    return (none, s, record, m)
  | .int =>
    let intree ← (← s.nbt state).asInt
    let (k, key, m) ← intKey record.key m f
    let ret ← intree.get P.int k
    let payload ← strcpy record.payload (cStr ret.1)
    return (some .success, s, ⟨key, payload⟩, m)
  | .varchar =>
    let chtree ← (← s.nbt state).asVarchar
    let (sk, key, m) ← varcharKey record.key m f
    let _ ← chtree.get P.varchar sk
    return (some .success, s, { record with key := key }, m)
  | .other _ => return (some .failure, s, record, m)

end Server

/-- `insertRecord` up to its switch: the code it returns, or the `mykey` it goes on with. -/
def insertRecordKey (k : Key) (m : Memory) : Except Fault (Except ErrCode Ptr × Key × Memory) := do
  let mykey : Option Ptr := none
  let (_, k, m) ← setKeyData k mykey m
  match mykey with
  | none => return (.error .failure, k, m)
  | some key => return (.ok key, k, m)

end NwtBTree
