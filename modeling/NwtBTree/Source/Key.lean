import Mathlib.Algebra.Group.Nat.Defs
import NwtBTree.Memory.Store

/-!
# Keys of the server and their conversion

A `Key` is a type tag and a union, here the bytes of the union as they lie in
memory, least significant byte first. `pSetKeyDataFromKey` gets a pointer as its
`void *` argument by value, so the pointer it leaves in that argument is a result
that its callers do not see.
-/

namespace NwtBTree

/-- The enumeration may hold a value without a name. -/
inductive KeyType where
  | short
  | int
  | varchar
  | other (value : Nat)
  deriving DecidableEq, Repr

/-- The union `keyval`: `charkey` has 129 bytes, rounded up to the alignment of `intkey`. -/
abbrev Keyval := Vector UInt8 136

structure Key where
  type : KeyType
  keyval : Keyval
  deriving DecidableEq, Repr

/-- A pointer into the union of the key at hand, or to a block of memory. -/
inductive Ptr where
  | keyval (offset : Nat)
  | block (a : Addr)
  deriving DecidableEq, Repr

/-- Blocks of bytes; a byte that was never written is `none`. -/
abbrev Memory := Store (List (Option UInt8))

/-- The string up to the first null byte. -/
def cString : List UInt8 → Option (List UInt8)
  | [] => none
  | b :: bs => if b = 0 then some [] else (cString bs).map (b :: ·)

namespace Keyval

def shortkey (u : Keyval) : Int32 :=
  (u[0].toUInt32 ||| u[1].toUInt32 <<< 8 ||| u[2].toUInt32 <<< 16 |||
    u[3].toUInt32 <<< 24).toInt32

def intkey (u : Keyval) : Int64 :=
  (u[0].toUInt64 ||| u[1].toUInt64 <<< 8 ||| u[2].toUInt64 <<< 16 |||
    u[3].toUInt64 <<< 24 ||| u[4].toUInt64 <<< 32 ||| u[5].toUInt64 <<< 40 |||
    u[6].toUInt64 <<< 48 ||| u[7].toUInt64 <<< 56).toInt64

def charkey (u : Keyval) : List UInt8 := u.toList.take 129

/-- The four bytes written behind `shortkey`. -/
def setShortData (u : Keyval) : Keyval :=
  let i := u.shortkey.toUInt32
  let u := u.set 7 (i &&& 0xFF).toUInt8
  let u := u.set 6 ((i &&& 0xFF00) >>> 8).toUInt8
  let u := u.set 5 ((i &&& 0xFF0000) >>> 16).toUInt8
  let u := u.set 4 ((i &&& 0xFF000000) >>> 24).toUInt8
  u.set 4 (u[4] ^^^ 0x80)

/-- The eight bytes written behind `intkey`. -/
def setIntData (u : Keyval) : Keyval :=
  let i := u.intkey.toUInt64
  let u := u.set 15 (i &&& 0xFF).toUInt8
  let u := u.set 14 ((i &&& 0xFF00) >>> 8).toUInt8
  let u := u.set 13 ((i &&& 0xFF0000) >>> 16).toUInt8
  let u := u.set 12 ((i &&& 0xFF000000) >>> 24).toUInt8
  let u := u.set 11 ((i &&& 0xFF00000000) >>> 32).toUInt8
  let u := u.set 10 ((i &&& 0xFF0000000000) >>> 40).toUInt8
  let u := u.set 9 ((i &&& 0xFF000000000000) >>> 48).toUInt8
  let u := u.set 8 ((i &&& 0xFF00000000000000) >>> 56).toUInt8
  u.set 8 (u[8] ^^^ 0x80)

end Keyval

/-- `p_setKeyDataFromKey`: the result, the last value of the argument `key`, the key with what is
written behind its plain value, and the memory. -/
def pSetKeyDataFromKey (k : Key) (key : Option Ptr) (m : Memory) :
    Except Fault (Int × Option Ptr × Key × Memory) :=
  match k.type with
  | .short =>
    -- `new short` is lost at once: `key = data`
    .ok (1, some (.keyval 4), { k with keyval := k.keyval.setShortData },
      m.alloc (List.replicate 2 none))
  | .int =>
    .ok (2, some (.keyval 8), { k with keyval := k.keyval.setIntData },
      m.alloc (List.replicate 4 none))
  | .varchar =>
    match cString k.keyval.charkey with
    | none => .error .outOfRange
    | some s => .ok (3, some (.block m.size), k, m.alloc ((s ++ [0]).map some))
  | .other _ => .ok (-1, key, k, m)

end NwtBTree
