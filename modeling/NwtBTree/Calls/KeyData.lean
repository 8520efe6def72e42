import NwtBTree.Source.Api

/-!
# The converted key does not reach the callers

`p_setKeyDataFromKey` assigns to its own argument. `get` goes on with what its local
held before, `insertRecord` with the null pointer.
-/

namespace NwtBTree

/-- A key of one of the three trees. -/
inductive NativeKey where
  | short (k : Int16)
  | int (k : Int32)
  | varchar (k : List UInt8)
  deriving DecidableEq, Repr

/-- The key that `get` looks up in an index of the key's own type. -/
def getKey (k : Key) (m : Memory) (f : Locals) : Except Fault NativeKey :=
  match k.type with
  | .short => do
    let (x, _, _) ← shortKey k m f
    return .short x
  | .int => do
    let (x, _, _) ← intKey k m f
    return .int x
  | .varchar => do
    let (x, _, _) ← varcharKey k m f
    return .varchar x
  | .other _ => .error .badCast

/-- The `n` bytes that a pointer leads to. -/
def bytesAt (u : Keyval) (m : Memory) (n : Nat) : Ptr → Except Fault (List UInt8)
  | .keyval offset => .ok ((u.toList.drop offset).take n)
  | .block a => do
    let bytes ← orFault .freed (m.get a)
    orFault .uninitialized ((bytes.take n).mapM id)

/-- `*((short *) mykey)`, `*((int *) mykey)` or `string((char *) mykey)`. -/
def keyAt (type : KeyType) (u : Keyval) (m : Memory) (p : Ptr) : Except Fault NativeKey :=
  match type with
  | .short => do
    match ← bytesAt u m 2 p with
    | [b0, b1] => return .short (b0.toUInt16 ||| b1.toUInt16 <<< 8).toInt16
    | _ => throw .outOfRange
  | .int => do
    match ← bytesAt u m 4 p with
    | [b0, b1, b2, b3] => return .int (b0.toUInt32 ||| b1.toUInt32 <<< 8 |||
        b2.toUInt32 <<< 16 ||| b3.toUInt32 <<< 24).toInt32
    | _ => throw .outOfRange
  | .varchar => do
    let s ← readString u m (some p)
    return .varchar s
  | .other _ => throw .badCast

/-- `get` looks up `x`, whatever the memory and its locals hold. -/
def GetKeyIs (k : Key) (x : NativeKey) : Prop := ∀ m f, getKey k m f = .ok x

/-- `insertRecord` goes on with a pointer to `x`. -/
def InsertKeyIs (k : Key) (x : NativeKey) : Prop :=
  ∀ m, ∃ p k' m', insertRecordKey k m = .ok (.ok p, k', m') ∧ keyAt k.type k'.keyval m' p = .ok x

variable {k : Key} {m : Memory}

theorem setKeyData_short (hk : k.type = .short) (key : Option Ptr) :
    setKeyData k key m = .ok (1, { k with keyval := k.keyval.setShortData },
      m.alloc (List.replicate 2 none)) := by
  simp [setKeyData, pSetKeyDataFromKey, hk]

theorem setKeyData_int (hk : k.type = .int) (key : Option Ptr) :
    setKeyData k key m = .ok (2, { k with keyval := k.keyval.setIntData },
      m.alloc (List.replicate 4 none)) := by
  simp [setKeyData, pSetKeyDataFromKey, hk]

/-- Nothing was written to a new local. -/
theorem get_local (b b' : List (Option UInt8)) : ((m.alloc b).alloc b').get m.size = some b := by
  rw [Store.get_alloc, Store.get_alloc]
  simp

/-- The branch looks up what its local held. -/
theorem shortKey_eq (hk : k.type = .short) (f : Locals) :
    shortKey k m f = .ok (f.short, { k with keyval := k.keyval.setShortData },
      (m.alloc (List.replicate 2 none)).alloc (List.replicate 2 none)) := by
  simp only [shortKey, setKeyData_short hk, ok_bind, readShort, get_local]
  rfl

theorem intKey_eq (hk : k.type = .int) (f : Locals) :
    intKey k m f = .ok (f.int, { k with keyval := k.keyval.setIntData },
      (m.alloc (List.replicate 4 none)).alloc (List.replicate 4 none)) := by
  simp only [intKey, setKeyData_int hk, ok_bind, readInt, get_local]
  rfl

/-- A null pointer in the local is passed on and read. -/
theorem varcharKey_null {f : Locals} (hf : f.varchar = none) :
    ∃ e, varcharKey k m f = .error e := by
  cases h : setKeyData k none m with
  | error e => exact ⟨e, by simp [varcharKey, hf, h]⟩
  | ok r => exact ⟨.nullDeref, by simp [varcharKey, hf, h, readString]⟩

theorem insertRecordKey_failure {r : Except ErrCode Ptr × Key × Memory}
    (h : insertRecordKey k m = .ok r) : r.1 = .error .failure := by
  cases hset : setKeyData k none m with
  | error e =>
    simp only [insertRecordKey, hset] at h
    cases h
  | ok r' =>
    simp only [insertRecordKey, hset, ok_bind] at h
    cases h
    rfl

theorem not_insertKeyIs (k : Key) (x : NativeKey) : ¬InsertKeyIs k x := by
  intro h
  obtain ⟨p, k', m', e, -⟩ := h .init
  exact absurd (insertRecordKey_failure e) nofun

theorem not_getKeyIs (k : Key) (x : NativeKey) : ¬GetKeyIs k x := by
  intro h
  -- two runs that differ in what the locals held before
  have h0 := h .init ⟨0, 0, none⟩
  have h1 := h .init ⟨1, 1, none⟩
  cases hk : k.type with
  | short =>
    simp only [getKey, hk, shortKey_eq hk, ok_bind] at h0 h1
    exact absurd (Except.ok.inj (h0.trans h1.symm)) (by decide)
  | int =>
    simp only [getKey, hk, intKey_eq hk, ok_bind] at h0 h1
    exact absurd (Except.ok.inj (h0.trans h1.symm)) (by decide)
  | varchar =>
    obtain ⟨e, he⟩ := varcharKey_null (k := k) (m := .init) (f := ⟨0, 0, none⟩) rfl
    simp only [getKey, hk, he] at h0
    exact absurd h0 nofun
  | other v =>
    simp only [getKey, hk] at h0
    exact absurd h0 nofun

/-- No key has a converted key that `get` looks up or that `insertRecord` goes on with, and
`insertRecord` returns `FAILURE` before its switch if it returns. -/
theorem never_converted (k : Key) (x : NativeKey) : ¬GetKeyIs k x ∧ ¬InsertKeyIs k x ∧
    ∀ m r, insertRecordKey k m = .ok r → r.1 = .error .failure :=
  ⟨not_getKeyIs k x, not_insertKeyIs k x, fun _ _ => insertRecordKey_failure⟩

/-- The key 7 of type `SHORT`. -/
def shortSeven : Key := ⟨.short, (Vector.replicate 136 0).setIfInBounds 0 7⟩

theorem not_converted_seven : ¬∃ x, GetKeyIs shortSeven x ∧ InsertKeyIs shortSeven x := by
  rintro ⟨x, hget, -⟩
  exact not_getKeyIs shortSeven x hget

end NwtBTree
