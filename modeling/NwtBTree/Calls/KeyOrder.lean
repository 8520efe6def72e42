import NwtBTree.Memory.BigEndian
import NwtBTree.Source.Key

/-!
# The converted key keeps the order

What `p_setKeyDataFromKey` writes behind an integer is the integer moved up by half
the range, most significant byte first.
-/

namespace NwtBTree

/-- The `n` bytes at `charkey + offset`. -/
def Keyval.bytes (u : Keyval) (offset n : Nat) : List UInt8 := (u.charkey.drop offset).take n

/-- The call turns the key `k` into `k'`, whatever its other argument and the memory are. -/
def Converted (k k' : Key) : Prop :=
  ∀ key m, ∃ r p m', pSetKeyDataFromKey k key m = .ok (r, p, k', m')

/-- The bytes written for two keys of one type are ordered as their plain values are, and
these are still there. -/
structure OrderKept {I : Type} [LT I] (type : KeyType) (plain : Keyval → I) (offset n : Nat)
    (u₁ u₂ v₁ v₂ : Keyval) : Prop where
  left : Converted ⟨type, u₁⟩ ⟨type, v₁⟩
  right : Converted ⟨type, u₂⟩ ⟨type, v₂⟩
  lt_iff : v₁.bytes offset n < v₂.bytes offset n ↔ plain u₁ < plain u₂
  eq_iff : v₁.bytes offset n = v₂.bytes offset n ↔ plain u₁ = plain u₂
  plain_left : plain v₁ = plain u₁
  plain_right : plain v₂ = plain u₂

/-! ## Single bytes -/

/-- A byte that is masked and shifted down. -/
theorem masked_byte (n k : Nat) : (n &&& 255 <<< k) >>> k % 256 = n / 2 ^ k % 256 := by
  rw [Nat.shiftRight_and_distrib, Nat.shiftLeft_shiftRight, Nat.and_two_pow_sub_one_eq_mod _ 8,
    Nat.shiftRight_eq_div_pow]
  exact Nat.mod_mod _ _

theorem byte_uint32 (i : UInt32) {m s : UInt32} {k : Nat} (hs : s.toNat = k)
    (hm : m.toNat = 255 <<< k) (hk : k < 32) :
    ((i &&& m) >>> s).toUInt8 = UInt8.ofNat (i.toNat / 2 ^ k) := by
  rw [← UInt8.toNat_inj, UInt32.toNat_toUInt8, UInt32.toNat_shiftRight, UInt32.toNat_and, hs, hm,
    Nat.mod_eq_of_lt hk]
  exact masked_byte _ _

theorem byte_uint64 (i : UInt64) {m s : UInt64} {k : Nat} (hs : s.toNat = k)
    (hm : m.toNat = 255 <<< k) (hk : k < 64) :
    ((i &&& m) >>> s).toUInt8 = UInt8.ofNat (i.toNat / 2 ^ k) := by
  rw [← UInt8.toNat_inj, UInt64.toNat_toUInt8, UInt64.toNat_shiftRight, UInt64.toNat_and, hs, hm,
    Nat.mod_eq_of_lt hk]
  exact masked_byte _ _

/-- A signed value moved up by half the range. -/
theorem int32_mod (x : Int32) :
    (x.toUInt32.toNat + 2147483648) % 256 ^ 4 = (x.toInt + 2147483648).toNat := by
  have hlt := x.toUInt32.toNat_lt
  have hint : x.toInt = x.toUInt32.toBitVec.toInt := rfl
  rw [BitVec.toInt_eq_toNat_cond, UInt32.toNat_toBitVec] at hint
  split at hint <;> omega

theorem int64_mod (x : Int64) :
    (x.toUInt64.toNat + 9223372036854775808) % 256 ^ 8 = (x.toInt + 9223372036854775808).toNat := by
  have hlt := x.toUInt64.toNat_lt
  have hint : x.toInt = x.toUInt64.toBitVec.toInt := rfl
  rw [BitVec.toInt_eq_toNat_cond, UInt64.toNat_toBitVec] at hint
  split at hint <;> omega

/-! ## The two encodings -/

namespace Keyval

variable {u : Keyval}

@[simp] theorem bytes_zero (offset : Nat) : u.bytes offset 0 = [] := by
  simp [bytes]

theorem bytes_succ {offset : Nat} (h : offset < 129) (n : Nat) :
    u.bytes offset (n + 1) = u[offset] :: u.bytes (offset + 1) n := by
  have hlen : offset < u.charkey.length := by simp [charkey, h]
  rw [bytes, List.drop_eq_getElem_cons hlen, List.take_succ_cons]
  simp [charkey, bytes]

theorem setShortData_bytes (u : Keyval) :
    u.setShortData.bytes 4 4 = bigEndian 4 (u.shortkey.toInt + 2147483648).toNat := by
  rw [← int32_mod, bigEndian_mod]
  have hflip := bigEndian_flip 3 u.shortkey.toUInt32.toNat
  have hlast : (u.shortkey.toUInt32 &&& 0xFF).toUInt8 =
      UInt8.ofNat (u.shortkey.toUInt32.toNat / 2 ^ 0) := by
    rw [← UInt32.shiftRight_zero (a := u.shortkey.toUInt32 &&& 0xFF)]
    exact byte_uint32 _ rfl rfl (by decide)
  rw [bytes_succ (by decide) 3, bytes_succ (by decide) 2, bytes_succ (by decide) 1,
    bytes_succ (by decide) 0, bytes_zero]
  simp only [setShortData, Vector.getElem_set, reduceIte, Nat.reduceEqDiff]
  rw [hlast, byte_uint32 (k := 24) _ rfl rfl (by decide),
    byte_uint32 (k := 16) _ rfl rfl (by decide), byte_uint32 (k := 8) _ rfl rfl (by decide)]
  exact hflip

theorem setIntData_bytes (u : Keyval) :
    u.setIntData.bytes 8 8 = bigEndian 8 (u.intkey.toInt + 9223372036854775808).toNat := by
  rw [← int64_mod, bigEndian_mod]
  have hflip := bigEndian_flip 7 u.intkey.toUInt64.toNat
  have hlast : (u.intkey.toUInt64 &&& 0xFF).toUInt8 =
      UInt8.ofNat (u.intkey.toUInt64.toNat / 2 ^ 0) := by
    rw [← UInt64.shiftRight_zero (a := u.intkey.toUInt64 &&& 0xFF)]
    exact byte_uint64 _ rfl rfl (by decide)
  rw [bytes_succ (by decide) 7, bytes_succ (by decide) 6, bytes_succ (by decide) 5,
    bytes_succ (by decide) 4, bytes_succ (by decide) 3, bytes_succ (by decide) 2,
    bytes_succ (by decide) 1, bytes_succ (by decide) 0, bytes_zero]
  simp only [setIntData, Vector.getElem_set, reduceIte, Nat.reduceEqDiff]
  rw [hlast, byte_uint64 (k := 56) _ rfl rfl (by decide),
    byte_uint64 (k := 48) _ rfl rfl (by decide), byte_uint64 (k := 40) _ rfl rfl (by decide),
    byte_uint64 (k := 32) _ rfl rfl (by decide), byte_uint64 (k := 24) _ rfl rfl (by decide),
    byte_uint64 (k := 16) _ rfl rfl (by decide), byte_uint64 (k := 8) _ rfl rfl (by decide)]
  exact hflip

theorem shortkey_setShortData (u : Keyval) : u.setShortData.shortkey = u.shortkey := by
  simp only [shortkey, setShortData, Vector.getElem_set, reduceIte, Nat.reduceEqDiff]

theorem intkey_setIntData (u : Keyval) : u.setIntData.intkey = u.intkey := by
  simp only [intkey, setIntData, Vector.getElem_set, reduceIte, Nat.reduceEqDiff]

end Keyval

/-! ## The order of the bytes -/

theorem orderKept_short (u₁ u₂ : Keyval) :
    OrderKept .short Keyval.shortkey 4 4 u₁ u₂ u₁.setShortData u₂.setShortData := by
  have hlo₁ := u₁.shortkey.le_toInt
  have hlo₂ := u₂.shortkey.le_toInt
  have h₁ : (u₁.shortkey.toInt + 2147483648).toNat < 256 ^ 4 := by
    have := u₁.shortkey.toInt_lt
    omega
  have h₂ : (u₂.shortkey.toInt + 2147483648).toNat < 256 ^ 4 := by
    have := u₂.shortkey.toInt_lt
    omega
  constructor
  case left => exact fun key m => ⟨_, _, _, rfl⟩
  case right => exact fun key m => ⟨_, _, _, rfl⟩
  case lt_iff =>
    rw [u₁.setShortData_bytes, u₂.setShortData_bytes, bigEndian_lt_iff h₁ h₂,
      Int32.lt_iff_toInt_lt]
    omega
  case eq_iff =>
    rw [u₁.setShortData_bytes, u₂.setShortData_bytes, bigEndian_inj h₁ h₂, ← Int32.toInt_inj]
    omega
  case plain_left => exact u₁.shortkey_setShortData
  case plain_right => exact u₂.shortkey_setShortData

theorem orderKept_int (u₁ u₂ : Keyval) :
    OrderKept .int Keyval.intkey 8 8 u₁ u₂ u₁.setIntData u₂.setIntData := by
  have hlo₁ := u₁.intkey.le_toInt
  have hlo₂ := u₂.intkey.le_toInt
  have h₁ : (u₁.intkey.toInt + 9223372036854775808).toNat < 256 ^ 8 := by
    have := u₁.intkey.toInt_lt
    omega
  have h₂ : (u₂.intkey.toInt + 9223372036854775808).toNat < 256 ^ 8 := by
    have := u₂.intkey.toInt_lt
    omega
  constructor
  case left => exact fun key m => ⟨_, _, _, rfl⟩
  case right => exact fun key m => ⟨_, _, _, rfl⟩
  case lt_iff =>
    rw [u₁.setIntData_bytes, u₂.setIntData_bytes, bigEndian_lt_iff h₁ h₂, Int64.lt_iff_toInt_lt]
    omega
  case eq_iff =>
    rw [u₁.setIntData_bytes, u₂.setIntData_bytes, bigEndian_inj h₁ h₂, ← Int64.toInt_inj]
    omega
  case plain_left => exact u₁.intkey_setIntData
  case plain_right => exact u₂.intkey_setIntData

/-- Two keys of one integer type, and the bytes that the call writes behind them. -/
theorem encoding_ordered (u₁ u₂ : Keyval) :
    (∃ v₁ v₂, OrderKept .short Keyval.shortkey 4 4 u₁ u₂ v₁ v₂) ∧
      ∃ v₁ v₂, OrderKept .int Keyval.intkey 8 8 u₁ u₂ v₁ v₂ :=
  ⟨⟨_, _, orderKept_short u₁ u₂⟩, ⟨_, _, orderKept_int u₁ u₂⟩⟩

end NwtBTree
