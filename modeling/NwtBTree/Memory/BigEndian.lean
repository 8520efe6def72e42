import Mathlib.Algebra.Group.Nat.Defs
import Mathlib.Data.List.Basic

/-!
# Big-endian byte strings

A number of `w` bytes, most significant byte first. Byte strings of one length are
compared byte by byte as the numbers are.
-/

namespace NwtBTree

/-- The last `w` bytes of `n`, most significant byte first. -/
def bigEndian : Nat → Nat → List UInt8
  | 0, _ => []
  | w + 1, n => UInt8.ofNat (n / 256 ^ w) :: bigEndian w n

@[simp] theorem bigEndian_zero (n : Nat) : bigEndian 0 n = [] := rfl

theorem bigEndian_succ (w n : Nat) :
    bigEndian (w + 1) n = UInt8.ofNat (n / 256 ^ w) :: bigEndian w n := rfl

@[simp] theorem length_bigEndian (w n : Nat) : (bigEndian w n).length = w := by
  induction w with
  | zero => rfl
  | succ w ih => rw [bigEndian_succ, List.length_cons, ih]

/-- Bytes to the left of the string do not matter. -/
theorem bigEndian_add_mul (w n c : Nat) : bigEndian w (n + 256 ^ w * c) = bigEndian w n := by
  induction w generalizing c with
  | zero => rfl
  | succ w ih =>
    have hpow : 256 ^ (w + 1) * c = 256 ^ w * (256 * c) := by
      rw [Nat.pow_succ, Nat.mul_assoc]
    have hpos : 0 < 256 ^ w := Nat.pow_pos (by decide)
    rw [bigEndian_succ, bigEndian_succ, hpow, ih, Nat.add_mul_div_left _ _ hpos]
    congr 1
    rw [← UInt8.toNat_inj]
    simp

theorem bigEndian_mod (w n : Nat) : bigEndian w (n % 256 ^ w) = bigEndian w n := by
  rw [← bigEndian_add_mul w (n % 256 ^ w) (n / 256 ^ w), Nat.mod_add_div]

/-- The leading bit of a byte. -/
theorem flip_byte {b : Nat} (h : b < 256) : b ^^^ 128 = (b + 128) % 256 := by
  have hall : ∀ b : Fin 256, b.val ^^^ 128 = (b.val + 128) % 256 := by decide +kernel
  exact hall ⟨b, h⟩

/-- To flip the leading bit is to add half of the range. -/
theorem bigEndian_flip (w n : Nat) :
    (UInt8.ofNat (n / 256 ^ w) ^^^ 128) :: bigEndian w n =
      bigEndian (w + 1) (n + 256 ^ w * 128) := by
  have hpos : 0 < 256 ^ w := Nat.pow_pos (by decide)
  rw [bigEndian_succ, bigEndian_add_mul, Nat.add_mul_div_left _ _ hpos]
  congr 1
  rw [← UInt8.toNat_inj, UInt8.toNat_xor, UInt8.toNat_ofNat', UInt8.toNat_ofNat']
  exact (flip_byte (Nat.mod_lt _ (by decide))).trans (by omega)

theorem ofNat_lt_iff {a b : Nat} (ha : a < 256) (hb : b < 256) :
    UInt8.ofNat a < UInt8.ofNat b ↔ a < b := by
  rw [UInt8.lt_iff_toNat_lt]
  simp [Nat.mod_eq_of_lt ha, Nat.mod_eq_of_lt hb]

theorem ofNat_inj_iff {a b : Nat} (ha : a < 256) (hb : b < 256) :
    UInt8.ofNat a = UInt8.ofNat b ↔ a = b := by
  rw [← UInt8.toNat_inj]
  simp [Nat.mod_eq_of_lt ha, Nat.mod_eq_of_lt hb]

/-- The numbers are compared by their leading bytes first. -/
theorem lt_iff_div_mod (m n b : Nat) :
    m < n ↔ m / b < n / b ∨ m / b = n / b ∧ m % b < n % b := by
  have hm := Nat.div_add_mod m b
  have hn := Nat.div_add_mod n b
  constructor
  · intro h
    rcases Nat.lt_or_eq_of_le (Nat.div_le_div_right (c := b) (Nat.le_of_lt h)) with hlt | heq
    · exact .inl hlt
    · rw [heq] at hm
      exact .inr ⟨heq, by omega⟩
  · rintro (h | ⟨h, hlt⟩)
    · exact Nat.lt_of_not_le fun hge => absurd (Nat.div_le_div_right hge) (Nat.not_le.mpr h)
    · rw [h] at hm
      omega

theorem bigEndian_lt_iff {w m n : Nat} (hm : m < 256 ^ w) (hn : n < 256 ^ w) :
    bigEndian w m < bigEndian w n ↔ m < n := by
  induction w generalizing m n with
  | zero =>
    have : m = n := by simp at hm hn; omega
    simp [this]
  | succ w ih =>
    have hpos : 0 < 256 ^ w := Nat.pow_pos (by decide)
    have hdm : m / 256 ^ w < 256 := Nat.div_lt_of_lt_mul (by rwa [← Nat.pow_succ])
    have hdn : n / 256 ^ w < 256 := Nat.div_lt_of_lt_mul (by rwa [← Nat.pow_succ])
    have hrest := ih (Nat.mod_lt m hpos) (Nat.mod_lt n hpos)
    rw [bigEndian_mod, bigEndian_mod] at hrest
    rw [bigEndian_succ, bigEndian_succ, List.cons_lt_cons_iff, ofNat_lt_iff hdm hdn,
      ofNat_inj_iff hdm hdn, hrest, ← lt_iff_div_mod]

theorem bigEndian_inj {w m n : Nat} (hm : m < 256 ^ w) (hn : n < 256 ^ w) :
    bigEndian w m = bigEndian w n ↔ m = n := by
  constructor
  · intro h
    rcases Nat.lt_trichotomy m n with hlt | heq | hgt
    · exact absurd ((bigEndian_lt_iff hm hn).mpr hlt) (h ▸ List.lt_irrefl _)
    · exact heq
    · exact absurd ((bigEndian_lt_iff hn hm).mpr hgt) (h ▸ List.lt_irrefl _)
  · rintro rfl
    rfl

end NwtBTree
