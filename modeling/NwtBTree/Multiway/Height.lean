import Mathlib.Algebra.Order.BigOperators.Group.List
import Mathlib.Algebra.Order.Group.Nat
import NwtBTree.Multiway.Search
import NwtBTree.Multiway.Shape

/-!
# Height and number of leaves

Bounds on the number of children of every branch bound the number of leaves by
powers with the height as exponent.
-/

namespace NwtBTree

variable {A K L T α : Type} {p : Nat → Prop} {b n : Nat}

section Sum

variable {f : T → List α} {cs : List T}

theorem mul_le_length_flatMap (h : ∀ c ∈ cs, b ≤ (f c).length) :
    cs.length * b ≤ (cs.flatMap f).length := by
  have := List.card_nsmul_le_sum (cs.map fun c => (f c).length) b (by simpa using h)
  simpa [List.length_flatMap] using this

theorem length_flatMap_le_mul (h : ∀ c ∈ cs, (f c).length ≤ b) :
    (cs.flatMap f).length ≤ cs.length * b := by
  have := List.sum_le_card_nsmul (cs.map fun c => (f c).length) b (by simpa using h)
  simpa [List.length_flatMap] using this

end Sum

namespace Tree

variable {t : Tree A K L n}

/-- Every branch has at least `b` children. -/
theorem Each.pow_le_tips (hb : ∀ {i}, p i → b ≤ i + 1) (h : t.Each p) (hp : t.Paired) :
    b ^ n ≤ (tips t.inorder).length := by
  induction n with
  | zero => simp [inorder]
  | succ n ih =>
    obtain ⟨a, ks, cs⟩ := t
    obtain ⟨hks, hcs⟩ := h
    obtain ⟨-, hlen, hpcs⟩ := hp
    rw [inorder_node, tips_interleave _ hlen]
    calc b ^ (n + 1) = b * b ^ n := Nat.pow_succ'
      _ ≤ cs.length * b ^ n := Nat.mul_le_mul_right _ (hlen ▸ hb hks)
      _ ≤ _ := mul_le_length_flatMap fun c hc => ih (hcs c hc) (hpcs c hc)

/-- The root has two children. -/
theorem Bushy.pow_le_tips {t : Tree A K L (n + 1)} (hb : ∀ {i}, p i → b ≤ i + 1) (h : t.Bushy p)
    (hp : t.Paired) : 2 * b ^ n ≤ (tips t.inorder).length := by
  obtain ⟨a, ks, cs⟩ := t
  obtain ⟨hpos, hlen, hpcs⟩ := hp
  rw [inorder_node, tips_interleave _ hlen]
  calc 2 * b ^ n ≤ cs.length * b ^ n :=
        Nat.mul_le_mul_right _ (hlen ▸ Nat.succ_le_succ hpos)
    _ ≤ _ := mul_le_length_flatMap fun c hc => (h c hc).pow_le_tips hb (hpcs c hc)

/-- Every branch has at most `b` children. -/
theorem Each.tips_le_pow (hb : ∀ {i}, p i → i + 1 ≤ b) (h : t.Each p) (hp : t.Paired) :
    (tips t.inorder).length ≤ b ^ n := by
  induction n with
  | zero => simp [inorder]
  | succ n ih =>
    obtain ⟨a, ks, cs⟩ := t
    obtain ⟨hks, hcs⟩ := h
    obtain ⟨-, hlen, hpcs⟩ := hp
    rw [inorder_node, tips_interleave _ hlen]
    calc _ ≤ cs.length * b ^ n := length_flatMap_le_mul fun c hc => ih (hcs c hc) (hpcs c hc)
      _ ≤ b * b ^ n := Nat.mul_le_mul_right _ (hlen ▸ hb hks)
      _ = b ^ (n + 1) := Nat.pow_succ'.symm

end Tree

end NwtBTree
