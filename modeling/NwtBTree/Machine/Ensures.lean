import Mathlib.Order.Defs.Unbundled

/-!
# What the results of a computation satisfy

Rules for computations that may fail. Nothing is said about a failure, so a computation
that always fails ensures everything; where a state is passed on, a relation that is
transitive holds between the first and the last one.
-/

namespace NwtBTree

variable {E α β S : Type}

/-- Every result of `x` satisfies `Q`. -/
def Ensures (x : Except E α) (Q : α → Prop) : Prop := ∀ a, x = .ok a → Q a

namespace Ensures

variable {x y : Except E α} {f : α → Except E β} {Q Q' : α → Prop} {R : β → Prop}

theorem ok {a : α} (h : Q a) : Ensures (.ok a : Except E α) Q := by
  rintro _ ⟨⟩
  exact h

theorem pure {a : α} (h : Q a) : Ensures (Pure.pure a : Except E α) Q := ok h

theorem error {e : E} : Ensures (.error e : Except E α) Q := nofun

theorem throw {e : E} : Ensures (MonadExcept.throw e : Except E α) Q := error

theorem mono (h : Ensures x Q) (hQ : ∀ a, Q a → Q' a) : Ensures x Q' :=
  fun a ha => hQ a (h a ha)

/-- What the first part returned is known in the second one. -/
theorem bind (h : ∀ a, x = .ok a → Ensures (f a) R) : Ensures (x >>= f) R := by
  intro b hb
  cases hx : x with
  | error e =>
    rw [hx] at hb
    cases hb
  | ok a =>
    rw [hx] at hb
    exact h a hx b hb

theorem seq (hx : Ensures x Q) (hf : ∀ a, Q a → Ensures (f a) R) : Ensures (x >>= f) R :=
  bind fun a ha => hf a (hx a ha)

theorem ite {p : Prop} [Decidable p] (hx : p → Ensures x Q) (hy : ¬p → Ensures y Q) :
    Ensures (if p then x else y) Q := by
  by_cases hp : p
  · rw [if_pos hp]
    exact hx hp
  · rw [if_neg hp]
    exact hy hp

section Related

variable {r : S → S → Prop} [IsTrans S r] {s s' : S} {p : α → S} {q : β → S}

theorem step (hx : Ensures x fun a => r s' (p a)) (h : r s s') : Ensures x fun a => r s (p a) :=
  hx.mono fun _ ha => IsTrans.trans _ _ _ h ha

/-- States are related along the way. -/
theorem link (hx : Ensures x fun a => r s (p a))
    (hf : ∀ a, r s (p a) → Ensures (f a) fun b => r (p a) (q b)) :
    Ensures (x >>= f) fun b => r s (q b) :=
  hx.seq fun a ha => (hf a ha).step ha

theorem trans (hx : Ensures x fun a => r s (p a)) (hf : ∀ a, Ensures (f a) fun b => r (p a) (q b)) :
    Ensures (x >>= f) fun b => r s (q b) :=
  hx.link fun a _ => hf a

end Related

end Ensures

end NwtBTree
