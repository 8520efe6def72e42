import Mathlib.Data.List.Chain

/-!
# Repeating a step that may fail

A list of states in which each state steps to the next one says where the
repeated step arrives, and a state that steps to itself is where it stays.
-/

namespace NwtBTree

variable {S E : Type} {step : S → Except E S}

/-- Perform the step `n` times. -/
def times (step : S → Except E S) : Nat → S → Except E S
  | 0, s => .ok s
  | n + 1, s => do times step n (← step s)

@[simp] theorem times_zero (s : S) : times step 0 s = .ok s := rfl

theorem times_succ {s s' : S} (h : step s = .ok s') (n : Nat) :
    times step (n + 1) s = times step n s' := by
  rw [times, h]
  rfl

/-- A state that steps to itself is never left. -/
theorem times_fixed {s : S} (h : step s = .ok s) (n : Nat) : times step n s = .ok s := by
  induction n with
  | zero => rfl
  | succ n ih => rw [times_succ h, ih]

/-- Along a list of steps, `n` steps from the first state lead to the one at index `n`. -/
theorem times_chain {L : List S} (h : L.IsChain fun a b => step a = .ok b) {s b : S} {n : Nat}
    (hs : L[0]? = some s) (hb : L[n]? = some b) : times step n s = .ok b := by
  induction n generalizing L s with
  | zero =>
    obtain rfl : s = b := Option.some.inj (hs.symm.trans hb)
    rfl
  | succ n ih =>
    cases L with
    | nil => simp at hs
    | cons a L =>
      obtain rfl : a = s := by simpa using hs
      cases L with
      | nil => simp at hb
      | cons c L =>
        obtain ⟨hac, hc⟩ := List.isChain_cons_cons.mp h
        rw [times_succ hac]
        exact ih hc rfl (by simpa using hb)

/-- After the last state of the list the repetition stays, if that state steps to itself. -/
theorem times_past {L : List S} {z : S} (h : (L ++ [z]).IsChain fun a b => step a = .ok b)
    (hz : step z = .ok z) {s : S} (hs : (L ++ [z])[0]? = some s) {n : Nat} (hn : L.length ≤ n) :
    times step n s = .ok z := by
  induction L generalizing n s with
  | nil =>
    obtain rfl : z = s := by simpa using hs
    exact times_fixed hz n
  | cons a L ih =>
    obtain rfl : a = s := by simpa using hs
    obtain ⟨n, rfl⟩ : ∃ m, n = m + 1 := ⟨n - 1, by simp at hn; omega⟩
    have hlen : L.length ≤ n := by simpa using hn
    cases L with
    | nil =>
      rw [times_succ (List.isChain_cons_cons.mp h).1]
      exact times_fixed hz n
    | cons c L =>
      obtain ⟨hac, hc⟩ := List.isChain_cons_cons.mp h
      rw [times_succ hac]
      exact ih hc rfl hlen

end NwtBTree
