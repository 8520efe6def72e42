import NwtBTree.Machine.Run

/-!
# What holds at every step of a run

A condition on a step may speak of the history, the operations performed so far
with their answers. `always_iff` exchanges two conditions along a run, given an
invariant under which they agree.
-/

namespace NwtBTree

variable {S Op Out E : Type}

/-- At every operation of the run `good` holds of the history, the state and the operation; `h` is
what happened before the run. -/
def Always (step : S → Op → Except E (Out × S)) (good : List (Op × Out) → S → Op → Prop) :
    List (Op × Out) → S → List Op → Prop
  | _, _, [] => True
  | h, s, op :: ops => good h s op ∧
      ∀ o s', step s op = .ok (o, s') → Always step good (h ++ [(op, o)]) s' ops

variable {step : S → Op → Except E (Out × S)} {good cond use : List (Op × Out) → S → Op → Prop}
  {Inv : List (Op × Out) → S → Prop} {h : List (Op × Out)} {s s' : S} {ops ops' : List Op}
  {os : List Out}

namespace Always

instance decidable [∀ h s op, Decidable (good h s op)] :
    ∀ h s ops, Decidable (Always step good h s ops)
  | _, _, [] => isTrue trivial
  | h, s, op :: ops =>
    match e : step s op with
    | .error _ => decidable_of_iff (good h s op)
        ⟨fun hg => ⟨hg, fun o s' e' => by simp [e] at e'⟩, fun ha => ha.1⟩
    | .ok (o, s') =>
      have := Always.decidable (h ++ [(op, o)]) s' ops
      decidable_of_iff (good h s op ∧ Always step good (h ++ [(op, o)]) s' ops)
        ⟨fun ha => ⟨ha.1, fun o₁ s₁ e' => by cases e.symm.trans e'; exact ha.2⟩,
          fun ha => ⟨ha.1, ha.2 o s' e⟩⟩

/-- What holds along a run holds along its continuation. -/
theorem append (ha : Always step good h s (ops ++ ops')) : Always step good h s ops ∧
    ∀ os s', run step s ops = .ok (os, s') → Always step good (h ++ ops.zip os) s' ops' := by
  induction ops generalizing h s with
  | nil =>
    refine ⟨trivial, fun os s' hrun => ?_⟩
    cases hrun
    simpa using ha
  | cons op ops ih =>
    obtain ⟨hg, hrest⟩ := ha
    refine ⟨⟨hg, fun o s' e => (ih (hrest o s' e)).1⟩, fun os s' hrun => ?_⟩
    obtain ⟨o, s1, os1, e, hrun', rfl⟩ := run_cons_inv hrun
    simpa using (ih (hrest o s1 e)).2 os1 s' hrun'

/-- Where every step can be performed the whole run can. -/
theorem runs (hok : ∀ h s op, good h s op → ∃ o s', step s op = .ok (o, s'))
    (ha : Always step good h s ops) : ∃ os s', run step s ops = .ok (os, s') := by
  induction ops generalizing h s with
  | nil => exact ⟨[], s, rfl⟩
  | cons op ops ih =>
    obtain ⟨o, s1, e⟩ := hok _ _ _ ha.1
    obtain ⟨os, s2, hrun⟩ := ih (ha.2 o s1 e)
    exact ⟨o :: os, s2, run_cons e hrun⟩

/-- A condition that follows from an invariant and the use that is made of the machine. -/
theorem of_invariant (h0 : Inv h s)
    (hstep : ∀ {h s op o s'}, Inv h s → use h s op → step s op = .ok (o, s') →
      Inv (h ++ [(op, o)]) s')
    (hgood : ∀ {h s op}, Inv h s → use h s op → good h s op) (ha : Always step use h s ops) :
    Always step good h s ops := by
  induction ops generalizing h s with
  | nil => trivial
  | cons op ops ih =>
    exact ⟨hgood h0 ha.1, fun o s' e => ih (hstep h0 ha.1 e) (ha.2 o s' e)⟩

end Always

/-- Two conditions that agree wherever an invariant holds agree along every run, if the second
one keeps the invariant. -/
theorem always_iff (h0 : Inv h s)
    (hstep : ∀ {h s op o s'}, Inv h s → use h s op → cond h s op → step s op = .ok (o, s') →
      Inv (h ++ [(op, o)]) s')
    (hiff : ∀ {h s op}, Inv h s → use h s op → (good h s op ↔ cond h s op))
    (ha : Always step use h s ops) : Always step good h s ops ↔ Always step cond h s ops := by
  induction ops generalizing h s with
  | nil => exact Iff.rfl
  | cons op ops ih =>
    refine (and_congr_left' (hiff h0 ha.1)).trans (and_congr_right fun hc => ?_)
    exact forall_congr' fun o => forall_congr' fun s' => forall_congr' fun e =>
      ih (hstep h0 ha.1 hc e) (ha.2 o s' e)

end NwtBTree
