import Mathlib.Data.List.Induction

/-!
# Runs of a machine that may fail

A machine is a step function into `Except`. A run is compared with an abstract
state that is advanced by a total function: `run_sim` turns one lemma about a
step into the statement about runs, for steps that meet a condition on the
abstract state, the state and the operation.
-/

namespace NwtBTree

variable {S Op Out E G : Type}

/-- Perform the operations in order and collect the answers. -/
def run (step : S → Op → Except E (Out × S)) : S → List Op → Except E (List Out × S)
  | s, [] => .ok ([], s)
  | s, op :: ops => do
    let (o, s) ← step s op
    let (os, s) ← run step s ops
    return (o :: os, s)

/-- Every step of the run from `s` meets `cond`; `next` advances the abstract state. -/
def Meets (step : S → Op → Except E (Out × S)) (next : G → Op → G) (cond : G → S → Op → Prop) :
    G → S → List Op → Prop
  | _, _, [] => True
  | g, s, op :: ops => cond g s op ∧
      ∀ o s', step s op = .ok (o, s') → Meets step next cond (next g op) s' ops

/-- Every answer is one that `post` allows. -/
def Answers (next : G → Op → G) (post : G → Op → Out → Prop) : G → List Op → List Out → Prop
  | _, [], os => os = []
  | g, op :: ops, os => ∃ o os', os = o :: os' ∧ post g op o ∧ Answers next post (next g op) ops os'

variable {step : S → Op → Except E (Out × S)} {next : G → Op → G} {cond : G → S → Op → Prop}
  {post : G → Op → Out → Prop}

/-- A run can be checked step by step. -/
instance Meets.decidable [∀ g s op, Decidable (cond g s op)] :
    ∀ g s ops, Decidable (Meets step next cond g s ops)
  | _, _, [] => isTrue trivial
  | g, s, op :: ops =>
    match h : step s op with
    | .error e => decidable_of_iff (cond g s op)
        ⟨fun hc => ⟨hc, fun o s' h' => by simp [h] at h'⟩, fun hm => hm.1⟩
    | .ok (o, s') =>
      have := Meets.decidable (next g op) s' ops
      decidable_of_iff (cond g s op ∧ Meets step next cond (next g op) s' ops)
        ⟨fun hm => ⟨hm.1, fun o₁ s₁ h' => by
          obtain ⟨rfl, rfl⟩ := Prod.mk.inj (Except.ok.inj (h.symm.trans h'))
          exact hm.2⟩, fun hm => ⟨hm.1, hm.2 o s' h⟩⟩

@[simp] theorem run_nil (s : S) : run step s [] = .ok ([], s) := rfl

theorem run_cons {s s' s'' : S} {op : Op} {ops : List Op} {o : Out} {os : List Out}
    (h : step s op = .ok (o, s')) (h' : run step s' ops = .ok (os, s'')) :
    run step s (op :: ops) = .ok (o :: os, s'') := by
  rw [run, h]
  show (do let (os, s) ← run step s' ops; return (o :: os, s)) = Except.ok (o :: os, s'')
  rw [h']
  rfl

/-- A run that succeeds starts with a step that does. -/
theorem run_cons_inv {s s'' : S} {op : Op} {ops : List Op} {os : List Out}
    (h : run step s (op :: ops) = .ok (os, s'')) : ∃ o s' os', step s op = .ok (o, s') ∧
      run step s' ops = .ok (os', s'') ∧ os = o :: os' := by
  rw [run] at h
  cases hstep : step s op with
  | error e => rw [hstep] at h; exact absurd h nofun
  | ok p =>
    rw [hstep] at h
    obtain ⟨o, s'⟩ := p
    change (do let (os, s) ← run step s' ops; return (o :: os, s)) = Except.ok (os, s'') at h
    cases hrun : run step s' ops with
    | error e => rw [hrun] at h; exact absurd h nofun
    | ok q =>
      rw [hrun] at h
      obtain ⟨rfl, rfl⟩ := Prod.mk.inj (Except.ok.inj h)
      exact ⟨o, s', q.1, rfl, hrun, rfl⟩

theorem run_append {s s' s'' : S} {ops ops' : List Op} {os os' : List Out}
    (h : run step s ops = .ok (os, s')) (h' : run step s' ops' = .ok (os', s'')) :
    run step s (ops ++ ops') = .ok (os ++ os', s'') := by
  induction ops generalizing s os with
  | nil =>
    obtain ⟨rfl, rfl⟩ := Prod.mk.inj (Except.ok.inj h)
    exact h'
  | cons op ops ih =>
    obtain ⟨o, s1, os1, hstep, hrun, rfl⟩ := run_cons_inv h
    exact run_cons hstep (ih hrun)

/-- One more step at the end of a run. -/
theorem run_concat {s s' s'' : S} {op : Op} {ops : List Op} {o : Out} {os : List Out}
    (h : run step s ops = .ok (os, s')) (h' : step s' op = .ok (o, s'')) :
    run step s (ops ++ [op]) = .ok (os ++ [o], s'') :=
  run_append h (run_cons h' (run_nil s''))

/-- Steps that all give one answer and leave the state as it is. -/
theorem run_fixed {s : S} {o : Out} {ops : List Op} (h : ∀ op ∈ ops, step s op = .ok (o, s)) :
    run step s ops = .ok (List.replicate ops.length o, s) := by
  induction ops with
  | nil => rfl
  | cons op ops ih =>
    have hrest := ih fun x hx => h x (List.mem_cons_of_mem op hx)
    rw [List.length_cons, List.replicate_succ]
    exact run_cons (h op List.mem_cons_self) hrest

/-- The last step of a run. -/
theorem run_concat_inv {s s' s'' : S} {op : Op} {ops : List Op} {os os' : List Out}
    (h : run step s ops = .ok (os, s')) (h' : run step s (ops ++ [op]) = .ok (os', s'')) :
    ∃ o, step s' op = .ok (o, s'') ∧ os' = os ++ [o] := by
  induction ops generalizing s os os' with
  | nil =>
    cases h
    obtain ⟨o, s₁, os₁, e1, e2, rfl⟩ := run_cons_inv h'
    cases e2
    exact ⟨o, e1, rfl⟩
  | cons op' ops ih =>
    obtain ⟨o, s₁, os₁, e1, e2, rfl⟩ := run_cons_inv h
    obtain ⟨o', s₂, os₂, e1', e2', rfl⟩ := run_cons_inv h'
    rw [e1] at e1'
    cases e1'
    obtain ⟨o'', e3, rfl⟩ := ih e2 e2'
    exact ⟨o'', e3, rfl⟩

/-- A run answers every operation. -/
theorem run_length {s s' : S} {ops : List Op} {os : List Out} (h : run step s ops = .ok (os, s')) :
    os.length = ops.length := by
  induction ops generalizing s os with
  | nil =>
    cases h
    rfl
  | cons op ops ih =>
    obtain ⟨o, s1, os1, -, hrun, rfl⟩ := run_cons_inv h
    rw [List.length_cons, List.length_cons, ih hrun]

theorem Meets.of_forall {g : G} {s : S} {ops : List Op} (h : ∀ op ∈ ops, ∀ g s, cond g s op) :
    Meets step next cond g s ops := by
  induction ops generalizing g s with
  | nil => trivial
  | cons op ops ih =>
    exact ⟨h op List.mem_cons_self g s, fun o s' _ =>
      ih fun op' hop => h op' (List.mem_cons_of_mem op hop)⟩

theorem Meets.append {g : G} {s : S} {ops ops' : List Op}
    (h : Meets step next cond g s (ops ++ ops')) : Meets step next cond g s ops ∧
      ∀ os s', run step s ops = .ok (os, s') → Meets step next cond (ops.foldl next g) s' ops' := by
  induction ops generalizing g s with
  | nil =>
    refine ⟨trivial, fun os s' hrun => ?_⟩
    obtain ⟨rfl, rfl⟩ := Prod.mk.inj (Except.ok.inj hrun)
    exact h
  | cons op ops ih =>
    obtain ⟨hc, hrest⟩ := h
    refine ⟨⟨hc, fun o s' hstep => (ih (hrest o s' hstep)).1⟩, fun os s' hrun => ?_⟩
    obtain ⟨o, s1, os1, hstep, hrun', -⟩ := run_cons_inv hrun
    exact (ih (hrest o s1 hstep)).2 os1 s' hrun'

/-- Operations with distinct labels never meet a label that was used. -/
theorem Meets.fresh {A : Type} {f : Op → A} {c : S → Op → Prop} {g : List A} {s : S}
    {ops : List Op} (hnd : (g ++ ops.map f).Nodup)
    (h : Meets step (fun (_ : Unit) _ => ()) (fun _ s op => c s op) () s ops) :
    Meets step (fun g op => g ++ [f op]) (fun g s op => f op ∉ g ∧ c s op) g s ops := by
  induction ops generalizing g s with
  | nil => trivial
  | cons op ops ih =>
    obtain ⟨hc, hrest⟩ := h
    rw [List.map_cons, ← List.singleton_append, ← List.append_assoc] at hnd
    refine ⟨⟨fun hmem => ?_, hc⟩, fun o s' hstep => ih hnd (hrest o s' hstep)⟩
    exact (List.nodup_append.mp (List.nodup_append.mp hnd).1).2.2 _ hmem _ (by simp) rfl

/-- Operations that add increasing labels meet smaller labels only. -/
theorem Meets.ascending {A : Type} [LT A] {f : Op → Option A} {c : S → Op → Prop}
    {g : List A} {s : S}
    {ops : List Op} (hsorted : (g ++ ops.filterMap f).Pairwise (· < ·))
    (h : Meets step (fun (_ : Unit) _ => ()) (fun _ s op => c s op) () s ops) :
    Meets step (fun g op => g ++ (f op).toList)
      (fun g s op => (∀ a ∈ f op, ∀ b ∈ g, b < a) ∧ c s op) g s ops := by
  induction ops generalizing g s with
  | nil => trivial
  | cons op ops ih =>
    obtain ⟨hc, hrest⟩ := h
    have hcons : (op :: ops).filterMap f = (f op).toList ++ ops.filterMap f := by
      cases hf : f op <;> simp [hf]
    rw [hcons, ← List.append_assoc] at hsorted
    refine ⟨⟨fun a ha b hb => ?_, hc⟩, fun o s' hstep => ih hsorted (hrest o s' hstep)⟩
    exact (List.pairwise_append.mp (List.pairwise_append.mp hsorted).1).2.2 b hb a
      (by simpa using ha)

theorem foldl_label {A : Type} {f : Op → A} {g : List A} {ops : List Op} :
    ops.foldl (fun g op => g ++ [f op]) g = g ++ ops.map f := by
  induction ops generalizing g with
  | nil => simp
  | cons op ops ih => simp [ih]

theorem foldl_option {A : Type} {f : Op → Option A} {g : List A} {ops : List Op} :
    ops.foldl (fun g op => g ++ (f op).toList) g = g ++ ops.filterMap f := by
  induction ops generalizing g with
  | nil => simp
  | cons op ops ih => cases hf : f op <;> simp [hf, ih]

/-- Where only one answer is allowed it is given every time. -/
theorem Answers.eq_replicate {a : Out} {g : G} {ops : List Op} {os : List Out}
    (h : Answers next (fun _ _ o => o = a) g ops os) : os = List.replicate ops.length a := by
  induction ops generalizing g os with
  | nil => exact h
  | cons op ops ih =>
    obtain ⟨o, os, rfl, rfl, h⟩ := h
    rw [ih h, List.length_cons, List.replicate_succ]

/-- A relation that every step keeps holds at the end of every run. -/
theorem run_sim {R : G → S → Prop}
    (hstep : ∀ {g s op}, R g s → cond g s op →
      ∃ o s', step s op = .ok (o, s') ∧ post g op o ∧ R (next g op) s')
    {g : G} {s : S} {ops : List Op} (hR : R g s) (hmeets : Meets step next cond g s ops) :
    ∃ os s', run step s ops = .ok (os, s') ∧ Answers next post g ops os ∧
      R (ops.foldl next g) s' := by
  induction ops generalizing g s with
  | nil => exact ⟨[], s, rfl, rfl, hR⟩
  | cons op ops ih =>
    obtain ⟨hcond, hrest⟩ := hmeets
    obtain ⟨o, s1, e1, hpost, hR1⟩ := hstep hR hcond
    obtain ⟨os, s2, e2, hans, hR2⟩ := ih hR1 (hrest o s1 e1)
    exact ⟨o :: os, s2, run_cons e1 e2, ⟨o, os, rfl, hpost, hans⟩, hR2⟩

end NwtBTree
