import NwtBTree.Machine.Run

/-!
# Following an abstract machine

`Tracks` asks of every state of a run that it stands for the abstract state reached
so far, and of every answer that the abstract state allows it. `tracks_sim` is the rule for
runs whose operations the abstract machine permits; `tracks_iff` turns the exact condition
under which one step follows into the one for runs.
-/

namespace NwtBTree

variable {S Op Out E G A : Type}

/-- Along the run from `s` each state agrees with the abstract one, which `next` advances, and each
answer is one that `post` allows. -/
def Tracks (step : S → Op → Except E (Out × S)) (next : G → Op → G) (post : G → Op → Out → Prop)
    (agree : G → S → Prop) : G → S → List Op → Prop
  | g, s, [] => agree g s
  | g, s, op :: ops => agree g s ∧ ∃ o s', step s op = .ok (o, s') ∧ post g op o ∧
      Tracks step next post agree (next g op) s' ops

variable {step : S → Op → Except E (Out × S)} {next : G → Op → G} {post : G → Op → Out → Prop}
  {agree : G → S → Prop} {g : G} {s : S} {ops : List Op}

theorem Tracks.start (h : Tracks step next post agree g s ops) : agree g s := by
  cases ops with
  | nil => exact h
  | cons op ops => exact h.1

/-- Each operation meets `call` in the abstract state it finds. -/
def Along (next : G → Op → G) (call : G → Op → Prop) : G → List Op → Prop
  | _, [] => True
  | g, op :: ops => call g op ∧ Along next call (next g op) ops

/-- Whether the abstract machine permits the operations can be checked without a run. -/
instance Along.decidable {next : G → Op → G} {call : G → Op → Prop}
    [∀ g op, Decidable (call g op)] : ∀ g ops, Decidable (Along next call g ops)
  | _, [] => isTrue trivial
  | g, op :: ops =>
    have : Decidable (Along next call (next g op) ops) := Along.decidable (next g op) ops
    inferInstanceAs (Decidable (call g op ∧ Along next call (next g op) ops))

/-- A relation between the two machines that holds at the start and that one step keeps. -/
theorem tracks_sim {R : G → S → Prop} {call : G → Op → Prop}
    (hagree : ∀ {g s}, R g s → agree g s)
    (hstep : ∀ {g s op}, R g s → call g op → ∃ o s', step s op = .ok (o, s') ∧ post g op o ∧
      R (next g op) s')
    (hR : R g s) (hcalls : Along next call g ops) : Tracks step next post agree g s ops := by
  induction ops generalizing g s with
  | nil => exact hagree hR
  | cons op ops ih =>
    obtain ⟨hcall, hrest⟩ := hcalls
    obtain ⟨o, s₁, e, hpost, hR₁⟩ := hstep hR hcall
    exact ⟨hagree hR, o, s₁, e, hpost, ih hR₁ hrest⟩

/-- Where `cond` says exactly when one step follows the abstract machine, it says so for runs.
What is known of the states besides, with the ghost state `a`, is `R`. -/
theorem tracks_iff {R : A → S → Prop} {adv : A → Op → A} {pre : A → S → Op → Prop}
    {cond : S → Op → Prop}
    (hstep : ∀ {a g s op}, R a s → agree g s → pre a s op → ∃ o s', step s op = .ok (o, s') ∧
      R (adv a op) s' ∧ (post g op o ∧ agree (next g op) s' ↔ cond s op))
    {a : A} (hR : R a s) (hagree : agree g s) (hpre : Meets step adv pre a s ops) :
    Tracks step next post agree g s ops ↔
      Meets step (fun (_ : Unit) _ => ()) (fun _ s op => cond s op) () s ops := by
  induction ops generalizing a g s with
  | nil => exact ⟨fun _ => trivial, fun _ => hagree⟩
  | cons op ops ih =>
    obtain ⟨hp, hrest⟩ := hpre
    obtain ⟨o, s₁, e, hR₁, hiff⟩ := hstep hR hagree hp
    have hih (h : agree (next g op) s₁) := ih hR₁ h (hrest o s₁ e)
    constructor
    · rintro ⟨-, o', s', e', hpost, htail⟩
      cases e.symm.trans e'
      refine ⟨hiff.mp ⟨hpost, htail.start⟩, fun o' s' e' => ?_⟩
      cases e.symm.trans e'
      exact (hih htail.start).mp htail
    · rintro ⟨hc, htail⟩
      obtain ⟨hpost, hagree₁⟩ := hiff.mpr hc
      exact ⟨hagree, o, s₁, e, hpost, (hih hagree₁).mpr (htail o s₁ e)⟩

end NwtBTree
