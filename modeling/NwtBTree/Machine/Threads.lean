import Mathlib.Data.List.Perm.Subperm
import Mathlib.Logic.Function.Basic

/-!
# Threads that share an object under a mutex

An operation takes the mutex, works on the shared state in small steps, and lets the
mutex go with its last one. However the steps of the threads are interleaved, the
calls have the effect of calls made one at a time, in the order in which they leave.
-/

namespace NwtBTree

variable {S Op L Out E T : Type}

/-- An object whose operations work under a mutex. `step` is a step of the thread that holds it: the
thread goes on, or it leaves with an answer. -/
structure Guarded (S Op L Out E : Type) where
  held : S → Bool
  acquire : S → S
  enter : Op → L
  step : S → L → Except E (S × (L ⊕ Out))
  held_acquire : ∀ s, held (acquire s) = true
  held_step : ∀ {s s' l l'}, held s = true → step s l = .ok (s', .inl l') → held s' = true

/-- What a thread is at. -/
inductive Phase (Op L Out : Type) where
  | idle
  | waiting (op : Op)
  | inside (op : Op) (l : L)
  | leaving (op : Op) (o : Out)

structure Config (T S Op L Out : Type) where
  shared : S
  thread : T → Phase Op L Out

inductive Event (T Op Out : Type) where
  | call (t : T) (op : Op)
  | enter (t : T)
  | work (t : T)
  | leave (t : T) (op : Op) (o : Out)
  | ret (t : T) (op : Op) (o : Out)

namespace Event

/-- The operation that leaves, with its answer. -/
def served : Event T Op Out → Option (Op × Out)
  | leave _ op o => some (op, o)
  | _ => none

/-- The operation that is called. -/
def called : Event T Op Out → Option Op
  | call _ op => some op
  | _ => none

/-- The thread that makes the step. -/
def thread : Event T Op Out → T
  | call t _ => t
  | enter t => t
  | work t => t
  | leave t _ _ => t
  | ret t _ _ => t

/-- The call, the leaving and the return of the thread `t`. -/
def mine [DecidableEq T] (t : T) : Event T Op Out → Bool
  | enter _ => false
  | work _ => false
  | e => e.thread = t

/-- The events of a call from its beginning to its end. -/
def cycle (t : T) (c : Op × Out) : List (Event T Op Out) :=
  [call t c.1, leave t c.1 c.2, ret t c.1 c.2]

end Event

/-- The events of the call a thread is at. -/
def Phase.pending (t : T) : Phase Op L Out → List (Event T Op Out)
  | idle => []
  | waiting op => [.call t op]
  | inside op _ => [.call t op]
  | leaving op o => [.call t op, .leave t op o]

/-- The operations with their answers, in the order in which they leave. -/
def served (tr : List (Event T Op Out)) : List (Op × Out) := tr.filterMap Event.served

/-- The operations in the order in which they are called. -/
def called (tr : List (Event T Op Out)) : List Op := tr.filterMap Event.called

@[simp] theorem served_nil : served ([] : List (Event T Op Out)) = [] := rfl

theorem served_concat (tr : List (Event T Op Out)) (e : Event T Op Out) :
    served (tr ++ [e]) = served tr ++ e.served.toList := by
  cases he : e.served <;> simp [served, he]

@[simp] theorem called_append (tr tr' : List (Event T Op Out)) :
    called (tr ++ tr') = called tr ++ called tr' := List.filterMap_append

namespace Guarded

variable (G : Guarded S Op L Out E)

section Step

variable [DecidableEq T]

/-- One thread makes a step. -/
inductive Step : Config T S Op L Out → Event T Op Out → Config T S Op L Out → Prop
  | call {s : S} {f : T → Phase Op L Out} {t : T} {op : Op} (h : f t = .idle) :
      Step ⟨s, f⟩ (.call t op) ⟨s, Function.update f t (.waiting op)⟩
  | enter {s : S} {f : T → Phase Op L Out} {t : T} {op : Op} (h : f t = .waiting op)
      (hfree : G.held s = false) :
      Step ⟨s, f⟩ (.enter t) ⟨G.acquire s, Function.update f t (.inside op (G.enter op))⟩
  | work {s s' : S} {f : T → Phase Op L Out} {t : T} {op : Op} {l l' : L}
      (h : f t = .inside op l) (e : G.step s l = .ok (s', .inl l')) :
      Step ⟨s, f⟩ (.work t) ⟨s', Function.update f t (.inside op l')⟩
  | leave {s s' : S} {f : T → Phase Op L Out} {t : T} {op : Op} {l : L} {o : Out}
      (h : f t = .inside op l) (e : G.step s l = .ok (s', .inr o)) :
      Step ⟨s, f⟩ (.leave t op o) ⟨s', Function.update f t (.leaving op o)⟩
  | ret {s : S} {f : T → Phase Op L Out} {t : T} {op : Op} {o : Out} (h : f t = .leaving op o) :
      Step ⟨s, f⟩ (.ret t op o) ⟨s, Function.update f t .idle⟩

/-- The steps of the threads in some order. -/
inductive Steps (c : Config T S Op L Out) :
    List (Event T Op Out) → Config T S Op L Out → Prop
  | refl : Steps c [] c
  | snoc {tr : List (Event T Op Out)} {c' c'' : Config T S Op L Out} {e : Event T Op Out}
      (h : Steps c tr c') (hstep : G.Step c' e c'') : Steps c (tr ++ [e]) c''

/-- The steps of the threads from the start, where none of them has called anything. -/
def Trace (s₀ : S) : List (Event T Op Out) → Config T S Op L Out → Prop :=
  G.Steps ⟨s₀, fun _ => .idle⟩

end Step

/-! ## One call at a time -/

/-- Where one thread gets before it leaves. -/
inductive Reaches (s : S) (l : L) : S → L → Prop
  | refl : Reaches s l s l
  | step {s' s'' : S} {l' l'' : L} (h : Reaches s l s' l')
      (e : G.step s' l' = .ok (s'', .inl l'')) : Reaches s l s'' l''

/-- The operation performed in one piece. -/
def Performs (s : S) (op : Op) (o : Out) (s' : S) : Prop :=
  G.held s = false ∧ ∃ s₁ l, G.Reaches (G.acquire s) (G.enter op) s₁ l ∧
    G.step s₁ l = .ok (s', .inr o)

/-- Operations performed one after the other, with their answers. -/
inductive Serial (s₀ : S) : List (Op × Out) → S → Prop
  | nil : Serial s₀ [] s₀
  | snoc {cs : List (Op × Out)} {s s' : S} {op : Op} {o : Out} (h : Serial s₀ cs s)
      (hp : G.Performs s op o s') : Serial s₀ (cs ++ [(op, o)]) s'

variable {G}

theorem Reaches.trans {s s' s'' : S} {l l' l'' : L} (h : G.Reaches s l s' l')
    (h' : G.Reaches s' l' s'' l'') : G.Reaches s l s'' l'' := by
  induction h' with
  | refl => exact h
  | step _ e ih => exact .step ih e

theorem Reaches.head {s s' s'' : S} {l l' l'' : L} (e : G.step s l = .ok (s', .inl l'))
    (h : G.Reaches s' l' s'' l'') : G.Reaches s l s'' l'' :=
  (Reaches.step .refl e).trans h

/-- A loop that leaves the state alone. -/
theorem Reaches.loop {s : S} {b : Nat → L} {n : Nat}
    (h : ∀ i < n, G.step s (b i) = .ok (s, .inl (b (i + 1)))) :
    G.Reaches s (b 0) s (b n) := by
  induction n with
  | zero => exact .refl
  | succ n ih => exact .step (ih fun i hi => h i (by omega)) (h n (by omega))

theorem Reaches.held {s s' : S} {l l' : L} (h : G.Reaches s l s' l') (hs : G.held s = true) :
    G.held s' = true := by
  induction h with
  | refl => exact hs
  | step _ e ih => exact G.held_step ih e

/-- What is reached lies on the way to the last step. -/
theorem Reaches.rest {s s' s'' : S} {l l' l'' : L} (h : G.Reaches s l s' l')
    (hend : G.Reaches s l s'' l'') (hlast : ∀ p q, G.step s'' l'' ≠ .ok (p, .inl q)) :
    G.Reaches s' l' s'' l'' := by
  induction h with
  | refl => exact hend
  | @step s₁ s₂ l₁ l₂ _ e ih =>
    -- the way on from `s₁` begins with the step `e`
    have hway : ∀ {s₃ l₃}, G.Reaches s₁ l₁ s₃ l₃ → (s₃ = s₁ ∧ l₃ = l₁) ∨ G.Reaches s₂ l₂ s₃ l₃ := by
      intro s₃ l₃ h
      induction h with
      | refl => exact .inl ⟨rfl, rfl⟩
      | step _ e' ih =>
        obtain ⟨rfl, rfl⟩ | h := ih
        · cases e.symm.trans e'
          exact .inr .refl
        · exact .inr (.step h e')
    obtain ⟨rfl, rfl⟩ | h := hway ih
    · exact absurd e (hlast _ _)
    · exact h

/-- Two ends of the same way are one. -/
theorem Reaches.unique {s s' s'' : S} {l l' l'' : L} (h : G.Reaches s l s' l')
    (hlast : ∀ p q, G.step s' l' ≠ .ok (p, .inl q)) (h' : G.Reaches s l s'' l'')
    (hlast' : ∀ p q, G.step s'' l'' ≠ .ok (p, .inl q)) : s' = s'' ∧ l' = l'' := by
  have hrest := h.rest h' hlast'
  cases h'.rest h hlast with
  | refl => exact ⟨rfl, rfl⟩
  | step h₁ e₁ =>
    -- a way from an end is empty
    have hstay : ∀ {s₃ l₃}, G.Reaches s' l' s₃ l₃ → s₃ = s' ∧ l₃ = l' := by
      intro s₃ l₃ h
      induction h with
      | refl => exact ⟨rfl, rfl⟩
      | step _ e ih =>
        obtain ⟨rfl, rfl⟩ := ih
        exact absurd e (hlast _ _)
    obtain ⟨rfl, rfl⟩ := hstay hrest
    exact ⟨rfl, rfl⟩

/-! ## All calls together -/

variable [DecidableEq T] {s₀ : S} {tr : List (Event T Op Out)} {c c' : Config T S Op L Out} {t : T}

/-- The thread has the mutex. -/
def Inside (c : Config T S Op L Out) (t : T) : Prop := ∃ op l, c.thread t = .inside op l

/-- The calls that left form a serial run to the state that the threads share, or there is one
thread inside, on its way from the state that run ends in. -/
inductive Serialized (G : Guarded S Op L Out E) (s₀ : S) (cs : List (Op × Out)) :
    Config T S Op L Out → Prop
  | free {s : S} {f : T → Phase Op L Out} (h : G.Serial s₀ cs s)
      (hnone : ∀ t, ¬Inside ⟨s, f⟩ t) : Serialized G s₀ cs ⟨s, f⟩
  | busy {s s' : S} {f : T → Phase Op L Out} {t : T} {op : Op} {l : L} (h : G.Serial s₀ cs s)
      (hfree : G.held s = false) (ht : f t = .inside op l)
      (hone : ∀ u, Inside ⟨s', f⟩ u → u = t)
      (hr : G.Reaches (G.acquire s) (G.enter op) s' l) : Serialized G s₀ cs ⟨s', f⟩

theorem Serialized.of_quiet {cs : List (Op × Out)} {s : S} {f : T → Phase Op L Out}
    (h : Serialized G s₀ cs ⟨s, f⟩) {p : Phase Op L Out} (hout : ∀ op l, f t ≠ .inside op l)
    (hp : ∀ op l, p ≠ .inside op l) : Serialized G s₀ cs ⟨s, Function.update f t p⟩ := by
  have hinside : ∀ u, Inside ⟨s, Function.update f t p⟩ u → Inside ⟨s, f⟩ u := by
    rintro u ⟨op, l, hu⟩
    by_cases hut : u = t
    · subst hut
      exact absurd (by simpa using hu) (hp op l)
    · exact ⟨op, l, by simpa [hut] using hu⟩
  cases h with
  | free h hnone => exact .free h fun u hu => hnone u (hinside u hu)
  | @busy s _ _ t' op l h hfree ht hone hr =>
    have hne : t' ≠ t := fun heq => hout op l (heq ▸ ht)
    exact .busy h hfree (by simpa [hne] using ht) (fun u hu => hone u (hinside u hu)) hr

omit [DecidableEq T] in
/-- A thread that is inside is the one that the mutex was given to. -/
theorem Serialized.inside {cs : List (Op × Out)} {s' : S} {f : T → Phase Op L Out}
    (h : Serialized G s₀ cs ⟨s', f⟩) {op : Op} {l : L} (ht : f t = .inside op l) :
    ∃ s, G.Serial s₀ cs s ∧ G.held s = false ∧ (∀ u, Inside ⟨s', f⟩ u → u = t) ∧
      G.Reaches (G.acquire s) (G.enter op) s' l := by
  cases h with
  | free h hnone => exact absurd ⟨op, l, ht⟩ (hnone t)
  | busy h hfree ht' hone hr =>
    obtain rfl := hone t ⟨op, l, ht⟩
    cases ht.symm.trans ht'
    exact ⟨_, h, hfree, hone, hr⟩

omit [DecidableEq T] in
/-- While a thread is inside the mutex is held. -/
theorem Serialized.held {cs : List (Op × Out)} (h : Serialized G s₀ cs c) (hin : Inside c t) :
    G.held c.shared = true := by
  obtain ⟨s', f⟩ := c
  obtain ⟨op, l, ht⟩ := hin
  obtain ⟨s, -, -, -, hr⟩ := h.inside ht
  exact hr.held (G.held_acquire s)

/-- What a step does to the serial run. -/
theorem Serialized.step {e : Event T Op Out} (h : Serialized G s₀ (served tr) c)
    (hstep : G.Step c e c') : Serialized G s₀ (served (tr ++ [e])) c' := by
  rw [served_concat]
  cases hstep with
  | @call s f t op ht =>
    simpa [Event.served] using h.of_quiet (t := t) (p := .waiting op) (by simp [ht]) (by simp)
  | @ret s f t op o ht =>
    simpa [Event.served] using h.of_quiet (t := t) (p := .idle) (by simp [ht]) (by simp)
  | @enter s f t op ht hfree =>
    simp only [Event.served, Option.toList_none, List.append_nil]
    -- the mutex was free, so nobody was inside
    have hnone : ∀ u, ¬Inside ⟨s, f⟩ u := fun u hu => by
      have := h.held hu
      simp [hfree] at this
    cases h with
    | busy _ _ ht' => exact absurd ⟨_, _, ht'⟩ (hnone _)
    | free h =>
      refine .busy h hfree (Function.update_self ..) (fun u hu => ?_) .refl
      by_contra hne
      obtain ⟨op', l', hu⟩ := hu
      exact hnone u ⟨op', l', by simpa [hne] using hu⟩
  | @work s s' f t op l l' ht e =>
    simp only [Event.served, Option.toList_none, List.append_nil]
    obtain ⟨s, hs, hfree, hone, hr⟩ := h.inside ht
    refine .busy hs hfree (Function.update_self ..) (fun u hu => ?_) (.step hr e)
    by_contra hne
    obtain ⟨op', l', hu⟩ := hu
    exact hne (hone u ⟨op', l', by simpa [hne] using hu⟩)
  | @leave s s' f t op l o ht e =>
    obtain ⟨s, hs, hfree, hone, hr⟩ := h.inside ht
    refine .free (.snoc hs ⟨hfree, _, _, hr, e⟩) ?_
    rintro u ⟨op', l', hu⟩
    by_cases hut : u = t
    · simp [hut] at hu
    · exact hut (hone u ⟨op', l', by simpa [hut] using hu⟩)

/-- However the steps are interleaved, the calls that left form a serial run. -/
theorem Trace.serialized (h : G.Trace s₀ tr c) : Serialized G s₀ (served tr) c := by
  induction h with
  | refl => exact .free .nil fun t ⟨op, l, ht⟩ => by simp at ht
  | snoc _ hstep ih => exact ih.step hstep

/-- No two threads are inside at the same time. -/
theorem Trace.exclusive (h : G.Trace s₀ tr c) {u : T} (ht : Inside c t) (hu : Inside c u) :
    t = u := by
  obtain ⟨s', f⟩ := c
  obtain ⟨op, l, hu'⟩ := hu
  obtain ⟨-, -, -, hone, -⟩ := h.serialized.inside hu'
  exact hone t ht

/-! ## What one thread sees -/

/-- A step of another thread. -/
theorem Step.other {e : Event T Op Out} (h : G.Step c e c') (ht : e.thread ≠ t) :
    c'.thread t = c.thread t ∧ e.mine t = false := by
  cases h <;> grind [Function.update_apply, Event.thread, Event.mine]

/-- A step of the thread goes on with the call it is at, or ends it. -/
theorem Step.own {e : Event T Op Out} (h : G.Step c e c') (ht : e.thread = t) :
    (c'.thread t).pending t = (c.thread t).pending t ++ [e].filter (Event.mine t) ∨
      ∃ op o, (c.thread t).pending t ++ [e].filter (Event.mine t) = Event.cycle t (op, o) ∧
        (c'.thread t).pending t = [] := by
  subst ht
  cases h with
  | @ret s f t op o hu =>
    exact .inr ⟨op, o, by simp [Event.thread, Event.mine, Phase.pending, hu, Event.cycle],
      by simp [Event.thread, Phase.pending]⟩
  | call hu => exact .inl (by simp [Event.thread, Event.mine, Phase.pending, hu])
  | enter hu _ => exact .inl (by simp [Event.thread, Event.mine, Phase.pending, hu])
  | work hu _ => exact .inl (by simp [Event.thread, Event.mine, Phase.pending, hu])
  | leave hu _ => exact .inl (by simp [Event.thread, Event.mine, Phase.pending, hu])

/-- A thread calls, leaves and returns in turn. -/
theorem Trace.history (h : G.Trace s₀ tr c) (t : T) :
    ∃ done : List (Op × Out), tr.filter (Event.mine t) =
      done.flatMap (Event.cycle t) ++ (c.thread t).pending t := by
  induction h with
  | refl => exact ⟨[], rfl⟩
  | @snoc tr c' c'' e _ hstep ih =>
    obtain ⟨done, hdone⟩ := ih
    by_cases ht : e.thread = t
    · obtain hgo | ⟨op, o, hcycle, hend⟩ := hstep.own ht
      · exact ⟨done, by rw [List.filter_append, hdone, List.append_assoc, hgo]⟩
      · exact ⟨done ++ [(op, o)], by
          rw [List.filter_append, hdone, List.append_assoc, hcycle, hend]
          simp⟩
    · obtain ⟨hsame, hnot⟩ := hstep.other ht
      exact ⟨done, by simp [hdone, hsame, hnot]⟩

/-- The thread has called the operation and has not left yet. -/
def At (c : Config T S Op L Out) (t : T) (op : Op) : Prop :=
  c.thread t = .waiting op ∨ ∃ l, c.thread t = .inside op l

/-- Every call of the trace is made as `U` says, after what has left by then. -/
def Uses (U : List (Op × Out) → Op → Prop) (tr : List (Event T Op Out)) : Prop :=
  ∀ pre t op post, tr = pre ++ .call t op :: post → U (served pre) op

omit [DecidableEq T] in
/-- The order of the calls does not matter to what is said of each operation alone. -/
theorem Uses.of_forall {U : List (Op × Out) → Op → Prop}
    (h : ∀ op ∈ called tr, ∀ hist, U hist op) : Uses U tr := by
  rintro pre t op post rfl
  exact h op (List.mem_filterMap.mpr ⟨.call t op, by simp, rfl⟩) _

theorem Step.at {e : Event T Op Out} {op : Op} (h : G.Step c e c') (ht : At c' t op) :
    At c t op ∨ e = .call t op := by
  unfold At at ht ⊢
  cases h <;> grind [Function.update_apply]

/-- What leaves was called. -/
theorem Step.served_at {e : Event T Op Out} {op : Op} {o : Out} (h : G.Step c e c')
    (he : e.served = some (op, o)) : ∃ t, At c t op := by
  cases h with
  | leave ht _ =>
    cases he
    exact ⟨_, .inr ⟨_, ht⟩⟩
  | _ => cases he

/-- What is said of an operation when it is called still holds when it leaves, if more calls do it
no harm. -/
theorem Trace.uses {U : List (Op × Out) → Op → Prop}
    (hmono : ∀ {h h' op}, U h op → U (h ++ h') op) (h : G.Trace s₀ tr c)
    (hu : Uses U tr) : (∀ t op, At c t op → U (served tr) op) ∧
      ∀ pre op o post, served tr = pre ++ (op, o) :: post → U pre op := by
  induction h with
  | refl => exact ⟨fun t op ht => by simp [At] at ht, fun pre op o post e => by simp at e⟩
  | @snoc tr c' c'' e _ hstep ih =>
    obtain ⟨hat, hleft⟩ := ih fun pre t op post he => hu pre t op (post ++ [e]) (by simp [he])
    rw [served_concat]
    refine ⟨fun t op ht => ?_, fun pre op o post he => ?_⟩
    · obtain ht | rfl := hstep.at ht
      · exact hmono (hat t op ht)
      · exact hmono (hu tr t op [] rfl)
    · cases hs : e.served with
      | none => exact hleft pre op o post (by simpa [hs] using he)
      | some p =>
        obtain ⟨op', o'⟩ := p
        rw [hs, Option.toList_some] at he
        rcases List.eq_nil_or_concat post with rfl | ⟨post, q, rfl⟩
        · obtain ⟨rfl, hlast⟩ := List.append_inj' he rfl
          cases hlast
          obtain ⟨t, ht⟩ := hstep.served_at hs
          exact hat t op ht
        · rw [List.concat_eq_append, ← List.cons_append, ← List.append_assoc] at he
          exact hleft pre op o post (List.append_inj' he rfl).1

section Count

/-- The call of a thread, and what leaves. -/
def calledBy : Event T Op Out → Option (T × Op)
  | .call t op => some (t, op)
  | _ => none

def leftBy : Event T Op Out → Option (T × Op)
  | .leave t op _ => some (t, op)
  | _ => none

omit [DecidableEq T] in
theorem map_leftBy (tr : List (Event T Op Out)) :
    (tr.filterMap leftBy).map Prod.snd = (served tr).map Prod.fst := by
  induction tr with
  | nil => rfl
  | cons e tr ih =>
    cases e <;> simp_all [List.filterMap_cons, leftBy, served, Event.served]

omit [DecidableEq T] in
theorem map_calledBy (tr : List (Event T Op Out)) :
    (tr.filterMap calledBy).map Prod.snd = called tr := by
  induction tr with
  | nil => rfl
  | cons e tr ih =>
    cases e <;> simp_all [List.filterMap_cons, calledBy, called, Event.called]

/-- What a thread has called and what has left, from what it sees. -/
theorem count_mine [DecidableEq Op] {g : Event T Op Out → Option (T × Op)}
    (hg : ∀ e u op, g e = some (u, op) → e.mine u = true) (t : T) (op : Op) :
    (tr.filterMap g).count (t, op) = ((tr.filter (Event.mine t)).filterMap g).count (t, op) := by
  induction tr with
  | nil => rfl
  | cons e tr ih =>
    cases he : g e with
    | none => cases hm : e.mine t <;> simp [he, hm, ih]
    | some p =>
      obtain ⟨u, op'⟩ := p
      by_cases hut : u = t
      · subst hut
        simp [he, hg e u op' he, ih, List.count_cons]
      · cases hm : e.mine t <;> simp [he, hm, ih, hut]

/-- No operation leaves more often than it is called. -/
theorem Trace.served_subperm (h : G.Trace s₀ tr c) :
    ((served tr).map Prod.fst).Subperm (called tr) := by
  classical
  -- a call that has come to its end has been made and has left
  have hcycles (t : T) (done : List (Op × Out)) :
      (done.flatMap (Event.cycle t)).filterMap leftBy =
        (done.flatMap (Event.cycle t)).filterMap calledBy := by
    induction done with
    | nil => rfl
    | cons d done ih => simpa [Event.cycle, List.filterMap_cons, leftBy, calledBy] using ih
  have hcount : (tr.filterMap leftBy).Subperm (tr.filterMap calledBy) := by
    refine List.subperm_ext_iff.mpr ?_
    rintro ⟨t, op⟩ -
    rw [count_mine (g := leftBy) (fun e u op he => by
        cases e <;> simp_all [leftBy, Event.mine, Event.thread]),
      count_mine (g := calledBy) (fun e u op he => by
        cases e <;> simp_all [calledBy, Event.mine, Event.thread])]
    obtain ⟨done, hdone⟩ := h.history t
    rw [hdone, List.filterMap_append, List.filterMap_append, hcycles]
    refine List.Sublist.count_le _ (List.Sublist.append_left ?_ _)
    cases c.thread t <;> simp [Phase.pending, List.filterMap_cons, leftBy, calledBy]
  obtain ⟨l, hperm, hsub⟩ := hcount
  rw [← map_leftBy, ← map_calledBy]
  exact ⟨l.map Prod.snd, hperm.map _, hsub.map _⟩

end Count

/-! ## Calls that end -/

theorem Steps.trans {c'' : Config T S Op L Out} {es : List (Event T Op Out)}
    (h : G.Steps c tr c') (h' : G.Steps c' es c'') : G.Steps c (tr ++ es) c'' := by
  induction h' with
  | refl => simpa using h
  | snoc _ hstep ih => exact List.append_assoc .. ▸ .snoc ih hstep

/-- A thread works by itself. -/
theorem Steps.work {s s' : S} {f : T → Phase Op L Out} {op : Op} {l l' : L}
    (ht : f t = .inside op l) (h : G.Reaches s l s' l') : ∃ es, called es = [] ∧
      G.Steps ⟨s, f⟩ es ⟨s', Function.update f t (.inside op l')⟩ := by
  induction h with
  | refl => exact ⟨[], rfl, by rw [← ht, Function.update_eq_self]; exact .refl⟩
  | @step s₁ s₂ l₁ l₂ _ e ih =>
    obtain ⟨es, hes, hsteps⟩ := ih
    have hlast : G.Step ⟨s₁, Function.update f t (.inside op l₁)⟩ (.work t)
        ⟨s₂, Function.update (Function.update f t (.inside op l₁)) t (.inside op l₂)⟩ :=
      .work (Function.update_self ..) e
    rw [Function.update_idem] at hlast
    exact ⟨es ++ [.work t], by rw [called_append, hes]; rfl, .snoc hsteps hlast⟩

/-- A thread that is inside goes on to the end of its operation. -/
theorem Steps.finish {s s' s'' : S} {f : T → Phase Op L Out} {op : Op} {l : L} {o : Out}
    (ht : f t = .inside op l) (hr : G.Reaches (G.acquire s) (G.enter op) s' l)
    (hp : G.Performs s op o s'') : ∃ es, called es = [] ∧
      G.Steps ⟨s', f⟩ es ⟨s'', Function.update f t (.leaving op o)⟩ := by
  obtain ⟨-, s₁, l₁, hend, e⟩ := hp
  obtain ⟨es, hes, hsteps⟩ := Steps.work ht (hr.rest hend fun p q h => by simp [e] at h)
  have hlast : G.Step ⟨s₁, Function.update f t (.inside op l₁)⟩ (.leave t op o)
      ⟨s'', Function.update (Function.update f t (.inside op l₁)) t (.leaving op o)⟩ :=
    .leave (Function.update_self ..) e
  rw [Function.update_idem] at hlast
  exact ⟨es ++ [.leave t op o], by rw [called_append, hes]; rfl, .snoc hsteps hlast⟩

/-- A thread that finds the mutex free makes its whole call. -/
theorem Steps.perform {s s' : S} {f : T → Phase Op L Out} {op : Op} {o : Out}
    (ht : f t = .waiting op) (hp : G.Performs s op o s') : ∃ es, called es = [] ∧
      G.Steps ⟨s, f⟩ es ⟨s', Function.update f t .idle⟩ := by
  have henter : G.Steps ⟨s, f⟩ [.enter t]
      ⟨G.acquire s, Function.update f t (.inside op (G.enter op))⟩ := .snoc .refl (.enter ht hp.1)
  obtain ⟨es, hes, hfinish⟩ := Steps.finish (t := t)
    (f := Function.update f t (.inside op (G.enter op))) (Function.update_self ..) .refl hp
  have hret : G.Steps ⟨s', Function.update f t (.leaving op o)⟩ [.ret t op o]
      ⟨s', Function.update (Function.update f t (.leaving op o)) t .idle⟩ :=
    .snoc .refl (.ret (Function.update_self ..))
  rw [Function.update_idem] at hfinish hret
  exact ⟨[.enter t] ++ es ++ [.ret t op o], by rw [called_append, called_append, hes]; rfl,
    (henter.trans hfinish).trans hret⟩

/-- Every call can come to its end without another one being made, if each of the operations under
way can be performed and lets the mutex go. -/
theorem Trace.ends {R : S → Op → Prop}
    (hready : ∀ {s op}, R s op → G.held s = false →
      ∃ o s', G.Performs s op o s' ∧ G.held s' = false)
    (hkeep : ∀ {s s' op op' o}, R s op → G.Performs s op' o s' → R s' op)
    (h : G.Trace s₀ tr c) (hserial : ∀ s, G.Serial s₀ (served tr) s →
      G.held s = false ∧ ∀ u op, At c u op → R s op) (t : T) :
    ∃ es c', called es = [] ∧ G.Steps c es c' ∧ c'.thread t = .idle := by
  -- a thread that is not inside, with the mutex free
  have hfree : ∀ {s : S} {f : T → Phase Op L Out}, G.held s = false →
      (∀ op l, f t ≠ .inside op l) → (∀ op, f t = .waiting op → R s op) →
      ∃ es c', called es = [] ∧ G.Steps ⟨s, f⟩ es c' ∧ c'.thread t = .idle := by
    intro s f hs hout hwait
    cases ht : f t with
    | idle => exact ⟨[], _, rfl, .refl, ht⟩
    | waiting op =>
      obtain ⟨o, s', hp, -⟩ := hready (hwait op ht) hs
      obtain ⟨es, hes, hsteps⟩ := Steps.perform ht hp
      exact ⟨es, _, hes, hsteps, Function.update_self ..⟩
    | inside op l => exact absurd ht (hout op l)
    | leaving op o => exact ⟨_, _, rfl, .snoc .refl (.ret ht), Function.update_self ..⟩
  have hser := h.serialized
  obtain ⟨s', f⟩ := c
  cases hser with
  | free hs hnone =>
    obtain ⟨hheld, hops⟩ := hserial s' hs
    exact hfree hheld (fun op l ht => hnone t ⟨op, l, ht⟩) fun op ht => hops t op (.inl ht)
  | @busy s _ _ u op l hs hheld hu hone hr =>
    obtain ⟨-, hops⟩ := hserial s hs
    obtain ⟨o, s'', hp, hheld'⟩ := hready (hops u op (.inr ⟨l, hu⟩)) hheld
    obtain ⟨es, hes, hsteps⟩ := Steps.finish hu hr hp
    obtain ⟨es', c', hes', hsteps', hidle⟩ :=
      hfree (f := Function.update f u (.leaving op o)) hheld' (fun op' l' ht => by
        by_cases htu : t = u
        · subst htu
          simp at ht
        · exact htu (hone t ⟨op', l', by simpa [htu] using ht⟩)) fun op' ht => by
        have htu : t ≠ u := by
          rintro rfl
          simp at ht
        exact hkeep (hops t op' (.inl (by simpa [htu] using ht))) hp
    exact ⟨es ++ es', c', by simp [hes, hes'], hsteps.trans hsteps', hidle⟩

/-- What a mutex that is held while nobody is inside leaves to the threads: to call, and to return
from a call that has left. -/
theorem Step.stuck {e : Event T Op Out} (h : G.Step c e c') (hheld : G.held c.shared = true)
    (hnone : ∀ t, ¬Inside c t) :
    e.served = none ∧ c'.shared = c.shared ∧ (∀ t, ¬Inside c' t) ∧
      ∀ t op o, c'.thread t = .leaving op o ∨ e = .ret t op o → c.thread t = .leaving op o := by
  cases h with
  | enter _ hfree => simp [hfree] at hheld
  | work ht _ => exact absurd ⟨_, _, ht⟩ (hnone _)
  | leave ht _ => exact absurd ⟨_, _, ht⟩ (hnone _)
  | @call s f u op ht =>
    refine ⟨rfl, rfl, fun t ⟨op', l, hin⟩ => hnone t ⟨op', l, ?_⟩, fun t op' o hleft => ?_⟩ <;>
      grind [Function.update_apply]
  | @ret s f u op o ht =>
    refine ⟨rfl, rfl, fun t ⟨op', l, hin⟩ => hnone t ⟨op', l, ?_⟩, fun t op' o' hleft => ?_⟩ <;>
      grind [Function.update_apply]

/-- A mutex that is held while nobody is inside is never let go: nothing leaves any more, and what
returns had left before. -/
theorem Steps.stuck {es : List (Event T Op Out)} (h : G.Steps c es c')
    (hheld : G.held c.shared = true) (hnone : ∀ t, ¬Inside c t) :
    served es = [] ∧ (∀ t op o, .ret t op o ∈ es → c.thread t = .leaving op o) ∧
      c'.shared = c.shared ∧ (∀ t, ¬Inside c' t) ∧
      ∀ t op o, c'.thread t = .leaving op o → c.thread t = .leaving op o := by
  induction h with
  | refl => exact ⟨rfl, fun _ _ _ hmem => absurd hmem List.not_mem_nil, rfl, hnone, fun _ _ _ => id⟩
  | @snoc tr c₁ c₂ e _ hstep ih =>
    obtain ⟨hserved, hret, hsame, hnone₁, hleaving⟩ := ih
    obtain ⟨hs, hsame₁, hnone₂, hleaving₁⟩ := hstep.stuck (hsame ▸ hheld) hnone₁
    refine ⟨by rw [served_concat, hserved, hs]; rfl, fun t op o hmem => ?_, hsame₁.trans hsame,
      hnone₂, fun t op o ht => hleaving t op o (hleaving₁ t op o (.inl ht))⟩
    rw [List.mem_append, List.mem_singleton] at hmem
    obtain hmem | rfl := hmem
    · exact hret t op o hmem
    · exact hleaving t op o (hleaving₁ t op o (.inr rfl))

end Guarded

end NwtBTree
