import NwtBTree.Refine.Registry
import NwtBTree.Source.Sections

/-!
# The sections of the registry, one after the other

A thread that has the mutex to itself comes to the end that the call has when it is
made in one piece, and to the same fault.
-/

namespace NwtBTree.Server

variable {s s₁ : Server} {b b₁ : Section} {r : Except Fault (Outcome × Server)} {c : Call}
  {name : String} {pre rest links : List DBLink} {l : DBLink} {file : Bool} {trees : List Nbt}
  {states : List STXDBState}

@[simp] theorem linkAt_split {held : Bool} :
    (⟨held, file, pre ++ l :: rest, trees, states⟩ : Server).linkAt pre.length = .ok l :=
  linkAt_ok (by simp)

@[simp] theorem setCount_split {held : Bool} (n : Int32) :
    (⟨held, file, pre ++ l :: rest, trees, states⟩ : Server).setCount pre.length n =
      .ok ⟨held, file, pre ++ { l with numOpenThreads := n } :: rest, trees, states⟩ := by
  simp [setCount]

/-- A walk goes past the links of other names. -/
theorem reaches_walk {w : Nat → Section} (hs : s.dbLookup = pre ++ rest)
    (hpre : name ∉ pre.map DBLink.name)
    (hstep : ∀ j l, s.dbLookup[j]? = some l → name ≠ l.name →
      s.step (w j) = .ok (s, .inl (w (j + 1)))) :
    registry.Reaches s (w 0) s (w pre.length) := by
  refine Guarded.Reaches.loop fun j hj => hstep j pre[j] ?_ fun hname => hpre ?_
  · rw [hs, List.getElem?_append_left hj, List.getElem?_eq_getElem hj]
  · exact hname ▸ List.mem_map_of_mem (List.getElem_mem hj)

/-- The walk to the last link, from the first one. -/
theorem reaches_last (newLink : DBLink) : registry.Reaches s (.createAppend newLink 0) s
    (.createAppend newLink (s.dbLookup.length - 1)) := by
  refine Guarded.Reaches.loop (b := Section.createAppend newLink) fun j hj => ?_
  have hnext : s.dbLookup[j + 1]? = some s.dbLookup[j + 1] := List.getElem?_eq_getElem (by omega)
  simp only [registry, step, hnext]

/-- The new link is put at the end. -/
theorem reaches_append (newLink : DBLink) : registry.Reaches s (.createLink newLink)
    { s with dbLookup := s.dbLookup ++ [newLink] } (.unlock .success none) := by
  by_cases hs : s.dbLookup = []
  · exact .step .refl (by simp [registry, step, hs])
  · have hlen := List.length_pos_of_ne_nil hs
    have hlast : s.dbLookup[s.dbLookup.length - 1 + 1]? = none :=
      List.getElem?_eq_none (by omega)
    have hall : s.dbLookup.take (s.dbLookup.length - 1 + 1) = s.dbLookup :=
      List.take_of_length_le (by omega)
    have hfirst : registry.step s (.createLink newLink) =
        .ok (s, .inl (.createAppend newLink 0)) := by
      simp [registry, step, hs]
    exact .head hfirst (.step (reaches_last newLink) (by simp [registry, step, hlast, hall]))

/-- The thread comes to a last step that ends the call as `r` says. -/
def Ends (s : Server) (b : Section) (r : Except Fault (Outcome × Server)) : Prop :=
  ∃ s₁ b₁, registry.Reaches s b s₁ b₁ ∧ s₁.step b₁ = r.map fun p => (p.2, .inr p.1)

theorem Ends.after (hends : Ends s₁ b₁ r) (h : registry.Reaches s b s₁ b₁) : Ends s b r := by
  obtain ⟨s₂, b₂, hr, e⟩ := hends
  exact ⟨s₂, b₂, h.trans hr, e⟩

theorem Ends.step (hends : Ends s₁ b₁ r) (e : s.step b = .ok (s₁, .inl b₁)) : Ends s b r :=
  hends.after (.step .refl e)

theorem Ends.last (e : s.step b = r.map fun p => (p.2, .inr p.1)) : Ends s b r :=
  ⟨_, _, .refl, e⟩

theorem ends_unlock (code : ErrCode) (idxState : Option Addr) :
    Ends s (.unlock code idxState) (.ok (.returned code idxState, s.unlock)) := .last rfl

/-- What the walk of each function finds. -/
theorem lookup_cases (name : String) (links : List DBLink) :
    (DBLink.lookup name links = none ∧ name ∉ links.map DBLink.name) ∨
      ∃ pre l post, links = pre ++ l :: post ∧ l.name = name ∧ name ∉ pre.map DBLink.name := by
  cases h : DBLink.lookup name links with
  | none => exact .inl ⟨rfl, DBLink.lookup_eq_none.mp h⟩
  | some p =>
    obtain ⟨pre, post, hs, -, hname, hpre⟩ := DBLink.lookup_eq_some.mp h
    exact .inr ⟨pre, p.2, post, hs, hname, hpre⟩

theorem ends_create (type : KeyType) (fopen : Bool) :
    Ends ⟨true, file, links, trees, states⟩ (.createWalk type name fopen 0)
      (.ok (create ⟨false, file, links, trees, states⟩ type name fopen)) := by
  have hwalk {pre rest : List DBLink} (hs : links = pre ++ rest)
      (hpre : name ∉ pre.map DBLink.name) :=
    reaches_walk (s := ⟨true, file, links, trees, states⟩)
      (w := Section.createWalk type name fopen) hs hpre
      fun j l hl hne => by simp only at hl; simp only [Server.step, hl, if_neg hne]
  obtain ⟨hlook, hname⟩ | ⟨pre, l, post, rfl, rfl, hpre⟩ := lookup_cases name links
  · -- with the error file open
    have htree : Ends ⟨true, true, links, trees, states⟩ (.createTree type name)
        (.ok (create ⟨false, true, links, trees, states⟩ type name fopen)) := by
      cases htype : type.newTree with
      | none =>
        have hcreate : create ⟨false, true, links, trees, states⟩ type name fopen =
            (.returned .failure none, ⟨true, true, links, trees, states⟩) := by
          simp [create, lock, hlook, htype]
        rw [hcreate]
        exact .last (by simp [Server.step, htype, Except.map])
      | some tree =>
        have hcreate : create ⟨false, true, links, trees, states⟩ type name fopen =
            (.returned .success none, ⟨false, true, links ++ [⟨name, trees.length, type, 0, 0⟩],
              trees ++ [tree], states⟩) := by
          simp [create, lock, unlock, hlook, htype]
        have hstep : step ⟨true, true, links, trees, states⟩ (.createTree type name) =
            .ok (⟨true, true, links, trees ++ [tree], states⟩,
              .inl (.createLink ⟨name, trees.length, type, 0, 0⟩)) := by
          simp [Server.step, htype]
        rw [hcreate]
        exact ((ends_unlock .success none).after (reaches_append _)).step hstep
    have hfile : Ends ⟨true, file, links, trees, states⟩ (.createFile type name fopen)
        (.ok (create ⟨false, file, links, trees, states⟩ type name fopen)) := by
      cases file with
      | true => exact htree.step (by simp [Server.step])
      | false =>
        cases fopen with
        | true =>
          have hopen : create ⟨false, false, links, trees, states⟩ type name true =
              create ⟨false, true, links, trees, states⟩ type name true := by
            simp [create, lock, hlook]
          rw [hopen]
          exact htree.step (by simp [Server.step])
        | false =>
          have hcreate : create ⟨false, false, links, trees, states⟩ type name false =
              (.returned .failure none, ⟨false, false, links, trees, states⟩) := by
            simp [create, lock, unlock, hlook]
          have hstep : step ⟨true, false, links, trees, states⟩ (.createFile type name false) =
              .ok (⟨true, false, links, trees, states⟩, .inl (.unlock .failure none)) := by
            simp [Server.step]
          rw [hcreate]
          exact (ends_unlock .failure none).step hstep
    exact (hfile.step (by simp [Server.step])).after
      (hwalk (List.append_nil links).symm hname)
  · have hcreate : create ⟨false, file, pre ++ l :: post, trees, states⟩ type l.name fopen =
        (.returned .dbExists none, ⟨false, file, pre ++ l :: post, trees, states⟩) := by
      simp [create, lock, unlock, lookup_append hpre]
    have hstep : step ⟨true, file, pre ++ l :: post, trees, states⟩
        (.createWalk type l.name fopen pre.length) =
          .ok (⟨true, file, pre ++ l :: post, trees, states⟩, .inl (.unlock .dbExists none)) := by
      simp [Server.step]
    rw [hcreate]
    exact ((ends_unlock .dbExists none).step hstep).after (hwalk rfl hpre)

theorem ends_openIndex :
    Ends ⟨true, file, links, trees, states⟩ (.openWalk name 0)
      (.ok (openIndex ⟨false, file, links, trees, states⟩ name)) := by
  have hwalk {pre rest : List DBLink} (hs : links = pre ++ rest)
      (hpre : name ∉ pre.map DBLink.name) :=
    reaches_walk (s := ⟨true, file, links, trees, states⟩)
      (w := Section.openWalk name) hs hpre
      fun j l hl hne => by simp only at hl; simp only [Server.step, hl, if_neg hne]
  obtain ⟨hlook, hname⟩ | ⟨pre, l, post, rfl, rfl, hpre⟩ := lookup_cases name links
  · have hopen : openIndex ⟨false, file, links, trees, states⟩ name =
        (.returned .dbDne none, ⟨false, file, links, trees, states⟩) := by
      simp [openIndex, lock, unlock, hlook]
    have hstep : step ⟨true, file, links, trees, states⟩ (.openWalk name links.length) =
        .ok (⟨true, file, links, trees, states⟩, .inl (.unlock .dbDne none)) := by
      simp [Server.step]
    rw [hopen]
    exact ((ends_unlock .dbDne none).step hstep).after
      (hwalk (List.append_nil links).symm hname)
  · -- the counter goes up
    let n := l.numOpenThreads + 1
    have htest : Ends ⟨true, file, pre ++ { l with numOpenThreads := n } :: post, trees, states⟩
        (.openTest l.name pre.length)
        (.ok (openIndex ⟨false, file, pre ++ l :: post, trees, states⟩ l.name)) := by
      by_cases hone : n = 1
      · have hopen : openIndex ⟨false, file, pre ++ l :: post, trees, states⟩ l.name =
            (.returned .success (some states.length),
              ⟨false, file, pre ++ { l with numOpenThreads := n } :: post, trees,
                states ++ [⟨some l.nbt, l.type, l.name, 0, .zero, 0, 0⟩]⟩) := by
          simp [openIndex, lock, unlock, lookup_append hpre, hone, n]
        have hstate : step ⟨true, file, pre ++ { l with numOpenThreads := n } :: post, trees,
            states⟩ (.openState l.name pre.length) =
              .ok (⟨true, file, pre ++ { l with numOpenThreads := n } :: post, trees,
                states ++ [⟨some l.nbt, l.type, l.name, 0, .zero, 0, 0⟩]⟩,
                .inl (.unlock .success (some states.length))) := by
          simp [Server.step]
        rw [hopen]
        exact ((ends_unlock .success (some states.length)).step hstate).step
          (by simp [Server.step, hone])
      · have hopen : openIndex ⟨false, file, pre ++ l :: post, trees, states⟩ l.name =
            (.returned .failure none,
              ⟨false, file, pre ++ { l with numOpenThreads := n } :: post, trees, states⟩) := by
          simp [openIndex, lock, unlock, lookup_append hpre, hone, n]
        have hstep : step ⟨true, file, pre ++ { l with numOpenThreads := n } :: post, trees,
            states⟩ (.openTest l.name pre.length) =
              .ok (⟨true, file, pre ++ { l with numOpenThreads := n } :: post, trees, states⟩,
                .inl (.unlock .failure none)) := by
          simp [Server.step, hone]
        rw [hopen]
        exact (ends_unlock .failure none).step hstep
    have hread : step ⟨true, file, pre ++ l :: post, trees, states⟩ (.openRead l.name pre.length) =
        .ok (⟨true, file, pre ++ l :: post, trees, states⟩,
          .inl (.openWrite l.name pre.length l.numOpenThreads)) := by
      simp [Server.step]
    have hwrite : step ⟨true, file, pre ++ l :: post, trees, states⟩
        (.openWrite l.name pre.length l.numOpenThreads) =
          .ok (⟨true, file, pre ++ { l with numOpenThreads := n } :: post, trees, states⟩,
            .inl (.openTest l.name pre.length)) := by
      simp [Server.step, n]
    exact (((htest.step hwrite).step hread).step (by simp [Server.step])).after (hwalk rfl hpre)

theorem ends_closeIndex (ident : Addr) :
    Ends ⟨true, file, links, trees, states⟩ (.closeWalk ident 0)
      (closeIndex ⟨false, file, links, trees, states⟩ ident) := by
  cases hident : states[ident]? with
  | none =>
    refine .last ?_
    simp [Server.step, stateAt, closeIndex, lock, hident, Except.map]
  | some state =>
    have hstate {held file : Bool} {links : List DBLink} :
        stateAt ⟨held, file, links, trees, states⟩ ident = .ok state := by
      simp [stateAt, hident]
    have hwalk {pre rest : List DBLink} (hs : links = pre ++ rest)
        (hpre : state.dbName ∉ pre.map DBLink.name) :=
      reaches_walk (s := ⟨true, file, links, trees, states⟩)
        (w := Section.closeWalk ident) hs hpre
        fun j l hl hne => by
          simp only at hl
          simp only [Server.step, hstate, ok_bind, hl, if_neg hne, pure_eq_ok]
    obtain ⟨hlook, hname⟩ | ⟨pre, l, post, rfl, hn, hpre⟩ := lookup_cases state.dbName links
    · refine Ends.after ?_ (hwalk (List.append_nil links).symm hname)
      cases file with
      | true =>
        have hclose : closeIndex ⟨false, true, links, trees, states⟩ ident =
            .ok (.returned .dbDne none, ⟨false, true, links, trees, states⟩) := by
          simp [closeIndex, lock, unlock, hident, hlook]
        have hstep : step ⟨true, true, links, trees, states⟩ (.closeWalk ident links.length) =
            .ok (⟨true, true, links, trees, states⟩, .inl (.unlock .dbDne none)) := by
          simp [Server.step, hstate]
        rw [hclose]
        exact (ends_unlock .dbDne none).step hstep
      | false =>
        refine .last ?_
        simp [Server.step, hstate, closeIndex, lock, hident, hlook, Except.map, throw, throwThe,
          MonadExceptOf.throw]
    · -- the counter goes down, and the handle is put out of use
      let n := l.numOpenThreads - 1
      let states' := states.set ident { state with nbt := none }
      have htest : Ends ⟨true, file, pre ++ { l with numOpenThreads := n } :: post, trees, states'⟩
          (.closeTest pre.length)
          (closeIndex ⟨false, file, pre ++ l :: post, trees, states⟩ ident) := by
        have hclose : closeIndex ⟨false, file, pre ++ l :: post, trees, states⟩ ident =
            .ok (.returned .success none, ⟨false, file,
              pre ++ { l with numOpenThreads := closedCount l.numOpenThreads } :: post, trees,
              states'⟩) :=
          Served.serve (.closed (s := ⟨false, file, pre ++ l :: post, trees, states⟩) rfl hident
            hn.symm rfl (hn ▸ hpre))
        have hcount : closedCount l.numOpenThreads = if n < 0 then 0 else n := rfl
        rw [hclose, hcount]
        by_cases hneg : n < 0
        · have hpos : ¬0 < n := fun hpos => Int32.lt_irrefl (Int32.lt_trans hneg hpos)
          rw [if_pos hneg]
          have hreset : step ⟨true, file, pre ++ { l with numOpenThreads := n } :: post, trees,
              states'⟩ (.closeReset pre.length) =
                .ok (⟨true, file, pre ++ { l with numOpenThreads := 0 } :: post, trees, states'⟩,
                  .inl (.unlock .success none)) := by
            simp [Server.step, hneg]
          exact ((ends_unlock .success none).step hreset).step (by simp [Server.step, hpos])
        · rw [if_neg hneg]
          have hunlock : Ends ⟨true, file, pre ++ { l with numOpenThreads := n } :: post, trees,
              states'⟩ (.unlock .success none) (.ok (.returned .success none, ⟨false, file,
                pre ++ { l with numOpenThreads := n } :: post, trees, states'⟩)) :=
            ends_unlock .success none
          by_cases hpos : 0 < n
          · exact hunlock.step (by simp [Server.step, hpos])
          · have hreset : step ⟨true, file, pre ++ { l with numOpenThreads := n } :: post, trees,
                states'⟩ (.closeReset pre.length) =
                  .ok (⟨true, file, pre ++ { l with numOpenThreads := n } :: post, trees, states'⟩,
                    .inl (.unlock .success none)) := by
              simp [Server.step, hneg]
            exact (hunlock.step hreset).step (by simp [Server.step, hpos])
      have hread :
          step ⟨true, file, pre ++ l :: post, trees, states⟩ (.closeRead ident pre.length) =
            .ok (⟨true, file, pre ++ l :: post, trees, states⟩,
              .inl (.closeWrite ident pre.length l.numOpenThreads)) := by
        simp [Server.step]
      have hwrite : step ⟨true, file, pre ++ l :: post, trees, states⟩
          (.closeWrite ident pre.length l.numOpenThreads) =
            .ok (⟨true, file, pre ++ { l with numOpenThreads := n } :: post, trees, states⟩,
              .inl (.closeState ident pre.length)) := by
        simp [Server.step, n]
      have hout : step ⟨true, file, pre ++ { l with numOpenThreads := n } :: post, trees, states⟩
          (.closeState ident pre.length) =
            .ok (⟨true, file, pre ++ { l with numOpenThreads := n } :: post, trees, states'⟩,
              .inl (.closeTest pre.length)) := by
        simp [Server.step, hstate, states']
      exact ((((htest.step hout).step hwrite).step hread).step
        (by simp [Server.step, hstate, hn])).after (hwalk rfl hpre)

/-- The call in sections and the call in one piece. -/
theorem ends_serve (hlock : s.ILINK_LOCK = false) :
    Ends (registry.acquire s) c.enter (s.serve c) := by
  obtain ⟨held, file, links, trees, states⟩ := s
  cases hlock
  cases c with
  | create type name fopen => exact ends_create type fopen
  | openIndex name => exact ends_openIndex
  | closeIndex ident => exact ends_closeIndex ident

/-- A call that has the mutex to itself does what it does in one piece. -/
theorem performs_iff {o : Outcome} {s' : Server} :
    registry.Performs s c o s' ↔ s.ILINK_LOCK = false ∧ s.serve c = .ok (o, s') := by
  refine and_congr_right fun hlock => ?_
  obtain ⟨s₁, b₁, hends, e⟩ := ends_serve (c := c) hlock
  have hlast : ∀ p q, registry.step s₁ b₁ ≠ .ok (p, .inl q) := by
    intro p q h
    rw [show registry.step s₁ b₁ = s₁.step b₁ from rfl, e] at h
    cases hserve : s.serve c <;> simp [hserve, Except.map] at h
  constructor
  · rintro ⟨s₂, b₂, hr, e₂⟩
    obtain ⟨rfl, rfl⟩ := hr.unique (fun p q h => by simp [e₂] at h) hends hlast
    have heq := e.symm.trans e₂
    cases hserve : s.serve c with
    | error fault => simp [hserve, Except.map] at heq
    | ok p =>
      simp only [hserve, Except.map, Except.ok.injEq, Prod.mk.injEq, Sum.inr.injEq] at heq
      exact congrArg _ (Prod.ext heq.2 heq.1)
  · intro hserve
    exact ⟨s₁, b₁, hends, by simp [registry, e, hserve, Except.map]⟩

end NwtBTree.Server
