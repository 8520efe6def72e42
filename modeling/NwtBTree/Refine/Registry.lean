import NwtBTree.Source.Registry

/-!
# What a call does to the registry

`Served` lists the ways a call can end, each with the state it leaves; `served_iff`
says that these are the ways of the code.
-/

namespace NwtBTree

variable {s s' : Server} {name : String} {ls pre post : List DBLink} {link l : DBLink} {i : Nat}

namespace DBLink

@[simp] theorem append_eq : ∀ ls : List DBLink, link.append ls = ls ++ [link]
  | [] => rfl
  | [_] => rfl
  | l :: next :: rest => by simp [append, append_eq (next :: rest)]

@[simp] theorem lookup_eq_none : lookup name ls = none ↔ name ∉ ls.map DBLink.name := by
  induction ls with
  | nil => simp [lookup]
  | cons l ls ih =>
    by_cases h : name = l.name
    · simp [lookup, h]
    · simp [lookup, h, ih]

/-- The walk ends at the first link of that name. -/
theorem lookup_eq_some : lookup name ls = some (i, link) ↔ ∃ pre post, ls = pre ++ link :: post ∧
    pre.length = i ∧ link.name = name ∧ name ∉ pre.map DBLink.name := by
  induction ls generalizing i with
  | nil => simp [lookup]
  | cons l ls ih =>
    by_cases h : name = l.name
    · constructor
      · intro e
        simp only [lookup, h, if_true, Option.some.injEq, Prod.mk.injEq] at e
        obtain ⟨rfl, rfl⟩ := e
        exact ⟨[], ls, rfl, rfl, h.symm, by simp⟩
      · rintro ⟨pre, post, e, rfl, hn, hpre⟩
        cases pre with
        | nil =>
          obtain ⟨rfl, rfl⟩ := List.cons.inj e
          simp [lookup, h]
        | cons b pre =>
          obtain ⟨rfl, rfl⟩ := List.cons.inj e
          simp [h] at hpre
    · constructor
      · intro e
        simp only [lookup, h, if_false, Option.map_eq_some_iff, Prod.mk.injEq] at e
        obtain ⟨⟨j, l'⟩, e, rfl, rfl⟩ := e
        obtain ⟨pre, post, rfl, rfl, hn, hpre⟩ := ih.mp e
        exact ⟨l :: pre, post, rfl, rfl, hn, by simp [h, hpre]⟩
      · rintro ⟨pre, post, e, rfl, hn, hpre⟩
        cases pre with
        | nil =>
          obtain ⟨rfl, rfl⟩ := List.cons.inj e
          exact absurd hn.symm h
        | cons b pre =>
          obtain ⟨rfl, rfl⟩ := List.cons.inj e
          have htail : name ∉ pre.map DBLink.name := fun hm => hpre (List.mem_cons_of_mem _ hm)
          simpa [lookup, h] using ih.mpr ⟨pre, post, rfl, rfl, hn, htail⟩

end DBLink

namespace Server

/-- The names of the registry, in the order of the list. -/
def names (s : Server) : List String := s.dbLookup.map DBLink.name

/-- The count that `closeIndex` leaves where it finds `n`. -/
def closedCount (n : Int32) : Int32 := if n - 1 < 0 then 0 else n - 1

/-- One way a call can end. -/
inductive Served : Server → Call → Outcome → Server → Prop
  | blocked {s : Server} {c : Call} : s.ILINK_LOCK = true → Served s c .blocked s
  | exists {s : Server} {type : KeyType} {name : String} {fopen : Bool} :
      s.ILINK_LOCK = false → name ∈ s.names →
      Served s (.create type name fopen) (.returned .dbExists none) s
  | noFile {s : Server} {type : KeyType} {name : String} :
      s.ILINK_LOCK = false → name ∉ s.names → s.stderrfile = false →
      Served s (.create type name false) (.returned .failure none) s
  | noType {s : Server} {type : KeyType} {name : String} {fopen : Bool} :
      s.ILINK_LOCK = false → name ∉ s.names → (s.stderrfile || fopen) = true →
      type.newTree = none →
      Served s (.create type name fopen) (.returned .failure none)
        { s with ILINK_LOCK := true, stderrfile := true }
  | created {s : Server} {type : KeyType} {name : String} {fopen : Bool} {tree : Nbt} :
      s.ILINK_LOCK = false → name ∉ s.names → (s.stderrfile || fopen) = true →
      type.newTree = some tree →
      Served s (.create type name fopen) (.returned .success none)
        { s with stderrfile := true, trees := s.trees ++ [tree],
                 dbLookup := s.dbLookup ++ [⟨name, s.trees.length, type, 0, 0⟩] }
  | missing {s : Server} {name : String} :
      s.ILINK_LOCK = false → name ∉ s.names →
      Served s (.openIndex name) (.returned .dbDne none) s
  | opened {s : Server} {pre post : List DBLink} {link : DBLink} :
      s.ILINK_LOCK = false → s.dbLookup = pre ++ link :: post →
      link.name ∉ pre.map DBLink.name → link.numOpenThreads + 1 = 1 →
      Served s (.openIndex link.name) (.returned .success (some s.states.length))
        { s with dbLookup := pre ++ { link with numOpenThreads := 1 } :: post,
                 states := s.states ++ [⟨some link.nbt, link.type, link.name, 0, .zero, 0, 0⟩] }
  | busy {s : Server} {pre post : List DBLink} {link : DBLink} :
      s.ILINK_LOCK = false → s.dbLookup = pre ++ link :: post →
      link.name ∉ pre.map DBLink.name → link.numOpenThreads + 1 ≠ 1 →
      Served s (.openIndex link.name) (.returned .failure none)
        { s with dbLookup := pre ++ { link with numOpenThreads := link.numOpenThreads + 1 } :: post
          }
  | unknown {s : Server} {ident : Addr} {state : STXDBState} :
      s.ILINK_LOCK = false → s.states[ident]? = some state → state.dbName ∉ s.names →
      s.stderrfile = true →
      Served s (.closeIndex ident) (.returned .dbDne none) s
  | closed {s : Server} {ident : Addr} {state : STXDBState} {pre post : List DBLink}
      {link : DBLink} :
      s.ILINK_LOCK = false → s.states[ident]? = some state → state.dbName = link.name →
      s.dbLookup = pre ++ link :: post → link.name ∉ pre.map DBLink.name →
      Served s (.closeIndex ident) (.returned .success none)
        { s with dbLookup := pre ++ { link with numOpenThreads := closedCount link.numOpenThreads }
                   :: post,
                 states := s.states.set ident { state with nbt := none } }

variable {c : Call} {o : Outcome}

theorem lookup_append (h : link.name ∉ pre.map DBLink.name) :
    DBLink.lookup link.name (pre ++ link :: post) = some (pre.length, link) :=
  DBLink.lookup_eq_some.mpr ⟨pre, post, rfl, rfl, rfl, h⟩

theorem no_fopen {file fopen : Bool} (h : (file || fopen) = true) : (!file && !fopen) = false := by
  grind

/-- The code takes each of the ways. -/
theorem Served.serve (h : Served s c o s') : s.serve c = .ok (o, s') := by
  obtain ⟨held, file, links, trees, states⟩ := s
  cases h with
  | blocked hlock =>
    cases hlock
    cases c <;> simp [Server.serve, create, openIndex, closeIndex, lock]
  | «exists» hlock hname =>
    cases hlock
    obtain ⟨p, hp⟩ := Option.ne_none_iff_exists'.mp (mt DBLink.lookup_eq_none.mp
      (not_not.mpr hname))
    simp only at hp
    simp [Server.serve, create, lock, unlock, hp]
  | noFile hlock hname hfile =>
    cases hlock
    cases hfile
    simp [Server.serve, create, lock, unlock, DBLink.lookup_eq_none.mpr hname]
  | noType hlock hname hfile htype =>
    cases hlock
    simp only [Server.serve, create, lock, DBLink.lookup_eq_none.mpr hname, htype,
      no_fopen hfile, Bool.false_eq_true, if_false]
  | created hlock hname hfile htype =>
    cases hlock
    simp only [Server.serve, create, lock, unlock, DBLink.lookup_eq_none.mpr hname, htype,
      no_fopen hfile, Bool.false_eq_true, if_false, DBLink.append_eq]
  | missing hlock hname =>
    cases hlock
    simp [Server.serve, openIndex, lock, unlock, DBLink.lookup_eq_none.mpr hname]
  | @opened pre post link hlock hs hpre hcount =>
    cases hlock
    obtain rfl : links = pre ++ link :: post := hs
    simp [Server.serve, openIndex, lock, unlock, lookup_append hpre, hcount]
  | @busy pre post link hlock hs hpre hcount =>
    cases hlock
    obtain rfl : links = pre ++ link :: post := hs
    simp [Server.serve, openIndex, lock, unlock, lookup_append hpre, hcount]
  | unknown hlock hstate hname hfile =>
    cases hlock
    cases hfile
    simp only at hstate
    simp [Server.serve, closeIndex, lock, unlock, hstate, DBLink.lookup_eq_none.mpr hname]
  | @closed ident state pre post link hlock hstate hdb hs hpre =>
    cases hlock
    obtain rfl : links = pre ++ link :: post := hs
    simp only at hstate
    simp only [Server.serve, closeIndex, lock, unlock, hstate, hdb, lookup_append hpre,
      Bool.false_eq_true, if_false, closedCount]
    split_ifs with hpos hneg hneg
    · exact absurd (Int32.lt_trans hneg hpos) Int32.lt_irrefl
    · simp
    · simp
    · simp

/-- One of the ways is open to every call; only a pointer that is no handle, or a message without
an error file, is left out. -/
theorem exists_served (h : ∀ ident, c = .closeIndex ident → s.ILINK_LOCK = false →
    ∃ state, s.states[ident]? = some state ∧ (state.dbName ∈ s.names ∨ s.stderrfile = true)) :
    ∃ o s', Served s c o s' := by
  cases hlock : s.ILINK_LOCK with
  | true => exact ⟨_, _, .blocked hlock⟩
  | false =>
    -- the link of a registered name, as the walk finds it
    have hsplit : ∀ name ∈ s.names, ∃ pre link post, s.dbLookup = pre ++ link :: post ∧
        link.name = name ∧ link.name ∉ pre.map DBLink.name := by
      intro name hname
      obtain ⟨⟨i, link⟩, hl⟩ :=
        Option.ne_none_iff_exists'.mp (mt DBLink.lookup_eq_none.mp (not_not.mpr hname))
      obtain ⟨pre, post, hs, -, rfl, hpre⟩ := DBLink.lookup_eq_some.mp hl
      exact ⟨pre, link, post, hs, rfl, hpre⟩
    cases c with
    | create type name fopen =>
      by_cases hname : name ∈ s.names
      · exact ⟨_, _, .exists hlock hname⟩
      · cases hfile : s.stderrfile || fopen with
        | false =>
          obtain ⟨hclosed, rfl⟩ := Bool.or_eq_false_iff.mp hfile
          exact ⟨_, _, .noFile hlock hname hclosed⟩
        | true =>
          cases htype : type.newTree with
          | none => exact ⟨_, _, .noType hlock hname hfile htype⟩
          | some tree => exact ⟨_, _, .created hlock hname hfile htype⟩
    | openIndex name =>
      by_cases hname : name ∈ s.names
      · obtain ⟨pre, link, post, hs, rfl, hpre⟩ := hsplit name hname
        by_cases hcount : link.numOpenThreads + 1 = 1
        · exact ⟨_, _, .opened hlock hs hpre hcount⟩
        · exact ⟨_, _, .busy hlock hs hpre hcount⟩
      · exact ⟨_, _, .missing hlock hname⟩
    | closeIndex ident =>
      obtain ⟨state, hstate, hname⟩ := h ident rfl hlock
      by_cases hmem : state.dbName ∈ s.names
      · obtain ⟨pre, link, post, hs, hn, hpre⟩ := hsplit _ hmem
        exact ⟨_, _, .closed hlock hstate hn.symm hs hpre⟩
      · exact ⟨_, _, .unknown hlock hstate hmem (hname.resolve_left hmem)⟩

theorem served_iff : s.serve c = .ok (o, s') ↔ Served s c o s' := by
  refine ⟨fun e => ?_, Served.serve⟩
  have hserved : ∃ o s', Served s c o s' := by
    refine exists_served fun ident hc hlock => ?_
    subst hc
    simp only [Server.serve, closeIndex, lock, hlock, Bool.false_eq_true, if_false] at e
    cases hstate : s.states[ident]? with
    | none => simp [hstate] at e
    | some state =>
      refine ⟨state, rfl, or_iff_not_imp_left.mpr fun hname => ?_⟩
      simp only [hstate, DBLink.lookup_eq_none.mpr hname] at e
      by_contra hfile
      simp [hfile] at e
  obtain ⟨o₁, s₁, h⟩ := hserved
  cases h.serve.symm.trans e
  exact h

theorem Served.returned (h : Served s c o s') (hlock : s.ILINK_LOCK = false) :
    ∃ code idxState, o = .returned code idxState := by
  cases h with
  | blocked hheld => simp [hlock] at hheld
  | _ => exact ⟨_, _, rfl⟩

/-- Of the list a call changes one counter, or it adds one link with a new name. -/
theorem Served.names (h : Served s c o s') : s'.names = s.names ∨
    ∃ type name fopen, c = .create type name fopen ∧ o = .returned .success none ∧
      name ∉ s.names ∧ s'.names = s.names ++ [name] := by
  cases h with
  | created hlock hname hfile htype => exact .inr ⟨_, _, _, rfl, rfl, hname, by simp [Server.names]⟩
  | opened hlock hs hpre hcount => exact .inl (by simp [Server.names, hs])
  | busy hlock hs hpre hcount => exact .inl (by simp [Server.names, hs])
  | closed hlock hstate hdb hs hpre => exact .inl (by simp [Server.names, hs])
  | _ => exact .inl rfl

theorem Served.names_subset (h : Served s c o s') : s.names ⊆ s'.names := by
  obtain hn | ⟨_, _, _, -, -, -, hn⟩ := h.names
  · exact hn ▸ List.Subset.refl _
  · exact hn ▸ List.subset_append_left _ _

theorem Served.nodup (h : Served s c o s') (hnd : s.names.Nodup) : s'.names.Nodup := by
  obtain hn | ⟨_, _, _, -, -, hnew, hn⟩ := h.names
  · exact hn ▸ hnd
  · rw [hn]
    exact List.nodup_append.mpr ⟨hnd, by simp, by grind⟩

/-- The tree and the type that a name stands for. -/
def resolve (s : Server) (name : String) : Option (Addr × KeyType) :=
  (DBLink.lookup name s.dbLookup).map fun (_, link) => (link.nbt, link.type)

theorem resolve_of_split (l : DBLink) (hs : s.dbLookup = pre ++ l :: post)
    (hpre : l.name ∉ pre.map DBLink.name) : s.resolve l.name = some (l.nbt, l.type) := by
  simp [resolve, hs, lookup_append hpre]

/-- The counter plays no part in what a name stands for. -/
theorem lookup_count (n : Int32) :
    (DBLink.lookup name (pre ++ { link with numOpenThreads := n } :: post)).map
        (fun (_, l) => (l.nbt, l.type)) =
      (DBLink.lookup name (pre ++ link :: post)).map fun (_, l) => (l.nbt, l.type) := by
  induction pre with
  | nil => by_cases h : name = link.name <;> simp [DBLink.lookup, h, Option.map_map,
    Function.comp_def]
  | cons a pre ih =>
    by_cases h : name = a.name
    · simp [DBLink.lookup, h]
    · simpa [DBLink.lookup, h, Option.map_map, Function.comp_def] using ih

/-- A name goes on standing for the same tree. -/
theorem Served.resolve (h : Served s c o s') {x : Addr × KeyType} (hx : s.resolve name = some x) :
    s'.resolve name = some x := by
  unfold Server.resolve at hx ⊢
  cases h with
  | created hlock hname hfile htype =>
    obtain ⟨⟨i, l⟩, hl, rfl⟩ := Option.map_eq_some_iff.mp hx
    obtain ⟨as, bs, hab, rfl, rfl, has⟩ := DBLink.lookup_eq_some.mp hl
    simp only [hab, List.append_assoc, List.cons_append]
    rw [lookup_append has]
    rfl
  | opened hlock hs hpre hcount => exact (lookup_count _).trans (hs ▸ hx)
  | busy hlock hs hpre hcount => exact (lookup_count _).trans (hs ▸ hx)
  | closed hlock hstate hdb hs hpre => exact (lookup_count _).trans (hs ▸ hx)
  | _ => exact hx

theorem of_getElem?_concat {α : Type} {xs : List α} {x y : α} {i : Nat}
    (h : (xs ++ [x])[i]? = some y) : xs[i]? = some y ∨ i = xs.length ∧ y = x := by
  grind

/-- The name that a handle was opened under stays registered. -/
def HandlesKnown (s : Server) : Prop :=
  ∀ (ident : Addr) (state : STXDBState), s.states[ident]? = some state → state.dbName ∈ s.names

theorem handlesKnown_init : init.HandlesKnown := by
  intro ident state h
  simp [init] at h

theorem Served.handlesKnown (h : Served s c o s') (hk : s.HandlesKnown) : s'.HandlesKnown := by
  have hsub := h.names_subset
  intro ident st hst
  cases h with
  | opened hlock hs hpre hcount =>
    rcases of_getElem?_concat hst with hst | ⟨-, rfl⟩
    · exact hsub (hk ident st hst)
    · simp [Server.names]
  | @closed ident' state pre post link hlock hstate hdb hs hpre =>
    by_cases he : ident' = ident
    · subst he
      have hlt := (List.getElem?_eq_some_iff.mp hstate).1
      obtain rfl : _ = st := by simpa [List.getElem?_set_self hlt] using hst
      exact hsub (hk ident' state hstate)
    · rw [List.getElem?_set_ne he] at hst
      exact hsub (hk ident st hst)
  | _ => exact hsub (hk ident st hst)

/-- A call on a handle that was returned ends. -/
theorem HandlesKnown.exists_served (hk : s.HandlesKnown)
    (h : ∀ ident, c = .closeIndex ident → ident < s.states.length) : ∃ o s', Served s c o s' := by
  refine Server.exists_served fun ident hc _ => ?_
  have hlt := h ident hc
  exact ⟨_, List.getElem?_eq_getElem hlt, .inl (hk ident _ (List.getElem?_eq_getElem hlt))⟩

end Server

end NwtBTree
