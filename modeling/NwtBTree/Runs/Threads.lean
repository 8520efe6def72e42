import NwtBTree.Refine.Sections
import NwtBTree.Runs.Handles
import NwtBTree.Runs.Registry

/-!
# Threads that share the registry

Whatever the order in which threads make the steps of `create`, `openIndex` and
`closeIndex`, the answers are those of calls made one at a time, and every call can come to
its end as long as no `create` leaves with the mutex; after one that does, no call leaves
any more.
-/

namespace NwtBTree

open Server Guarded

variable {T : Type} [DecidableEq T] {s s' : Server} {c : Call} {o : Outcome}
  {h : List (Call × Outcome)} {name : String} {ident : Addr} {tr : List (Event T Call Outcome)}
  {cfg : Config T Server Call Section Outcome}

namespace Server

/-- The calls that left, in the order in which they did, are a run of the registry. Only one thread
is between lock and unlock, and each thread sees its calls one after the other: called, done in the
run, returned. -/
structure Linearizes (tr : List (Event T Call Outcome))
    (cfg : Config T Server Call Section Outcome) : Prop where
  serial : ∃ s, run serve Server.init ((served tr).map Prod.fst) =
    .ok ((served tr).map Prod.snd, s) ∧ ((∀ t, ¬Inside cfg t) → cfg.shared = s)
  exclusive : ∀ t u, Inside cfg t → Inside cfg u → t = u
  turns : ∀ t, ∃ done : List (Call × Outcome), tr.filter (Event.mine t) =
    done.flatMap (Event.cycle t) ++ (cfg.thread t).pending t

theorem performs_served (h : registry.Performs s c o s') :
    s.ILINK_LOCK = false ∧ Served s c o s' := by
  obtain ⟨hlock, e⟩ := performs_iff.mp h
  exact ⟨hlock, served_iff.mp e⟩

theorem run_of_serial (hs : registry.Serial Server.init h s) :
    run serve Server.init (h.map Prod.fst) = .ok (h.map Prod.snd, s) := by
  induction hs with
  | nil => rfl
  | snoc _ hp ih =>
    rw [List.map_append, List.map_append]
    exact run_concat ih (performs_iff.mp hp).2

/-! ## Every call can end -/

/-- The type of a `create` is one that the switch knows; a handle was returned before it is
closed. -/
def Usable (h : List (Call × Outcome)) : Call → Prop
  | .create type _ _ => type.newTree ≠ none
  | .openIndex _ => True
  | .closeIndex ident => ∃ name, ident ∈ handlesOf h name

/-- The same of the state the call is made in. -/
def Ready (s : Server) (c : Call) : Prop :=
  s.HandlesKnown ∧ (∀ type name fopen, c = .create type name fopen → type.newTree ≠ none) ∧
    ∀ ident, c = .closeIndex ident → ident < s.states.length

theorem Served.length_states (h : Served s c o s') : s.states.length ≤ s'.states.length := by
  cases h with
  | opened => simp
  | closed => simp
  | _ => exact le_rfl

theorem Ready.keep {c' : Call} (h : Ready s c) (hp : registry.Performs s c' o s') :
    Ready s' c := by
  obtain ⟨-, hs⟩ := performs_served hp
  obtain ⟨hk, htype, hlt⟩ := h
  exact ⟨hs.handlesKnown hk, htype, fun ident hc => (hlt ident hc).trans_le hs.length_states⟩

/-- A call that is ready returns and lets the mutex go. -/
theorem Ready.performs (h : Ready s c) (hlock : s.ILINK_LOCK = false) :
    ∃ o s', registry.Performs s c o s' ∧ s'.ILINK_LOCK = false := by
  obtain ⟨hk, htype, hlt⟩ := h
  obtain ⟨o, s', hs⟩ := hk.exists_served (c := c) hlt
  refine ⟨o, s', performs_iff.mpr ⟨hlock, hs.serve⟩, ?_⟩
  cases hs with
  | noType _ _ _ hnone => exact absurd hnone (htype _ _ _ rfl)
  | blocked hheld => exact absurd (hlock.symm.trans hheld) nofun
  | _ => exact hlock

/-- What the calls that were made leave behind. -/
structure Tidy (h : List (Call × Outcome)) (s : Server) : Prop where
  handles : s.HandlesKnown
  nodup : s.names.Nodup
  created : ∀ name, name ∈ s.names ↔ Created h name
  owner : ∀ ident name, ident ∈ handlesOf h name ↔
    ∃ state, s.states[ident]? = some state ∧ state.dbName = name

theorem tidy_init : Tidy [] Server.init := by
  refine ⟨handlesKnown_init, List.nodup_nil, fun name => ?_, fun ident name => ?_⟩
  · simp [names, Server.init, Created]
  · simp [handlesOf, Server.init]

theorem exists_getElem?_concat {α : Type} {xs : List α} {x : α} {i : Nat} {p : α → Prop} :
    (∃ y, (xs ++ [x])[i]? = some y ∧ p y) ↔
      (∃ y, xs[i]? = some y ∧ p y) ∨ i = xs.length ∧ p x := by
  constructor
  · rintro ⟨y, hy, hp⟩
    obtain hy | ⟨hi, rfl⟩ := of_getElem?_concat hy
    · exact .inl ⟨y, hy, hp⟩
    · exact .inr ⟨hi, hp⟩
  · rintro (⟨y, hy, hp⟩ | ⟨rfl, hp⟩)
    · exact ⟨y, List.getElem?_append_left (List.getElem?_eq_some_iff.mp hy).1 ▸ hy, hp⟩
    · exact ⟨x, List.getElem?_concat_length, hp⟩

theorem owner_step (hs : Served s c o s') (hown : ∀ ident name, ident ∈ handlesOf h name ↔
      ∃ state, s.states[ident]? = some state ∧ state.dbName = name) (ident : Addr)
    (name : String) : ident ∈ handlesOf (h ++ [(c, o)]) name ↔
      ∃ state, s'.states[ident]? = some state ∧ state.dbName = name := by
  rw [handlesOf_concat, List.mem_append, hown]
  cases hs with
  | blocked => cases c <;> simp [openedAs]
  | @opened pre post link =>
    rw [exists_getElem?_concat]
    refine or_congr_right ?_
    by_cases hn : link.name = name <;> simp [openedAs, hn]
  | closed => grind [openedAs]
  | _ => simp [openedAs]

theorem Tidy.step (ht : Tidy h s) (hs : Served s c o s') : Tidy (h ++ [(c, o)]) s' where
  handles := hs.handlesKnown ht.handles
  nodup := hs.nodup ht.nodup
  created name := by rw [created_concat, hs.mem_names, ht.created]
  owner := owner_step hs ht.owner

theorem tidy_of_serial (hs : registry.Serial Server.init h s) : Tidy h s := by
  induction hs with
  | nil => exact tidy_init
  | snoc _ hp ih => exact ih.step (performs_served hp).2

theorem Tidy.lt_length (ht : Tidy h s) (hi : ident ∈ handlesOf h name) :
    ident < s.states.length := by
  obtain ⟨state, hstate, -⟩ := (ht.owner ident name).mp hi
  exact (List.getElem?_eq_some_iff.mp hstate).1

theorem mem_handlesOf_append {h' : List (Call × Outcome)} (hi : ident ∈ handlesOf h name) :
    ident ∈ handlesOf (h ++ h') name := by
  unfold handlesOf at hi ⊢
  rw [List.filterMap_append]
  exact List.mem_append_left _ hi

theorem Usable.append {h' : List (Call × Outcome)} (hu : Usable h c) : Usable (h ++ h') c := by
  cases c with
  | closeIndex ident =>
    obtain ⟨name, hi⟩ := hu
    exact ⟨name, mem_handlesOf_append hi⟩
  | _ => exact hu

theorem Tidy.ready (ht : Tidy h s) (hu : Usable h c) : Ready s c := by
  refine ⟨ht.handles, ?_, ?_⟩
  · rintro type name fopen rfl
    exact hu
  · rintro ident rfl
    obtain ⟨name, hi⟩ := hu
    exact ht.lt_length hi

/-- The mutex is free after calls of which each was usable. -/
theorem free_of_serial (hs : registry.Serial Server.init h s)
    (hu : ∀ pre c o post, h = pre ++ (c, o) :: post → Usable pre c) : s.ILINK_LOCK = false := by
  induction hs with
  | nil => rfl
  | @snoc h s s' c o hs hp ih =>
    have hready := (tidy_of_serial hs).ready (hu h c o [] rfl)
    obtain ⟨hlock, e⟩ := performs_iff.mp hp
    obtain ⟨o', s'', hp', hfree⟩ := hready.performs hlock
    cases e.symm.trans (performs_iff.mp hp').2
    exact hfree

end Server

theorem threads_linearize (h : registry.Trace Server.init tr cfg) : Linearizes tr cfg where
  serial := by
    have hser := h.serialized
    obtain ⟨s, f⟩ := cfg
    cases hser with
    | free hs hnone => exact ⟨s, run_of_serial hs, fun _ => rfl⟩
    | @busy s₁ _ _ u op l hs hfree ht =>
      exact ⟨s₁, run_of_serial hs, fun hnone => absurd ⟨op, l, ht⟩ (hnone u)⟩
  exclusive _ _ := h.exclusive
  turns := h.history

/-- One thread creates an index; another one opens it, and lets the mutex go while the first one
waits to open it too. -/
theorem trace_two : ∃ (tr : List (Event Bool Call Outcome))
    (cfg : Config Bool Server Call Section Outcome), registry.Trace Server.init tr cfg ∧
      tr = [.call false (.create .int "orders" true), .call true (.openIndex "orders"),
        .enter false, .work false, .work false, .work false, .work false,
        .leave false (.create .int "orders" true) (.returned .success none), .enter true,
        .work true, .work true, .work true, .work true, .work true,
        .ret false (.create .int "orders" true) (.returned .success none),
        .call false (.openIndex "orders"),
        .leave true (.openIndex "orders") (.returned .success (some 0)), .enter false] ∧
      ∀ t, cfg.thread t ≠ .idle := by
  have hwait : registry.Steps (T := Bool) ⟨Server.init, fun _ => .idle⟩ _ _ :=
    .snoc (.snoc (.snoc (e := .call false (.create .int "orders" true)) .refl (.call rfl))
      (e := .call true (.openIndex "orders")) (.call rfl)) (.enter (t := false) rfl rfl)
  have hcreate := (((hwait.snoc (.work (t := false) rfl rfl)).snoc
    (.work (t := false) rfl rfl)).snoc (.work (t := false) rfl rfl)).snoc
    (.work (t := false) rfl rfl)
  have henter := (hcreate.snoc (.leave (t := false) rfl rfl)).snoc (.enter (t := true) rfl rfl)
  have hopen := ((((henter.snoc (.work (t := true) rfl rfl)).snoc
    (.work (t := true) rfl rfl)).snoc (.work (t := true) rfl rfl)).snoc
    (.work (t := true) rfl rfl)).snoc (.work (t := true) rfl rfl)
  have hcall := (hopen.snoc (.ret (t := false) rfl)).snoc
    (e := .call false (.openIndex "orders")) (.call rfl)
  refine ⟨_, _, (hcall.snoc (.leave (t := true) rfl rfl)).snoc (.enter (t := false) rfl rfl), rfl,
    fun t => ?_⟩
  cases t <;> simp

theorem threads_linearize_two : ∃ (tr : List (Event Bool Call Outcome))
    (cfg : Config Bool Server Call Section Outcome),
      served tr = [(.create .int "orders" true, .returned .success none),
        (.openIndex "orders", .returned .success (some 0))] ∧ Linearizes tr cfg := by
  obtain ⟨tr, cfg, h, htr, -⟩ := trace_two
  exact ⟨tr, cfg, htr ▸ rfl, threads_linearize h⟩

/-- Where no `create` names an unknown type and handles are closed after they were returned, no
call is kept waiting for ever: it can come to its end without another one being made. -/
theorem threads_end (h : registry.Trace Server.init tr cfg) (hu : Uses Usable tr) (t : T) :
    ∃ es cfg', called es = [] ∧ registry.Steps cfg es cfg' ∧ cfg'.thread t = .idle := by
  obtain ⟨hat, hleft⟩ := h.uses (fun hu => hu.append) hu
  refine h.ends (R := Ready) (fun hr hlock => hr.performs hlock) (fun hr hp => hr.keep hp)
    (fun s hs => ⟨free_of_serial hs hleft, fun u c hc => ?_⟩) t
  exact (tidy_of_serial hs).ready (hat u c hc)

theorem threads_end_two : ∃ cfg : Config Bool Server Call Section Outcome,
    (∀ t, cfg.thread t ≠ .idle) ∧
      ∀ t, ∃ es cfg', called es = [] ∧ registry.Steps cfg es cfg' ∧ cfg'.thread t = .idle := by
  obtain ⟨tr, cfg, h, rfl, hbusy⟩ := trace_two
  refine ⟨cfg, hbusy, fun t => threads_end h (Uses.of_forall ?_) t⟩
  rintro op hop hist
  simp only [called, List.filterMap_cons, Event.called, List.filterMap_nil, List.mem_cons,
    List.not_mem_nil, or_false] at hop
  obtain rfl | rfl | rfl := hop <;> simp [Usable, KeyType.newTree]

/-- After a `create` of a new name with a type that the switch does not know no call leaves any
more, in whatever order the threads go on, and only calls that had left by then return. -/
theorem threads_stuck {cs : List (Call × Outcome)} {type : KeyType} {cfg' : Config T Server Call
    Section Outcome} {es : List (Event T Call Outcome)} (h : registry.Trace Server.init tr cfg)
    (hleft : served tr = cs ++ [(.create type name true, o)]) (htype : type.newTree = none)
    (hnew : ¬Created cs name) (hes : registry.Steps cfg es cfg') :
    served es = [] ∧ ∀ t c o, .ret t c o ∈ es → cfg.thread t = .leaving c o := by
  -- the call leaves with the mutex
  have hheld : ∀ s, registry.Serial Server.init (served tr) s → s.ILINK_LOCK = true := by
    intro s hs
    rw [hleft] at hs
    generalize hcs : cs ++ [(Call.create type name true, o)] = cs' at hs
    cases hs with
    | nil => simp at hcs
    | @snoc cs₁ s₁ s₂ c₁ o₁ hs hp =>
      obtain ⟨rfl, hlast⟩ := List.append_inj' hcs rfl
      cases hlast
      obtain ⟨hlock, hserved⟩ := performs_served hp
      have hname : name ∉ s₁.names := fun hmem => hnew (((tidy_of_serial hs).created name).mp hmem)
      cases hserved with
      | blocked hheld => exact absurd (hlock.symm.trans hheld) nofun
      | «exists» _ hmem => exact absurd hmem hname
      | noType => rfl
      | created _ _ _ htree => exact absurd (htype.symm.trans htree) nofun
  have hser := h.serialized
  obtain ⟨s, f⟩ := cfg
  cases hser with
  | free hs hnone =>
    obtain ⟨hserved, hret, -⟩ := hes.stuck (hheld s hs) hnone
    exact ⟨hserved, hret⟩
  | busy hs hfree => exact absurd (hfree.symm.trans (hheld _ hs)) nofun

/-- After a `create` with the type 3 another thread waits for ever. -/
theorem threads_stuck_two : ∃ cfg : Config Bool Server Call Section Outcome,
    cfg.thread true = .waiting (.openIndex "orders") ∧ ∀ es cfg', registry.Steps cfg es cfg' →
      served es = [] ∧ ∀ c o, .ret true c o ∉ es := by
  have hcall : registry.Steps (T := Bool) ⟨Server.init, fun _ => .idle⟩ _ _ :=
    .snoc (.snoc (.snoc (e := .call false (.create (.other 3) "orders" true)) .refl (.call rfl))
      (e := .call true (.openIndex "orders")) (.call rfl)) (.enter (t := false) rfl rfl)
  have hleave := ((hcall.snoc (.work (t := false) rfl rfl)).snoc
    (.work (t := false) rfl rfl)).snoc (.leave (t := false) rfl rfl)
  have hstuck {es : List (Event Bool Call Outcome)} {cfg' : Config Bool Server Call Section Outcome}
      (hes : registry.Steps _ es cfg') :=
    threads_stuck hleave (List.nil_append [(_, _)]).symm rfl (by simp [Created]) hes
  refine ⟨_, rfl, fun es cfg' hes => ⟨(hstuck hes).1, fun c o hmem => ?_⟩⟩
  -- the second thread has not left
  cases (hstuck hes).2 true c o hmem

end NwtBTree
