import NwtBTree.Machine.History
import NwtBTree.Refine.Registry

/-!
# The registry over whole runs

With types that the switch knows and an error file that can be opened, the list
is a map from the names created so far to trees with a type, and it only grows.
-/

namespace NwtBTree

namespace Server

/-- `name` was created by a call of the history. -/
def Created (h : List (Call × Outcome)) (name : String) : Prop :=
  ∃ type fopen, (Call.create type name fopen, Outcome.returned .success none) ∈ h

/-- The types are known, `fopen` succeeds, no counter overflows, and what is closed is a handle. -/
def Proper (_ : List (Call × Outcome)) (s : Server) : Call → Prop
  | .create type _ fopen => (type = .short ∨ type = .int ∨ type = .varchar) ∧ fopen = true
  | .openIndex name => ∀ link ∈ s.dbLookup, link.name = name → link.numOpenThreads < Int32.maxValue
  | .closeIndex ident => ident < s.states.length

instance Proper.decidable (h : List (Call × Outcome)) (s : Server) :
    ∀ c, Decidable (Proper h s c)
  | .create type _ fopen =>
    inferInstanceAs (Decidable ((type = .short ∨ type = .int ∨ type = .varchar) ∧ fopen = true))
  | .openIndex name => inferInstanceAs
    (Decidable (∀ link ∈ s.dbLookup, link.name = name → link.numOpenThreads < Int32.maxValue))
  | .closeIndex ident => inferInstanceAs (Decidable (ident < s.states.length))

/-- The answer fits what was created before. -/
def Fits (h : List (Call × Outcome)) (s s' : Server) (code : ErrCode) (idxState : Option Addr) :
    Call → Prop
  | .create type name _ =>
    (¬Created h name → code = .success ∧ ∃ tree, s'.resolve name = some (tree, type)) ∧
      (Created h name → code = .dbExists ∧ s'.dbLookup = s.dbLookup)
  | .openIndex name => (code = .dbDne ↔ ¬Created h name) ∧
    ∀ ident, idxState = some ident → ∃ state tree, s'.states[ident]? = some state ∧
      state.nbt = some tree ∧ s'.resolve name = some (tree, state.type)
  | .closeIndex _ => True

/-- The names of the list are those created. The call returns an answer that fits, and leaves
distinct names, counters that are not negative, and every name with its tree and its type. -/
def Consistent (h : List (Call × Outcome)) (s : Server) (c : Call) : Prop :=
  (∀ name, name ∈ s.names ↔ Created h name) ∧
  ∃ code idxState s', s.serve c = .ok (.returned code idxState, s') ∧ Fits h s s' code idxState c ∧
    s'.names.Nodup ∧ (∀ link ∈ s'.dbLookup, 0 ≤ link.numOpenThreads) ∧
    ∀ name x, s.resolve name = some x → s'.resolve name = some x

/-- The mutex is free, the names are those created, each once, and no counter is negative. -/
structure InOrder (h : List (Call × Outcome)) (s : Server) : Prop where
  free : s.ILINK_LOCK = false
  handles : s.HandlesKnown
  nodup : s.names.Nodup
  created : ∀ name, name ∈ s.names ↔ Created h name
  count : ∀ link ∈ s.dbLookup, 0 ≤ link.numOpenThreads

variable {s s' : Server} {c : Call} {o : Outcome} {h : List (Call × Outcome)} {name : String}

theorem inOrder_init : InOrder [] init where
  free := rfl
  handles := handlesKnown_init
  nodup := List.nodup_nil
  created name := by simp [names, init, Created]
  count := by simp [init]

theorem nonneg_succ {n : Int32} (h0 : 0 ≤ n) (h : n < Int32.maxValue) : 0 ≤ n + 1 := by
  have hmax : Int32.maxValue.toInt = 2147483647 := by decide
  have hzero : (0 : Int32).toInt = 0 := by decide
  have hone : (1 : Int32).toInt = 1 := by decide
  rw [Int32.le_iff_toInt_le] at h0 ⊢
  rw [Int32.lt_iff_toInt_lt] at h
  rw [Int32.toInt_add, Int.bmod_eq_of_le] <;> omega

theorem nonneg_closedCount (n : Int32) : 0 ≤ closedCount n := by
  unfold closedCount
  split_ifs with hneg
  · exact Int32.le_refl 0
  · exact Int32.not_lt.mp hneg

theorem Proper.newTree {type : KeyType} {fopen : Bool}
    (h : Proper h s (.create type name fopen)) : type.newTree ≠ none := by
  obtain ⟨rfl | rfl | rfl, -⟩ := h <;> exact nofun

/-- A call of the history stays there; another one is added. -/
theorem created_concat : Created (h ++ [(c, o)]) name ↔ Created h name ∨
    ∃ type fopen, c = .create type name fopen ∧ o = .returned .success none := by
  unfold Created
  grind

theorem Served.mem_names (hs : Served s c o s') : name ∈ s'.names ↔ name ∈ s.names ∨
    ∃ type fopen, c = .create type name fopen ∧ o = .returned .success none := by
  cases hs with
  | created hlock hname hfile htype => simp [Server.names, eq_comm]
  | opened hlock hsplit hpre hcount => simp [Server.names, hsplit]
  | busy hlock hsplit hpre hcount => simp [Server.names, hsplit]
  | closed hlock hstate hdb hsplit hpre => simp [Server.names, hsplit]
  | _ => simp [Server.names]

theorem Served.count (hs : Served s c o s') (hp : Proper h s c)
    (hcount : ∀ link ∈ s.dbLookup, 0 ≤ link.numOpenThreads) :
    ∀ link ∈ s'.dbLookup, 0 ≤ link.numOpenThreads := by
  intro link hlink
  cases hs with
  | created hlock hname hfile htype => grind
  | opened hlock hsplit hpre hone => grind
  | @busy pre post l hlock hsplit hpre hone =>
    have hl : l ∈ s.dbLookup := by simp [hsplit]
    have := nonneg_succ (hcount l hl) (hp l hl rfl)
    grind
  | @closed ident state pre post l hlock hstate hdb hsplit hpre =>
    have := nonneg_closedCount l.numOpenThreads
    grind
  | _ => exact hcount link hlink

theorem InOrder.step (hi : InOrder h s) (hp : Proper h s c) (hs : Served s c o s') :
    InOrder (h ++ [(c, o)]) s' where
  free := by
    cases hs with
    | noType hlock hname hfile htype => exact absurd htype hp.newTree
    | _ => exact hi.free
  handles := hs.handlesKnown hi.handles
  nodup := hs.nodup hi.nodup
  created name := by
    rw [created_concat, hs.mem_names, hi.created]
  count := hs.count hp hi.count

theorem InOrder.exists_served (hi : InOrder h s) (hp : Proper h s c) :
    ∃ code idxState s', Served s c (.returned code idxState) s' := by
  have huse : ∀ ident, c = .closeIndex ident → ident < s.states.length := by
    rintro ident rfl
    exact hp
  obtain ⟨o, s', hs⟩ := hi.handles.exists_served huse
  obtain ⟨code, idxState, rfl⟩ := hs.returned hi.free
  exact ⟨code, idxState, s', hs⟩

theorem InOrder.fits (hi : InOrder h s) (hp : Proper h s c) {code : ErrCode}
    {idxState : Option Addr} (hs : Served s c (.returned code idxState) s') :
    Fits h s s' code idxState c := by
  cases hs with
  | «exists» hlock hname =>
    exact ⟨fun hnew => absurd ((hi.created _).mp hname) hnew, fun _ => ⟨rfl, rfl⟩⟩
  | noFile hlock hname hfile => exact absurd hp.2 nofun
  | noType hlock hname hfile htype => exact absurd htype hp.newTree
  | created hlock hname hfile htype =>
    refine ⟨fun _ => ⟨rfl, s.trees.length, ?_⟩, fun hc => absurd ((hi.created _).mpr hc) hname⟩
    exact resolve_of_split ⟨_, _, _, 0, 0⟩ rfl hname
  | missing hlock hname => exact ⟨by simp [← hi.created, hname], nofun⟩
  | @opened pre post link hlock hsplit hpre hcount =>
    have hname : link.name ∈ s.names := by simp [names, hsplit]
    refine ⟨by simp [← hi.created, hname], fun ident hident => ?_⟩
    cases hident
    refine ⟨_, link.nbt, List.getElem?_concat_length, rfl, ?_⟩
    exact resolve_of_split { link with numOpenThreads := 1 } rfl hpre
  | @busy pre post link hlock hsplit hpre hcount =>
    have hname : link.name ∈ s.names := by simp [names, hsplit]
    exact ⟨by simp [← hi.created, hname], nofun⟩
  | unknown hlock hstate hname hfile => trivial
  | closed hlock hstate hdb hsplit hpre => trivial

theorem InOrder.consistent (hi : InOrder h s) (hp : Proper h s c) : Consistent h s c := by
  obtain ⟨code, idxState, s', hs⟩ := hi.exists_served hp
  have hi' := hi.step hp hs
  exact ⟨hi.created, code, idxState, s', hs.serve, hi.fits hp hs, hi'.nodup, hi'.count,
    fun _ _ => hs.resolve⟩

/-- What a name stands for at some time it stands for ever after. -/
theorem resolve_of_run {cs : List Call} {os : List Outcome} {x : Addr × KeyType}
    (hrun : run serve s cs = .ok (os, s')) (hx : s.resolve name = some x) :
    s'.resolve name = some x := by
  induction cs generalizing s os with
  | nil =>
    cases hrun
    exact hx
  | cons c cs ih =>
    obtain ⟨o, s₁, os₁, e, hrest, rfl⟩ := run_cons_inv hrun
    exact ih hrest ((served_iff.mp e).resolve hx)

end Server

open Server

/-- Every call of the run is consistent, and a name that stands for a tree after some of the calls
stands for it after all of them. -/
structure ConsistentRun (cs : List Call) : Prop where
  always : Always serve Consistent [] Server.init cs
  lasting : ∀ pre post, cs = pre ++ post → ∃ os s os' s',
    run serve Server.init pre = .ok (os, s) ∧ run serve s post = .ok (os', s') ∧
    ∀ name x, s.resolve name = some x → s'.resolve name = some x

theorem consistent_runs {cs : List Call} (h : Always serve Proper [] Server.init cs) :
    ConsistentRun cs := by
  have halways : Always serve Consistent [] Server.init cs :=
    h.of_invariant inOrder_init (fun hi hp e => hi.step hp (served_iff.mp e))
      fun hi hp => hi.consistent hp
  have hok : ∀ h s c, Consistent h s c → ∃ o s', s.serve c = .ok (o, s') := by
    rintro h s c ⟨-, code, idxState, s', e, -⟩
    exact ⟨_, s', e⟩
  refine ⟨halways, ?_⟩
  rintro pre post rfl
  obtain ⟨hpre, hpost⟩ := halways.append
  obtain ⟨os, s, hrun⟩ := hpre.runs hok
  obtain ⟨os', s', hrun'⟩ := (hpost os s hrun).runs hok
  exact ⟨os, s, os', s', hrun, hrun', fun _ _ hx => resolve_of_run hrun' hx⟩

theorem consistent_runs_five :
    ConsistentRun [.create .int "orders" true, .create .varchar "names" true, .openIndex "orders",
      .closeIndex 0, .closeIndex 0] :=
  consistent_runs (by decide)

end NwtBTree
