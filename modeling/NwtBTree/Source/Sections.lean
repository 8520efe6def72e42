import NwtBTree.Source.Registry
import NwtBTree.Machine.Threads

/-!
# The registry under its mutex

The same three functions, cut into the reads and writes that a thread makes between
`pthread_mutex_lock` and `pthread_mutex_unlock`. A link is the number of its place in
the list; a walk that has come to the end of the list stands at its length.
-/

namespace NwtBTree

/-- Where a thread is between lock and unlock, with its local variables. -/
inductive Section where
  | createWalk (type : KeyType) (name : String) (fopen : Bool) (link : Nat)
  | createFile (type : KeyType) (name : String) (fopen : Bool)
  | createTree (type : KeyType) (name : String)
  | createLink (newLink : DBLink)
  | createAppend (newLink : DBLink) (thisLink : Nat)
  | openWalk (name : String) (link : Nat)
  | openRead (name : String) (link : Nat)
  | openWrite (name : String) (link : Nat) (numOpenThreads : Int32)
  | openTest (name : String) (link : Nat)
  | openState (name : String) (link : Nat)
  | closeWalk (ident : Addr) (link : Nat)
  | closeRead (ident : Addr) (link : Nat)
  | closeWrite (ident : Addr) (link : Nat) (numOpenThreads : Int32)
  | closeState (ident : Addr) (link : Nat)
  | closeTest (link : Nat)
  | closeReset (link : Nat)
  | unlock (code : ErrCode) (idxState : Option Addr)

/-- The first statement after the lock. -/
def Call.enter : Call → Section
  | create type name fopen => .createWalk type name fopen 0
  | openIndex name => .openWalk name 0
  | closeIndex ident => .closeWalk ident 0

namespace Server

/-- What `link` points to. -/
def linkAt (s : Server) (link : Nat) : Except Fault DBLink :=
  match s.dbLookup[link]? with
  | some l => .ok l
  | none => .error .nullDeref

/-- What `state` points to. -/
def stateAt (s : Server) (ident : Addr) : Except Fault STXDBState :=
  match s.states[ident]? with
  | some state => .ok state
  | none => .error .badCast

/-- `link->numOpenThreads = n`. -/
def setCount (s : Server) (link : Nat) (n : Int32) : Except Fault Server := do
  let l ← s.linkAt link
  return { s with dbLookup := s.dbLookup.set link { l with numOpenThreads := n } }

/-- One step of the thread that has the mutex. -/
def step (s : Server) : Section → Except Fault (Server × (Section ⊕ Outcome))
  | .createWalk type name fopen link =>
    match s.dbLookup[link]? with
    | some l =>
      if name = l.name then .ok (s, .inl (.unlock .dbExists none))
      else .ok (s, .inl (.createWalk type name fopen (link + 1)))
    | none => .ok (s, .inl (.createFile type name fopen))
  | .createFile type name fopen =>
    if s.stderrfile then .ok (s, .inl (.createTree type name))
    else if fopen then .ok ({ s with stderrfile := true }, .inl (.createTree type name))
    else .ok (s, .inl (.unlock .failure none))
  | .createTree type name =>
    match type.newTree with
    -- the `default` of the switch returns with the mutex
    | none => .ok (s, .inr (.returned .failure none))
    | some tree =>
      .ok ({ s with trees := s.trees ++ [tree] },
        .inl (.createLink ⟨name, s.trees.length, type, 0, 0⟩))
  | .createLink newLink =>
    if s.dbLookup = [] then
      .ok ({ s with dbLookup := [newLink] }, .inl (.unlock .success none))
    else .ok (s, .inl (.createAppend newLink 0))
  | .createAppend newLink thisLink =>
    match s.dbLookup[thisLink + 1]? with
    | some _ => .ok (s, .inl (.createAppend newLink (thisLink + 1)))
    | none =>
      .ok ({ s with dbLookup := s.dbLookup.take (thisLink + 1) ++ [newLink] },
        .inl (.unlock .success none))
  | .openWalk name link =>
    match s.dbLookup[link]? with
    | some l =>
      if name = l.name then .ok (s, .inl (.openRead name link))
      else .ok (s, .inl (.openWalk name (link + 1)))
    | none => .ok (s, .inl (.unlock .dbDne none))
  -- `link->numOpenThreads++` reads and writes
  | .openRead name link => do
    let l ← s.linkAt link
    return (s, .inl (.openWrite name link l.numOpenThreads))
  | .openWrite name link numOpenThreads => do
    return (← s.setCount link (numOpenThreads + 1), .inl (.openTest name link))
  | .openTest name link => do
    let l ← s.linkAt link
    if l.numOpenThreads = 1 then return (s, .inl (.openState name link))
    else return (s, .inl (.unlock .failure none))
  | .openState name link => do
    let l ← s.linkAt link
    let state : STXDBState := ⟨some l.nbt, l.type, name, 0, .zero, 0, 0⟩
    return ({ s with states := s.states ++ [state] },
      .inl (.unlock .success (some s.states.length)))
  | .closeWalk ident link => do
    let state ← s.stateAt ident
    match s.dbLookup[link]? with
    | some l =>
      if state.dbName = l.name then return (s, .inl (.closeRead ident link))
      else return (s, .inl (.closeWalk ident (link + 1)))
    | none =>
      if s.stderrfile then return (s, .inl (.unlock .dbDne none)) else throw .nullDeref
  -- `link->numOpenThreads--` reads and writes
  | .closeRead ident link => do
    let l ← s.linkAt link
    return (s, .inl (.closeWrite ident link l.numOpenThreads))
  | .closeWrite ident link numOpenThreads => do
    return (← s.setCount link (numOpenThreads - 1), .inl (.closeState ident link))
  | .closeState ident link => do
    let state ← s.stateAt ident
    return ({ s with states := s.states.set ident { state with nbt := none } },
      .inl (.closeTest link))
  | .closeTest link => do
    let l ← s.linkAt link
    if 0 < l.numOpenThreads then return (s, .inl (.unlock .success none))
    else return (s, .inl (.closeReset link))
  | .closeReset link => do
    let l ← s.linkAt link
    if l.numOpenThreads < 0 then return (← s.setCount link 0, .inl (.unlock .success none))
    else return (s, .inl (.unlock .success none))
  | .unlock code idxState =>
    .ok ({ s with ILINK_LOCK := false }, .inr (.returned code idxState))

variable {s s' : Server} {l : DBLink} {link : Nat} {n : Int32} {b b' : Section}

theorem linkAt_ok (h : s.dbLookup[link]? = some l) : s.linkAt link = .ok l := by
  simp [linkAt, h]

theorem setCount_lock (h : s.setCount link n = .ok s') : s'.ILINK_LOCK = s.ILINK_LOCK := by
  obtain ⟨l, -, e⟩ := bind_eq_ok.mp h
  cases e
  rfl

/-- A step after which the thread goes on leaves the mutex alone. -/
theorem step_lock (h : s.step b = .ok (s', .inl b')) : s'.ILINK_LOCK = s.ILINK_LOCK := by
  cases b with
  | openWrite | closeWrite =>
    obtain ⟨s₁, hs₁, e⟩ := bind_eq_ok.mp h
    cases e
    exact setCount_lock hs₁
  | closeReset link =>
    obtain ⟨l, -, e⟩ := bind_eq_ok.mp h
    split_ifs at e with hneg
    · obtain ⟨s₁, hs₁, e⟩ := bind_eq_ok.mp e
      cases e
      exact setCount_lock hs₁
    · cases e
      rfl
  | closeWalk ident link =>
    obtain ⟨state, -, e⟩ := bind_eq_ok.mp h
    cases hl : s.dbLookup[link]? with
    | some l =>
      simp only [hl] at e
      split_ifs at e <;> cases e <;> rfl
    | none =>
      simp only [hl] at e
      split_ifs at e
      cases e
      rfl
  | openTest | closeTest =>
    obtain ⟨l, -, e⟩ := bind_eq_ok.mp h
    split_ifs at e <;> cases e <;> rfl
  | openRead | openState | closeRead | closeState =>
    obtain ⟨l, -, e⟩ := bind_eq_ok.mp h
    cases e
    rfl
  | _ => grind [step]

end Server

/-- The registry as an object that threads share. -/
def registry : Guarded Server Call Section Outcome Fault where
  held s := s.ILINK_LOCK
  acquire s := { s with ILINK_LOCK := true }
  enter := Call.enter
  step := Server.step
  held_acquire _ := rfl
  held_step hs h := (Server.step_lock h).trans hs

end NwtBTree
