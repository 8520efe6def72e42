import NwtBTree.Machine.History
import NwtBTree.Refine.Registry

/-!
# Every call releases the mutex

A `create` of a type that its switch sends to `default` returns with the mutex
held; no other call does. So the mutex is free after every call of a run exactly
if no such `create` gets that far.
-/

namespace NwtBTree

namespace Server

/-- Handles are closed only after they were returned. -/
def UsesHandles (_ : List (Call × Outcome)) (s : Server) : Call → Prop
  | .closeIndex ident => ident < s.states.length
  | _ => True

instance UsesHandles.decidable (h : List (Call × Outcome)) (s : Server) :
    ∀ c, Decidable (UsesHandles h s c)
  | .create .. => isTrue trivial
  | .openIndex _ => isTrue trivial
  | .closeIndex ident => inferInstanceAs (Decidable (ident < s.states.length))

/-- The call returns with the mutex free, and a `create` that fails leaves the list as it is. -/
def Releases (_ : List (Call × Outcome)) (s : Server) (c : Call) : Prop :=
  ∃ code idxState s', s.serve c = .ok (.returned code idxState, s') ∧ s'.ILINK_LOCK = false ∧
    ∀ type name fopen, c = .create type name fopen → code = .failure → s'.dbLookup = s.dbLookup

/-- A `create` of a name that is not registered, with the error file open, is for a type that
the switch knows. -/
def KnowsType (_ : List (Call × Outcome)) (s : Server) (c : Call) : Prop :=
  ∀ type name fopen, c = .create type name fopen → name ∉ s.names →
    (s.stderrfile || fopen) = true → type.newTree ≠ none

variable {s s' : Server} {c : Call} {o : Outcome}

theorem Served.lock (h : Served s c o s') : s'.ILINK_LOCK = s.ILINK_LOCK ∨
    ∃ type name fopen, c = .create type name fopen ∧ name ∉ s.names ∧
      (s.stderrfile || fopen) = true ∧ type.newTree = none := by
  cases h with
  | noType hlock hname hfile htype => exact .inr ⟨_, _, _, rfl, hname, hfile, htype⟩
  | _ => exact .inl rfl

theorem Served.create_failed {type : KeyType} {name : String} {fopen : Bool}
    {idxState : Option Addr}
    (h : Served s (.create type name fopen) (.returned .failure idxState) s') :
    s'.dbLookup = s.dbLookup := by
  cases h <;> rfl

theorem releases_iff (hlock : s.ILINK_LOCK = false) (hk : s.HandlesKnown)
    {h : List (Call × Outcome)} (huse : UsesHandles h s c) :
    Releases h s c ↔ KnowsType h s c := by
  constructor
  · rintro ⟨code, idxState, s', e, hfree, -⟩ type name fopen rfl hname hfile htype
    have hleak : Served s (.create type name fopen) (.returned .failure none)
        { s with ILINK_LOCK := true, stderrfile := true } := .noType hlock hname hfile htype
    cases e.symm.trans hleak.serve
    exact absurd hfree nofun
  · intro hknows
    obtain ⟨o, s', hs⟩ := hk.exists_served (c := c) fun ident hc => by
      subst hc
      exact huse
    obtain ⟨code, idxState, rfl⟩ := hs.returned hlock
    refine ⟨code, idxState, s', hs.serve, ?_, ?_⟩
    · obtain hsame | ⟨type, name, fopen, hc, hname, hfile, htype⟩ := hs.lock
      · exact hsame.trans hlock
      · exact absurd htype (hknows type name fopen hc hname hfile)
    · rintro type name fopen rfl rfl
      exact hs.create_failed

end Server

open Server

/-- In a run the mutex is free after every call exactly if no `create` of an unknown type gets to
the switch. -/
theorem releases_lock {cs : List Call} (h : Always serve UsesHandles [] Server.init cs) :
    Always serve Releases [] Server.init cs ↔ Always serve KnowsType [] Server.init cs := by
  have hstep : ∀ {h s c o s'}, s.ILINK_LOCK = false ∧ s.HandlesKnown → UsesHandles h s c →
      KnowsType h s c → s.serve c = .ok (o, s') → s'.ILINK_LOCK = false ∧ s'.HandlesKnown := by
    rintro h s c o s' ⟨hlock, hk⟩ - hknows e
    have hs := served_iff.mp e
    obtain hsame | ⟨type, name, fopen, hc, hname, hfile, htype⟩ := hs.lock
    · exact ⟨hsame.trans hlock, hs.handlesKnown hk⟩
    · exact absurd htype (hknows type name fopen hc hname hfile)
  have hinit : Server.init.ILINK_LOCK = false ∧ Server.init.HandlesKnown :=
    ⟨rfl, handlesKnown_init⟩
  exact always_iff hinit hstep (fun hi huse => releases_iff hi.1 hi.2 huse) h

theorem releases_lock_three :
    Always serve Releases [] Server.init
        [.create .int "orders" true, .openIndex "orders", .closeIndex 0] ↔
      Always serve KnowsType [] Server.init
        [.create .int "orders" true, .openIndex "orders", .closeIndex 0] :=
  releases_lock (by decide)

/-- After a `create` with the type 3 the mutex is held for ever. -/
theorem not_releases_lock :
    ¬Always serve Releases [] Server.init [.create (.other 3) "orders" true] := by
  rintro ⟨⟨code, idxState, s', e, hfree, -⟩, -⟩
  cases e
  exact absurd hfree nofun

end NwtBTree
