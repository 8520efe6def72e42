import NwtBTree.Source.Key
import NwtBTree.Source.Node

/-!
# The registry of indexes

`create`, `openIndex` and `closeIndex` over the list `dbLookup`, each in one piece
under `ILINK_LOCK`. Names are compared as strings, so they are kept as strings.
A call that finds the mutex held waits for a holder that has returned, for ever.
-/

namespace NwtBTree

inductive ErrCode where
  | success
  | dbDne
  | dbExists
  | dbEnd
  | keyNotfound
  | txnExists
  | txnDne
  | entryExists
  | entryDne
  | deadlock
  | failure
  deriving DecidableEq, Repr

/-- What `nbt` points to: a tree of one of the three types. -/
inductive Nbt where
  | short (t : BTree Int16 (List UInt8))
  | int (t : BTree Int32 (List UInt8))
  | varchar (t : BTree (List UInt8) (List UInt8))

/-- An element of the list; `nbt` is the place of its tree among the trees made so far. The counter
is an `int` and wraps around here; the source leaves its overflow, from `2 ^ 31` opens on,
undefined. -/
structure DBLink where
  name : String
  nbt : Addr
  type : KeyType
  numOpenThreads : Int32
  inUse : Int32
  deriving DecidableEq, Repr

structure STXDBState where
  nbt : Option Addr
  type : KeyType
  dbName : String
  tid : UInt32
  lastKey : Key
  keyNotFound : Int32
  inUse : Int32
  deriving DecidableEq, Repr

/-- The globals, with the trees and the handles made so far; `stderrfile` says whether the file
is open. -/
structure Server where
  ILINK_LOCK : Bool
  stderrfile : Bool
  dbLookup : List DBLink
  trees : List Nbt
  states : List STXDBState

/-- How a call ends: with a code and, if it made one, the number of a handle, or never. -/
inductive Outcome where
  | returned (code : ErrCode) (idxState : Option Addr)
  | blocked
  deriving DecidableEq, Repr

/-- `memset(…, 0, sizeof(Key))`. -/
def Key.zero : Key := ⟨.short, Vector.replicate 136 0⟩

/-- `new nbtree_st`, `new nbtree_int` or `new nbtree_ch`; the `default` of the switch is `none`. -/
def KeyType.newTree : KeyType → Option Nbt
  | .short => some (.short .init)
  | .int => some (.int .init)
  | .varchar => some (.varchar .init)
  | .other _ => none

namespace DBLink

/-- The walk to the link of that name: the place of the link, and what it holds. -/
def lookup (name : String) : List DBLink → Option (Nat × DBLink)
  | [] => none
  | link :: rest =>
    if name = link.name then some (0, link) else (lookup name rest).map fun (i, l) => (i + 1, l)

/-- The walk to the last link, where the new one is put. -/
def append (newLink : DBLink) : List DBLink → List DBLink
  | [] => [newLink]
  | [thisLink] => [thisLink, newLink]
  | thisLink :: next :: rest => thisLink :: append newLink (next :: rest)

end DBLink

namespace Server

def init : Server := ⟨false, false, [], [], []⟩

/-- `pthread_mutex_lock`; nobody is left to unlock a mutex that is held. -/
def lock (s : Server) : Option Server :=
  if s.ILINK_LOCK then none else some { s with ILINK_LOCK := true }

def unlock (s : Server) : Server := { s with ILINK_LOCK := false }

/-- `fopen` says whether the error file can be opened; it is tried only while it is not open.
`new` gives no null pointer, so the test of `nbt` never holds. -/
def create (s : Server) (type : KeyType) (name : String) (fopen : Bool) : Outcome × Server :=
  match s.lock with
  | none => (.blocked, s)
  | some s =>
    match DBLink.lookup name s.dbLookup with
    | some _ => (.returned .dbExists none, s.unlock)
    | none =>
      if !s.stderrfile && !fopen then (.returned .failure none, s.unlock) else
      let s := { s with stderrfile := true }
      match type.newTree with
      -- the `default` of the switch returns without unlocking
      | none => (.returned .failure none, s)
      | some tree =>
        let newLink : DBLink := ⟨name, s.trees.length, type, 0, 0⟩
        let s := { s with trees := s.trees ++ [tree], dbLookup := newLink.append s.dbLookup }
        (.returned .success none, s.unlock)

def openIndex (s : Server) (name : String) : Outcome × Server :=
  match s.lock with
  | none => (.blocked, s)
  | some s =>
    match DBLink.lookup name s.dbLookup with
    | none => (.returned .dbDne none, s.unlock)
    | some (i, link) =>
      let link : DBLink := { link with numOpenThreads := link.numOpenThreads + 1 }
      let s := { s with dbLookup := s.dbLookup.set i link }
      if link.numOpenThreads = 1 then
        let state : STXDBState := ⟨some link.nbt, link.type, name, 0, .zero, 0, 0⟩
        let ident := s.states.length
        (.returned .success (some ident), { s with states := s.states ++ [state] }.unlock)
      else (.returned .failure none, s.unlock)

/-- `ident` is the number of a handle. -/
def closeIndex (s : Server) (ident : Addr) : Except Fault (Outcome × Server) :=
  match s.lock with
  | none => .ok (.blocked, s)
  | some s =>
    match s.states[ident]? with
    | none => .error .badCast
    | some state =>
      match DBLink.lookup state.dbName s.dbLookup with
      | none =>
        -- the message goes to the error file
        if s.stderrfile then .ok (.returned .dbDne none, s.unlock) else .error .nullDeref
      | some (i, link) =>
        let link : DBLink := { link with numOpenThreads := link.numOpenThreads - 1 }
        let s := { s with states := s.states.set ident { state with nbt := none } }
        if 0 < link.numOpenThreads then
          .ok (.returned .success none, { s with dbLookup := s.dbLookup.set i link }.unlock)
        else
          let link : DBLink :=
            if link.numOpenThreads < 0 then { link with numOpenThreads := 0 } else link
          .ok (.returned .success none, { s with dbLookup := s.dbLookup.set i link }.unlock)

end Server

/-- A call of one of the three functions. -/
inductive Call where
  | create (type : KeyType) (name : String) (fopen : Bool)
  | openIndex (name : String)
  | closeIndex (ident : Addr)
  deriving DecidableEq, Repr

def Server.serve (s : Server) : Call → Except Fault (Outcome × Server)
  | .create type name fopen => .ok (s.create type name fopen)
  | .openIndex name => .ok (s.openIndex name)
  | .closeIndex ident => s.closeIndex ident

end NwtBTree
