import NwtBTree.Source.Api

/-!
# The interface of the server

Functions of `server.h` that the library gives a body: the three of the registry,
those of a transaction, `get` and `insertRecord`. `getNext` and `deleteRecord` have bodies
too and are left out: they call members of what a `void` pointer points to, and the member
`erase_pair` that `deleteRecord` needs does not exist. A command is a call with its
arguments, a pointer that a call returned before being the number of what it points to.
-/

namespace NwtBTree

/-- The members of a transaction that the functions read or write. -/
structure Txn extends TXNState where
  status : Int32
  deriving DecidableEq, Repr

/-- The registry, the transactions begun so far, and what the conversions of keys allocate. -/
structure Session where
  server : Server
  txns : List Txn
  memory : Memory

/-- `beginTransaction` takes its number from `rand`. -/
inductive Command where
  | registry (c : Call)
  | beginTransaction (rand : UInt32)
  | abortTransaction (txn : Addr)
  | commitTransaction (txn : Addr)
  | get (idxState : Addr) (txn : Option Addr) (record : Record) (f : Locals)
  | insertRecord (idxState : Addr) (txn : Option Addr) (k : Key) (payload : List UInt8)

/-- What a call returns and leaves in its arguments. -/
inductive Response where
  | registry (o : Outcome)
  | transaction (code : ErrCode) (txn : Option Addr)
  | get (code : Option ErrCode) (record : Record)
  | insertRecord (code : ErrCode) (k : Key)

namespace Session

def init : Session := ⟨.init, [], .init⟩

/-- What `txn` points to. -/
def txnAt (s : Session) (txn : Addr) : Except Fault Txn := orFault .badCast s.txns[txn]?

/-- `abortTransaction` and `commitTransaction`, which differ in what they print. -/
def finish (s : Session) (txn : Addr) : Except Fault (Response × Session) := do
  let txne ← s.txnAt txn
  return (.transaction .success none, { s with txns := s.txns.set txn { txne with status := -1 } })

def beginTransaction (s : Session) (rand : UInt32) : Response × Session :=
  (.transaction .success (some s.txns.length), { s with txns := s.txns ++ [⟨⟨rand⟩, 1⟩] })

def abortTransaction (s : Session) (txn : Addr) : Except Fault (Response × Session) := s.finish txn

def commitTransaction (s : Session) (txn : Addr) : Except Fault (Response × Session) := s.finish txn

/-- The transaction is read by its number, and only if the call gets that far; a pointer to none is
then as good as the null pointer. -/
def get (P : Templates) (s : Session) (idxState : Addr) (txn : Option Addr) (record : Record)
    (f : Locals) : Except Fault (Response × Session) := do
  let txne := txn.bind fun a => s.txns[a]?.map Txn.toTXNState
  let (code, server, record, memory) ← s.server.get P idxState txne record s.memory f
  return (.get code record, { s with server := server, memory := memory })

/-- `mykey` is a null pointer where the function tests it, so its switch is not reached. -/
def insertRecord (s : Session) (k : Key) : Except Fault (Response × Session) := do
  match ← insertRecordKey k s.memory with
  | (.error code, k, memory) => return (.insertRecord code k, { s with memory := memory })
  | (.ok _, _, _) => throw .assertFailed

def step (P : Templates) (s : Session) : Command → Except Fault (Response × Session)
  | .registry c => do
    let (o, server) ← s.server.serve c
    return (.registry o, { s with server := server })
  | .beginTransaction rand => .ok (s.beginTransaction rand)
  | .abortTransaction txn => s.abortTransaction txn
  | .commitTransaction txn => s.commitTransaction txn
  | .get idxState txn record f => s.get P idxState txn record f
  | .insertRecord _ _ k _ => s.insertRecord k

end Session

end NwtBTree
