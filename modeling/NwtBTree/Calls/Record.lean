import Mathlib.Data.List.TakeWhile
import NwtBTree.Calls.KeyData
import NwtBTree.Refine.Content

/-!
# Records looked up through the interface

What `get` answers, compared with what the tree of the index says of the record's
key. The key of a tree is what a conversion makes of the record's key; nothing is
assumed of the conversion.
-/

namespace NwtBTree

/-- Some leaf of the tree holds the payload `d` under the key `k`. -/
def BTree.Stores {K D : Type} (t : BTree K D) (k : K) (d : D) : Prop :=
  ∃ n a l, t.Reachable n a ∧ t.leaf a = .ok l ∧ (k, d) ∈ l.entries

/-- A conversion of keys for each of the trees. -/
structure Conversion where
  short : Key → Int16
  int : Key → Int32
  varchar : Key → List UInt8

namespace Nbt

def type : Nbt → KeyType
  | .short _ => .short
  | .int _ => .int
  | .varchar _ => .varchar

/-- The tree's own `get`. -/
def get (P : Templates) (N : Conversion) (k : Key) : Nbt → Except Fault (List UInt8 × Bool)
  | .short t => t.get P.short (N.short k)
  | .int t => t.get P.int (N.int k)
  | .varchar t => t.get P.varchar (N.varchar k)

def Stores (N : Conversion) (k : Key) (d : List UInt8) : Nbt → Prop
  | .short t => t.Stores (N.short k) d
  | .int t => t.Stores (N.int k) d
  | .varchar t => t.Stores (N.varchar k) d

end Nbt

/-- The number `idxState` names an open handle of an index with this tree. -/
def Server.Handle (s : Server) (idxState : Addr) (tree : Nbt) : Prop :=
  ∃ state a, s.states[idxState]? = some state ∧ state.nbt = some a ∧ s.trees[a]? = some tree ∧
    state.type = tree.type

/-- The answer `r` for `record` is `SUCCESS` with a payload stored under the key if the tree finds
one, and `KEY_NOTFOUND` with the payload left alone if it does not. -/
def Agrees (P : Templates) (N : Conversion) (tree : Nbt) (record : Record)
    (r : Except Fault (Option ErrCode × Server × Record × Memory)) : Prop :=
  (∀ d, tree.get P N record.key = .ok (d, true) → ∃ s' record' m' d',
    r = .ok (some .success, s', record', m') ∧ tree.Stores N record.key d' ∧
      cString record'.payload.toList = some (cStr d')) ∧
  ∀ d, tree.get P N record.key = .ok (d, false) → ∃ s' record' m',
    r = .ok (some .keyNotfound, s', record', m') ∧ record'.payload = record.payload

variable {P : Templates} {N : Conversion} {s : Server} {idxState : Addr} {tree : Nbt}
  {txn : Option TXNState} {record : Record} {m : Memory} {f : Locals}

theorem cString_append {as bs : List UInt8} (h : ∀ b ∈ as, b ≠ 0) :
    cString (as ++ 0 :: bs) = some as := by
  induction as with
  | nil => simp [cString]
  | cons a as ih =>
    have ha : a ≠ 0 := h a List.mem_cons_self
    simp [cString, ha, ih fun b hb => h b (List.mem_cons_of_mem _ hb)]

/-- What is copied is read back. -/
theorem strcpy_cStr (payload : Vector UInt8 101) {d : List UInt8} (h : (cStr d).length < 101) :
    ∃ p, strcpy payload (cStr d) = .ok p ∧ cString p.toList = some (cStr d) := by
  refine ⟨_, dif_pos h, ?_⟩
  refine cString_append fun b hb => ?_
  simpa using List.mem_takeWhile_imp hb

theorem lt_of_strcpy {payload p : Vector UInt8 101} {d : List UInt8}
    (h : strcpy payload d = .ok p) : d.length < 101 := by
  by_contra hge
  simp [strcpy, hge] at h

namespace Server

/-- The handle is looked up before anything else. -/
theorem nbt_of_handle {state : STXDBState} {a : Addr} (hnbt : state.nbt = some a)
    (htree : s.trees[a]? = some tree) : s.nbt state = .ok tree := by
  simp [Server.nbt, hnbt, htree, deref, orFault]

/-- The `SHORT` branch leaves its switch and runs to the end of the function. -/
theorem get_short {t : BTree Int16 (List UInt8)} (h : s.Handle idxState (.short t))
    {r : Option ErrCode × Server × Record × Memory}
    (e : s.get P idxState txn record m f = .ok r) : r.1 = none := by
  obtain ⟨state, a, hstate, hnbt, htree, htype⟩ := h
  simp only [Server.get, hstate, orFault, ok_bind, htype, Nbt.type, nbt_of_handle hnbt htree,
    Nbt.asShort] at e
  obtain ⟨⟨k, key, m'⟩, -, e⟩ := bind_eq_ok.mp e
  obtain ⟨ret, -, e⟩ := bind_eq_ok.mp e
  obtain ⟨payload, -, e⟩ := bind_eq_ok.mp e
  obtain ⟨s', -, e⟩ := bind_eq_ok.mp e
  cases e
  rfl

theorem get_varchar {t : BTree (List UInt8) (List UInt8)} (h : s.Handle idxState (.varchar t))
    (hf : f.varchar = none) : ∃ e, s.get P idxState txn record m f = .error e := by
  obtain ⟨state, a, hstate, hnbt, htree, htype⟩ := h
  obtain ⟨e, he⟩ := varcharKey_null (k := record.key) (m := m) hf
  refine ⟨e, ?_⟩
  simp only [Server.get, hstate, orFault, ok_bind, htype, Nbt.type, nbt_of_handle hnbt htree,
    Nbt.asVarchar, he]
  rfl

/-- The `INT` branch looks up what its local held, and returns `SUCCESS`. -/
theorem get_int {t : BTree Int32 (List UInt8)} (h : s.Handle idxState (.int t))
    (hk : record.key.type = .int) : s.get P idxState txn record m f = (do
      let ret ← t.get P.int f.int
      let payload ← strcpy record.payload (cStr ret.1)
      return (some .success, s,
        ⟨{ record.key with keyval := record.key.keyval.setIntData }, payload⟩,
        (m.alloc (List.replicate 4 none)).alloc (List.replicate 4 none))) := by
  obtain ⟨state, a, hstate, hnbt, htree, htype⟩ := h
  simp only [Server.get, hstate, orFault, ok_bind, htype, Nbt.type, nbt_of_handle hnbt htree,
    Nbt.asInt, intKey_eq hk]

/-- With an index of type `INT` the code agrees exactly where the key is stored and what the tree
gives for the local is a payload stored under it. -/
theorem agrees_int {t : BTree Int32 (List UInt8)} (h : s.Handle idxState (.int t))
    (hk : record.key.type = .int) (hget : ∃ r, t.get P.int (N.int record.key) = .ok r) :
    Agrees P N (.int t) record (s.get P idxState txn record m f) ↔
      (∃ d, t.get P.int (N.int record.key) = .ok (d, true)) ∧
      ∃ d b d', t.get P.int f.int = .ok (d, b) ∧ (cStr d).length < 101 ∧
        t.Stores (N.int record.key) d' ∧ cStr d = cStr d' := by
  rw [get_int h hk]
  constructor
  · rintro ⟨hfound, hmissing⟩
    obtain ⟨⟨d, b⟩, hd⟩ := hget
    cases b with
    | false =>
      obtain ⟨s', record', m', e, -⟩ := hmissing d hd
      obtain ⟨ret, -, e⟩ := bind_eq_ok.mp e
      obtain ⟨payload, -, e⟩ := bind_eq_ok.mp e
      cases e
    | true =>
      obtain ⟨s', record', m', d', e, hstored, hpayload⟩ := hfound d hd
      obtain ⟨⟨q, b⟩, hq, e⟩ := bind_eq_ok.mp e
      obtain ⟨payload, hcopy, e⟩ := bind_eq_ok.mp e
      cases e
      have hlt := lt_of_strcpy hcopy
      obtain ⟨p, hp, hread⟩ := strcpy_cStr record.payload hlt
      cases hp.symm.trans hcopy
      exact ⟨⟨d, hd⟩, q, b, d', hq, hlt, hstored, Option.some.inj (hread.symm.trans hpayload)⟩
  · rintro ⟨⟨d, hd⟩, q, b, d', hq, hlt, hstored, hsame⟩
    obtain ⟨p, hp, hread⟩ := strcpy_cStr record.payload hlt
    rw [hq, ok_bind, hp, ok_bind]
    refine ⟨fun _ _ => ?_, fun d₀ hd₀ => ?_⟩
    · exact ⟨_, _, _, d', rfl, hstored, hread.trans (congrArg some hsame)⟩
    · cases hd.symm.trans hd₀

end Server

open Server

/-- `get` agrees with the tree, whatever the memory and its locals hold, exactly for an index of
type `INT` and a key that is stored in it, if whatever key the tree is asked for it gives a payload
stored under that key. -/
theorem get_agrees (h : s.Handle idxState tree) (hk : record.key.type = tree.type)
    (hget : ∃ r, tree.get P N record.key = .ok r) :
    (∀ m f, Agrees P N tree record (s.get P idxState txn record m f)) ↔
      ∃ t, tree = .int t ∧ (∃ d, t.get P.int (N.int record.key) = .ok (d, true)) ∧
        ∀ x, ∃ d b d', t.get P.int x = .ok (d, b) ∧ (cStr d).length < 101 ∧
          t.Stores (N.int record.key) d' ∧ cStr d = cStr d' := by
  cases tree with
  | short t =>
    refine iff_of_false (fun hall => ?_) nofun
    obtain ⟨hfound, hmissing⟩ := hall .init ⟨0, 0, none⟩
    obtain ⟨⟨d, b⟩, hd⟩ := hget
    cases b with
    | false =>
      obtain ⟨s', record', m', e, -⟩ := hmissing d hd
      exact absurd (get_short h e) nofun
    | true =>
      obtain ⟨s', record', m', d', e, -⟩ := hfound d hd
      exact absurd (get_short h e) nofun
  | varchar t =>
    refine iff_of_false (fun hall => ?_) nofun
    obtain ⟨hfound, hmissing⟩ := hall .init ⟨0, 0, none⟩
    have hnull : ∃ e, s.get P idxState txn record .init ⟨0, 0, none⟩ = .error e :=
      get_varchar h rfl
    obtain ⟨fault, hfault⟩ := hnull
    rw [hfault] at hfound hmissing
    obtain ⟨⟨d, b⟩, hd⟩ := hget
    cases b with
    | false =>
      obtain ⟨s', record', m', e, -⟩ := hmissing d hd
      cases e
    | true =>
      obtain ⟨s', record', m', d', e, -⟩ := hfound d hd
      cases e
  | int t =>
    constructor
    · intro hall
      refine ⟨t, rfl, ((agrees_int h hk hget).mp (hall .init ⟨0, 0, none⟩)).1, fun x => ?_⟩
      exact ((agrees_int h hk hget).mp (hall .init ⟨0, x, none⟩)).2
    · rintro ⟨t', ht, hfound, hall⟩ m f
      cases ht
      exact (agrees_int h hk hget).mpr ⟨hfound, hall f.int⟩

section Sample

/-- Four slots to a node, as the interface has it. -/
def Templates.four : Templates where
  short := ⟨4, 4, fun _ _ => 0, [], []⟩
  int := ⟨4, 4, fun _ _ => 0, [], []⟩
  varchar := ⟨4, 4, fun _ _ => [], [], []⟩

/-- The key of the tree is the plain value. -/
def Conversion.plain : Conversion where
  short k := k.keyval.shortkey.toInt16
  int k := k.keyval.intkey.toInt32
  varchar k := (cString k.keyval.charkey).getD []

/-- An index of type `INT` after its creation, and a handle of it. -/
def newIndex : Server :=
  ⟨false, true, [⟨"orders", 0, .int, 1, 0⟩], [.int .init],
    [⟨some 0, .int, "orders", 0, .zero, 0, 0⟩]⟩

theorem newIndex_handle : newIndex.Handle 0 (.int .init) := ⟨_, 0, rfl, rfl, rfl, rfl⟩

def intSeven : Record :=
  ⟨⟨.int, (Vector.replicate 136 0).setIfInBounds 0 7⟩, Vector.replicate 101 0⟩

theorem get_agrees_new :
    (∀ m f, Agrees .four .plain (.int .init) intSeven
      (newIndex.get .four 0 none intSeven m f)) ↔
    ∃ t, Nbt.int .init = .int t ∧
      (∃ d, t.get Templates.four.int (Conversion.plain.int intSeven.key) = .ok (d, true)) ∧
      ∀ x, ∃ d b d', t.get Templates.four.int x = .ok (d, b) ∧ (cStr d).length < 101 ∧
        t.Stores (Conversion.plain.int intSeven.key) d' ∧ cStr d = cStr d' :=
  get_agrees newIndex_handle rfl ⟨_, rfl⟩

/-- In an empty index `get` returns `SUCCESS`. -/
theorem not_get_agrees : ¬∀ m f, Agrees .four .plain (.int .init) intSeven
    (newIndex.get .four 0 none intSeven m f) := by
  intro h
  obtain ⟨s', record', m', e, -⟩ := (h .init ⟨0, 0, none⟩).2 [] rfl
  have hcode : (newIndex.get .four 0 none intSeven .init ⟨0, 0, none⟩).map (·.1) =
      .ok (some .success) := rfl
  rw [e] at hcode
  cases hcode

end Sample

end NwtBTree
