import NwtBTree.Calls.Record
import NwtBTree.Machine.Run
import NwtBTree.Refine.Registry
import NwtBTree.Source.Interface

/-!
# Nothing is stored through the interface

`insertRecord` fails before it reaches a tree, and no other function of the interface
writes to one. So over any run every tree is as `create` made it, and `get` has no
payload to give.
-/

namespace NwtBTree

/-- As the constructor leaves it. -/
def Nbt.Fresh : Nbt → Prop
  | .short t => t = .init
  | .int t => t = .init
  | .varchar t => t = .init

namespace Session

/-- An insert fails. A `get` never says that a key is not there, and it leaves the payload alone or
empties it. -/
def Barren : Command → Response → Prop
  | .insertRecord .., r => ∃ k, r = .insertRecord .failure k
  | .get _ _ record _, r => ∃ code record', r = .get code record' ∧ code ≠ some .keyNotfound ∧
      (record'.payload = record.payload ∨ cString record'.payload.toList = some [])
  | _, _ => True

/-- The string that stands for no payload is empty. -/
def Plain (P : Templates) : Prop :=
  P.short.emptyData = [] ∧ P.int.emptyData = [] ∧ P.varchar.emptyData = []

variable {P : Templates} {s s' : Session} {c : Command} {r : Response}

theorem get_init {K : Type} [LinearOrder K] (P : Template K (List UInt8)) (k : K) :
    BTree.init.get P k = .ok (P.emptyData, false) := by
  simp [BTree.get, BTree.find, BTree.init]

theorem fresh_newTree {type : KeyType} {tree : Nbt} (h : type.newTree = some tree) :
    tree.Fresh := by
  cases type <;> cases h <;> rfl

/-- A call of the registry adds a new tree or none. -/
theorem trees_served {s s' : Server} {c : Call} {o : Outcome} (h : s.serve c = .ok (o, s'))
    (hs : ∀ tree ∈ s.trees, tree.Fresh) : ∀ tree ∈ s'.trees, tree.Fresh := by
  cases Server.served_iff.mp h with
  | created _ _ _ htype =>
    intro tree htree
    obtain htree | htree := List.mem_append.mp htree
    · exact hs tree htree
    · exact List.mem_singleton.mp htree ▸ fresh_newTree htype
  | _ => exact hs

theorem trees_afterSwitch {s s' : Server} {idxState : Addr} {state : STXDBState}
    {txn : Option TXNState} {record : Record}
    (h : s.afterSwitch idxState state txn record = .ok s') : s'.trees = s.trees := by
  obtain ⟨txne, -, e⟩ := bind_eq_ok.mp h
  cases e
  rfl

theorem nbt_mem {s : Server} {state : STXDBState} {tree : Nbt} (h : s.nbt state = .ok tree) :
    tree ∈ s.trees := by
  obtain ⟨a, -, e⟩ := bind_eq_ok.mp h
  cases ha : s.trees[a]? with
  | none => simp [ha, orFault] at e
  | some tree' =>
    simp only [ha, orFault, Except.ok.injEq] at e
    exact e ▸ List.mem_of_getElem? ha

/-- A copied empty string. -/
theorem cString_strcpy {payload p : Vector UInt8 101} (h : strcpy payload (cStr []) = .ok p) :
    cString p.toList = some [] := by
  obtain ⟨q, hq, hread⟩ := strcpy_cStr payload (d := []) (by simp [cStr])
  cases hq.symm.trans h
  simpa [cStr] using hread

theorem asShort_init {tree : Nbt} {t : BTree Int16 (List UInt8)} (h : tree.asShort = .ok t)
    (hf : tree.Fresh) : t = .init := by
  cases tree <;> cases h
  exact hf

theorem asInt_init {tree : Nbt} {t : BTree Int32 (List UInt8)} (h : tree.asInt = .ok t)
    (hf : tree.Fresh) : t = .init := by
  cases tree <;> cases h
  exact hf

/-- `get` on trees that are all empty. -/
theorem get_barren {s s' : Server} {idxState : Addr} {txn : Option TXNState} {record record' :
    Record} {m m' : Memory} {f : Locals} {code : Option ErrCode} (hP : Plain P)
    (hs : ∀ tree ∈ s.trees, tree.Fresh)
    (h : s.get P idxState txn record m f = .ok (code, s', record', m')) :
    s'.trees = s.trees ∧ code ≠ some .keyNotfound ∧
      (record'.payload = record.payload ∨ cString record'.payload.toList = some []) := by
  obtain ⟨hshort, hint, -⟩ := hP
  obtain ⟨state, hstate, h⟩ := bind_eq_ok.mp h
  cases htype : state.type with
  | short =>
    simp only [htype] at h
    obtain ⟨tree, htree, h⟩ := bind_eq_ok.mp h
    obtain ⟨shtree, hsh, h⟩ := bind_eq_ok.mp h
    obtain ⟨⟨k, key, m₁⟩, -, h⟩ := bind_eq_ok.mp h
    obtain ⟨ret, hret, h⟩ := bind_eq_ok.mp h
    obtain ⟨payload, hcopy, h⟩ := bind_eq_ok.mp h
    obtain ⟨s₁, hafter, h⟩ := bind_eq_ok.mp h
    cases h
    obtain rfl := asShort_init hsh (hs tree (nbt_mem htree))
    cases (get_init P.short k).symm.trans hret
    rw [hshort] at hcopy
    exact ⟨trees_afterSwitch hafter, nofun, .inr (cString_strcpy hcopy)⟩
  | int =>
    simp only [htype] at h
    obtain ⟨tree, htree, h⟩ := bind_eq_ok.mp h
    obtain ⟨intree, hin, h⟩ := bind_eq_ok.mp h
    obtain ⟨⟨k, key, m₁⟩, -, h⟩ := bind_eq_ok.mp h
    obtain ⟨ret, hret, h⟩ := bind_eq_ok.mp h
    obtain ⟨payload, hcopy, h⟩ := bind_eq_ok.mp h
    cases h
    obtain rfl := asInt_init hin (hs tree (nbt_mem htree))
    cases (get_init P.int k).symm.trans hret
    rw [hint] at hcopy
    exact ⟨rfl, nofun, .inr (cString_strcpy hcopy)⟩
  | varchar =>
    simp only [htype] at h
    obtain ⟨tree, -, h⟩ := bind_eq_ok.mp h
    obtain ⟨chtree, -, h⟩ := bind_eq_ok.mp h
    obtain ⟨⟨sk, key, m₁⟩, -, h⟩ := bind_eq_ok.mp h
    obtain ⟨ret, -, h⟩ := bind_eq_ok.mp h
    cases h
    exact ⟨rfl, nofun, .inl rfl⟩
  | other v =>
    simp only [htype] at h
    cases h
    exact ⟨rfl, nofun, .inl rfl⟩

/-- What one call does while the trees are as they were made. -/
theorem step_barren (hP : Plain P) (hs : ∀ tree ∈ s.server.trees, tree.Fresh)
    (h : s.step P c = .ok (r, s')) : (∀ tree ∈ s'.server.trees, tree.Fresh) ∧ Barren c r := by
  cases c with
  | registry c =>
    obtain ⟨⟨o, server⟩, hserve, h⟩ := bind_eq_ok.mp h
    cases h
    exact ⟨trees_served hserve hs, trivial⟩
  | beginTransaction rand =>
    cases h
    exact ⟨hs, trivial⟩
  | abortTransaction txn | commitTransaction txn =>
    obtain ⟨txne, -, h⟩ := bind_eq_ok.mp h
    cases h
    exact ⟨hs, trivial⟩
  | get idxState txn record f =>
    obtain ⟨⟨code, server, record', memory⟩, hget, h⟩ := bind_eq_ok.mp h
    cases h
    obtain ⟨htrees, hcode, hpayload⟩ := get_barren hP hs hget
    exact ⟨htrees ▸ hs, code, record', rfl, hcode, hpayload⟩
  | insertRecord idxState txn k payload =>
    obtain ⟨⟨code, k', memory⟩, hkey, h⟩ := bind_eq_ok.mp h
    obtain rfl := insertRecordKey_failure hkey
    cases h
    exact ⟨hs, k', rfl⟩

end Session

open Session

/-- In every run of the interface no tree is ever changed, every insert fails, and no `get` gives a
payload or says that a key is missing. -/
theorem interface_barren {P : Templates} {cs : List Command} {rs : List Response} {s : Session}
    (hP : Plain P) (h : run (step P) Session.init cs = .ok (rs, s)) :
    (∀ tree ∈ s.server.trees, tree.Fresh) ∧ ∀ p ∈ cs.zip rs, Barren p.1 p.2 := by
  have hinit : ∀ tree ∈ Session.init.server.trees, tree.Fresh := by
    simp [Session.init, Server.init]
  generalize Session.init = s₀ at h hinit
  induction cs generalizing s₀ rs with
  | nil =>
    simp only [run_nil, Except.ok.injEq, Prod.mk.injEq] at h
    obtain ⟨rfl, rfl⟩ := h
    exact ⟨hinit, by simp⟩
  | cons c cs ih =>
    obtain ⟨r, s₁, rs, hstep, hrest, rfl⟩ := run_cons_inv h
    obtain ⟨hs₁, hr⟩ := step_barren hP hinit hstep
    obtain ⟨hs', hrs⟩ := ih s₁ hrest hs₁
    refine ⟨hs', fun p hp => ?_⟩
    obtain rfl | hp := List.mem_cons.mp hp
    · exact hr
    · exact hrs p hp

/-- An index of integers is made and opened, a record is put in and looked up. -/
def oneRecord : List Command :=
  [.registry (.create .int "orders" true), .registry (.openIndex "orders"), .beginTransaction 5,
    .insertRecord 0 (some 0) intSeven.key [97], .get 0 (some 0) intSeven ⟨7, 7, none⟩]

theorem interface_barren_five : ∃ rs s, run (step .four) Session.init oneRecord = .ok (rs, s) ∧
    (∀ tree ∈ s.server.trees, tree.Fresh) ∧ ∀ p ∈ oneRecord.zip rs, Barren p.1 p.2 := by
  have h : ∃ rs s, run (step .four) Session.init oneRecord = .ok (rs, s) :=
    ⟨_, _, run_cons rfl (run_cons rfl (run_cons rfl (run_cons rfl (run_cons rfl (run_nil _)))))⟩
  obtain ⟨rs, s, h⟩ := h
  exact ⟨rs, s, h, interface_barren ⟨rfl, rfl, rfl⟩ h⟩

end NwtBTree
