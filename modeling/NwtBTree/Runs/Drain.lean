import NwtBTree.Runs.Mixed

/-!
# Erasing stored keys in any order

A tree is loaded in ascending order and then keys are erased. The keys of the tree
are followed exactly: what an `erase` must not do besides failing is to lose a
second key where two leaves are joined.
-/

namespace NwtBTree

variable {K D : Type} [LinearOrder K] {P : Template K D}

/-- A call that takes a pair away loses no other one. -/
def BTree.losesNone (P : Template K D) (t : BTree K D) (q : Request K D) : Except Fault Bool := do
  match ← t.target P q with
  | none => return true
  | some (a, ks) => t.joinsAll P a ks

section Step

variable [DecidableEq D] {t t' : BTree K D} {T T' : (n : Nat) × MTree K D n} {k : K}

/-- The key that is erased is the only one that goes. -/
theorem Kept.erase_stored (hP : P.Four) (h : Kept P t T)
    (hk : k ∈ allKeys LeafSlots.keys T.2.inorder) (hcan : t.canErase P k = .ok true)
    (hnone : t.losesNone P (.erase k) = .ok true) :
    ∃ (i : Nat) (t' : BTree K D) (T' : (m : Nat) × MTree K D m), t.erase P k = .ok ((i : Int), t') ∧
      Kept P t' T' ∧
      allKeys LeafSlots.keys T'.2.inorder = (allKeys LeafSlots.keys T.2.inorder).erase k := by
  rcases h.erase hP hcan with ⟨-, -, hnot⟩ | ⟨c, a, s, s', i, t', T', rfl, hc, e, htarget,
    hlive, hr⟩
  · exact absurd hk hnot
  · obtain ⟨hks, hkeys⟩ := hlive hk
    simp only [BTree.losesNone, BTree.target, htarget, ok_bind] at hnone
    exact ⟨i, t', T', e, h.removal hP hc hr,
      h.removal_keys hP hc hr hks hkeys (not_loses_of_joinsAll hP h.rep hr.less hnone)⟩

omit [DecidableEq D] in
/-- An insert behind all keys adds the key at the end. -/
theorem Change.allKeys_eq {q : Request K D} {g : List K} (hnew : q.newKey.isSome)
    (hkeys : allKeys LeafSlots.keys T.2.inorder = g) (hch : Change P t T q t' T') :
    allKeys LeafSlots.keys T'.2.inorder = g ++ q.newKey.toList := by
  cases hch with
  | none _ hn => simp [hn] at hnew
  | grown hn hx => rw [hx.keys, hkeys, hn, Option.toList_some]
  | shrunk hn _ _ _ _ => simp [hn] at hnew

end Step

variable [DecidableEq D]

/-- The inserts of `es`, then the erases of `ks`. -/
def loadThenErase (es : List (K × D)) (ks : List K) : List (Request K D) :=
  es.map (fun e => .insert e.1 e.2) ++ ks.map .erase

/-- Every `erase` answers a position, and the keys found afterwards are those that were inserted and
not erased. -/
def Drains (P : Template K D) (es : List (K × D)) (ks : List K) : Prop :=
  ∃ rs rs' t, run (BTree.perform P) BTree.init (loadThenErase es ks) = .ok (rs ++ rs', t) ∧
    rs.length = es.length ∧ (∀ r ∈ rs', ∃ i : Nat, r = .code i) ∧
    ∀ k, t.existsKey P k = .ok (decide (k ∈ es.map Prod.fst ∧ k ∉ ks))

/-- The keys of the state are `g`. -/
def Stores (P : Template K D) (g : List K) (t : BTree K D) : Prop :=
  (t.root = none ∧ g = []) ∨ ∃ T, Kept P t T ∧ allKeys LeafSlots.keys T.2.inorder = g

theorem Stores.erase (hP : P.Four) {g : List K} {t : BTree K D} (h : Stores P g t) {k : K}
    (hcond : k ∈ g ∧ t.canErase P k = .ok true ∧ t.losesNone P (.erase k) = .ok true) :
    ∃ r t', t.perform P (.erase k) = .ok (r, t') ∧ (∃ i : Nat, r = .code i) ∧
      Stores P (g.erase k) t' := by
  obtain ⟨hk, hcan, hnone⟩ := hcond
  rcases h with ⟨-, rfl⟩ | ⟨T, hkept, rfl⟩
  · simp at hk
  · obtain ⟨i, t', T', e, hkept', hkeys⟩ := hkept.erase_stored hP hk hcan hnone
    exact ⟨.code i, t', by rw [BTree.perform, e]; rfl, ⟨i, rfl⟩, .inr ⟨T', hkept', hkeys⟩⟩

omit [DecidableEq D] in
theorem Stores.existsKey (hP : P.Four) {g : List K} {t : BTree K D} (h : Stores P g t) (k : K) :
    t.existsKey P k = .ok (decide (k ∈ g)) := by
  rcases h with ⟨hroot, rfl⟩ | ⟨T, hkept, rfl⟩
  · simp [BTree.existsKey, BTree.find_none hroot]
  · rw [existsKey_iff hkept.rep hkept.order (hkept.fullLast hP), ← hkept.rep.allKeys_eq]

/-- Erases of stored keys, each of them once. -/
theorem Stores.erases (hP : P.Four) {ks g : List K} {t : BTree K D} (h : Stores P g t)
    (hg : g.Nodup)
    (hks : ks.Nodup) (hsub : ks ⊆ g)
    (hmeets : Meets (BTree.perform P) (fun (_ : Unit) _ => ())
      (fun _ t q => t.canPerform P q = .ok true ∧ t.losesNone P q = .ok true) () t
        (ks.map .erase)) :
    ∃ rs t' g', run (BTree.perform P) t (ks.map .erase) = .ok (rs, t') ∧
      (∀ r ∈ rs, ∃ i : Nat, r = .code i) ∧ Stores P g' t' ∧ ∀ x, x ∈ g' ↔ x ∈ g ∧ x ∉ ks := by
  induction ks generalizing g t with
  | nil => exact ⟨[], t, g, rfl, by simp, h, by simp⟩
  | cons k ks ih =>
    obtain ⟨hcond, hrest⟩ := hmeets
    obtain ⟨hnew, hks⟩ := List.nodup_cons.mp hks
    obtain ⟨r, t₁, e, hr, h₁⟩ := h.erase hP ⟨hsub List.mem_cons_self, hcond⟩
    have hsub₁ : ks ⊆ g.erase k := fun x hx => by
      rw [hg.mem_erase_iff]
      exact ⟨fun heq => hnew (heq ▸ hx), hsub (List.mem_cons_of_mem k hx)⟩
    obtain ⟨rs, t', g', e', hrs, h', hmem⟩ := ih h₁ (hg.erase k) hks hsub₁ (hrest r t₁ e)
    refine ⟨r :: rs, t', g', run_cons e e', ?_, h', fun x => ?_⟩
    · rintro x (_ | ⟨_, hx⟩)
      · exact hr
      · exact hrs x hx
    · rw [hmem, hg.mem_erase_iff, List.mem_cons, not_or]
      tauto

omit [LinearOrder K] [DecidableEq D] in
theorem filterMap_inserts (es : List (K × D)) :
    (es.map fun e => Request.insert e.1 e.2).filterMap Request.newKey = es.map Prod.fst := by
  induction es with
  | nil => rfl
  | cons e es ih => exact congrArg (e.1 :: ·) ih

/-- Loading keys in ascending order. -/
theorem stores_load (hP : P.Four) (es : List (K × D)) (hasc : (es.map Prod.fst).Pairwise (· < ·)) :
    ∃ rs t, run (BTree.perform P) BTree.init (es.map fun e => .insert e.1 e.2) = .ok (rs, t) ∧
      rs.length = es.length ∧ Stores P (es.map Prod.fst) t := by
  have hcond : EachCall P (fun _ q => q.newKey.isSome) (es.map fun e => .insert e.1 e.2) := by
    refine Meets.of_forall fun q hq _ _ => ?_
    obtain ⟨e, -, rfl⟩ := List.mem_map.mp hq
    rfl
  obtain ⟨rs, t, e, hT⟩ := tended_run
    (R := fun g _ T => allKeys LeafSlots.keys T.2.inorder = g) hP (fun {t q} hq => by
      cases q <;> first | rfl | simp [Request.newKey] at hq)
    First.keys (fun _ hR hq hch => hch.allKeys_eq hq hR)
    (by rw [AscendingKeys, filterMap_inserts]; exact hasc) hcond
  rw [filterMap_inserts] at hT
  refine ⟨rs, t, e, by rw [run_length e, List.length_map], ?_⟩
  generalize es.map Prod.fst = g at hT
  cases hT with
  | empty hroot _ => exact .inl ⟨hroot, rfl⟩
  | kept hkept _ _ hR => exact .inr ⟨_, hkept, hR⟩

theorem drains (hinner : P.nodeslots = 4) (hleaf : P.leafslots = 4) {es : List (K × D)}
    {ks : List K}
    (hasc : (es.map Prod.fst).Pairwise (· < ·)) (hks : ks.Nodup) (hsub : ks ⊆ es.map Prod.fst)
    (h : EachCall P (fun t q => t.canPerform P q = .ok true ∧ t.losesNone P q = .ok true)
      (loadThenErase es ks)) : Drains P es ks := by
  have hP : P.Four := ⟨hinner, hleaf⟩
  obtain ⟨rs, t, e, hlen, hstores⟩ := stores_load hP _ hasc
  obtain ⟨rs', t', g', e', hrs, h', hmem⟩ := hstores.erases hP (hasc.imp ne_of_lt) hks hsub
    ((Meets.append h).2 rs t e)
  refine ⟨rs, rs', t', run_append e e', hlen, hrs, fun k => ?_⟩
  rw [h'.existsKey hP]
  simp only [hmem]

theorem drains_three : Drains (Template.plain 4)
    [(1, 10), (2, 20), (3, 30), (4, 40), (5, 50), (6, 60), (7, 70)] [2, 7, 4] :=
  drains rfl rfl (by decide) (by decide) (by decide) (show EachCall _ _ _ from by
    unfold EachCall; decide +kernel)

/-- The leaf of `1` and `2` gets `4` from its right sibling, whose separator is still `3`. -/
theorem not_drains : ¬Drains (Template.plain 4)
    [(1, 10), (2, 20), (3, 30), (4, 40), (5, 50), (6, 60)] [3, 1] := by
  rintro ⟨rs, rs', t, e, -, -, hfound⟩
  have h : (do
      let (_, t) ← run (BTree.perform (Template.plain 4)) BTree.init
        (loadThenErase [(1, 10), (2, 20), (3, 30), (4, 40), (5, 50), (6, 60)] [3, 1])
      t.existsKey (Template.plain 4) 4) = .ok false := by decide +kernel
  rw [e, ok_bind] at h
  cases (hfound 4).symm.trans h

end NwtBTree
