import NwtBTree.Refine.Drainable
import NwtBTree.Runs.Drain

/-!
# Erasing all copies of a key

A tree is loaded with keys that may be repeated, and then one of them is erased again
and again. Equal keys can lie in several leaves while the search for them ends at one:
what an `erase` must not do is to empty this leaf of the key and leave it there.
-/

namespace NwtBTree

variable {K D : Type} [LinearOrder K] {P : Template K D}

namespace BTree

/-- `erase` of `k` balances the leaf that lost the pair, and the other copies of `k` can be found
afterwards. Where there is no `k`, no unused slot is taken for one. -/
def takesOne (P : Template K D) (t : BTree K D) (k : K) : Except Fault Bool := do
  match ← t.find P k with
  | none => return true
  | some a =>
    let l ← t.leaf a
    if k ∈ l.keys then
      let ks := l.keys.erase k
      if ← t.tellsPair P a ks then t.keepsSight P k a ks else return false
    else return decide (l.beyond ≠ some k)

/-- A call does not mix up pairs with the same key. -/
def keepsApart [DecidableEq D] (P : Template K D) (t : BTree K D) :
    Request K D → Except Fault Bool
  | .insert k d => t.takesPair P k d
  | .erase k => t.takesOne P k
  | _ => .ok true

end BTree

variable [DecidableEq D] {t : BTree K D} {T : (n : Nat) × MTree K D n} {k : K}

/-- One of the keys goes, as long as there is one. -/
theorem Drainable.erase_stored (hP : P.Four) (h : Drainable P t k T)
    (hk : k ∈ allKeys LeafSlots.keys T.2.inorder) (hcan : t.canErase P k = .ok true)
    (hnone : t.losesNone P (.erase k) = .ok true) (hone : t.takesOne P k = .ok true) :
    ∃ (i : Nat) (t' : BTree K D) (T' : (m : Nat) × MTree K D m), t.erase P k = .ok ((i : Int), t') ∧
      Drainable P t' k T' ∧ (allKeys LeafSlots.keys T'.2.inorder).count k + 1 =
        (allKeys LeafSlots.keys T.2.inorder).count k := by
  obtain ⟨c, a, s, rfl, hc, hr, hfind, hmem, hsmall⟩ := h.find hP
  have hks := hmem hk
  have hleaf := BTree.leaf_eq h.leaf.1
  simp only [BTree.canErase, hfind, ok_bind, hleaf, if_pos (Or.inl hks)] at hcan
  simp only [BTree.losesNone, BTree.target, BTree.eraseTarget, hfind, ok_bind, hleaf,
    if_pos hks] at hnone
  simp only [BTree.takesOne, hfind, ok_bind, hleaf, if_pos hks] at hone
  obtain ⟨b, htells, hone⟩ := bind_eq_ok.mp hone
  cases b with
  | false => simp [pure, Except.pure] at hone
  | true => exact h.erase_leaf hP hc hr hfind hks hsmall hcan hnone htells hone

/-- Then there is none. -/
theorem Drainable.erase_gone (hP : P.Four) (h : Drainable P t k T)
    (hk : k ∉ allKeys LeafSlots.keys T.2.inorder) (hcan : t.canErase P k = .ok true)
    (hone : t.takesOne P k = .ok true) : t.erase P k = .ok (-1, t) := by
  obtain ⟨c, a, s, rfl, hc, -, hfind, -, -⟩ := h.find hP
  have hks : k ∉ s.keys := fun hks => hk (by
    rw [Ctx.inorder_fill_leaf hc]
    simp [hks])
  have hleaf := BTree.leaf_eq h.leaf.1
  simp only [BTree.takesOne, hfind, ok_bind, hleaf, if_neg hks] at hone
  have hbeyond := of_decide_eq_true (Except.ok.inj hone)
  simp only [BTree.canErase, hfind, ok_bind, hleaf] at hcan
  rw [if_neg (not_or.mpr ⟨hks, fun h => hbeyond h.2⟩)] at hcan
  exact h.erase_miss hfind hks (of_decide_eq_true (Except.ok.inj hcan)).1 hbeyond

/-- `n` erases of `k` answer a position and the next one `-1`; `exists` is true as long as there is
something to erase. -/
def Drained (P : Template K D) (k : K) : Nat → BTree K D → Prop
  | 0, t => t.existsKey P k = .ok false ∧ ∃ t', t.erase P k = .ok (-1, t')
  | n + 1, t => t.existsKey P k = .ok true ∧
      ∃ (i : Nat) (t' : BTree K D), t.erase P k = .ok ((i : Int), t') ∧ Drained P k n t'

/-- All inserts succeed, and the copies of `k` can be erased one after the other. -/
def DrainsRepeated (P : Template K D) (es : List (K × D)) (k : K) : Prop :=
  ∃ rs t, run (BTree.perform P) BTree.init (es.map fun e => .insert e.1 e.2) = .ok (rs, t) ∧
    (∀ r ∈ rs, r = .code 1) ∧ Drained P k ((es.map Prod.fst).count k) t

/-- The keys of the state, which may be repeated, are `g`. -/
def Carries (P : Template K D) (g : List K) (t : BTree K D) : Prop :=
  (t.root = none ∧ t.totalkeycount = 0 ∧ g = []) ∨
    ∃ T, Laden P t T ∧ allKeys LeafSlots.keys T.2.inorder = g

theorem Carries.insert (hP : P.Four) {g : List K} (h : Carries P g t) (hk : ∀ x ∈ g, x ≤ k) {d : D}
    (htakes : t.takesPair P k d = .ok true) :
    ∃ t', t.insert P k d = .ok (1, t') ∧ Carries P (g ++ [k]) t' := by
  rcases h with ⟨hroot, hzero, rfl⟩ | ⟨T, hladen, rfl⟩
  · obtain ⟨t', T', e, h', hkeys⟩ := laden_first (by rw [hP.leafnodemax]; decide) hroot hzero k d
    exact ⟨t', e, .inr ⟨T', h', hkeys⟩⟩
  · obtain ⟨t', T', e, h', hkeys⟩ := hladen.push hP hk htakes
    exact ⟨t', e, .inr ⟨T', h', hkeys⟩⟩

/-- Loading keys that do not descend. -/
theorem Carries.load (hP : P.Four) {es : List (K × D)} {g : List K} {t : BTree K D}
    (h : Carries P g t) (hasc : (g ++ es.map Prod.fst).Pairwise (· ≤ ·))
    (hmeets : Meets (BTree.perform P) (fun (_ : Unit) _ => ())
      (fun _ t q => t.canPerform P q = .ok true ∧ t.losesNone P q = .ok true ∧
        t.keepsApart P q = .ok true) () t (es.map fun e => .insert e.1 e.2)) :
    ∃ rs t', run (BTree.perform P) t (es.map fun e => .insert e.1 e.2) = .ok (rs, t') ∧
      (∀ r ∈ rs, r = .code 1) ∧ Carries P (g ++ es.map Prod.fst) t' := by
  induction es generalizing g t with
  | nil => exact ⟨[], t, rfl, by simp, by simpa using h⟩
  | cons e es ih =>
    obtain ⟨⟨-, -, htakes⟩, hrest⟩ := hmeets
    rw [List.map_cons, ← List.singleton_append, ← List.append_assoc] at hasc
    have hle : ∀ x ∈ g, x ≤ e.1 := fun x hx =>
      (List.pairwise_append.mp (List.pairwise_append.mp hasc).1).2.2 x hx e.1 (by simp)
    obtain ⟨t₁, e₁, h₁⟩ := h.insert hP hle htakes
    have hstep : t.perform P (.insert e.1 e.2) = .ok (.code 1, t₁) := by
      rw [BTree.perform, e₁]
      rfl
    obtain ⟨rs, t', e₂, hrs, h'⟩ := ih h₁ hasc (hrest _ t₁ hstep)
    exact ⟨.code 1 :: rs, t', run_cons hstep e₂, List.forall_mem_cons.mpr ⟨rfl, hrs⟩,
      by simpa using h'⟩

/-- The copies of a key are erased. -/
theorem Drainable.drained (hP : P.Four) {n : Nat} {t : BTree K D} {T : (n : Nat) × MTree K D n}
    (h : Drainable P t k T) (hn : (allKeys LeafSlots.keys T.2.inorder).count k = n)
    (hmeets : Meets (BTree.perform P) (fun (_ : Unit) _ => ())
      (fun _ t q => t.canPerform P q = .ok true ∧ t.losesNone P q = .ok true ∧
        t.keepsApart P q = .ok true) () t ((List.replicate (n + 1) k).map .erase)) :
    Drained P k n t := by
  induction n generalizing t T with
  | zero =>
    obtain ⟨⟨hcan, -, hone⟩, -⟩ := hmeets
    have hk := List.count_eq_zero.mp hn
    exact ⟨by rw [h.existsKey hP, decide_eq_false hk], t, h.erase_gone hP hk hcan hone⟩
  | succ n ih =>
    obtain ⟨⟨hcan, hnone, hone⟩, hrest⟩ := hmeets
    have hk : k ∈ allKeys LeafSlots.keys T.2.inorder := List.count_pos_iff.mp (by omega)
    obtain ⟨i, t', T', e, h', hcount⟩ := h.erase_stored hP hk hcan hnone hone
    refine ⟨by rw [h.existsKey hP, decide_eq_true hk], i, t', e, ih h' (by omega) ?_⟩
    exact hrest (.code i) t' (by rw [BTree.perform, e]; rfl)

theorem drains_repeated (hinner : P.nodeslots = 4) (hleaf : P.leafslots = 4) {es : List (K × D)}
    {k : K} (hasc : (es.map Prod.fst).Pairwise (· ≤ ·))
    (h : EachCall P (fun t q => t.canPerform P q = .ok true ∧ t.losesNone P q = .ok true ∧
      t.keepsApart P q = .ok true)
        (loadThenErase es (List.replicate ((es.map Prod.fst).count k + 1) k))) :
    DrainsRepeated P es k := by
  have hP : P.Four := ⟨hinner, hleaf⟩
  obtain ⟨hload, hrest⟩ := Meets.append h
  obtain ⟨rs, t, e, hrs, hcarries⟩ :=
    Carries.load (g := []) hP (.inl ⟨rfl, rfl, rfl⟩) (by simpa using hasc) hload
  refine ⟨rs, t, e, hrs, ?_⟩
  rcases hcarries with ⟨hroot, -, hnil⟩ | ⟨T, hladen, hkeys⟩
  · rw [show es.map Prod.fst = [] by simpa using hnil]
    refine ⟨?_, t, ?_⟩
    · simp [BTree.existsKey, BTree.find_none hroot]
    · simp [BTree.erase, BTree.find_none hroot]
  · exact (hladen.drainable k).drained hP (by rw [hkeys, List.nil_append]) (hrest rs t e)

/-- The copies lie in three leaves. -/
theorem drains_repeated_five : DrainsRepeated (Template.plain 4)
    [(1, 10), (2, 20), (2, 21), (2, 22), (2, 23), (2, 24), (3, 30)] 2 :=
  drains_repeated rfl rfl (by decide) (show EachCall _ _ _ from by
    unfold EachCall; decide +kernel)

/-- The slot behind the last pair still has the key. -/
theorem not_drains_repeated : ¬DrainsRepeated (Template.plain 4) [(5, 1)] 5 := by
  rintro ⟨rs, t, e, -, -, i, t', e', -, t'', e''⟩
  have h : (do
      let (_, t) ← run (BTree.perform (Template.plain 4)) BTree.init [.insert 5 1]
      let (_, t) ← t.erase (Template.plain 4) 5
      let (i, _) ← t.erase (Template.plain 4) 5
      return i) = .ok 0 := by decide +kernel
  rw [List.map_singleton] at e
  simp only [e, ok_bind, e', e''] at h
  cases h

end NwtBTree
