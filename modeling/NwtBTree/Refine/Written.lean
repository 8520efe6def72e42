import NwtBTree.Refine.View
import NwtBTree.Source.Erase

/-!
# What a finished call has written

The operations on inner nodes leave the other nodes as they are, whatever they find in the
heap. In particular the slots of a leaf stay where no node is freed.
-/

namespace NwtBTree

namespace BTree

variable {K D : Type} {t t' : BTree K D} {a b : Addr} {k : K}

theorem body_of_setLeaf {s : LeafSlots K D}
    (h : t.setLeaf a s = .ok t') :
    t'.view.body = Function.update t.view.body a (some (.leaf s)) := by
  obtain ⟨l, hl, -⟩ := bind_eq_ok.mp h
  obtain ⟨u, e, v⟩ := setLeaf_view (body_of_leaf hl).1 s
  obtain rfl : u = t' := by simpa [e] using h
  rw [v]
  rfl

theorem body_of_setInner {s : InnerSlots K} (h : t.setInner a s = .ok t') :
    t'.view.body = Function.update t.view.body a (some (.inner s)) := by
  obtain ⟨n, hn, -⟩ := bind_eq_ok.mp h
  obtain ⟨u, e, v⟩ := setInner_view (body_of_inner hn) s
  obtain rfl : u = t' := by simpa [e] using h
  rw [v]
  rfl

theorem body_of_setParent {q : Option Addr} (h : t.setParent a q = .ok t') :
    t'.view.body = t.view.body := by
  obtain ⟨n, hn, -⟩ := bind_eq_ok.mp h
  obtain ⟨u, e, v⟩ := setParent_view (body_of_node hn) q
  obtain rfl : u = t' := by simpa [e] using h
  rw [v, View.body_setPar]

theorem body_of_linkLeaves {d l : Option Addr} (h : t.linkLeaves d l = .ok t') :
    t'.view.body = t.view.body := by
  cases d with
  | none => simp [linkLeaves, deref] at h
  | some d =>
    cases l with
    | none => simp [linkLeaves, deref] at h
    | some l =>
      have hleaves : ∃ s s', t.view.body d = some (.leaf s) ∧ t.view.body l = some (.leaf s') := by
        simp only [linkLeaves, deref, ok_bind] at h
        obtain ⟨u, hu, h⟩ := bind_eq_ok.mp h
        obtain ⟨m, hm, hu⟩ := bind_eq_ok.mp hu
        have hl := (body_of_leaf hm).1
        obtain ⟨u', e, v⟩ := setPrevLeaf_view hl (some d)
        obtain rfl : u' = u := by
          simp only [setPrevLeaf, hm, ok_bind] at e
          exact Except.ok.inj (e.symm.trans hu)
        obtain ⟨m', hm', -⟩ := bind_eq_ok.mp h
        have hd := (body_of_leaf hm').1
        rw [v, View.body_setLinks] at hd
        exact ⟨_, _, hd, hl⟩
      obtain ⟨s, s', hd, hl⟩ := hleaves
      obtain ⟨u, e, v⟩ := linkLeaves_view hd hl
      obtain rfl : u = t' := by simpa [e] using h
      rw [v, View.body_setLinks]

theorem body_of_linkNeighbours {cs : List (Option Addr)} {num i : Nat} {c : Option Addr}
    (h : t.linkNeighbours cs num c i = .ok t') : t'.view.body = t.view.body := by
  obtain ⟨u, hu, h⟩ := bind_eq_ok.mp h
  have hleft : u.view.body = t.view.body := by
    split at hu
    · obtain ⟨c', -, hu⟩ := bind_eq_ok.mp hu
      exact body_of_linkLeaves hu
    · obtain rfl := Except.ok.inj hu
      rfl
  rw [← hleft]
  split at h
  · obtain ⟨c', -, h⟩ := bind_eq_ok.mp h
    exact body_of_linkLeaves h
  · obtain rfl := Except.ok.inj h
    rfl

/-- One child more at the most, and other nodes stay. -/
theorem body_of_insertChildAt {c : Option Addr} {i : Nat} (h : t.insertChildAt a c i = .ok t') :
    (∀ b, b ≠ a → t'.view.body b = t.view.body b) ∧
      ∃ s s', t.view.body a = some (.inner s) ∧ t'.view.body a = some (.inner s') ∧
        s'.numChildren ≤ s.numChildren + 1 := by
  obtain ⟨⟨r, u⟩, hu, h⟩ := bind_eq_ok.mp h
  obtain rfl : u = t' := Except.ok.inj h
  simp only [insertInnerNodeChildAt] at hu
  obtain ⟨d, hd, hu⟩ := bind_eq_ok.mp hu
  have hbody := body_of_inner hd
  split at hu
  · simp only [pure_eq_ok, Except.ok.injEq, Prod.mk.injEq] at hu
    obtain ⟨-, rfl⟩ := hu
    exact ⟨fun b _ => rfl, _, _, hbody, hbody, by omega⟩
  · obtain ⟨cs, -, hu⟩ := bind_eq_ok.mp hu
    obtain ⟨cs', -, hu⟩ := bind_eq_ok.mp hu
    obtain ⟨c', -, hu⟩ := bind_eq_ok.mp hu
    obtain ⟨t1, h1, hu⟩ := bind_eq_ok.mp hu
    obtain ⟨t2, h2, hu⟩ := bind_eq_ok.mp hu
    obtain ⟨f, -, hu⟩ := bind_eq_ok.mp hu
    obtain ⟨t3, h3, hu⟩ := bind_eq_ok.mp hu
    simp only [pure_eq_ok, Except.ok.injEq, Prod.mk.injEq] at hu
    obtain ⟨-, rfl⟩ := hu
    have hlinks : t3.view.body = t2.view.body := by
      split at h3
      · exact body_of_linkNeighbours h3
      · obtain rfl := Except.ok.inj h3
        rfl
    rw [hlinks, body_of_setParent h2, body_of_setInner h1]
    refine ⟨fun b hb => Function.update_of_ne hb _ _, _, _, hbody, Function.update_self _ _ _, ?_⟩
    exact le_rfl

/-- No child more, and other nodes stay. -/
theorem body_of_insertKeyAt {i : Nat} (h : t.insertKeyAt a k i = .ok t') :
    (∀ b, b ≠ a → t'.view.body b = t.view.body b) ∧
      ∃ s s', t.view.body a = some (.inner s) ∧ t'.view.body a = some (.inner s') ∧
        s'.numChildren = s.numChildren := by
  obtain ⟨n, hn, h⟩ := bind_eq_ok.mp h
  obtain ⟨⟨r, s'⟩, hs', h⟩ := bind_eq_ok.mp h
  have hnum : s'.numChildren = n.numChildren := by
    simp only [insertInnerNodeKeyAt] at hs'
    split at hs'
    · simp only [pure_eq_ok, Except.ok.injEq, Prod.mk.injEq] at hs'
      rw [← hs'.2]
    · split at hs'
      · obtain ⟨ks, -, hs'⟩ := bind_eq_ok.mp hs'
        simp only [pure_eq_ok, Except.ok.injEq, Prod.mk.injEq] at hs'
        rw [← hs'.2]
      · obtain ⟨ks, -, hs'⟩ := bind_eq_ok.mp hs'
        obtain ⟨ks', -, hs'⟩ := bind_eq_ok.mp hs'
        simp only [pure_eq_ok, Except.ok.injEq, Prod.mk.injEq] at hs'
        rw [← hs'.2]
  rw [body_of_setInner h]
  exact ⟨fun b hb => Function.update_of_ne hb _ _, _, s', body_of_inner hn,
    Function.update_self _ _ _, hnum⟩

/-! ## The leaves stay -/

/-- The slots of every leaf of `t` are those of `t'`. -/
def KeepsLeaves (t t' : BTree K D) : Prop :=
  ∀ b s, t.view.body b = some (.leaf s) → t'.view.body b = some (.leaf s)

theorem KeepsLeaves.refl (t : BTree K D) : t.KeepsLeaves t := fun _ _ h => h

theorem KeepsLeaves.trans {t₁ t₂ : BTree K D} (h : t.KeepsLeaves t₁) (h' : t₁.KeepsLeaves t₂) :
    t.KeepsLeaves t₂ :=
  fun b s hb => h' b s (h b s hb)

/-- A write to an inner node. -/
theorem keepsLeaves_of_inner {s : InnerSlots K} (ha : t.view.body a = some (.inner s))
    (h : ∀ b, b ≠ a → t'.view.body b = t.view.body b) : t.KeepsLeaves t' := by
  intro b r hb
  rw [h b ?_, hb]
  rintro rfl
  cases ha.symm.trans hb

theorem keepsLeaves_setInner {s : InnerSlots K} (h : t.setInner a s = .ok t') :
    t.KeepsLeaves t' := by
  obtain ⟨n, hn, -⟩ := bind_eq_ok.mp h
  refine keepsLeaves_of_inner (body_of_inner hn) fun b hb => ?_
  rw [body_of_setInner h, Function.update_of_ne hb]

theorem keepsLeaves_insertKeyAt {i : Nat} (h : t.insertKeyAt a k i = .ok t') :
    t.KeepsLeaves t' := by
  obtain ⟨hbody, s, -, ha, -⟩ := body_of_insertKeyAt h
  exact keepsLeaves_of_inner ha hbody

theorem keepsLeaves_insertChildAt {c : Option Addr} {i : Nat}
    (h : t.insertChildAt a c i = .ok t') : t.KeepsLeaves t' := by
  obtain ⟨hbody, s, -, ha, -⟩ := body_of_insertChildAt h
  exact keepsLeaves_of_inner ha hbody

theorem keepsLeaves_prependAll {n : Nat} (h : t.prependAll a b n = .ok t') :
    t.KeepsLeaves t' := by
  induction n generalizing t with
  | zero =>
    obtain rfl := Except.ok.inj h
    exact .refl t
  | succ n ih =>
    obtain ⟨c, -, h⟩ := bind_eq_ok.mp h
    obtain ⟨y, -, h⟩ := bind_eq_ok.mp h
    obtain ⟨t₁, h1, h⟩ := bind_eq_ok.mp h
    obtain ⟨c', -, h⟩ := bind_eq_ok.mp h
    obtain ⟨t₂, h2, h⟩ := bind_eq_ok.mp h
    exact (keepsLeaves_insertKeyAt h1).trans ((keepsLeaves_insertChildAt h2).trans (ih h))

theorem keepsLeaves_mergeIntoNext (h : t.mergeIntoNext k a b = .ok t') : t.KeepsLeaves t' := by
  obtain ⟨c, -, h⟩ := bind_eq_ok.mp h
  obtain ⟨t₁, h1, h⟩ := bind_eq_ok.mp h
  obtain ⟨c', -, h⟩ := bind_eq_ok.mp h
  obtain ⟨t₂, h2, h⟩ := bind_eq_ok.mp h
  exact (keepsLeaves_insertKeyAt h1).trans
    ((keepsLeaves_insertChildAt h2).trans (keepsLeaves_prependAll h))

theorem keepsLeaves_appendPair {c : Option Addr} (h : t.appendPair a k c = .ok t') :
    t.KeepsLeaves t' := by
  obtain ⟨q, -, h⟩ := bind_eq_ok.mp h
  obtain ⟨t₁, h1, h⟩ := bind_eq_ok.mp h
  exact (keepsLeaves_insertKeyAt h1).trans (keepsLeaves_insertChildAt h)

theorem keepsLeaves_appendAll {n i : Nat} (h : t.appendAll a b i n = .ok t') :
    t.KeepsLeaves t' := by
  induction n generalizing t i with
  | zero =>
    obtain rfl := Except.ok.inj h
    exact .refl t
  | succ n ih =>
    obtain ⟨c, -, h⟩ := bind_eq_ok.mp h
    obtain ⟨y, -, h⟩ := bind_eq_ok.mp h
    obtain ⟨c', -, h⟩ := bind_eq_ok.mp h
    obtain ⟨t₁, h1, h⟩ := bind_eq_ok.mp h
    exact (keepsLeaves_appendPair h1).trans (ih h)

theorem keepsLeaves_mergeIntoPrev (h : t.mergeIntoPrev k a b = .ok t') : t.KeepsLeaves t' := by
  obtain ⟨c, -, h⟩ := bind_eq_ok.mp h
  obtain ⟨c', -, h⟩ := bind_eq_ok.mp h
  obtain ⟨t₁, h1, h⟩ := bind_eq_ok.mp h
  exact (keepsLeaves_appendPair h1).trans (keepsLeaves_appendAll h)

variable [LinearOrder K]

theorem keepsLeaves_replaceKey {n : Option Addr} {x y : K} {r : Int}
    (h : t.replaceKey n x y = .ok (r, t')) : t.KeepsLeaves t' := by
  cases n with
  | none =>
    obtain ⟨-, rfl⟩ := Prod.mk.inj (Except.ok.inj h)
    exact .refl t
  | some n =>
    obtain ⟨s, -, h⟩ := bind_eq_ok.mp h
    obtain ⟨i, -, h⟩ := bind_eq_ok.mp h
    cases i with
    | none =>
      obtain ⟨-, rfl⟩ := Prod.mk.inj (Except.ok.inj h)
      exact .refl t
    | some i =>
      obtain ⟨ks, -, h⟩ := bind_eq_ok.mp h
      obtain ⟨t₁, h1, h⟩ := bind_eq_ok.mp h
      obtain ⟨-, rfl⟩ := Prod.mk.inj (Except.ok.inj h)
      exact keepsLeaves_setInner h1

theorem keepsLeaves_redistributeFromNext (h : t.redistributeFromNext k a b = .ok t') :
    t.KeepsLeaves t' := by
  obtain ⟨q, -, h⟩ := bind_eq_ok.mp h
  obtain ⟨c, -, h⟩ := bind_eq_ok.mp h
  obtain ⟨t₁, h1, h⟩ := bind_eq_ok.mp h
  obtain ⟨q₁, -, h⟩ := bind_eq_ok.mp h
  obtain ⟨y, -, h⟩ := bind_eq_ok.mp h
  obtain ⟨⟨r, t₂⟩, h2, h⟩ := bind_eq_ok.mp h
  obtain ⟨q₂, -, h⟩ := bind_eq_ok.mp h
  obtain ⟨ks, -, h⟩ := bind_eq_ok.mp h
  obtain ⟨cs, -, h⟩ := bind_eq_ok.mp h
  obtain ⟨cs', -, h⟩ := bind_eq_ok.mp h
  exact (keepsLeaves_appendPair h1).trans
    ((keepsLeaves_replaceKey h2).trans (keepsLeaves_setInner h))

/-- The source asks the missing neighbour for its parent. -/
theorem not_redistributeFromPrev : t.redistributeFromPrev k a b none ≠ .ok t' := by
  intro h
  obtain ⟨c, -, h⟩ := bind_eq_ok.mp h
  obtain ⟨q, -, h⟩ := bind_eq_ok.mp h
  obtain ⟨t₁, -, h⟩ := bind_eq_ok.mp h
  obtain ⟨c', -, h⟩ := bind_eq_ok.mp h
  obtain ⟨t₂, -, h⟩ := bind_eq_ok.mp h
  cases h

/-! ## Pairs that move between leaves -/

section Pairs

variable [DecidableEq D] {P : Template K D}

/-- `insertleafpair` writes one leaf. -/
theorem body_of_insertLeafPair {d : D} {r : Int} (h : t.insertLeafPair P a k d = .ok (r, t')) :
    b ≠ a → t'.view.body b = t.view.body b := by
  intro hba
  obtain ⟨s, -, h⟩ := bind_eq_ok.mp h
  split_ifs at h
  · obtain ⟨-, rfl⟩ := Prod.mk.inj (Except.ok.inj h)
    rfl
  · obtain ⟨loc, -, h⟩ := bind_eq_ok.mp h
    obtain ⟨dup, -, h⟩ := bind_eq_ok.mp h
    split_ifs at h
    · obtain ⟨-, rfl⟩ := Prod.mk.inj (Except.ok.inj h)
      rfl
    · obtain ⟨s', -, h⟩ := bind_eq_ok.mp h
      obtain ⟨t₁, h1, h⟩ := bind_eq_ok.mp h
      obtain ⟨-, rfl⟩ := Prod.mk.inj (Except.ok.inj h)
      rw [body_of_setLeaf h1, Function.update_of_ne hba]

theorem body_of_moveAll {dest : Addr} {n i : Nat} (h : t.moveAll P a dest i n = .ok t') :
    b ≠ dest → t'.view.body b = t.view.body b := by
  intro hb
  induction n generalizing t i with
  | zero =>
    obtain rfl := Except.ok.inj h
    rfl
  | succ n ih =>
    obtain ⟨l, -, h⟩ := bind_eq_ok.mp h
    obtain ⟨x, -, h⟩ := bind_eq_ok.mp h
    obtain ⟨d, -, h⟩ := bind_eq_ok.mp h
    obtain ⟨⟨r, t₁⟩, h1, h⟩ := bind_eq_ok.mp h
    rw [ih h, body_of_insertLeafPair h1 hb]

end Pairs

end BTree

end NwtBTree
