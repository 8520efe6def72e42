import NwtBTree.Refine.Balance
import NwtBTree.Refine.Written

/-!
# The leaves that `deleteInnerNode` does not take out

Whatever the sizes of the nodes, the climb frees the leaf it was called for and
otherwise inner nodes only; the slots of all other leaves stay.
-/

namespace NwtBTree

variable {K D : Type} [LinearOrder K] {P : Template K D}

namespace BTree

variable {t t' : BTree K D} {a : Addr}

omit [LinearOrder K] in
/-- The key slots of a node that loses its only key are not touched. -/
theorem firstKey_of_removeChild {s : InnerSlots K} {i : Nat}
    (ha : t.view.body a = some (.inner s)) (hone : s.slotsinuse = 1)
    (h : t.removeChild a i 0 = .ok t') : t'.view.firstKey a = s.keySlots.head? := by
  simp only [removeChild, inner_eq ha, ok_bind, hone] at h
  obtain ⟨c, -, h⟩ := bind_eq_ok.mp h
  obtain ⟨child, -, h⟩ := bind_eq_ok.mp h
  obtain ⟨t₁, -, h⟩ := bind_eq_ok.mp h
  obtain ⟨t₂, -, h⟩ := bind_eq_ok.mp h
  obtain ⟨ks, hks, h⟩ := bind_eq_ok.mp h
  obtain ⟨t₃, h3, h⟩ := bind_eq_ok.mp h
  obtain ⟨t₄, h4, h⟩ := bind_eq_ok.mp h
  obtain ⟨t₅, h5, h⟩ := bind_eq_ok.mp h
  obtain ⟨n, hn, h⟩ := bind_eq_ok.mp h
  have hks : ks = s.keySlots := (Except.ok.inj hks).symm
  have h4 : t₄ = t₃ := by simpa [shiftChildren] using h4.symm
  have hbody : t₄.view.body a = some (.inner { s with keySlots := ks, slotsinuse := 1 }) := by
    rw [h4, body_of_setInner h3, Function.update_self]
  have hkeys : n.keySlots = ks := by
    have hn' := body_of_inner hn
    split at h5
    · obtain ⟨s₁, hs₁, h5⟩ := bind_eq_ok.mp h5
      obtain ⟨y, -, h5⟩ := bind_eq_ok.mp h5
      obtain ⟨cs, -, h5⟩ := bind_eq_ok.mp h5
      obtain ⟨cs', -, h5⟩ := bind_eq_ok.mp h5
      obtain ⟨t₆, h6, h5⟩ := bind_eq_ok.mp h5
      obtain ⟨cur, -, h5⟩ := bind_eq_ok.mp h5
      obtain ⟨f, -, h5⟩ := bind_eq_ok.mp h5
      have hlinks : t₅.view.body = t₆.view.body := by
        split at h5
        · split at h5
          · obtain ⟨prev, -, h5⟩ := bind_eq_ok.mp h5
            exact body_of_linkLeaves h5
          · rw [Except.ok.inj h5]
        · rw [Except.ok.inj h5]
      have hs₁' := body_of_inner hs₁
      rw [hbody] at hs₁'
      rw [hlinks, body_of_setInner h6, Function.update_self] at hn'
      simp only [Option.some.injEq, Body.inner.injEq] at hn' hs₁'
      rw [← hn', ← hs₁']
    · rw [← Except.ok.inj h5, hbody] at hn'
      simp only [Option.some.injEq, Body.inner.injEq] at hn'
      rw [← hn']
  rw [View.firstKey, body_of_setInner h, Function.update_self, ← hks, ← hkeys]
  exact (List.head?_eq_getElem? ..).symm

variable {n fuel : Nat} {up : MCtx K D (n + 1)} {x : Addr} {k : K} {ksL ksR : List K}
  {csL csR : List (MTree K D n)} {r : Int}

omit [LinearOrder K] in
/-- The first slot of a node that lost a key holds a key the node has or had. -/
theorem firstKey_removed {up : MCtx K D (n + 1)} (h : Doomed P t.view up a ksL k ksR csL x csR)
    (e : t.removeChild a csL.length ksL.length = .ok t')
    (h' : Stripped P t'.view up a (ksL ++ ksR) (csL ++ csR)) :
    ∃ z ∈ ksL ++ k :: ksR, t'.view.firstKey a = some z := by
  by_cases hnil : ksL ++ ksR = []
  · obtain ⟨rfl, rfl⟩ := List.append_eq_nil_iff.mp hnil
    obtain ⟨s, hs, hin⟩ := h.body
    obtain ⟨q, hq⟩ := hin.keys
    refine ⟨k, by simp, ?_⟩
    rw [firstKey_of_removeChild hs hin.inuse e, hq]
    rfl
  · obtain ⟨z, ks, hks⟩ := List.exists_cons_of_ne_nil hnil
    obtain ⟨s, hs, hin⟩ := h'.body
    rw [hks] at hin
    refine ⟨z, ?_, hin.firstKey hs⟩
    have hz : z ∈ ksL ++ ksR := by simp [hks]
    simp only [List.mem_append, List.mem_cons] at hz ⊢
    tauto

/-- The climb from `a` frees `x` and inner nodes. -/
theorem deleteInnerNode_keeps (h : Doomed P t.view up a ksL k ksR csL x csR)
    (hsort : (seps up.left ++ (ksL ++ k :: ksR) ++ seps up.right).Pairwise (· < ·))
    (hx : t.view.Places (ksL ++ k :: ksR) csL.length x)
    (he : t.deleteInnerNode P fuel a k x = .ok (r, t')) {b : Addr} {s : LeafSlots K D}
    (hb : t.view.body b = some (.leaf s)) (hbx : b ≠ x) : t'.view.body b = some (.leaf s) := by
  induction fuel generalizing n t a k ksL ksR x r with
  | zero => cases he
  | succ fuel ih =>
    have hkeys := (List.pairwise_append.mp (List.pairwise_append.mp hsort).1).2.1
    have hk : k ∉ ksL := fun hm =>
      lt_irrefl k ((List.pairwise_append.mp hkeys).2.2 k hm k List.mem_cons_self)
    obtain ⟨t₁, e₁, h₁, -, hbody, -⟩ := h.removed
    rw [deleteInnerNode_repair h hk hx e₁] at he
    obtain ⟨sa, hsa, -⟩ := h.body
    have hba : b ≠ a := by
      rintro rfl
      cases hsa.symm.trans hb
    have hb₁ : t₁.view.body b = some (.leaf s) := (hbody b hba hbx).trans hb
    obtain ⟨s₁, hs₁, hin₁⟩ := h₁.body
    have hlen := h₁.len
    cases up with
    | top =>
      by_cases hone : (csL ++ csR).length = 1
      · obtain ⟨c, hc⟩ := List.length_eq_one_iff.mp hone
        rw [hc] at hin₁ h₁
        obtain ⟨bc, hbc⟩ := (h₁.kids c (by simp)).1.holds.isSome c.addr_mem_addrs
        obtain ⟨t₂, e₂, v₂⟩ := repair_collapse (P := P) (f := BTree.deleteInnerNode P fuel)
          (i := csL.length) hs₁ hin₁ (by simpa using h₁.flag) hbc
        rw [e₂] at he
        obtain ⟨-, rfl⟩ := Prod.mk.inj (Except.ok.inj he)
        rw [v₂, View.body_free, if_neg hba]
        exact hb₁
      · rw [repair_root hs₁ hin₁ (by simpa using h₁.flag) (by rwa [List.length_map])] at he
        obtain ⟨-, rfl⟩ := Prod.mk.inj (Except.ok.inj he)
        exact hb₁
    | frame up g kL cL kR cR =>
      obtain ⟨⟨sg, hsg, hing⟩, hholdsL, hholdsR, -⟩ := h₁.hole.holds
      obtain ⟨hpL, hpR, hpos, -⟩ := h₁.hole.paired
      by_cases hbig : P.innernodemin < (csL ++ csR).length
      · rw [repair_stay hs₁ hin₁ h₁.flag_frame (by rwa [List.length_map])] at he
        obtain ⟨-, rfl⟩ := Prod.mk.inj (Except.ok.inj he)
        exact hb₁
      have hsmall : ((csL ++ csR).map Tree.addr).length ≤ P.innernodemin := by
        rw [List.length_map]
        omega
      -- the place of `a` in its parent, and the separators one level up
      obtain ⟨z, hzm, hz⟩ := firstKey_removed h e₁ h₁
      have hseps : (seps up.left ++ (kL ++ (ksL ++ k :: ksR) ++ kR) ++ seps up.right).Pairwise
          (· < ·) := by
        refine hsort.sublist ?_
        rw [Ctx.left_frame, Ctx.right_frame, seps_append, seps_append]
        have h1 := (Ctx.sublist_seps_before hpL).append (List.Sublist.refl (ksL ++ k :: ksR))
        have h2 := (h1.append (Ctx.sublist_seps_after hpR)).append
          (List.Sublist.refl (seps up.right))
        simpa [List.append_assoc] using (List.Sublist.refl (seps up.left)).append h2
      have hall := (List.pairwise_append.mp (List.pairwise_append.mp hseps).1).2.1
      obtain ⟨hleft, -, hcross⟩ := List.pairwise_append.mp hall
      have hzL : ∀ y ∈ kL, y < z := fun y hy => (List.pairwise_append.mp hleft).2.2 y hy z hzm
      have hzR : ∀ y ∈ kR, z < y := fun y hy => hcross z (List.mem_append_right _ hzm) y hy
      have hup : (seps up.left ++ (kL ++ kR) ++ seps up.right).Pairwise (· < ·) := by
        refine hseps.sublist ?_
        have h1 := (List.sublist_append_left kL (ksL ++ k :: ksR)).append (List.Sublist.refl kR)
        exact ((List.Sublist.refl (seps up.left)).append h1).append (List.Sublist.refl _)
      cases cR with
      | cons d cR =>
        obtain ⟨sep, kR, rfl⟩ := List.exists_cons_of_length_eq_add_one hpR
        obtain ⟨d, kn, cn⟩ := d
        obtain ⟨⟨sd, (hsd : t₁.view.body d = _), hind⟩, -⟩ := hholdsR _ List.mem_cons_self
        have hzsep := hzR sep List.mem_cons_self
        obtain ⟨i, e₂⟩ := repair_next (P := P) (f := BTree.deleteInnerNode P fuel)
          (i := csL.length) (d := d) hs₁ hin₁ h₁.flag_frame hsmall h₁.par hsg hing hsd hind
          (by simpa using hpL) (by simpa using hpR) ⟨z, hz, fun y hy => (hzL y hy).le, hzsep⟩
        rw [e₂] at he
        split at he
        · rename_i hroom
          obtain ⟨t₂, e₃, h₂, hb₂, -⟩ := mergeIntoNext_doomed h₁ (by simp at hroom; simp; omega)
          rw [e₃, ok_bind] at he
          obtain ⟨⟨i', t₃⟩, e₄, he⟩ := bind_eq_ok.mp he
          obtain ⟨-, rfl⟩ := Prod.mk.inj (Except.ok.inj he)
          exact ih h₂ hup ⟨kL, sep :: kR, z, rfl, hpL, (View.firstKey_congr hb₂).trans hz,
            fun y hy => (hzL y hy).le, by simpa using hzsep⟩ e₄
            (keepsLeaves_mergeIntoNext e₃ b s hb₁) hba
        · obtain ⟨t₂, e₃, he⟩ := bind_eq_ok.mp he
          obtain ⟨-, rfl⟩ := Prod.mk.inj (Except.ok.inj he)
          exact keepsLeaves_redistributeFromNext e₃ b s hb₁
      | nil =>
        obtain rfl := List.eq_nil_of_length_eq_zero hpR
        rcases List.eq_nil_or_concat cL with rfl | ⟨cL, d, rfl⟩
        · simp [hpL] at hpos
        rw [List.concat_eq_append] at *
        obtain ⟨kL, sep, rfl⟩ : ∃ kL' sep, kL = kL' ++ [sep] := by
          rcases List.eq_nil_or_concat kL with rfl | ⟨kL', sep, hks⟩
          · simp at hpL
          · exact ⟨kL', sep, by rw [hks, List.concat_eq_append]⟩
        obtain ⟨d, kn, cn⟩ := d
        have hing' : InnerHas P sg (kL ++ [sep]) (cL.map Tree.addr ++ [d, a]) := by simpa using hing
        obtain ⟨⟨sd, (hsd : t₁.view.body d = _), hind⟩, -⟩ := hholdsL (.node d kn cn) (by simp)
        obtain ⟨i, e₂⟩ := repair_prev (P := P) (f := BTree.deleteInnerNode P fuel)
          (i := csL.length) (d := d) hs₁ hin₁ h₁.flag_frame hsmall h₁.par hsg hing' hsd hind
          (by simpa using hpL) ⟨z, hz, fun y hy => (hzL y hy).le⟩
        rw [e₂] at he
        split at he
        · rename_i hroom
          obtain ⟨t₂, e₃, h₂, hb₂, -⟩ := mergeIntoPrev_doomed h₁ (by simpa using hroom)
          rw [e₃, ok_bind] at he
          obtain ⟨⟨i', t₃⟩, e₄, he⟩ := bind_eq_ok.mp he
          obtain ⟨-, rfl⟩ := Prod.mk.inj (Except.ok.inj he)
          exact ih h₂ (by simpa using hup) ⟨kL ++ [sep], [], z, by simp, by simpa using hpL,
            (View.firstKey_congr hb₂).trans hz, fun y hy => (hzL y hy).le, by simp⟩ e₄
            (keepsLeaves_mergeIntoPrev e₃ b s hb₁) hba
        · obtain ⟨t₂, e₃, -⟩ := bind_eq_ok.mp he
          exact absurd e₃ not_redistributeFromPrev

end BTree

variable {t t' : BTree K D} {up : MCtx K D 1} {a b : Addr} {s : LeafSlots K D} {sep z : K}
  {ksL ksR kL kR : List K} {csL csR : List (MTree K D 0)}

/-- Taking a leaf out of its parent. -/
theorem deleteInnerNode_leaf_keeps
    (h : Rep P t.view ((Ctx.frame up b ksL csL ksR csR).fill (.leaf a s)).2)
    (hc : (Ctx.frame up b ksL csL ksR csR).Paired) (hz : s.keySlots.head? = some z)
    (hr : (Ctx.frame up b ksL csL ksR csR).Routes z) (hks : ksL ++ ksR = kL ++ sep :: kR)
    (hseps : (seps up.left ++ (ksL ++ ksR) ++ seps up.right).Pairwise (· < ·)) {fuel : Nat}
    {r : Int}
    (he : t.deleteInnerNode P fuel b sep a = .ok (r, t')) {c : Addr} {l : LeafSlots K D}
    (hl : t.view.body c = some (.leaf l)) (hca : c ≠ a) : t'.view.body c = some (.leaf l) := by
  obtain ⟨-, -, hplace⟩ := leaf_loc h hc hz hr.here
  rw [hks] at hseps hplace
  exact BTree.deleteInnerNode_keeps (h.doomed hc hks) hseps hplace he hl hca

section Merges

variable [DecidableEq D] {t₁ : BTree K D} {p q : Addr} {sp sq s' : LeafSlots K D}
  {cL : List (MTree K D 0)}

/-- After its loop a merge writes the leaf on the left no more. -/
theorem mergeLeafIntoPrev_keeps
    (h : Rep P t.view ((Ctx.frame up b (kL ++ [sep]) (cL ++ [.leaf p sp]) ksR csR).fill
      (.leaf a s)).2)
    (hc : (Ctx.frame up b (kL ++ [sep]) (cL ++ [.leaf p sp]) ksR csR).Paired)
    (hz : s.keySlots.head? = some z)
    (hr : (Ctx.frame up b (kL ++ [sep]) (cL ++ [.leaf p sp]) ksR csR).Routes z)
    (hseps : (seps up.left ++ (kL ++ [sep] ++ ksR) ++ seps up.right).Pairwise (· < ·))
    (hmove : t.moveAll P a p 0 s.slotsinuse = .ok t₁)
    (hview : t₁.view = t.view.setBody p (.leaf s')) (hok : LeafOK P s')
    (he : t.mergeLeafIntoPrev P a p (cL.length + 1) = .ok t') :
    t'.view.body p = some (.leaf s') := by
  obtain ⟨e₁, h₁, hc₁⟩ := mergeLeafIntoPrev_eq h hc hz hr.here hmove hview hok
  rw [e₁] at he
  obtain ⟨⟨o, t₂⟩, hdel, he⟩ := bind_eq_ok.mp he
  obtain rfl := Except.ok.inj he
  have hne : p ≠ a := h.apart (y := .leaf p sp) (by simp)
  exact deleteInnerNode_leaf_keeps h₁ hc₁ hz hr
    (show kL ++ [sep] ++ ksR = kL ++ sep :: ksR by simp) hseps hdel h₁.leaf_prev.1 hne

/-- Nor the leaf on the right. -/
theorem mergeLeafIntoNext_keeps
    (h : Rep P t.view ((Ctx.frame up b kL cL (sep :: ksR) (.leaf q sq :: csR)).fill (.leaf a s)).2)
    (hc : (Ctx.frame up b kL cL (sep :: ksR) (.leaf q sq :: csR)).Paired)
    (hz : s.keySlots.head? = some z)
    (hr : (Ctx.frame up b kL cL (sep :: ksR) (.leaf q sq :: csR)).Routes z)
    (hseps : (seps up.left ++ (kL ++ sep :: ksR) ++ seps up.right).Pairwise (· < ·))
    (hmove : t.moveAll P a q 0 s.slotsinuse = .ok t₁)
    (hview : t₁.view = t.view.setBody q (.leaf s')) (hok : LeafOK P s')
    (he : t.mergeLeafIntoNext P a q = .ok t') : t'.view.body q = some (.leaf s') := by
  obtain ⟨e₁, h₁, hc₁⟩ := mergeLeafIntoNext_eq h hc hz hr.here hmove hview hok
  rw [e₁] at he
  obtain ⟨⟨o, t₂⟩, hdel, he⟩ := bind_eq_ok.mp he
  obtain rfl := Except.ok.inj he
  have hne : q ≠ a := h.apart (y := .leaf q sq) (by simp)
  exact deleteInnerNode_leaf_keeps h₁ hc₁ hz hr rfl hseps hdel h₁.leaf_next.1 hne

end Merges

end NwtBTree
