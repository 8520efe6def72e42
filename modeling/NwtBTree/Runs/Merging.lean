import NwtBTree.Refine.Untouched
import NwtBTree.Refine.Valid
import NwtBTree.Runs.Borrowing
import NwtBTree.Runs.Chaining

/-!
# The keys after a merge

`balancetree` merges with `insertleafpair`, whose scan for duplicates starts at the
slot behind the pairs of the left sibling and goes on in the leaf that is merged. Where
that slot still holds the key that moves, the pair is found in its own leaf and dropped.
-/

namespace NwtBTree

variable {K D : Type} [LinearOrder K]

namespace BTree

/-- The slot behind the pairs of a left sibling does not hold the first key that moves. -/
def residueDiffers (t : BTree K D) (k : K) (u : Shortfall) : Except Fault Bool := do
  let l ← t.leaf u.leaf
  let q ← t.leaf u.sibling
  return decide (0 < u.place → q.beyond ≠ (l.keys.erase k).head?)

variable [DecidableEq D]

/-- `erase` up to the end of the loop that moves the pairs. -/
def movePairs (P : Template K D) (t : BTree K D) (k : K) (u : Shortfall) :
    Except Fault (BTree K D) := do
  let t ← t.dropKey u.leaf k
  let l ← t.leaf u.leaf
  t.moveAll P u.leaf u.sibling 0 l.slotsinuse

/-- When the pairs of the leaf have moved, the sibling holds the keys of both in ascending order,
without `k`, and it still does when `erase` returns. -/
def MergesWell (P : Template K D) (t : BTree K D) (k : K) (u : Shortfall) : Prop :=
  ∃ l q t₁ q₁, t.leaf u.leaf = .ok l ∧ t.leaf u.sibling = .ok q ∧
    t.movePairs P k u = .ok t₁ ∧ t₁.leaf u.sibling = .ok q₁ ∧
    q₁.keys.Perm (l.keys.erase k ++ q.keys) ∧ q₁.keys.Pairwise (· < ·) ∧
    ∀ i t', t.erase P k = .ok (i, t') → ∃ q', t'.leaf u.sibling = .ok q' ∧ q'.keys = q₁.keys

end BTree

section Chain

variable {P : Template K D}

omit [LinearOrder K] in
theorem Chained.forward {l : Links} {L : List Addr} (h : Chained l L) : Forward l.nxt L := by
  obtain ⟨hjoined, -, hlast⟩ := h
  induction L with
  | nil => trivial
  | cons a L ih =>
    cases L with
    | nil => exact ⟨by simp [hlast a rfl], trivial⟩
    | cons b L =>
      obtain ⟨hab, hrest⟩ := List.isChain_cons_cons.mp hjoined
      exact ⟨by simp [hab.1], ih hrest fun c hc => hlast c (by simpa using hc)⟩

end Chain

variable [DecidableEq D] {P : Template K D} {t t₁ t₂ : BTree K D} {k : K} {s sp sq : LeafSlots K D}
  {u : Shortfall}

/-- What is to be shown once the state after the loop is known. -/
theorem mergesWell_iff (ha : t.view.body u.leaf = some (.leaf s))
    (hq : t.view.body u.sibling = some (.leaf sp)) (hmove : t.movePairs P k u = .ok t₂)
    (hq₂ : t₂.view.body u.sibling = some (.leaf sq))
    (hkeep : ∀ i t', t.erase P k = .ok (i, t') → t'.view.body u.sibling = some (.leaf sq)) :
    t.MergesWell P k u ↔
      sq.keys.Perm (s.keys.erase k ++ sp.keys) ∧ sq.keys.Pairwise (· < ·) := by
  constructor
  · rintro ⟨l, q, t₁, q₁, hl, hq', hm, hq₁, hperm, hsort, -⟩
    obtain rfl := Except.ok.inj (hmove.symm.trans hm)
    obtain rfl := Except.ok.inj ((BTree.leaf_eq ha).symm.trans hl)
    obtain rfl := Except.ok.inj ((BTree.leaf_eq hq).symm.trans hq')
    obtain rfl := Except.ok.inj ((BTree.leaf_eq hq₂).symm.trans hq₁)
    exact ⟨hperm, hsort⟩
  · rintro ⟨hperm, hsort⟩
    refine ⟨_, _, _, _, BTree.leaf_eq ha, BTree.leaf_eq hq, hmove, BTree.leaf_eq hq₂, hperm, hsort,
      fun i t' he => ?_⟩
    exact ⟨_, BTree.leaf_eq (hkeep i t' he), rfl⟩

section Moves

variable {a p q : Addr} {s : LeafSlots K D} {es : List (K × D)} {r : List K}

/-- At most one pair moves to the left; it is dropped if the slot behind the others holds its
key. -/
theorem moveAll_left (ha : t.view.body a = some (.leaf s)) (hs : LeafIs P s es r)
    (hes : es.length ≤ 1) (hp : t.view.body p = some (.leaf sp)) (hok : LeafOK P sp)
    (hroom : sp.slotsinuse < P.leafnodemax) (hlt : ∀ x ∈ sp.keys, ∀ y ∈ es.map Prod.fst, x < y)
    (hnext : t.view.links.nxt p = some a) :
    ∃ t' sp', t.moveAll P a p 0 s.slotsinuse = .ok t' ∧ t'.view = t.view.setBody p (.leaf sp') ∧
      LeafOK P sp' ∧ sp'.keys = if sp.beyond = (es.map Prod.fst).head? then sp.keys
        else sp.keys ++ es.map Prod.fst := by
  rw [hs.inuse]
  match es, hes with
  | [], _ => exact ⟨t, sp, rfl, (View.setBody_self hp).symm, hok, by simp⟩
  | [e], _ =>
    have hsp := hok.leafIs
    have hbelow : ∀ x ∈ sp.entries, x.1 < e.1 := by
      intro x hx
      apply hlt x.1 _ e.1 (by simp)
      rw [hsp.keys_eq]
      exact List.mem_map_of_mem hx
    obtain ⟨o, t', sp', es', r', e₁, v₁, hsp', hes'⟩ :=
      insertLeafPair_prev hp hsp (hsp.inuse ▸ hroom) hbelow hnext ha hs
    refine ⟨t', sp', moveAll_one ha hs e₁, v₁, hsp'.ok, ?_⟩
    rw [hsp'.keys_eq, hsp.keys_eq]
    obtain ⟨hbeyond, rfl⟩ | ⟨hbeyond, rfl⟩ := hes'
    · simp [hbeyond]
    · simp [hbeyond]

/-- To the right it goes to the front. -/
theorem moveAll_right (ha : t.view.body a = some (.leaf s)) (hs : LeafIs P s es r)
    (hes : es.length ≤ 1) (hq : t.view.body q = some (.leaf sq)) (hok : LeafOK P sq)
    (hroom : sq.slotsinuse < P.leafnodemax) (hlt : ∀ x ∈ es.map Prod.fst, ∀ y ∈ sq.keys, x < y)
    (hscan : ∀ e ∈ es, t.duplicateScan e.1 e.2 t.fuel (some q) 0 = .ok false) :
    ∃ t' sq', t.moveAll P a q 0 s.slotsinuse = .ok t' ∧ t'.view = t.view.setBody q (.leaf sq') ∧
      LeafOK P sq' ∧ sq'.keys = es.map Prod.fst ++ sq.keys := by
  rw [hs.inuse]
  match es, hes with
  | [], _ => exact ⟨t, sq, rfl, (View.setBody_self hq).symm, hok, rfl⟩
  | [e], _ =>
    have hsq := hok.leafIs
    have hsq₀ : LeafIs P sq ([] ++ sq.entries) _ := hsq
    have hlen : sq.entries.length < P.leafnodemax := hsq.inuse ▸ hroom
    obtain ⟨sq', es', e₁, hsq', hfst, -⟩ := insertLeafSlotsAt_spec hsq₀ hlen e.1 e.2
    have habove : ∀ x ∈ sq.entries.head?, e.1 ≤ x.1 := by
      intro x hx
      apply le_of_lt
      apply hlt e.1 (by simp)
      rw [hsq.keys_eq]
      exact List.mem_map_of_mem (List.mem_of_mem_head? hx)
    obtain ⟨t', e₂, v₂⟩ := insertLeafPair_room (d := e.2) hq hsq₀ hlen (by simp) habove
      (hscan e (by simp)) e₁
    refine ⟨t', sq', moveAll_one ha hs e₂, v₂, hsq'.ok, ?_⟩
    rw [hsq'.keys_eq, hfst, hsq.keys_eq]
    simp

end Moves

section Sides

variable {up : MCtx K D 1} {kL ksR : List K} {cL csR : List (MTree K D 0)} {sep : K}

theorem mergesWell_left (hP : P.Four)
    (h : Rep P t.view
      ((Ctx.frame up u.parent (kL ++ [sep]) (cL ++ [.leaf u.sibling sp]) ksR csR).fill
      (.leaf u.leaf s)).2)
    (hc : (Ctx.frame up u.parent (kL ++ [sep]) (cL ++ [.leaf u.sibling sp]) ksR csR).Paired)
    (ho : SearchOrder LeafSlots.keys ((Ctx.frame up u.parent (kL ++ [sep])
      (cL ++ [.leaf u.sibling sp]) ksR csR).fill (.leaf u.leaf s)).2.inorder)
    (hfind : t.find P k = .ok (some u.leaf)) (hk : k ∈ s.keys) (hsize : s.slotsinuse ≤ 2)
    (hfew : sp.slotsinuse + (s.slotsinuse - 1) < 4) :
    t.MergesWell P k u ↔ sp.beyond ≠ (s.keys.erase k).head? := by
  obtain ⟨ha, hok⟩ := h.leaf_hole
  obtain ⟨hp, hokp⟩ := h.leaf_prev
  obtain ⟨i, t₁, s', es, y, r, hs', hkeys, hys, hz, v₁, hdrop, e₁, hrep, hord, hloc⟩ :=
    erase_below h hc ho hfind hk
  have hlen := hok.length_erase hk hkeys
  have horder := ho.keys_prev hc
  have hcap := hP.leafnodemax
  have ha₁ := hrep.leaf_hole.1
  have hp₁ := hrep.leaf_prev.1
  have hjoin := hrep.joined_prev
  have hcross : ∀ x ∈ sp.keys, ∀ y ∈ s.keys.erase k, x < y := fun x hx y hy =>
    (List.pairwise_append.mp horder).2.2 x hx y (List.erase_subset hy)
  obtain ⟨t₂, sp₂, e₂, v₂, hok₂, hkeys₂⟩ :=
    moveAll_left ha₁ hs' (by omega) hp₁ hokp (by omega) (hkeys ▸ hcross) hjoin.1
  rw [hkeys] at hkeys₂
  have hmove : t.movePairs P k u = .ok t₂ := by
    simp only [BTree.movePairs, hdrop, ok_bind, BTree.leaf_eq ha₁, e₂]
  have hp₂ : t₂.view.body u.sibling = some (.leaf sp₂) := by
    rw [v₂]
    simp
  -- the rest of the call leaves the sibling alone
  have hkeep : ∀ j t', t.erase P k = .ok (j, t') → t'.view.body u.sibling = some (.leaf sp₂) := by
    intro j t' he
    obtain ⟨z, hz'⟩ : ∃ z, s'.keySlots.head? = some z := by
      rw [hs'.keys]
      cases es <;> exact ⟨_, rfl⟩
    have hr := ho.routes hc (hz z hz')
    have hloc' : t₁.findInnerNodeLoc (t₁.view.par u.leaf) (some u.leaf) =
        .ok ((cL.length : Int) + 1) := by simpa using hloc
    rw [e₁, balanceTree_prev ha₁ hloc' (by omega) (by rw [hs'.inuse, hP.leafnodemin]; omega) hjoin.2
      hp₁, if_pos (by rw [hs'.inuse]; omega)] at he
    obtain ⟨t₃, hmerge, hret⟩ := bind_eq_ok.mp he
    obtain ⟨-, rfl⟩ := Prod.mk.inj (Except.ok.inj hret)
    exact mergeLeafIntoPrev_keeps hrep hc hz' hr (ho.frame_seps hc) e₂ v₂ hok₂ hmerge
  apply (mergesWell_iff ha hp hmove hp₂ hkeep).trans
  rw [hkeys₂]
  obtain ⟨hsortp, hsorts, -⟩ := List.pairwise_append.mp horder
  split
  · next hbeyond =>
    refine iff_of_false (fun hperm => ?_) (not_not.mpr hbeyond)
    -- nothing has moved, but there was a pair to move
    have hnil : s.keys.erase k = [] := by
      have := hperm.1.length_eq
      rw [List.length_append] at this
      exact List.eq_nil_of_length_eq_zero (by omega)
    rw [hnil, List.head?_nil, LeafSlots.beyond, List.getElem?_eq_none_iff, hokp.keyCap] at hbeyond
    omega
  · next hbeyond =>
    refine iff_of_true ⟨List.perm_append_comm, ?_⟩ hbeyond
    exact List.pairwise_append.mpr ⟨hsortp, hsorts.sublist List.erase_sublist, hcross⟩

theorem mergesWell_right (hP : P.Four)
    (h : Rep P t.view ((Ctx.frame up u.parent [] [] (sep :: ksR) (.leaf u.sibling sq :: csR)).fill
      (.leaf u.leaf s)).2)
    (hc : (Ctx.frame up u.parent [] [] (sep :: ksR) (.leaf u.sibling sq :: csR)).Paired)
    (ho : SearchOrder LeafSlots.keys ((Ctx.frame up u.parent [] [] (sep :: ksR)
      (.leaf u.sibling sq :: csR)).fill (.leaf u.leaf s)).2.inorder)
    (hchain : Chained t.view.links ((tips ((Ctx.frame up u.parent [] [] (sep :: ksR)
      (.leaf u.sibling sq :: csR)).fill (.leaf u.leaf s)).2.inorder).map Tip.addr))
    (hfind : t.find P k = .ok (some u.leaf)) (hk : k ∈ s.keys) (hsize : s.slotsinuse ≤ 2)
    (hfew : sq.slotsinuse + (s.slotsinuse - 1) < 4) : t.MergesWell P k u := by
  obtain ⟨ha, hok⟩ := h.leaf_hole
  obtain ⟨hq, hokq⟩ := h.leaf_next
  obtain ⟨i, t₁, s', es, y, r, hs', hkeys, hys, hz, v₁, hdrop, e₁, hrep, hord, hloc⟩ :=
    erase_below h hc ho hfind hk
  have hlen := hok.length_erase hk hkeys
  have hcap := hP.leafnodemax
  have ha₁ := hrep.leaf_hole.1
  have hq₁ := hrep.leaf_next.1
  have hjoin := hrep.joined_next
  -- every key from the sibling on is greater than those of the leaf
  have hshift : (Ctx.frame up u.parent ([] ++ [sep]) ([] ++ [.leaf u.leaf s']) ksR csR).fill
      (.leaf u.sibling sq) = (Ctx.frame up u.parent [] [] (sep :: ksR)
        (.leaf u.sibling sq :: csR)).fill (.leaf u.leaf s') := Ctx.fill_shift
  have hc' : (Ctx.frame up u.parent [sep] [.leaf u.leaf s'] ksR csR).Paired :=
    Ctx.paired_shift_right (y := .leaf u.leaf s') hc trivial
  have hin := Ctx.inorder_fill_leaf hc (Tree.leaf (K := K) u.leaf s')
  have hright : (Ctx.frame up u.parent [] [] (sep :: ksR) (.leaf u.sibling sq :: csR)).right =
      .inl sep :: .inr ⟨u.sibling, sq⟩ ::
        (Ctx.frame up u.parent [sep] [.leaf u.leaf s'] ksR csR).right := rfl
  rw [hright] at hin
  have habove : ∀ x ∈ s.keys.erase k, ∀ m ∈ tips (.inr ⟨u.sibling, sq⟩ ::
      (Ctx.frame up u.parent [sep] [.leaf u.leaf s'] ksR csR).right), ∀ z ∈ m.body.keys, x < z := by
    intro x hx m hm z hz'
    have hbelow := hord.below
    rw [hin] at hbelow
    have hcons := (List.pairwise_cons.mp (List.pairwise_append.mp hbelow).2.1).1
    refine hcons (.inr m) (List.mem_cons_of_mem _ (mem_tips.mp hm)) x ?_ z hz'
    rwa [hs'.keys_eq, hkeys]
  have hscan : ∀ e ∈ es, t₁.duplicateScan e.1 e.2 t₁.fuel (some u.sibling) 0 = .ok false := by
    intro e he
    have hstands : Stands P t₁.view ((Ctx.frame up u.parent [sep] [.leaf u.leaf s'] ksR csR).fill
        (.leaf u.sibling sq)).2 := by
      rw [← List.nil_append [sep], ← List.nil_append [Tree.leaf u.leaf s'], hshift]
      exact hrep.stands
    have hfwd : Forward t₁.view.links.nxt ((tips ((Ctx.frame up u.parent [sep] [.leaf u.leaf s'] ksR
        csR).fill (.leaf u.sibling sq)).2.inorder).map Tip.addr) := by
      rw [← List.nil_append [sep], ← List.nil_append [Tree.leaf u.leaf s'], hshift, hin, v₁]
      rw [Ctx.inorder_fill_leaf hc, hright] at hchain
      simpa using hchain.forward
    obtain ⟨hscan, hrun⟩ := hstands.scan_right (n := ⟨u.sibling, sq⟩) (k := e.1) (d := e.2) hfwd hc'
      (j := 0) (by omega)
    rw [hscan, Except.ok.injEq, decide_eq_false_iff_not]
    intro hm
    obtain ⟨m, hm, hem⟩ := List.mem_flatMap.mp (hrun e hm)
    have hokm : LeafOK P m.body := by
      apply (hrep.holds.tip hrep.paired (l := m) ?_).2
      rw [hin]
      simp only [tips_append, tips_inr, tips_inl] at hm ⊢
      exact List.mem_append_right _ (List.mem_cons_of_mem _ hm)
    refine lt_irrefl e.1 (habove e.1 (hkeys ▸ List.mem_map_of_mem he) m hm e.1 ?_)
    rw [hokm.leafIs.keys_eq]
    exact List.mem_map_of_mem hem
  obtain ⟨t₂, sq₂, e₂, v₂, hok₂, hkeys₂⟩ :=
    moveAll_right ha₁ hs' (by omega) hq₁ hokq (by omega)
      (fun x hx => habove x (hkeys ▸ hx) ⟨u.sibling, sq⟩ List.mem_cons_self) hscan
  rw [hkeys] at hkeys₂
  have hmove : t.movePairs P k u = .ok t₂ := by
    simp only [BTree.movePairs, hdrop, ok_bind, BTree.leaf_eq ha₁, e₂]
  have hq₂ : t₂.view.body u.sibling = some (.leaf sq₂) := by
    rw [v₂]
    simp
  have hkeep : ∀ j t', t.erase P k = .ok (j, t') → t'.view.body u.sibling = some (.leaf sq₂) := by
    intro j t' he
    obtain ⟨z, hz'⟩ : ∃ z, s'.keySlots.head? = some z := by
      rw [hs'.keys]
      cases es <;> exact ⟨_, rfl⟩
    have hr := ho.routes hc (hz z hz')
    rw [e₁, balanceTree_next ha₁ hloc (by rw [hs'.inuse, hP.leafnodemin]; omega) hjoin.1
      hq₁, if_pos (by rw [hs'.inuse]; omega)] at he
    obtain ⟨t₃, hmerge, hret⟩ := bind_eq_ok.mp he
    obtain ⟨-, rfl⟩ := Prod.mk.inj (Except.ok.inj hret)
    exact mergeLeafIntoNext_keeps hrep hc hz' hr (ho.frame_seps hc) e₂ v₂ hok₂ hmerge
  apply (mergesWell_iff ha hq hmove hq₂ hkeep).mpr
  rw [hkeys₂]
  refine ⟨List.Perm.refl _, ?_⟩
  exact (ho.keys_next hc).sublist (List.erase_sublist.append_right _)

end Sides

/-- In every state that a run ends in, with its keys between their separators and its leaves linked,
a merge keeps the keys exactly if the slot behind those of a left sibling does not hold the key that
moves there. -/
theorem merges_well (hinner : P.nodeslots = 4) (hleaf : P.leafslots = 4) (qs : List (Request K D)) :
    ∀ rs t, run (BTree.perform P) BTree.init qs = .ok (rs, t) → ∀ T, InOrder P t T →
      Chained t.view.links ((tips T.2.inorder).map Tip.addr) →
      ∀ k ∈ allKeys LeafSlots.keys T.2.inorder, ∀ u, t.shortfall P k = .ok (some u) →
        t.borrows P u = .ok false → (t.MergesWell P k u ↔ t.residueDiffers k u = .ok true) := by
  intro _ t _ T hT hchain k hk u hu hjoins
  have hP : P.Four := ⟨hinner, hleaf⟩
  obtain ⟨h, ho⟩ := hT
  obtain ⟨c, a, s, rfl, hc, hfind, hks⟩ := h.find_leaf ho hk
  obtain ⟨rfl, hsize, sq, hbeside⟩ := beside_of_shortfall h hc hfind hu
  have ha : t.view.body u.leaf = some (.leaf s) := ((holds_fill c (.leaf u.leaf s)).mp h.holds).2.1
  rw [hP.leafnodemin] at hsize
  cases hbeside with
  | left hplace hlen hp hok =>
    simp only [BTree.borrows, BTree.leaf_eq ha, BTree.leaf_eq hp, ok_bind, hP.leafnodemax] at hjoins
    have hfew := of_decide_eq_false (Except.ok.inj hjoins)
    rw [mergesWell_left hP h hc ho hfind hks hsize (by omega)]
    simp [BTree.residueDiffers, BTree.leaf_eq ha, BTree.leaf_eq hp, hplace]
  | right hplace hlen hq hok =>
    simp only [BTree.borrows, BTree.leaf_eq ha, BTree.leaf_eq hq, ok_bind, hP.leafnodemax] at hjoins
    have hfew := of_decide_eq_false (Except.ok.inj hjoins)
    refine iff_of_true (mergesWell_right hP h hc ho hchain hfind hks hsize
      (by omega)) ?_
    simp [BTree.residueDiffers, BTree.leaf_eq ha, BTree.leaf_eq hq, hplace]

/-- A run that keeps the chain ends in a tree with its keys between their separators. -/
theorem exists_inOrder (hP : P.Four) {qs : List (Request K D)} (hasc : AscendingKeys qs)
    (h : EachCall P (fun t q => t.canPerform P q = .ok true ∧ t.keepsChain P q = .ok true) qs)
    {rs : List (Reply D)} (e : run (BTree.perform P) BTree.init qs = .ok (rs, t))
    (hk : t.existsKey P k = .ok true) : ∃ T, InOrder P t T ∧
      Chained t.view.links ((tips T.2.inorder).map Tip.addr) ∧
      k ∈ allKeys LeafSlots.keys T.2.inorder := by
  obtain ⟨rs', t', e', hT⟩ := tended_run
    (R := fun _ t T => Chained t.view.links ((tips T.2.inorder).map Tip.addr)) hP And.left
      First.chain
    (fun hkept hR hcond hch => hch.chained hP hkept hR hcond.2) hasc h
  obtain ⟨rfl, rfl⟩ := Prod.mk.inj (Except.ok.inj (e.symm.trans e'))
  generalize qs.filterMap Request.newKey = g at hT
  cases hT with
  | empty hroot _ => simp [BTree.existsKey, BTree.find, hroot] at hk
  | @kept _ T hkept _ _ hR =>
    rw [existsKey_iff hkept.rep hkept.order (hkept.fullLast hP), Except.ok.injEq,
      decide_eq_true_iff, ← hkept.rep.allKeys_eq] at hk
    exact ⟨T, hkept.inOrder, hR, hk⟩

theorem merges_well_five : ∃ rs t, run (BTree.perform (Template.plain 4)) BTree.init
    [.insert 1 10, .insert 2 20, .insert 3 30, .insert 4 40, .insert 5 50, .erase 5] = .ok (rs, t) ∧
      t.MergesWell (Template.plain 4) 4 ⟨2, 1, 3, 1⟩ := by
  have h : (run (BTree.perform (Template.plain 4)) BTree.init
      [.insert 1 10, .insert 2 20, .insert 3 30, .insert 4 40, .insert 5 50, .erase (5 : Nat)] >>=
        fun r => do
        let k ← r.2.existsKey (Template.plain 4) 4
        return (k, ← r.2.shortfall (Template.plain 4) 4,
          ← r.2.borrows (Template.plain 4) ⟨2, 1, 3, 1⟩, ← r.2.residueDiffers 4 ⟨2, 1, 3, 1⟩)) =
      .ok (true, some ⟨2, 1, 3, 1⟩, false, true) := by
    decide +kernel
  obtain ⟨⟨rs, t⟩, hrun, h⟩ := bind_eq_ok.mp h
  obtain ⟨x, hx, h⟩ := bind_eq_ok.mp h
  obtain ⟨u, hu, h⟩ := bind_eq_ok.mp h
  obtain ⟨b, hb, h⟩ := bind_eq_ok.mp h
  obtain ⟨b', hb', h⟩ := bind_eq_ok.mp h
  cases h
  obtain ⟨T, hT, hchain, hk⟩ := exists_inOrder (P := Template.plain 4) ⟨rfl, rfl⟩
    (by unfold AscendingKeys; decide) (by unfold EachCall; decide +kernel) hrun hx
  exact ⟨rs, t, hrun, (merges_well rfl rfl _ rs t hrun T hT hchain 4 hk _ hu hb).mpr hb'⟩

/-- The pair of `3` moved from `[1, 2, 3]` to `[5]`, and its key stayed behind `[1, 2]`. When `5`
goes and the pair moves back, the scan starts there. -/
theorem not_merges_well : ∃ rs t T, run (BTree.perform (Template.plain 4)) BTree.init
    [.insert 1 10, .insert 2 20, .insert 3 30, .insert 4 40, .insert 5 50, .insert 6 60,
      .insert 7 70, .erase 4, .erase 7, .erase 6] = .ok (rs, t) ∧ InOrder (Template.plain 4) t T ∧
    Chained t.view.links ((tips T.2.inorder).map Tip.addr) ∧
    5 ∈ allKeys LeafSlots.keys T.2.inorder ∧
    t.shortfall (Template.plain 4) 5 = .ok (some ⟨5, 1, 3, 1⟩) ∧
    t.borrows (Template.plain 4) ⟨5, 1, 3, 1⟩ = .ok false ∧
    ¬t.MergesWell (Template.plain 4) 5 ⟨5, 1, 3, 1⟩ := by
  have h : (run (BTree.perform (Template.plain 4)) BTree.init
      [.insert 1 10, .insert 2 20, .insert 3 30, .insert 4 40, .insert 5 50, .insert 6 60,
        .insert 7 70, .erase 4, .erase 7, .erase (6 : Nat)] >>= fun r => do
        let P := Template.plain 4
        let k ← r.2.existsKey P 5
        let u ← r.2.shortfall P 5
        let b ← r.2.borrows P ⟨5, 1, 3, 1⟩
        let l ← r.2.leaf 5
        let q ← r.2.leaf 1
        let t ← r.2.movePairs P 5 ⟨5, 1, 3, 1⟩
        return (k, u, b, [l.keys, q.keys, (← t.leaf 1).keys])) =
      .ok (true, some ⟨5, 1, 3, 1⟩, false, [[3, 5], [1, 2], [1, 2]]) := by
    decide +kernel
  obtain ⟨⟨rs, t⟩, hrun, h⟩ := bind_eq_ok.mp h
  obtain ⟨x, hx, h⟩ := bind_eq_ok.mp h
  obtain ⟨u, hu, h⟩ := bind_eq_ok.mp h
  obtain ⟨b, hb, h⟩ := bind_eq_ok.mp h
  obtain ⟨l, hl, h⟩ := bind_eq_ok.mp h
  obtain ⟨q, hq, h⟩ := bind_eq_ok.mp h
  obtain ⟨t₁, hmove, h⟩ := bind_eq_ok.mp h
  obtain ⟨q₁, hq₁, h⟩ := bind_eq_ok.mp h
  simp only [pure_eq_ok, Except.ok.injEq, Prod.mk.injEq, List.cons.injEq, and_true] at h
  obtain ⟨rfl, rfl, rfl, hkeys, hkeysq, hkeys₁⟩ := h
  obtain ⟨T, hT, hchain, hk⟩ := exists_inOrder (P := Template.plain 4) ⟨rfl, rfl⟩
    (by unfold AscendingKeys; decide) (by unfold EachCall; decide +kernel) hrun hx
  refine ⟨rs, t, T, hrun, hT, hchain, hk, hu, hb, ?_⟩
  rintro ⟨l', q', t₁', q₁', hl', hq', hmove', hq₁', hperm, -⟩
  obtain rfl := Except.ok.inj (hl.symm.trans hl')
  obtain rfl := Except.ok.inj (hq.symm.trans hq')
  obtain rfl := Except.ok.inj (hmove.symm.trans hmove')
  obtain rfl := Except.ok.inj (hq₁.symm.trans hq₁')
  rw [hkeys, hkeysq, hkeys₁] at hperm
  exact absurd hperm (by decide)

end NwtBTree
