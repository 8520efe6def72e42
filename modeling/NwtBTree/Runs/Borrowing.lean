import NwtBTree.Refine.Shortfall
import NwtBTree.Runs.Drain

/-!
# The separator after a borrow

The separator in front of a right sibling is looked up by the sibling's first key. It
is not found where an earlier `erase` took the key it was made of.
-/

namespace NwtBTree

variable {K D : Type} [LinearOrder K]

namespace BTree

/-- The leaf and its sibling have too many pairs for one leaf. -/
def borrows (P : Template K D) (t : BTree K D) (u : Shortfall) : Except Fault Bool := do
  let l ← t.leaf u.leaf
  let q ← t.leaf u.sibling
  return decide (P.leafnodemax ≤ q.slotsinuse + (l.slotsinuse - 1))

/-- A sibling on the right starts with the separator in front of it. -/
def separatorLeads (t : BTree K D) (u : Shortfall) : Except Fault Bool := do
  let q ← t.leaf u.sibling
  let parent ← t.inner u.parent
  return decide (u.place = 0 → q.keySlots.head? = parent.keySlots.head?)

variable [DecidableEq D]

/-- After `erase` the leaf and its sibling hold the keys they held before without `k`, and the
separator between them is greater than the keys on the left and not greater than those on the
right. -/
def BorrowsWell (P : Template K D) (t : BTree K D) (k : K) (u : Shortfall) : Prop :=
  ∃ i t' l q l' q' g' sep, t.erase P k = .ok (i, t') ∧ t.leaf u.leaf = .ok l ∧
    t.leaf u.sibling = .ok q ∧ t'.leaf u.leaf = .ok l' ∧ t'.leaf u.sibling = .ok q' ∧
    (l'.keys ++ q'.keys).Perm (l.keys.erase k ++ q.keys) ∧
    t'.inner u.parent = .ok g' ∧ load g'.keySlots (u.place - 1) = .ok sep ∧
    if u.place = 0 then (∀ x ∈ l'.keys, x < sep) ∧ ∀ x ∈ q'.keys, sep ≤ x
    else (∀ x ∈ q'.keys, x < sep) ∧ ∀ x ∈ l'.keys, sep ≤ x

end BTree

variable [DecidableEq D] {P : Template K D} {t : BTree K D} {k : K} {a : Addr}
  {s sp sq : LeafSlots K D}
  {u : Shortfall} {up : MCtx K D 1} {kL ksR : List K} {cL csR : List (MTree K D 0)} {sep : K}

theorem borrowsWell_left (hP : P.Four)
    (h : Rep P t.view
      ((Ctx.frame up u.parent (kL ++ [sep]) (cL ++ [.leaf u.sibling sp]) ksR csR).fill
      (.leaf u.leaf s)).2)
    (hc : (Ctx.frame up u.parent (kL ++ [sep]) (cL ++ [.leaf u.sibling sp]) ksR csR).Paired)
    (ho : SearchOrder LeafSlots.keys ((Ctx.frame up u.parent (kL ++ [sep])
      (cL ++ [.leaf u.sibling sp]) ksR csR).fill (.leaf u.leaf s)).2.inorder)
    (hfind : t.find P k = .ok (some u.leaf)) (hk : k ∈ s.keys) (hsize : s.slotsinuse ≤ 2)
    (hmany : 4 ≤ sp.slotsinuse + (s.slotsinuse - 1)) (hplace : u.place = cL.length + 1) :
    t.BorrowsWell P k u := by
  obtain ⟨ha, hok⟩ := h.leaf_hole
  obtain ⟨hp, hokp⟩ := h.leaf_prev
  obtain ⟨i, t₁, s', es, y, r, hs', hkeys, hys, hz, v₁, -, e₁, hrep, hord, hloc⟩ :=
    erase_below h hc ho hfind hk
  have hL : kL.length = cL.length := by simpa using hc.1
  have hlen := hok.length_erase hk hkeys
  -- the last pair of the sibling
  have hsp := hokp.leafIs
  obtain ⟨ep, x, hep⟩ : ∃ ep x, sp.entries = ep ++ [x] := by
    have hin := hsp.inuse
    rcases List.eq_nil_or_concat sp.entries with hnil | ⟨ep, x, hx⟩
    · rw [hnil, List.length_nil] at hin
      omega
    · exact ⟨ep, x, by rw [hx, List.concat_eq_append]⟩
  rw [hep] at hsp
  have hin : sp.slotsinuse = ep.length + 1 := by rw [hsp.inuse, List.length_append]; rfl
  have hcap := hP.leafnodemax
  have horder := ho.keys_prev hc
  rw [hsp.keys_eq, List.map_append] at horder
  obtain ⟨hsort, -, hcross⟩ := List.pairwise_append.mp horder
  have hltx : ∀ y ∈ ep, y.1 < x.1 := fun y hy =>
    (List.pairwise_append.mp hsort).2.2 y.1 (List.mem_map_of_mem hy) x.1 (by simp)
  have hxs : ∀ z ∈ s.keys, x.1 < z := fun z hz => hcross x.1 (by simp) z hz
  have hxes : ∀ e ∈ es.map Prod.fst, x.1 < e := fun e he =>
    hxs e (List.erase_subset (hkeys ▸ he))
  have hjoin := hrep.joined_prev
  have ha₁ := hrep.leaf_hole.1
  have hp₁ := hrep.leaf_prev.1
  obtain ⟨t₂, s₂, sp₂, es₂, e₂, hsp₂, hs₂, hes₂, hrep₂, -⟩ := borrowFromPrev_spec hrep hc hs' hsp
    (by omega) (by omega) hltx
    (fun e he => (hxes e.1 (List.mem_map_of_mem (List.mem_of_mem_head? he))).le)
    (fun he => lt_irrefl x.1 (hxs x.1 (hz x.1 he))) (ho.sep_not_mem hc)
  have hbal : t₁.balanceTree P u.leaf = .ok t₂ := by
    have hcount : ((cL ++ [Tree.leaf (K := K) u.sibling sp]).length : Int) =
      (cL.length : Int) + 1 := by
      simp
    rw [hcount] at hloc
    rw [balanceTree_prev ha₁ hloc (by omega) (by rw [hs'.inuse, hP.leafnodemin]; omega) hjoin.2 hp₁,
      if_neg (by rw [hs'.inuse]; omega), e₂]
  -- what is there afterwards
  obtain ⟨⟨⟨sb, hsb, hinb⟩, hcL, -⟩, ha₂, -⟩ := (holds_fill _ (.leaf u.leaf s₂)).mp hrep₂.holds
  have hp₂ : t₂.view.body u.sibling = some (.leaf sp₂) := (hcL (.leaf u.sibling sp₂) (by simp)).1
  refine ⟨i, t₂, _, _, _, _, _, x.1, by rw [e₁, hbal]; rfl, BTree.leaf_eq ha, BTree.leaf_eq hp,
    BTree.leaf_eq ha₂, BTree.leaf_eq hp₂, ?_, BTree.inner_eq hsb, ?_, ?_⟩
  · change (s₂.keys ++ sp₂.keys).Perm (s.keys.erase k ++ sp.keys)
    rw [hs₂.keys_eq, hes₂, hsp₂.keys_eq, hsp.keys_eq, hkeys, List.map_append]
    have hmove := List.perm_append_singleton x.1 (s.keys.erase k ++ ep.map Prod.fst)
    simpa using hmove.symm
  · rw [List.append_assoc, List.singleton_append] at hinb
    exact hinb.load_keyAt (by omega)
  · rw [if_neg (by omega)]
    refine ⟨fun z hz => ?_, fun z hz => ?_⟩
    · replace hz : z ∈ sp₂.keys := hz
      rw [hsp₂.keys_eq] at hz
      obtain ⟨y, hy, rfl⟩ := List.mem_map.mp hz
      exact hltx y hy
    · replace hz : z ∈ s₂.keys := hz
      rw [hs₂.keys_eq, hes₂] at hz
      rcases List.mem_cons.mp hz with rfl | hz
      · exact le_rfl
      · exact (hxes z hz).le

theorem borrowsWell_right (hP : P.Four) {ksR : List K}
    (h : Rep P t.view ((Ctx.frame up u.parent [] [] (sep :: ksR) (.leaf u.sibling sq :: csR)).fill
      (.leaf u.leaf s)).2)
    (hc : (Ctx.frame up u.parent [] [] (sep :: ksR) (.leaf u.sibling sq :: csR)).Paired)
    (ho : SearchOrder LeafSlots.keys ((Ctx.frame up u.parent [] [] (sep :: ksR)
      (.leaf u.sibling sq :: csR)).fill (.leaf u.leaf s)).2.inorder)
    (hfind : t.find P k = .ok (some u.leaf)) (hk : k ∈ s.keys) (hsize : s.slotsinuse ≤ 2)
    (hmany : 4 ≤ sq.slotsinuse + (s.slotsinuse - 1)) (hplace : u.place = 0) :
    t.BorrowsWell P k u ↔ sq.keys.head? = some sep := by
  obtain ⟨ha, hok⟩ := h.leaf_hole
  obtain ⟨hq, hokq⟩ := h.leaf_next
  obtain ⟨i, t₁, s', es, y, r, hs', hkeys, hys, hz, v₁, -, e₁, hrep, hord, hloc⟩ :=
    erase_below h hc ho hfind hk
  have hlen := hok.length_erase hk hkeys
  -- the first two pairs of the sibling
  have hsq := hokq.leafIs
  have hin : sq.slotsinuse = sq.entries.length := hsq.inuse
  obtain ⟨x, w, eq, heq⟩ : ∃ x w eq, sq.entries = x :: w :: eq := by
    match hentries : sq.entries with
    | [] => simp [hentries] at hin; omega
    | [x] => simp [hentries] at hin; omega
    | x :: w :: eq => exact ⟨x, w, eq, rfl⟩
  rw [heq] at hsq hin
  have hcap := hP.leafnodemax
  have horder := ho.keys_next hc
  rw [hsq.keys_eq] at horder
  obtain ⟨-, hsort, hcross⟩ := List.pairwise_append.mp horder
  have hsx : ∀ z ∈ s.keys, z < x.1 := fun z hz => hcross z hz x.1 (by simp)
  have hesx : ∀ e ∈ es, e.1 < x.1 := fun e he =>
    hsx e.1 (List.erase_subset (hkeys ▸ List.mem_map_of_mem he))
  have hxsq : x.1 ∈ sq.keys := by
    rw [hsq.keys_eq]
    exact List.mem_cons_self
  have hsep : sep ≤ x.1 := (ho.routes_next hc hxsq).1 sep (by simp)
  have hjoin := hrep.joined_next
  have ha₁ := hrep.leaf_hole.1
  have hq₁ := hrep.leaf_next.1
  obtain ⟨t₂, s₂, sq₂, y₂, e₂, hs₂, hsq₂, hrep₂, -⟩ := borrowFromNext_spec hrep hc hs' hsq
    (by simp only [List.length_cons] at hin ⊢; omega) (by omega) hesx (by
      rw [hs'.beyond_eq]
      rintro ⟨⟩
      exact lt_irrefl x.1 (hsx x.1 hys)) (by simp) (fun _ => ho.key_not_mem hc hxsq)
  have hbal : t₁.balanceTree P u.leaf = .ok t₂ := by
    rw [balanceTree_next ha₁ hloc (by rw [hs'.inuse, hP.leafnodemin]; omega) hjoin.1 hq₁,
      if_neg (by rw [hs'.inuse]; omega), e₂]
  -- what is there afterwards
  obtain ⟨⟨⟨sb, hsb, hinb⟩, -, hcR, -⟩, ha₂, -⟩ := (holds_fill _ (.leaf u.leaf s₂)).mp hrep₂.holds
  have hq₂ : t₂.view.body u.sibling = some (.leaf sq₂) := (hcR (.leaf u.sibling sq₂) (by simp)).1
  have hkey : load sb.keySlots (u.place - 1) = .ok (if sep = x.1 then w.1 else sep) :=
    hinb.load_keyAt (by rw [hplace]; rfl)
  have hhead : sq.keys.head? = some x.1 := by rw [hsq.keys_eq]; rfl
  rw [hhead, Option.some.injEq]
  constructor
  · rintro ⟨j, t₃, l, q, l', q', g', sep', e₃, -, -, hl', -, -, hg', hload, hcond⟩
    obtain rfl : t₂ = t₃ := by
      rw [e₁, hbal] at e₃
      exact (Prod.mk.inj (Except.ok.inj e₃)).2
    obtain rfl := Except.ok.inj ((BTree.leaf_eq ha₂).symm.trans hl')
    obtain rfl := Except.ok.inj ((BTree.inner_eq hsb).symm.trans hg')
    rw [if_pos hplace] at hcond
    -- the key that has moved is smaller than the separator
    have hxmem : x.1 ∈ s₂.keys := by simp [hs₂.keys_eq]
    have hlt : x.1 < sep' := hcond.1 x.1 hxmem
    by_contra hne
    rw [if_neg (Ne.symm hne)] at hkey
    obtain rfl := Except.ok.inj (hkey.symm.trans hload)
    exact absurd hlt (not_lt.mpr hsep)
  · intro heq
    rw [if_pos heq.symm] at hkey
    have hxw : x.1 < w.1 := (List.pairwise_cons.mp hsort).1 w.1 (by simp)
    refine ⟨i, t₂, _, _, _, _, _, w.1, by rw [e₁, hbal]; rfl, BTree.leaf_eq ha, BTree.leaf_eq hq,
      BTree.leaf_eq ha₂, BTree.leaf_eq hq₂, ?_, BTree.inner_eq hsb, hkey, ?_⟩
    · change (s₂.keys ++ sq₂.keys).Perm (s.keys.erase k ++ sq.keys)
      rw [hs₂.keys_eq, hsq₂.keys_eq, hsq.keys_eq, List.map_append, hkeys]
      simp
    · rw [if_pos hplace]
      refine ⟨fun z hz => ?_, fun z hz => ?_⟩
      · replace hz : z ∈ s₂.keys := hz
        rw [hs₂.keys_eq, List.map_append] at hz
        rcases List.mem_append.mp hz with hz | hz
        · obtain ⟨e, he, rfl⟩ := List.mem_map.mp hz
          exact (hesx e he).trans hxw
        · obtain rfl : z = x.1 := by simpa using hz
          exact hxw
      · replace hz : z ∈ sq₂.keys := hz
        rw [hsq₂.keys_eq] at hz
        rcases List.mem_cons.mp hz with rfl | hz
        · exact le_rfl
        · exact ((List.pairwise_cons.mp (List.pairwise_cons.mp hsort).2).1 z hz).le

/-- In every state that a run ends in, with its keys between their separators, a borrow goes well
exactly if the leaf has a left sibling or the right one starts with the separator. -/
theorem borrows_well (hinner : P.nodeslots = 4) (hleaf : P.leafslots = 4)
    (qs : List (Request K D)) :
    ∀ rs t, run (BTree.perform P) BTree.init qs = .ok (rs, t) → ∀ T, InOrder P t T →
      ∀ k ∈ allKeys LeafSlots.keys T.2.inorder, ∀ u, t.shortfall P k = .ok (some u) →
        t.borrows P u = .ok true → (t.BorrowsWell P k u ↔ t.separatorLeads u = .ok true) := by
  intro _ t _ T hT k hk u hu hborrows
  have hP : P.Four := ⟨hinner, hleaf⟩
  obtain ⟨h, ho⟩ := hT
  obtain ⟨c, a, s, rfl, hc, hfind, hks⟩ := h.find_leaf ho hk
  obtain ⟨rfl, hsize, sq, hbeside⟩ := beside_of_shortfall h hc hfind hu
  have ha : t.view.body u.leaf = some (.leaf s) := ((holds_fill c (.leaf u.leaf s)).mp h.holds).2.1
  rw [hP.leafnodemin] at hsize
  cases hbeside with
  | left hplace hlen hp hok =>
    simp only [BTree.borrows, BTree.leaf_eq ha, BTree.leaf_eq hp, ok_bind,
      hP.leafnodemax] at hborrows
    refine iff_of_true (borrowsWell_left hP h hc ho hfind hks hsize
      (of_decide_eq_true (Except.ok.inj hborrows)) hplace) ?_
    obtain ⟨⟨sb, hsb, -⟩, -⟩ := (h.hole hc).holds
    simp [BTree.separatorLeads, BTree.leaf_eq hp, BTree.inner_eq hsb, hplace]
  | @right up ksR csR sep _ hplace hlen hq hok =>
    simp only [BTree.borrows, BTree.leaf_eq ha, BTree.leaf_eq hq, ok_bind,
      hP.leafnodemax] at hborrows
    have hmany := of_decide_eq_true (Except.ok.inj hborrows)
    rw [borrowsWell_right hP h hc ho hfind hks hsize hmany hplace]
    obtain ⟨⟨sb, hsb, hinb⟩, -⟩ := (h.hole hc).holds
    obtain ⟨r, hr⟩ := hinb.keys
    have hkeys : sq.keys.head? = sq.keySlots.head? := by
      rw [LeafSlots.keys, List.head?_take, if_neg (by omega)]
    rw [hkeys]
    simp [BTree.separatorLeads, BTree.leaf_eq hq, BTree.inner_eq hsb, hplace, hr]

omit [DecidableEq D] in
theorem Kept.inOrder {T : (n : Nat) × MTree K D n} (h : Kept P t T) : InOrder P t T :=
  ⟨h.rep, h.order⟩

theorem borrows_well_five : ∃ rs t, run (BTree.perform (Template.plain 4)) BTree.init
    [.insert 1 10, .insert 2 20, .insert 3 30, .insert 4 40, .insert 5 50] = .ok (rs, t) ∧
      t.BorrowsWell (Template.plain 4) 1 ⟨1, 2, 3, 0⟩ := by
  obtain ⟨rs, t, e, -, hstores⟩ := stores_load (P := Template.plain 4) ⟨rfl, rfl⟩
    [(1, 10), (2, 20), (3, 30), (4, 40), (5, 50)] (by decide)
  have h : (run (BTree.perform (Template.plain 4)) BTree.init
      [.insert 1 10, .insert 2 20, .insert 3 30, .insert 4 40, .insert (5 : Nat) 50] >>= fun r => do
        return (← r.2.shortfall (Template.plain 4) 1, ← r.2.borrows (Template.plain 4) ⟨1, 2, 3, 0⟩,
          ← r.2.separatorLeads ⟨1, 2, 3, 0⟩)) = .ok (some ⟨1, 2, 3, 0⟩, true, true) := by
    decide +kernel
  obtain ⟨⟨rs', t'⟩, hrun, h⟩ := bind_eq_ok.mp h
  obtain ⟨rfl, rfl⟩ := Prod.mk.inj (Except.ok.inj (e.symm.trans hrun))
  obtain ⟨u, hu, h⟩ := bind_eq_ok.mp h
  obtain ⟨b, hb, h⟩ := bind_eq_ok.mp h
  obtain ⟨b', hb', h⟩ := bind_eq_ok.mp h
  cases h
  rcases hstores with ⟨-, hnil⟩ | ⟨T, hkept, hkeys⟩
  · cases hnil
  · exact ⟨rs, t, hrun, (borrows_well rfl rfl _ rs t hrun T hkept.inOrder 1 (hkeys ▸ by decide) _ hu
      hb).mpr hb'⟩

/-- The key that moves from `[4, 5, 6]` is not smaller than the separator, which stays `3`. -/
theorem not_borrows_well : ∃ rs t, run (BTree.perform (Template.plain 4)) BTree.init
    [.insert 1 10, .insert 2 20, .insert 3 30, .insert 4 40, .insert 5 50, .insert 6 60, .erase 3] =
      .ok (rs, t) ∧ t.shortfall (Template.plain 4) 1 = .ok (some ⟨1, 2, 3, 0⟩) ∧
    t.borrows (Template.plain 4) ⟨1, 2, 3, 0⟩ = .ok true ∧
    ¬t.BorrowsWell (Template.plain 4) 1 ⟨1, 2, 3, 0⟩ := by
  have h : (run (BTree.perform (Template.plain 4)) BTree.init
      [.insert 1 10, .insert 2 20, .insert 3 30, .insert 4 40, .insert 5 50, .insert 6 60,
        .erase (3 : Nat)] >>= fun r => do
        let u ← r.2.shortfall (Template.plain 4) 1
        let b ← r.2.borrows (Template.plain 4) ⟨1, 2, 3, 0⟩
        let r' ← r.2.erase (Template.plain 4) 1
        return (u, b, (← r'.2.leaf 1).keys, (← r'.2.inner 3).keySlots)) =
      .ok (some ⟨1, 2, 3, 0⟩, true, [2, 4], [3, 0, 0, 0]) := by
    decide +kernel
  obtain ⟨⟨rs, t⟩, hrun, h⟩ := bind_eq_ok.mp h
  obtain ⟨u, hu, h⟩ := bind_eq_ok.mp h
  obtain ⟨b, hb, h⟩ := bind_eq_ok.mp h
  obtain ⟨r', he, h⟩ := bind_eq_ok.mp h
  obtain ⟨l₁, hl₁, h⟩ := bind_eq_ok.mp h
  obtain ⟨g₁, hg₁, h⟩ := bind_eq_ok.mp h
  simp only [pure_eq_ok, Except.ok.injEq, Prod.mk.injEq] at h
  obtain ⟨rfl, rfl, hkeys, hslots⟩ := h
  refine ⟨rs, t, hrun, hu, hb, ?_⟩
  rintro ⟨i, t', l, q, l', q', g', sep, e, -, -, hl', -, -, hg', hload, hcond⟩
  obtain rfl := Except.ok.inj (he.symm.trans e)
  obtain rfl := Except.ok.inj (hl₁.symm.trans hl')
  obtain rfl := Except.ok.inj (hg₁.symm.trans hg')
  rw [hslots] at hload
  obtain rfl := Except.ok.inj hload
  have hlt : 4 < 3 := hcond.1 4 (by simp [hkeys])
  exact absurd hlt (by decide)

end NwtBTree
