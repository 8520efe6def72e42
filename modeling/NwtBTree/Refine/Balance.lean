import NwtBTree.Refine.EraseLeaf
import NwtBTree.Refine.Repair

/-!
# What `balancetree` does to the tree

A leaf with one pair left gives it to a neighbour and goes, or takes a pair from
a neighbour that has three or four.
-/

namespace NwtBTree

variable {K D : Type} {P : Template K D}

section Doomed

variable {v : View K D} {n : Nat} {up : MCtx K D (n + 1)} {b : Addr} {k : K}
  {ksL ksR kL kR : List K}
  {csL csR : List (MTree K D n)} {x : MTree K D n}

theorem Rep.doomed (h : Rep P v ((Ctx.frame up b ksL csL ksR csR).fill x).2)
    (hc : (Ctx.frame up b ksL csL ksR csR).Paired) (hks : ksL ++ ksR = kL ++ k :: kR) :
    Doomed P v up b kL k kR csL x.addr csR := by
  have hhole := h.hole hc
  have hnd := h.nodup_fill
  obtain ⟨hctx, -, hdisj⟩ := List.nodup_append'.mp hnd
  obtain ⟨hL, hR, -⟩ := hc
  have hlen := congrArg List.length hks
  have hx : x.addr ∉ (Ctx.frame up b ksL csL ksR csR).addrs := fun hm => hdisj hm x.addr_mem_addrs
  refine ⟨hhole.up, hks ▸ hhole.holds.1, hhole.siblings hctx, hhole.par.1, hhole.flag b (by simp),
    hhole.sibs.1, ?_, ((holds_fill _ x).mp h.holds).2.isKind, ?_⟩
  · rw [Ctx.addrs_frame, ← List.flatMap_append] at hx hctx
    exact List.nodup_cons.mpr ⟨hx, hctx⟩
  · simp only [List.length_append, List.length_cons] at hlen ⊢
    omega

end Doomed

section Beside

variable {v : View K D} {up : MCtx K D 1} {a b p q : Addr} {s sp sq : LeafSlots K D} {sep : K}
  {ksL ksR : List K} {csL csR : List (MTree K D 0)}

theorem Rep.leaf_hole {c : MCtx K D 0} (h : Rep P v (c.fill (.leaf a s)).2) :
    v.body a = some (.leaf s) ∧ LeafOK P s :=
  ((holds_fill c (.leaf a s)).mp h.holds).2

theorem Rep.leaf_prev
    (h : Rep P v ((Ctx.frame up b ksL (csL ++ [.leaf p sp]) ksR csR).fill (.leaf a s)).2) :
    v.body p = some (.leaf sp) ∧ LeafOK P sp :=
  ((holds_fill _ (.leaf a s)).mp h.holds).1.2.1 (.leaf p sp) (by simp)

theorem Rep.leaf_next
    (h : Rep P v ((Ctx.frame up b ksL csL ksR (.leaf q sq :: csR)).fill (.leaf a s)).2) :
    v.body q = some (.leaf sq) ∧ LeafOK P sq :=
  ((holds_fill _ (.leaf a s)).mp h.holds).1.2.2.1 (.leaf q sq) (by simp)

/-- A leaf is linked with the one before it. -/
theorem Rep.joined_prev
    (h : Rep P v ((Ctx.frame up b ksL (csL ++ [.leaf p sp]) ksR csR).fill (.leaf a s)).2) :
    v.links.Joined p a := by
  have hchain := ((sibsOK_fill _ (.leaf a s)).mp h.sibs).1.1 rfl
  rw [List.map_append, List.append_assoc] at hchain
  exact (List.isChain_append_cons_cons.mp hchain).2.1

/-- And with the one after it. -/
theorem Rep.joined_next
    (h : Rep P v ((Ctx.frame up b ksL csL ksR (.leaf q sq :: csR)).fill (.leaf a s)).2) :
    v.links.Joined a q := by
  have hchain := ((sibsOK_fill _ (.leaf a s)).mp h.sibs).1.1 rfl
  exact (List.isChain_append_cons_cons.mp hchain).2.1

/-- The leaf in the hole is no other child of the node above. -/
theorem Rep.apart {x : MTree K D 0} (h : Rep P v ((Ctx.frame up b ksL csL ksR csR).fill x).2)
    {y : MTree K D 0} (hy : y ∈ csL ++ csR) : y.addr ≠ x.addr := by
  have hdisj := (List.nodup_append'.mp h.nodup_fill).2.2
  intro heq
  apply hdisj _ (heq ▸ x.addr_mem_addrs)
  rw [Ctx.addrs_frame, ← List.flatMap_append]
  exact List.mem_cons_of_mem _ (List.mem_append_left _ (mem_flatMap_addrs hy y.addr_mem_addrs))

end Beside

section Leaves

variable {A L : Type} {up : Ctx A K L 1} {b : A} {ks ksL ksR : List K}
  {cs csL csR : List (Tree A K L 0)}

theorem seps_interleave_leaves (h : cs.length = ks.length + 1) :
    seps (interleave .inl Tree.inorder ks cs) = ks := by
  induction ks generalizing cs with
  | nil =>
    obtain ⟨c, rfl⟩ := List.length_eq_one_iff.mp h
    simp [Tree.inorder]
  | cons k ks ih =>
    obtain ⟨c, cs, rfl⟩ := List.exists_cons_of_length_eq_add_one h
    have h : cs.length = ks.length + 1 := by simpa using h
    obtain ⟨d, cs, rfl⟩ := List.exists_cons_of_length_eq_add_one h
    have : seps (interleave .inl Tree.inorder ks (d :: cs)) = ks := ih h
    simpa [Tree.inorder] using this

end Leaves

section Separators

variable {v : View K D} {n : Nat} {up : MCtx K D (n + 1)} {b : Addr} {ks ks' : List K}
  {cs : List (MTree K D n)} {s' : InnerSlots K}

/-- Writing the separators of an inner node. -/
theorem Rep.setInner (h : Rep P v (up.fill (.node b ks cs)).2) (hup : up.Paired)
    (hs' : InnerHas P s' ks' (cs.map Tree.addr)) (hlen : ks'.length = ks.length) :
    Rep P (v.setBody b (.inner s')) (up.fill (.node b ks' cs)).2 := by
  have hnd := h.nodup_fill
  have hadd : (Tree.node b ks' cs).addrs = (Tree.node b ks cs).addrs := rfl
  have hb : b ∉ up.addrs := fun hm => (List.nodup_append'.mp hnd).2.2 hm (by simp)
  have hbcs : b ∉ cs.flatMap Tree.addrs :=
    (List.nodup_cons.mp (List.nodup_append'.mp hnd).2.1).1
  have hne : ∀ c ∈ up.addrs, c ≠ b := fun c hc => ne_of_mem_of_not_mem hc hb
  obtain ⟨-, hholds⟩ := (holds_fill up _).mp h.holds
  have hpair : (Tree.node b ks cs).Paired := Ctx.paired_of_fill h.paired
  have hhole : Hole P (v.setBody b (.inner s')) up b :=
    (h.hole hup).congr rfl (fun c hc => by simp [hne c hc]) (fun c _ => rfl) (fun c _ => rfl)
      (fun c _ => ⟨rfl, rfl⟩)
  refine Hole.rep (t := Tree.node b ks' cs) hhole ⟨⟨s', by simp, hs'⟩, fun c hc => ?_⟩
    ((parOK_fill up _).mp h.par).2 ((sibsOK_fill up _).mp h.sibs).2 (fun c hc => ?_)
    (hadd ▸ hnd) ?_
  · refine (hholds.2 c hc).congr fun x hx => ?_
    have : x ≠ b := by
      rintro rfl
      exact hbcs (mem_flatMap_addrs hc hx)
    simp [this]
  · have := h.flag c ((mem_addrs_fill up _).mpr (.inr hc))
    rwa [up.addr_fill] at this
  · exact ⟨hlen ▸ hpair.1, hlen ▸ hpair.2.1, hpair.2.2⟩

end Separators

variable [LinearOrder K] {t : BTree K D} {up : MCtx K D 1} {a b p q : Addr}
  {s sp sq : LeafSlots K D}
  {sep : K} {ksL ksR kL kR : List K} {csL csR cL cR : List (MTree K D 0)} {e x : K × D}
  {es ep eq : List (K × D)} {r rp rq : List K}

/-- The leaf is found by the key in its first slot. -/
theorem leaf_loc {z : K} (h : Rep P t.view ((Ctx.frame up b ksL csL ksR csR).fill (.leaf a s)).2)
    (hc : (Ctx.frame up b ksL csL ksR csR).Paired) (hz : s.keySlots.head? = some z)
    (hr : (∀ y ∈ ksL, y ≤ z) ∧ ∀ y ∈ ksR.head?, z < y) :
    t.view.par a = some b ∧ t.findInnerNodeLoc (t.view.par a) (some a) = .ok (csL.length : Int) ∧
      t.view.Places (ksL ++ ksR) csL.length a := by
  obtain ⟨⟨sb, hsb, hinb⟩, -⟩ := (h.hole hc).holds
  have hpar : t.view.par a = some b := ((parOK_fill _ (.leaf a s)).mp h.par).2
  have ha' : t.view.body a = some (.leaf s) := h.leaf_hole.1
  obtain ⟨hL, hR, -⟩ := hc
  have hfirst : t.view.firstKey a = some z := by
    rw [View.firstKey, ha']
    simpa [Body.firstKey, List.head?_eq_getElem?] using hz
  refine ⟨hpar, ?_, ⟨ksL, ksR, z, rfl, hL, hfirst, hr⟩⟩
  have hloc : t.findInnerNodeLoc (some b) (some a) = .ok ((csL.map Tree.addr).length : Int) :=
    findInnerNodeLoc_spec hsb hinb (by simpa using hL) (by simpa using hR) hfirst hr.1 hr.2
  rw [hpar, hloc, List.length_map]

/-- Whatever the order of the keys, the search for the leaf returns. -/
theorem leaf_loc_ok (hcap : 0 < P.leafnodemax)
    (h : Rep P t.view ((Ctx.frame up b ksL csL ksR csR).fill (.leaf a s)).2)
    (hc : (Ctx.frame up b ksL csL ksR csR).Paired) :
    ∃ loc, t.findInnerNodeLoc (t.view.par a) (some a) = .ok loc := by
  obtain ⟨⟨⟨sb, hb, hin⟩, hcL, hcR, -⟩, ha, hok⟩ := (holds_fill _ (.leaf a s)).mp h.holds
  have hpar : t.view.par a = some b := ((parOK_fill _ (.leaf a s)).mp h.par).2
  have hfirst : ∀ {x : LeafSlots K D}, LeafOK P x → ∃ z, load x.keySlots 0 = .ok z := by
    intro x hx
    have hlen : 0 < x.keySlots.length := by rwa [hx.leafIs.keyCap]
    exact ⟨_, load_of_getElem? (List.getElem?_eq_getElem hlen)⟩
  obtain ⟨z, hz⟩ := hfirst hok
  obtain ⟨hL, hR, -⟩ := hc
  have hlen : (csL ++ Tree.leaf a s :: csR).length = (ksL ++ ksR).length + 1 := by
    simp
    omega
  obtain ⟨kA, kB, cA, x, cB, hks, hcs, hA, hB, hle, hlt⟩ := Ctx.exists_slot z hlen
  have hscan := InnerHas.scan_greater (hks ▸ hin) hle hlt
  simp only [BTree.findInnerNodeLoc, hpar, BTree.isleaf_leaf ha, BTree.leaf_eq ha, ok_bind, if_true,
    hz, BTree.inner_eq hb, hscan]
  by_cases hnil : kB = []
  · -- the last child is compared instead
    subst hnil
    obtain rfl := List.eq_nil_of_length_eq_zero hB.symm
    have hx : t.view.body x.addr = some (.leaf (Tip.body x)) ∧ LeafOK P (Tip.body x) := by
      have hmem : x ∈ csL ++ Tree.leaf a s :: csR := by simp [hcs]
      rcases List.mem_append.mp hmem with hmem | hmem
      · exact hcL x hmem
      · rcases List.mem_cons.mp hmem with rfl | hmem
        · exact ⟨ha, hok⟩
        · exact hcR x hmem
    have hin' : InnerHas P sb (kA ++ []) (cA.map Tree.addr ++ [x.addr]) := by
      have hmap := congrArg (List.map Tree.addr) hcs
      simp only [List.map_append, List.map_cons, List.map_nil] at hmap
      exact hks ▸ hmap ▸ hin
    have hlast : load sb.firstChild sb.slotsinuse = .ok (some x.addr) :=
      hin'.load_childAt (by simpa [hin'.inuse] using hA)
    have hlt' : sb.slotsinuse < sb.numChildren := by
      rw [hin'.inuse, hin'.num]
      simp [hA]
    obtain ⟨y, hy⟩ := hfirst hx.2
    simp only [if_true, if_pos hlt', hlast, ok_bind, deref, BTree.leaf_eq hx.1, hy]
    split
    · exact ⟨_, rfl⟩
    · exact ⟨_, rfl⟩
  · exact ⟨kA.length, by rw [if_neg hnil]; rfl⟩

/-- Deleting a leaf that is not empty. -/
theorem deleteInnerNode_leaf (hcap : 4 ≤ P.innernodemax)
    (hmin : P.innernodemin = P.innernodemax / 2)
    (h : Rep P t.view ((Ctx.frame up b ksL csL ksR csR).fill (.leaf a s)).2)
    (hc : (Ctx.frame up b ksL csL ksR csR).Paired) (hs : LeafIs P s (e :: es) r)
    (hr : (∀ y ∈ ksL, y ≤ e.1) ∧ ∀ y ∈ ksR.head?, e.1 < y) (hks : ksL ++ ksR = kL ++ sep :: kR)
    (hsort : (ksL ++ ksR).Pairwise (· ≤ ·)) (htold : up.Told P.innernodemax (kL ++ kR))
    (hbushy : (Ctx.frame up b ksL csL ksR csR).Bushy (P.innernodemax / 2 ≤ ·))
    {T : (m : Nat) × MTree K D m} (hT : up.Settled P.innernodemax b (kL ++ kR) (csL ++ csR) T) :
    ∃ r t', t.deleteInnerNode P t.fuel b sep a = .ok (r, t') ∧
      Shrunk P t.view t'.view (mendLinks P.innernodemax up (csL ++ csR)
        (removalLinks true t.view.links (csL.map Tree.addr) a (csR.map Tree.addr))) T := by
  obtain ⟨-, -, hplace⟩ := leaf_loc h hc hs.head_key hr
  obtain ⟨kA, kB, hcut, hrest, hnot⟩ := exists_first_cut (hks ▸ hsort)
  have hdoom := h.doomed hc (hks.trans hcut.symm)
  rw [hks.trans hcut.symm] at hplace
  refine BTree.deleteInnerNode_spec hcap hmin hT hrest rfl hdoom hnot hplace htold
    hbushy.2.2.2 ?_ ?_
  · intro hsome
    have := hbushy.1 hsome
    have hlen := congrArg List.length hks
    simp only [List.length_append, List.length_cons] at hlen this ⊢
    omega
  · have := h.depth_lt_fuel
    simp only [Ctx.depth] at this
    omega

variable [DecidableEq D]

/-- A leaf with one pair moves it. -/
theorem moveAll_one (ha : t.view.body a = some (.leaf s)) (hs : LeafIs P s [e] r) {o : Int}
    {t1 : BTree K D} (hmove : t.insertLeafPair P p e.1 e.2 = .ok (o, t1)) :
    t.moveAll P a p 0 1 = .ok t1 := by
  have hkey : load s.keySlots 0 = .ok e.1 := hs.load_key (i := 0) (by simp)
  have hdata : load s.dataSlots 0 = .ok e.2 := hs.load_data (i := 0) (by simp)
  simp only [BTree.moveAll, BTree.leaf_eq ha, ok_bind, hkey, hdata, hmove]

section Siblings

variable {v : View K D} {sp' sq' : LeafSlots K D}

omit [LinearOrder K] [DecidableEq D] in
/-- Writing the slots of the leaf on the left. -/
theorem Rep.setPrev
    (h : Rep P v ((Ctx.frame up b (kL ++ [sep]) (cL ++ [.leaf p sp]) ksR csR).fill (.leaf a s)).2)
    (hc : (Ctx.frame up b (kL ++ [sep]) (cL ++ [.leaf p sp]) ksR csR).Paired) (hok : LeafOK P sp') :
    Rep P (v.setBody p (.leaf sp'))
      ((Ctx.frame up b (kL ++ [sep]) (cL ++ [.leaf p sp']) ksR csR).fill (.leaf a s)).2 := by
  rw [Ctx.fill_shift] at h ⊢
  exact h.setLeaf (Ctx.paired_shift_left hc trivial) hok

omit [LinearOrder K] [DecidableEq D] in
/-- Writing the slots of the leaf on the right. -/
theorem Rep.setNext
    (h : Rep P v ((Ctx.frame up b kL cL (sep :: ksR) (.leaf q sq :: csR)).fill (.leaf a s)).2)
    (hc : (Ctx.frame up b kL cL (sep :: ksR) (.leaf q sq :: csR)).Paired) (hok : LeafOK P sq') :
    Rep P (v.setBody q (.leaf sq'))
      ((Ctx.frame up b kL cL (sep :: ksR) (.leaf q sq' :: csR)).fill (.leaf a s)).2 := by
  rw [← Ctx.fill_shift] at h ⊢
  exact h.setLeaf (Ctx.paired_shift_right hc trivial) hok

end Siblings

section Merge

variable {sp' sq' : LeafSlots K D} {o : Int} {t1 : BTree K D} {T : (m : Nat) × MTree K D m}

/-- What the merge into the leaf on the left does once the pairs have moved. -/
theorem mergeLeafIntoPrev_eq {z : K}
    (h : Rep P t.view ((Ctx.frame up b (kL ++ [sep]) (cL ++ [.leaf p sp]) ksR csR).fill
      (.leaf a s)).2)
    (hc : (Ctx.frame up b (kL ++ [sep]) (cL ++ [.leaf p sp]) ksR csR).Paired)
    (hz : s.keySlots.head? = some z)
    (hr : (∀ y ∈ kL ++ [sep], y ≤ z) ∧ ∀ y ∈ ksR.head?, z < y)
    (hmove : t.moveAll P a p 0 s.slotsinuse = .ok t1)
    (hview : t1.view = t.view.setBody p (.leaf sp')) (hok : LeafOK P sp') :
    t.mergeLeafIntoPrev P a p (cL.length + 1) = (do
      let (_, t') ← t1.deleteInnerNode P t1.fuel b sep a
      return t') ∧
    Rep P t1.view ((Ctx.frame up b (kL ++ [sep]) (cL ++ [.leaf p sp']) ksR csR).fill
      (.leaf a s)).2 ∧
      (Ctx.frame up b (kL ++ [sep]) (cL ++ [.leaf p sp']) ksR csR).Paired := by
  have ha : t.view.body a = some (.leaf s) := h.leaf_hole.1
  obtain ⟨hpar, hloc, -⟩ := leaf_loc h hc hz hr
  -- the neighbour is rewritten
  have h1 := h.setPrev hc hok
  have hc1 := Ctx.paired_shift_right (y := .leaf p sp') (Ctx.paired_shift_left hc (x := .leaf a s)
    trivial)
    trivial
  rw [← hview] at h1
  refine ⟨?_, h1, hc1⟩
  obtain ⟨⟨sb, hsb, hinb⟩, -⟩ := (h1.hole hc1).holds
  have hnum : sb.numChildren = cL.length + csR.length + 2 := by
    rw [hinb.num]
    simp
    omega
  have hkey : loadInt sb.keySlots ((cL.length : Int) + 1 - 1) = .ok sep := by
    have hlen : kL.length = cL.length := by simpa using hc.1
    rw [List.append_assoc, List.singleton_append] at hinb
    rw [Int.add_sub_cancel, loadInt_natCast]
    exact hinb.load_keyAt hlen.symm
  rw [hpar] at hloc
  simp only [BTree.mergeLeafIntoPrev, BTree.leaf_eq ha, ok_bind, hpar, hloc, hmove, deref,
    BTree.inner_eq hsb]
  rw [if_neg (Int.not_lt.mpr (Int.natCast_nonneg _)), if_neg (by rw [hnum]; push_cast; omega), hkey]
  rfl

/-- What the merge into the leaf on the right does once the pairs have moved. -/
theorem mergeLeafIntoNext_eq {z : K}
    (h : Rep P t.view ((Ctx.frame up b kL cL (sep :: ksR) (.leaf q sq :: csR)).fill (.leaf a s)).2)
    (hc : (Ctx.frame up b kL cL (sep :: ksR) (.leaf q sq :: csR)).Paired)
    (hz : s.keySlots.head? = some z)
    (hr : (∀ y ∈ kL, y ≤ z) ∧ ∀ y ∈ (sep :: ksR).head?, z < y)
    (hmove : t.moveAll P a q 0 s.slotsinuse = .ok t1)
    (hview : t1.view = t.view.setBody q (.leaf sq')) (hok : LeafOK P sq') :
    t.mergeLeafIntoNext P a q = (do
      let (_, t') ← t1.deleteInnerNode P t1.fuel b sep a
      return t') ∧
    Rep P t1.view ((Ctx.frame up b kL cL (sep :: ksR) (.leaf q sq' :: csR)).fill (.leaf a s)).2 ∧
      (Ctx.frame up b kL cL (sep :: ksR) (.leaf q sq' :: csR)).Paired := by
  have ha : t.view.body a = some (.leaf s) := h.leaf_hole.1
  have hpar := (leaf_loc h hc hz hr).1
  have h1 := h.setNext hc hok
  have hc1 := Ctx.paired_shift_left (x := .leaf q sq') (Ctx.paired_shift_right hc (y := .leaf a s)
    trivial)
    trivial
  rw [← hview] at h1
  refine ⟨?_, h1, hc1⟩
  obtain ⟨hpar1, hloc1, -⟩ := leaf_loc h1 hc1 hz hr
  obtain ⟨⟨sb, hsb, hinb⟩, -⟩ := (h1.hole hc1).holds
  have hnum : (cL.length : Int) < sb.numChildren := by
    rw [hinb.num]
    simp
    omega
  have hkey : loadInt sb.keySlots (cL.length : Int) = .ok sep := by
    rw [loadInt_natCast]
    exact hinb.load_keyAt hc.1.symm
  rw [hpar1] at hloc1
  simp only [BTree.mergeLeafIntoNext, BTree.leaf_eq ha, ok_bind, hpar, hmove, hloc1, deref,
    BTree.inner_eq hsb]
  rw [if_neg (Int.not_lt.mpr (Int.natCast_nonneg _)), if_pos hnum, hkey]
  rfl

/-- The leaf goes, and its pair has moved to the leaf on the left. -/
theorem mergeLeafIntoPrev_spec (hcap : 4 ≤ P.innernodemax)
    (hmin : P.innernodemin = P.innernodemax / 2)
    (h : Rep P t.view ((Ctx.frame up b (kL ++ [sep]) (cL ++ [.leaf p sp]) ksR csR).fill
      (.leaf a s)).2)
    (hc : (Ctx.frame up b (kL ++ [sep]) (cL ++ [.leaf p sp]) ksR csR).Paired)
    (hs : LeafIs P s [e] r)
    (hr : (∀ y ∈ kL ++ [sep], y ≤ e.1) ∧ ∀ y ∈ ksR.head?, e.1 < y)
    (hsort : (kL ++ [sep] ++ ksR).Pairwise (· ≤ ·)) (htold : up.Told P.innernodemax (kL ++ ksR))
    (hbushy : (Ctx.frame up b (kL ++ [sep]) (cL ++ [.leaf p sp]) ksR csR).Bushy
      (P.innernodemax / 2 ≤ ·))
    (hmove : t.insertLeafPair P p e.1 e.2 = .ok (o, t1))
    (hview : t1.view = t.view.setBody p (.leaf sp')) (hok : LeafOK P sp')
    (hT : up.Settled P.innernodemax b (kL ++ ksR) (cL ++ .leaf p sp' :: csR) T) :
    ∃ t', t.mergeLeafIntoPrev P a p (cL.length + 1) = .ok t' ∧
      Shrunk P t.view t'.view (mendLinks P.innernodemax up (cL ++ .leaf p sp' :: csR)
        (removalLinks true t.view.links ((cL ++ [Tree.leaf p sp]).map Tree.addr) a
          (csR.map Tree.addr))) T := by
  have ha : t.view.body a = some (.leaf s) := h.leaf_hole.1
  have hall : t.moveAll P a p 0 s.slotsinuse = .ok t1 := by
    rw [hs.inuse]
    exact moveAll_one ha hs hmove
  obtain ⟨e1, h1, hc1⟩ := mergeLeafIntoPrev_eq h hc hs.head_key hr hall hview hok
  have hkeys : kL ++ [sep] ++ ksR = kL ++ sep :: ksR := by simp
  obtain ⟨r', t2, e2, hrep, hlinks, hsize, hcount, htail, hhead⟩ :=
    deleteInnerNode_leaf hcap hmin h1 hc1 hs hr hkeys hsort htold
      ⟨hbushy.1, fun c _ => trivial, hbushy.2.2⟩ (T := T) (by simpa using hT)
  refine ⟨t2, ?_, ⟨hrep, ?_, ?_, ?_, ?_, ?_⟩⟩
  · rw [e1, e2]
    rfl
  · rw [hlinks, hview]
    simp
  · rw [hsize, hview]
    rfl
  · rw [hcount, hview]
    rfl
  · rw [htail, hview]
    rfl
  · rw [hhead, hview]
    rfl

/-- The leaf goes, and its pair has moved to the leaf on the right. -/
theorem mergeLeafIntoNext_spec (hcap : 4 ≤ P.innernodemax)
    (hmin : P.innernodemin = P.innernodemax / 2)
    (h : Rep P t.view ((Ctx.frame up b kL cL (sep :: ksR) (.leaf q sq :: csR)).fill (.leaf a s)).2)
    (hc : (Ctx.frame up b kL cL (sep :: ksR) (.leaf q sq :: csR)).Paired) (hs : LeafIs P s [e] r)
    (hr : (∀ y ∈ kL, y ≤ e.1) ∧ ∀ y ∈ (sep :: ksR).head?, e.1 < y)
    (hsort : (kL ++ sep :: ksR).Pairwise (· ≤ ·)) (htold : up.Told P.innernodemax (kL ++ ksR))
    (hbushy : (Ctx.frame up b kL cL (sep :: ksR) (.leaf q sq :: csR)).Bushy
      (P.innernodemax / 2 ≤ ·))
    (hmove : t.insertLeafPair P q e.1 e.2 = .ok (o, t1))
    (hview : t1.view = t.view.setBody q (.leaf sq')) (hok : LeafOK P sq')
    (hT : up.Settled P.innernodemax b (kL ++ ksR) (cL ++ .leaf q sq' :: csR) T) :
    ∃ t', t.mergeLeafIntoNext P a q = .ok t' ∧
      Shrunk P t.view t'.view (mendLinks P.innernodemax up (cL ++ .leaf q sq' :: csR)
        (removalLinks true t.view.links (cL.map Tree.addr) a (q :: csR.map Tree.addr))) T := by
  have ha : t.view.body a = some (.leaf s) := h.leaf_hole.1
  have hall : t.moveAll P a q 0 s.slotsinuse = .ok t1 := by
    rw [hs.inuse]
    exact moveAll_one ha hs hmove
  obtain ⟨e1, h1, hc1⟩ := mergeLeafIntoNext_eq h hc hs.head_key hr hall hview hok
  obtain ⟨r', t2, e2, hrep, hlinks, hsize, hcount, htail, hhead⟩ :=
    deleteInnerNode_leaf hcap hmin h1 hc1 hs hr rfl hsort htold
      ⟨hbushy.1, hbushy.2.1, fun c _ => trivial, hbushy.2.2.2⟩ hT
  refine ⟨t2, ?_, ⟨hrep, ?_, ?_, ?_, ?_, ?_⟩⟩
  · rw [e1, e2]
    rfl
  · rw [hlinks, hview]
    rfl
  · rw [hsize, hview]
    rfl
  · rw [hcount, hview]
    rfl
  · rw [htail, hview]
    rfl
  · rw [hhead, hview]
    rfl

end Merge

section Borrow

omit [LinearOrder K] [DecidableEq D] in
/-- One step down and one step up again. -/
theorem count_down_up (c : Nat) :
    ((c + 4294967295) % 4294967296 + 1) % 4294967296 = c % 4294967296 := by
  omega

/-- The last pair of the leaf on the left moves over, and its key becomes the separator. -/
theorem borrowFromPrev_spec
    (h : Rep P t.view ((Ctx.frame up b (kL ++ [sep]) (cL ++ [.leaf p sp]) ksR csR).fill
      (.leaf a s)).2)
    (hc : (Ctx.frame up b (kL ++ [sep]) (cL ++ [.leaf p sp]) ksR csR).Paired) (hs : LeafIs P s es r)
    (hsp : LeafIs P sp (ep ++ [x]) rp) (hless : es.length ≤ ep.length)
    (hroom : es.length < P.leafnodemax)
    (hlt : ∀ y ∈ ep, y.1 < x.1) (hxe : ∀ e ∈ es.head?, x.1 ≤ e.1)
    (hne : s.keySlots.head? ≠ some x.1) (hsep : sep ∉ kL) :
    ∃ t' s' sp' es', t.borrowFromPrev P a p (cL.length + 1) = .ok t' ∧
      LeafIs P sp' ep (x.1 :: rp) ∧ LeafIs P s' es' r.tail ∧
        es'.map Prod.fst = x.1 :: es.map Prod.fst ∧
      Rep P t'.view ((Ctx.frame up b (kL ++ [x.1]) (cL ++ [.leaf p sp']) ksR csR).fill
        (.leaf a s')).2 ∧ t'.view.links = t.view.links ∧ t'.view.size = t.view.size ∧
      t'.view.count = t.view.count % 4294967296 ∧ t'.view.tailleaf = t.view.tailleaf ∧
      t'.view.headleaf = t.view.headleaf := by
  have ha : t.view.body a = some (.leaf s) := h.leaf_hole.1
  have hpar : t.view.par a = some b := ((parOK_fill _ (.leaf a s)).mp h.par).2
  obtain ⟨⟨sb, hsb, hinb⟩, hcL, -⟩ := (h.hole hc).holds
  have hp : t.view.body p = some (.leaf sp) := (hcL (.leaf p sp) (by simp)).1
  have hpa : p ≠ a := by
    have hnd := (List.nodup_append'.mp h.nodup_fill).2.2
    rintro rfl
    exact hnd (a := p) (by simp) (by simp)
  rw [List.append_assoc, List.singleton_append] at hinb
  -- the pair goes to the front of the leaf
  obtain ⟨t1, s', es', e1, hs', hfst, -, v1⟩ := insertLeafPair_first (d := x.2) ha hs
    hroom hxe hne
  have ha1 : t1.view.body a = some (.leaf s') := by
    rw [v1]
    simp
  have hab : b ≠ a := fun hab => by
    rw [hab, ha] at hsb
    simp at hsb
  have hpb : p ≠ b := fun hpb => by
    rw [hpb, hsb] at hp
    simp at hp
  have hsb1 : t1.view.body b = some (.inner sb) := by
    rw [v1]
    simpa [hab] using hsb
  have hp1 : t1.view.body p = some (.leaf sp) := by
    rw [v1]
    simpa [hpa] using hp
  -- its key becomes the separator
  obtain ⟨sb', t2, e2, hinb', v2⟩ := replaceKey_spec hsb1 hinb hsep x.1
  have hp2 : t2.view.body p = some (.leaf sp) := by
    rw [v2]
    simpa [hpb] using hp1
  -- and it leaves its old place
  have hsp0 : LeafIs P sp (ep ++ x :: []) rp := hsp
  obtain ⟨t3, sp', y, e3, hsp', hy, v3⟩ := deleteLeafPair_spec hp2 hsp0 hlt x.2
  obtain rfl : y = x.1 := by simpa using hy
  rw [List.append_nil] at hsp'
  have hc' : (Ctx.frame up b (kL ++ [x.1]) (cL ++ [.leaf p sp]) ksR csR).Paired := by
    obtain ⟨hL, hrest⟩ := hc
    exact ⟨by simpa using hL, by simpa using hrest⟩
  have h1 := h.setLeaf hc hs'.ok
  have h2 : Rep P ((t.view.setBody a (.leaf s')).setBody b (.inner sb'))
      ((Ctx.frame up b (kL ++ [x.1]) (cL ++ [.leaf p sp]) ksR csR).fill (.leaf a s')).2 :=
    Rep.setInner h1 hc.2.2.2.2.2 (by simpa using hinb') (by simp)
  have h3 := h2.setPrev hc' hsp'.ok
  have hkeep : t3.view = { (((t.view.setBody a (.leaf s')).setBody b (.inner sb')).setBody p
      (.leaf sp')) with count := t2.downkeycount.totalkeycount } := by
    rw [v3, v2, v1]
  have hcount2 : t2.totalkeycount = t.totalkeycount := by
    rw [← BTree.count_view, v2, v1]
    rfl
  refine ⟨t3.upkeycount, s', sp', es', ?_, hsp', hs', by simpa using hfst, ?_, ?_, ?_, ?_, ?_, ?_⟩
  · have hlast : ((ep ++ [x]).length : Int) - 1 = (ep.length : Nat) := by simp
    have hkey : loadInt sp.keySlots (((ep ++ [x]).length : Int) - 1) = .ok x.1 := by
      rw [hlast, loadInt_natCast, hsp.load_key (by simp)]
      simp
    have hdata : loadInt sp.dataSlots (((ep ++ [x]).length : Int) - 1) = .ok x.2 := by
      rw [hlast, loadInt_natCast, hsp.load_data (by simp)]
      simp
    have hsepload : loadInt sb.keySlots ((cL.length : Int) + 1 - 1) = .ok sep := by
      have hlen : kL.length = cL.length := by simpa using hc.1
      rw [Int.add_sub_cancel, loadInt_natCast]
      exact hinb.load_keyAt hlen.symm
    have hfirst : load s'.keySlots 0 = .ok x.1 := hs'.load_first hfst
    have hpar1 : t1.view.par a = some b := by
      rw [v1]
      exact hpar
    have hlt' : ¬¬s.slotsinuse < (ep ++ [x]).length := by
      rw [hs.inuse, not_not, List.length_append, List.length_singleton]
      omega
    simp only [BTree.borrowFromPrev, BTree.leaf_eq ha, BTree.leaf_eq hp, ok_bind, hsp.inuse,
      if_neg hlt', hkey, hdata, e1, hpar, deref, BTree.inner_eq hsb1, hsepload,
      BTree.leaf_eq ha1, hpar1, hfirst, e2, BTree.leaf_eq hp2, e3]
    rfl
  · rw [BTree.upkeycount, view_count, hkeep]
    exact h3.congr rfl (fun _ _ => rfl) (fun _ _ => rfl) (fun _ _ => rfl) (fun _ _ => ⟨rfl, rfl⟩)
  · rw [BTree.upkeycount, view_count, hkeep]
    rfl
  · rw [BTree.upkeycount, view_count, hkeep]
    rfl
  · have hcount3 : t3.totalkeycount = t2.downkeycount.totalkeycount := by
      rw [← BTree.count_view, hkeep]
    rw [BTree.upkeycount, view_count, hcount3, BTree.downkeycount, hcount2, BTree.count_view]
    exact count_down_up _
  · rw [BTree.upkeycount, view_count, hkeep]
    rfl
  · rw [BTree.upkeycount, view_count, hkeep]
    rfl

omit [DecidableEq D] in
/-- A separator is rewritten if it is the key asked for. -/
theorem replaceKey_at {sb : InnerSlots K} {k z : K} {cs : List Addr}
    (hb : t.view.body b = some (.inner sb)) (hsb : InnerHas P sb (kL ++ sep :: kR) cs) (hL : k ∉ kL)
    (hR : sep ≠ k → k ∉ kR) : ∃ o sb' t', t.replaceKey (some b) k z = .ok (o, t') ∧
      InnerHas P sb' (kL ++ (if sep = k then z else sep) :: kR) cs ∧
      t'.view = t.view.setBody b (.inner sb') := by
  by_cases hk : sep = k
  · subst hk
    obtain ⟨sb', t', e, h⟩ := replaceKey_spec hb hsb hL z
    exact ⟨1, sb', t', e, by simpa using h⟩
  · have hscan : scan (keyequal · k) sb.keySlots sb.slotsinuse 0 = .ok none := by
      obtain ⟨r, hr⟩ := hsb.keys
      rw [hsb.inuse, hr]
      refine scan_none r fun y hy => ?_
      rw [Bool.eq_false_iff, Ne, keyequal_iff]
      rintro rfl
      simp only [List.mem_append, List.mem_cons] at hy
      rcases hy with hy | rfl | hy
      · exact hL hy
      · exact hk rfl
      · exact hR hk hy
    refine ⟨-1, sb, t, ?_, by rwa [if_neg hk], (View.setBody_self hb).symm⟩
    simp only [BTree.replaceKey, BTree.inner_eq hb, ok_bind, hscan]
    rfl

/-- The first pair of the leaf on the right moves over. The separator follows if it is its key. -/
theorem borrowFromNext_spec {y : K × D}
    (h : Rep P t.view ((Ctx.frame up b kL cL (sep :: ksR) (.leaf q sq :: csR)).fill (.leaf a s)).2)
    (hc : (Ctx.frame up b kL cL (sep :: ksR) (.leaf q sq :: csR)).Paired) (hs : LeafIs P s es r)
    (hsq : LeafIs P sq (x :: y :: eq) rq) (hless : es.length ≤ (y :: eq).length)
    (hroom : es.length < P.leafnodemax) (hex : ∀ e ∈ es, e.1 < x.1)
    (hstale : s.beyond ≠ some x.1) (hL : x.1 ∉ kL) (hR : sep ≠ x.1 → x.1 ∉ ksR) :
    ∃ t' s' sq' w, t.borrowFromNext P a q = .ok t' ∧
      LeafIs P s' (es ++ [x]) r.tail ∧ LeafIs P sq' (y :: eq) (w :: rq) ∧
      Rep P t'.view ((Ctx.frame up b kL cL ((if sep = x.1 then y.1 else sep) :: ksR)
        (.leaf q sq' :: csR)).fill (.leaf a s')).2 ∧ t'.view.links = t.view.links ∧
      t'.view.size = t.view.size ∧ t'.view.count = t.view.count % 4294967296 ∧
      t'.view.tailleaf = t.view.tailleaf ∧ t'.view.headleaf = t.view.headleaf := by
  have ha : t.view.body a = some (.leaf s) := h.leaf_hole.1
  obtain ⟨⟨sb, hsb, hinb⟩, -, hcR, -⟩ := (h.hole hc).holds
  have hq : t.view.body q = some (.leaf sq) := (hcR (.leaf q sq) (by simp)).1
  have hpar : t.view.par q = some b := (h.hole hc).par.2.2.1 (.leaf q sq) (by simp)
  have hqa : q ≠ a := by
    have hnd := (List.nodup_append'.mp h.nodup_fill).2.2
    rintro rfl
    exact hnd (a := q) (by simp) (by simp)
  have hab : b ≠ a := fun hab => by
    rw [hab, ha] at hsb
    simp at hsb
  have hqb : q ≠ b := fun hqb => by
    rw [hqb, hsb] at hq
    simp at hq
  -- the pair goes to the end of the leaf
  obtain ⟨t1, s', e1, hs', v1⟩ := insertLeafPair_last (d := x.2) ha hs hroom hex hstale
  have hq1 : t1.view.body q = some (.leaf sq) := by
    rw [v1]
    simpa [hqa] using hq
  have hsb1 : t1.view.body b = some (.inner sb) := by
    rw [v1]
    simpa [hab] using hsb
  have hpar1 : t1.view.par q = some b := by
    rw [v1]
    exact hpar
  -- the separator follows
  obtain ⟨o, sb', t2, e2, hinb', v2⟩ := replaceKey_at (z := y.1) hsb1 hinb hL hR
  have hq2 : t2.view.body q = some (.leaf sq) := by
    rw [v2]
    simpa [hqb] using hq1
  -- and the pair leaves its old place
  have hsq0 : LeafIs P sq ([] ++ x :: y :: eq) rq := hsq
  obtain ⟨t3, sq', w, e3, hsq', -, v3⟩ := deleteLeafPair_spec hq2 hsq0 (by simp) x.2
  have hc' : (Ctx.frame up b kL cL ((if sep = x.1 then y.1 else sep) :: ksR)
      (.leaf q sq :: csR)).Paired := hc
  have h1 := h.setLeaf hc hs'.ok
  have h2 : Rep P ((t.view.setBody a (.leaf s')).setBody b (.inner sb'))
      ((Ctx.frame up b kL cL ((if sep = x.1 then y.1 else sep) :: ksR) (.leaf q sq :: csR)).fill
        (.leaf a s')).2 := Rep.setInner h1 hc.2.2.2.2.2 (by simpa using hinb') (by simp)
  have h3 := h2.setNext hc' hsq'.ok
  have hkeep : t3.view = { (((t.view.setBody a (.leaf s')).setBody b (.inner sb')).setBody q
      (.leaf sq')) with count := t2.downkeycount.totalkeycount } := by
    rw [v3, v2, v1]
  have hcount2 : t2.totalkeycount = t.totalkeycount := by
    rw [← BTree.count_view, v2, v1]
    rfl
  refine ⟨t3.upkeycount, s', sq', w, ?_, by simpa using hs', hsq', ?_, ?_, ?_, ?_, ?_, ?_⟩
  · have hkey0 : load sq.keySlots 0 = .ok x.1 := hsq.load_key (i := 0) (by simp)
    have hkey1 : load sq.keySlots 1 = .ok y.1 := hsq.load_key (i := 1) (by simp)
    have hdata0 : load sq.dataSlots 0 = .ok x.2 := hsq.load_data (i := 0) (by simp)
    have hlt' : ¬¬s.slotsinuse < sq.slotsinuse := by
      rw [hs.inuse, hsq.inuse, not_not]
      simp only [List.length_cons] at hless ⊢
      omega
    simp only [BTree.borrowFromNext, BTree.leaf_eq ha, BTree.leaf_eq hq, ok_bind,
      if_neg hlt', hkey0,
      hdata0, e1, BTree.leaf_eq hq1, hpar1, hkey1, e2, BTree.leaf_eq hq2, e3]
    rfl
  · rw [BTree.upkeycount, view_count, hkeep]
    exact h3.congr rfl (fun _ _ => rfl) (fun _ _ => rfl) (fun _ _ => rfl) (fun _ _ => ⟨rfl, rfl⟩)
  · rw [BTree.upkeycount, view_count, hkeep]
    rfl
  · rw [BTree.upkeycount, view_count, hkeep]
    rfl
  · have hcount3 : t3.totalkeycount = t2.downkeycount.totalkeycount := by
      rw [← BTree.count_view, hkeep]
    rw [BTree.upkeycount, view_count, hcount3, BTree.downkeycount, hcount2, BTree.count_view]
    exact count_down_up _
  · rw [BTree.upkeycount, view_count, hkeep]
    rfl
  · rw [BTree.upkeycount, view_count, hkeep]
    rfl

end Borrow

/-! ## The branches of `balancetree` -/

section Branches

variable {loc : Int}

theorem balanceTree_enough (ha : t.view.body a = some (.leaf s))
    (hloc : t.findInnerNodeLoc (t.view.par a) (some a) = .ok loc)
    (h : P.leafnodemin ≤ s.slotsinuse) : t.balanceTree P a = .ok t := by
  have hunder : s.isunderflow P = false := by
    rw [LeafSlots.isunderflow, decide_eq_false_iff_not]
    omega
  simp only [BTree.balanceTree, BTree.leaf_eq ha, ok_bind, hloc, hunder, Bool.false_eq_true,
    if_false]
  rfl

/-- A leaf that is the root and the last one stays as it is. -/
theorem balanceTree_root (ha : t.view.body a = some (.leaf s)) (hpar : t.view.par a = none)
    (hnxt : t.view.links.nxt a = none) : t.balanceTree P a = .ok t := by
  simp only [BTree.balanceTree, BTree.leaf_eq ha, ok_bind, hpar, hnxt]
  have hloc : t.findInnerNodeLoc none (some a) = .ok (-1) := rfl
  rw [hloc, ok_bind]
  cases t.view.links.prv a <;> split <;> rfl

theorem balanceTree_prev (ha : t.view.body a = some (.leaf s))
    (hloc : t.findInnerNodeLoc (t.view.par a) (some a) = .ok loc) (hpos : 0 < loc)
    (h : s.slotsinuse < P.leafnodemin) (hprv : t.view.links.prv a = some p)
    (hp : t.view.body p = some (.leaf sp)) : t.balanceTree P a =
      if sp.slotsinuse + s.slotsinuse < P.leafnodemax then t.mergeLeafIntoPrev P a p loc
      else t.borrowFromPrev P a p loc := by
  have hunder : s.isunderflow P = true := decide_eq_true h
  simp only [BTree.balanceTree, BTree.leaf_eq ha, ok_bind, hloc, hunder, if_true, hprv,
    decide_eq_true hpos, BTree.leaf_eq hp]

theorem balanceTree_next (ha : t.view.body a = some (.leaf s))
    (hloc : t.findInnerNodeLoc (t.view.par a) (some a) = .ok 0)
    (h : s.slotsinuse < P.leafnodemin) (hnxt : t.view.links.nxt a = some q)
    (hq : t.view.body q = some (.leaf sq)) : t.balanceTree P a =
      if sq.slotsinuse + s.slotsinuse < P.leafnodemax then t.mergeLeafIntoNext P a q
      else t.borrowFromNext P a q := by
  have hunder : s.isunderflow P = true := decide_eq_true h
  simp only [BTree.balanceTree, BTree.leaf_eq ha, ok_bind, hloc, hunder, if_true, hnxt,
    Int.lt_irrefl, decide_false]
  cases t.view.links.prv a
  case none => simp only [BTree.leaf_eq hq, ok_bind]
  case some p => simp only [BTree.leaf_eq hq, ok_bind]

end Branches

end NwtBTree
