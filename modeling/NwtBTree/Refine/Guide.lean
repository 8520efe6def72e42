import NwtBTree.Multiway.Ascend
import NwtBTree.Refine.Spare

/-!
# Finding a node that has become too small

`getlocation` finds a leaf in its parent by the first key of the leaf, and an inner
node by its first separator. Where keys are repeated this can be the separator behind
the node, and then its right neighbour is taken for it. Read off the nodes before the
call.
-/

namespace NwtBTree

variable {K D : Type} [LinearOrder K]

namespace BTree

/-- The inner node at `a` loses a child and is left with the separators `ks`: the first of them
leads to it. -/
def tells (P : Template K D) (t : BTree K D) : Nat → Addr → List K → Except Fault Bool
  | 0, _, _ => .ok false
  | fuel + 1, a, ks => do
    let n ← t.inner a
    if n.isrootnode || P.innernodemax / 2 < n.numChildren - 1 then return true
    let g ← deref n.parent
    let parent ← t.inner g
    let i := parent.firstChild.idxOf (some a)
    let kp := parent.keySlots.take parent.slotsinuse
    if ∀ z ∈ ks.head?, ∀ y ∈ kp[i]?, z < y then
      if i + 1 < parent.numChildren then
        let q ← t.inner (← deref (← load parent.firstChild (i + 1)))
        -- a neighbour with room takes the children over, and the parent loses a child
        if q.numChildren + (n.numChildren - 1) ≤ P.innernodemax + 1 then
          t.tells P fuel g (kp.eraseIdx i)
        else return true
      else t.tells P fuel g (kp.eraseIdx (i - 1))
    else return false

/-- The leaf at `a` loses a pair and is left with the keys `ks`: the first of them leads to it and
is not the last one of the left sibling. -/
def tellsPair (P : Template K D) (t : BTree K D) (a : Addr) (ks : List K) :
    Except Fault Bool := do
  let l ← t.leaf a
  if l.isrootnode || P.leafnodemax / 2 < l.slotsinuse then return true
  let g ← deref l.parent
  let parent ← t.inner g
  let i := parent.firstChild.idxOf (some a)
  let kp := parent.keySlots.take parent.slotsinuse
  if ∀ z ∈ ks.head?, ∀ y ∈ kp[i]?, z < y then
    let q ← t.leaf (← deref (← load parent.firstChild (if 0 < i then i - 1 else 1)))
    if 0 < i ∧ q.keys.getLast? = ks.head? then return false
    else if q.slotsinuse + (l.slotsinuse - 1) < P.leafnodemax then
      t.tells P t.fuel g (kp.eraseIdx (i - 1))
    else return true
  else return false

end BTree

variable {P : Template K D} {t : BTree K D}

omit [LinearOrder K] in
theorem InnerHas.separators {s : InnerSlots K} {ks : List K} {cs : List Addr}
    (h : InnerHas P s ks cs) : s.keySlots.take s.slotsinuse = ks := by
  obtain ⟨r, hr⟩ := h.keys
  rw [hr, h.inuse, List.take_left]

omit [LinearOrder K] in
theorem getElem?_between {ksL ksR : List K} {i : Nat} (h : ksL.length = i) :
    (ksL ++ ksR)[i]? = ksR.head? := by
  rw [List.getElem?_append_right (le_of_eq h), h, Nat.sub_self, List.head?_eq_getElem?]

omit [LinearOrder K] in
theorem eraseIdx_between {ksL ksR : List K} {i : Nat} (h : ksL.length = i) :
    (ksL ++ ksR).eraseIdx i = ksL ++ ksR.tail := by
  rw [List.eraseIdx_append_of_length_le (le_of_eq h), h, Nat.sub_self, List.eraseIdx_zero]

/-- If the last key is another one, then all are. -/
theorem forall_lt_of_getLast? {xs : List K} {z : K} (hsort : xs.Pairwise (· ≤ ·))
    (hle : ∀ x ∈ xs, x ≤ z) (hlast : xs.getLast? ≠ some z) : ∀ x ∈ xs, x < z := by
  intro x hx
  refine lt_of_le_of_ne (hle x hx) ?_
  rintro rfl
  obtain ⟨ys, y, rfl⟩ := List.eq_nil_or_concat xs |>.resolve_left (List.ne_nil_of_mem hx)
  rw [List.concat_eq_append] at *
  refine hlast (by
    rw [List.getLast?_concat]
    refine congrArg some (le_antisymm (hle y (by simp)) ?_)
    rcases List.mem_append.mp hx with hx | hx
    · exact (List.pairwise_append.mp hsort).2.2 x hx y (by simp)
    · exact le_of_eq (by simpa using hx))

theorem told_of_tells {n : Nat} {up : MCtx K D (n + 1)} {b : Addr} {kb ks : List K}
    {cs : List (MTree K D n)} (h : Rep P t.view (up.fill (.node b kb cs)).2) (hup : up.Paired)
    (hsort : (seps up.left ++ ks ++ seps up.right).Pairwise (· ≤ ·))
    (hlen : ks.length + 2 = cs.length) {fuel : Nat} (htells : t.tells P fuel b ks = .ok true) :
    up.Told P.innernodemax ks := by
  induction fuel generalizing n b kb ks with
  | zero => simp [BTree.tells] at htells
  | succ fuel ih =>
    obtain ⟨-, ⟨sb, hb, hin⟩, -⟩ := (holds_fill up (.node b kb cs)).mp h.holds
    have hnum : sb.numChildren = cs.length := by simpa using hin.num
    cases up with
    | top => trivial
    | frame up g ksL csL ksR csR =>
      obtain ⟨sg, hg, hing, hpar, hflag, hidx⟩ := h.above
      simp only [Tree.addr_node] at hing hpar hflag hidx
      have hnumg : sg.numChildren = csL.length + (csR.length + 1) := by simpa using hing.num
      have habove := hsort.sublist (Ctx.sublist_above hup)
      have hframe := hsort.sublist (Ctx.sublist_frame hup)
      obtain ⟨hL, hR, h0, -, -, hup⟩ := hup
      refine ⟨hframe, fun hfew => ?_⟩
      simp only [BTree.tells, BTree.inner_eq hb, ok_bind, hflag, Bool.false_or, hnum,
        show ¬P.innernodemax / 2 < cs.length - 1 by omega, decide_false, Bool.false_eq_true,
        if_false, hpar, deref, BTree.inner_eq hg, hidx, hnumg, hing.separators,
        getElem?_between hL, eraseIdx_between hL] at htells
      have hholds := ((holds_fill _ (.node b kb cs)).mp h.holds).1
      have hrep : Rep P t.view (up.fill (.node g (ksL ++ ksR) (csL ++ .node b kb cs :: csR))).2 := h
      split at htells
      · next hhead =>
        refine ⟨hhead, fun q hq hroom => ?_, fun hnil q hq hroom => ?_⟩
        · obtain ⟨csR, rfl⟩ := List.head?_eq_some_iff.mp hq
          obtain ⟨d, kn, cn⟩ := q
          obtain ⟨sq, hq, hnumq⟩ := hholds.sibling (.inr List.mem_cons_self)
          have hload : load sg.firstChild (csL.length + 1) = .ok (some d) :=
            InnerHas.load_after (x := .node b kb cs) hing
          rw [if_pos (by simp), hload] at htells
          replace hroom : ks.length + 1 + cn.length ≤ P.innernodemax + 1 := hroom
          simp only [ok_bind, BTree.inner_eq hq, hnumq, show cn.length + (cs.length - 1) ≤
            P.innernodemax + 1 by omega, if_true] at htells
          refine ih hrep hup (habove.sublist ?_) ?_ htells
          · exact (((List.tail_sublist ksR).append_left ksL).append_left _).append_right _
          · simp only [List.length_append, List.length_tail, List.length_cons] at hR ⊢
            omega
        · -- the last child turns to its left sibling
          subst hnil
          obtain rfl := List.eq_nil_of_length_eq_zero hR
          rw [if_neg (by simp)] at htells
          simp only [List.append_nil] at h0 habove hrep htells ⊢
          rw [← hL, List.eraseIdx_length_sub_one] at htells
          refine ih hrep hup (habove.sublist ?_) ?_ htells
          · exact ((List.dropLast_sublist ksL).append_left _).append_right _
          · have hpos : 0 < ksL.length := by simpa using h0
            simp only [List.length_dropLast, List.length_append, List.length_cons, List.length_nil]
            omega
      · simp [pure, Except.pure] at htells

section Leaf

variable {up : MCtx K D 1} {g a : Addr} {ksL ksR : List K} {csL csR : List (MTree K D 0)}
  {s s' : LeafSlots K D} {k : K}

/-- The separators of the parent, and those of the nodes above. -/
theorem seps_around (hc : (Ctx.frame up g ksL csL ksR csR).Paired)
    (ho : Ascends LeafSlots.keys ((Ctx.frame up g ksL csL ksR csR).fill (.leaf a s)).2.inorder) :
    (ksL ++ ksR).Pairwise (· ≤ ·) ∧
      (seps up.left ++ (ksL ++ ksR) ++ seps up.right).Pairwise (· ≤ ·) := by
  rw [Ctx.inorder_fill_leaf hc] at ho
  have hsort := ho.seps
  simp only [seps_append, seps_inr] at hsort
  rw [← List.append_nil (NwtBTree.seps _)] at hsort
  refine ⟨?_, hsort.sublist (Ctx.sublist_above hc)⟩
  simpa using hsort.sublist (Ctx.sublist_frame hc)

/-- What `tellsPair` reads for a leaf with two pairs. -/
theorem told_of_tellsPair (hP : P.Four)
    (h : Rep P t.view ((Ctx.frame up g ksL csL ksR csR).fill (.leaf a s)).2)
    (hc : (Ctx.frame up g ksL csL ksR csR).Paired)
    (ho : Ascends LeafSlots.keys ((Ctx.frame up g ksL csL ksR csR).fill (.leaf a s)).2.inorder)
    (h2 : s.slotsinuse = 2) {ks : List K} (htells : t.tellsPair P a ks = .ok true) :
    (∀ z ∈ ks.head?, ∀ y ∈ ksR.head?, z < y) ∧
      (∀ p ∈ csL.getLast?, (Tip.body p).keys.getLast? ≠ ks.head? ∧
        ((Tip.body p).slotsinuse < 3 → up.Told P.innernodemax (ksL.dropLast ++ ksR))) ∧
      (csL = [] → ∀ q ∈ csR.head?, (Tip.body q).slotsinuse < 3 →
        up.Told P.innernodemax ksR.tail) := by
  obtain ⟨⟨-, hholdsL, hholdsR, -⟩, ha, -⟩ := (holds_fill _ (.leaf a s)).mp h.holds
  obtain ⟨sg, hg, hing, hpar, hflag, hidx⟩ := h.above
  simp only [Tree.addr_leaf] at hing hpar hflag hidx
  have habove := (seps_around hc ho).2
  have hrep : Rep P t.view (up.fill (.node g (ksL ++ ksR) (csL ++ .leaf a s :: csR))).2 := h
  obtain ⟨hL, hR, -, -, -, hup⟩ := hc
  simp only [BTree.tellsPair, BTree.leaf_eq ha, ok_bind, hflag, Bool.false_or, hP.leafnodemax,
    h2, Nat.lt_irrefl, decide_false, Bool.false_eq_true, if_false, hpar, deref,
    BTree.inner_eq hg, hidx, hing.separators, getElem?_between hL] at htells
  split at htells
  swap
  · simp [pure, Except.pure] at htells
  next hhead =>
  refine ⟨hhead, fun p hp => ?_, fun hnil q hq hroom => ?_⟩
  · obtain ⟨cL, rfl⟩ := List.getLast?_eq_some_iff.mp hp
    obtain ⟨kL, sep, rfl⟩ := List.eq_nil_or_concat ksL |>.resolve_left (by
      rintro rfl
      simp at hL)
    rw [List.concat_eq_append] at *
    obtain ⟨p, sp⟩ := p
    obtain ⟨hp, -⟩ := hholdsL ⟨p, sp⟩ (by simp)
    have hL' : kL.length = cL.length := by simpa using hL
    have hload : load sg.firstChild cL.length = .ok (some p) :=
      InnerHas.load_before (x := .leaf a s) (y := .leaf p sp) hing
    simp only [List.length_append, List.length_cons, List.length_nil, Nat.succ_pos, if_true,
      Nat.add_sub_cancel, hload, ok_bind, true_and,
      BTree.leaf_eq (show t.view.body p = some (.leaf sp) from hp)] at htells
    split at htells
    · simp [pure, Except.pure] at htells
    next hlast =>
    refine ⟨hlast, fun hroom => ?_⟩
    rw [if_pos (show sp.slotsinuse + (2 - 1) < 4 by change sp.slotsinuse < 3 at hroom; omega),
      List.append_assoc, List.singleton_append, eraseIdx_between hL', List.tail_cons] at htells
    rw [List.dropLast_concat]
    refine told_of_tells hrep hup (habove.sublist ?_) ?_ htells
    · exact (((List.sublist_append_left kL [sep]).append_right ksR).append_left _).append_right _
    · simp at hL hR ⊢
      omega
  · -- the first child turns to its right sibling
    subst hnil
    obtain ⟨csR, rfl⟩ := List.head?_eq_some_iff.mp hq
    obtain ⟨q, sq⟩ := q
    obtain rfl := List.eq_nil_of_length_eq_zero hL
    obtain ⟨sep, ksR, rfl⟩ := List.exists_cons_of_length_eq_add_one hR
    obtain ⟨hq, -⟩ := hholdsR ⟨q, sq⟩ List.mem_cons_self
    have hload : load sg.firstChild 1 = .ok (some q) := hing.load_second
    simp only [List.length_nil, Nat.lt_irrefl, if_false, hload, ok_bind, false_and,
      BTree.leaf_eq (show t.view.body q = some (.leaf sq) from hq)] at htells
    rw [if_pos (show sq.slotsinuse + (2 - 1) < 4 by change sq.slotsinuse < 3 at hroom; omega)]
      at htells
    refine told_of_tells hrep hup (habove.sublist ?_) ?_ htells
    · exact ((List.sublist_cons_self sep ksR).append_left _).append_right _
    · simp at hR ⊢
      omega

/-- A leaf with two pairs is found with one of them. -/
theorem guides_of_tellsPair (hP : P.Four) {c : MCtx K D 0}
    (h : Rep P t.view (c.fill (.leaf a s)).2) (hc : c.Paired) (hr : c.Routes k)
    (ho : Ascends LeafSlots.keys (c.fill (.leaf a s)).2.inorder)
    (hsmall : ∀ m ∈ tips c.left, m.body.slotsinuse < 3) (h2 : s.slotsinuse = 2)
    (hsub : s'.keys.Sublist s.keys) (hbeyond : ∀ y ∈ s'.beyond, y = k ∨ y ∈ s'.keys)
    (hone : s'.keys.length = 1) (htells : t.tellsPair P a s'.keys = .ok true) : c.Guides P s' := by
  cases c with
  | top => trivial
  | frame up g ksL csL ksR csR =>
    obtain ⟨hhead, hprev, hnext⟩ := told_of_tellsPair hP h hc ho h2 htells
    have hframe := (seps_around hc ho).1
    obtain ⟨z, hkeys⟩ := List.length_eq_one_iff.mp hone
    rw [hkeys] at hhead hprev
    have hz : z ∈ s.keys := hsub.subset (by simp [hkeys])
    rw [Ctx.inorder_fill_leaf hc] at ho
    have hle : ∀ x ∈ keyRow LeafSlots.keys (Ctx.frame up g ksL csL ksR csR).left, x ≤ z :=
      fun x hx => ho.append.2.2 x hx z (by
        rw [keyRow_inr]
        exact List.mem_append_left _ hz)
    obtain ⟨hL, hR, -, -, -, -⟩ := id hc
    intro z' hz'
    obtain rfl : z = z' := by simpa [hkeys] using hz'
    refine ⟨fun y hy => hle y ?_, fun y hy => hhead z rfl y hy, hframe, ?_⟩
    · refine (seps_sublist_keyRow _).subset ?_
      rw [Ctx.left_frame, seps_append]
      exact List.mem_append_right _ ((Ctx.sublist_seps_before hL).subset hy)
    rcases List.eq_nil_or_concat csL with rfl | ⟨cL, ⟨p, sp⟩, rfl⟩
    · cases csR with
      | nil => trivial
      | cons q csR =>
        obtain ⟨sep, ksR, rfl⟩ := List.exists_cons_of_length_eq_add_one hR
        have hlt : z < sep := hhead z rfl sep rfl
        refine ⟨fun x hx => lt_of_lt_of_le hlt ?_, hnext rfl q rfl, fun x hx y hy => ?_⟩
        · have hright := (Ascends.append (I := [_]) ho.append.2.1).2.1
          refine (List.pairwise_cons.mp hright).1 x ?_
          change x ∈ keyRow LeafSlots.keys (.inr q :: _)
          rw [keyRow_inr]
          exact List.mem_append_left _ hx
        · obtain rfl : sep = y := by simpa using hy
          rcases hbeyond x hx with rfl | hx
          · exact hr.here.2 sep rfl
          · obtain rfl : x = z := by simpa [hkeys] using hx
            exact hlt
    · rw [List.concat_eq_append] at *
      obtain ⟨kL, sep, rfl⟩ := List.eq_nil_or_concat ksL |>.resolve_left (by
        rintro rfl
        simp at hL)
      rw [List.concat_eq_append] at *
      obtain ⟨hlast, htold⟩ := hprev ⟨p, sp⟩ (by simp)
      have hleft := left_prev hc
      have hfew : sp.slotsinuse < 3 := hsmall ⟨p, sp⟩ (by rw [hleft]; simp)
      simp only [List.getLast?_concat]
      refine ⟨fun x hx => ?_, htold, fun hfull => absurd hfew hfull⟩
      -- the keys of the left sibling are in order, and the last one is another
      have hkeysp := ho.append.1
      rw [hleft] at hle hkeysp
      replace hkeysp := hkeysp.append.2.1
      rw [Ascends, keyRow_inr] at hkeysp
      exact forall_lt_of_getLast? (List.pairwise_append.mp hkeysp).1
        (fun x hx => hle x (by rw [keyRow_append, keyRow_inr]; simp [show x ∈ sp.keys from hx]))
        hlast x hx

end Leaf

end NwtBTree
