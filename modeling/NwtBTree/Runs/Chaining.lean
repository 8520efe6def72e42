import NwtBTree.Refine.Content
import NwtBTree.Refine.Seam
import NwtBTree.Runs.Mixed

/-!
# The leaf chain under removals

Where a removed leaf was the first or the last child of its parent, the leaf on the
other side of the parent keeps a pointer to it, unless the parents are joined.
-/

namespace NwtBTree

variable {K D : Type}

namespace BTree

/-- Whether the inner node at `a` has a right neighbour; `none` for the root. -/
def hasNext (t : BTree K D) (a : Addr) : Except Fault (Option Bool) := do
  let n ← t.inner a
  match n.parent with
  | none => return none
  | some g =>
    let parent ← t.inner g
    return some (decide (parent.firstChild.idxOf (some a) + 1 < parent.numChildren))

/-- Taking a pair from the leaf at `a` leaves the chain whole. -/
def unlinksWell (P : Template K D) (t : BTree K D) (a : Addr) : Except Fault Bool := do
  let l ← t.leaf a
  if l.isrootnode || P.leafnodemax / 2 < l.slotsinuse then return true
  let g ← deref l.parent
  let parent ← t.inner g
  let i := parent.firstChild.idxOf (some a)
  let q ← t.leaf (← deref (← load parent.firstChild (if 0 < i then i - 1 else 1)))
  -- a leaf that borrows stays
  if P.leafnodemax ≤ q.slotsinuse + (l.slotsinuse - 1) then return true
  let next ← t.hasNext g
  return decide (
    (i = 0 → l.prevLeaf = none ∧ 2 < parent.numChildren ∨
      parent.numChildren - 1 ≤ P.innernodemax / 2 ∧ next = some false) ∧
    (i + 1 = parent.numChildren → l.nextLeaf = none ∨
      parent.numChildren - 1 ≤ P.innernodemax / 2 ∧ next = some true))

/-- A call that removes a leaf leaves the chain whole. -/
def keepsChain [LinearOrder K] (P : Template K D) (t : BTree K D) (q : Request K D) :
    Except Fault Bool := do
  match ← t.target P q with
  | none => return true
  | some (a, _) => t.unlinksWell P a

/-- The chain from the leftmost leaf goes through the leaves under the root from left to right, each
of them once, `prevLeaf` leads back, and no link of a leaf leads to a freed node. -/
def ChainComplete (t : BTree K D) : Prop :=
  match t.root with
  | none => True
  | some r => ∃ ls, t.leavesUnder t.fuel r = .ok ls ∧ t.leaves = .ok ls ∧ (ls.map Tip.addr).Nodup ∧
    (∀ i l, ls[i]? = some l → ∃ n, t.leaf l.addr = .ok n ∧ n.nextLeaf = (ls[i + 1]?).map Tip.addr ∧
      n.prevLeaf = if i = 0 then none else (ls[i - 1]?).map Tip.addr) ∧
    ∀ l ∈ ls, ∀ n, t.leaf l.addr = .ok n → ∀ b, n.nextLeaf = some b ∨ n.prevLeaf = some b →
      ∃ m, t.leaf b = .ok m

end BTree

section Chain

variable {P : Template K D} {t t' : BTree K D} {T T' : (n : Nat) × MTree K D n}

/-- The links of the leaf in place `i`. -/
theorem Chained.getElem? {l : Links} {L : List Addr} (h : Chained l L) {i : Nat} {a : Addr}
    (ha : L[i]? = some a) : l.nxt a = L[i + 1]? ∧ l.prv a = if i = 0 then none else L[i - 1]? := by
  have hjoin := List.isChain_iff_getElem.mp h.joined
  obtain ⟨hi, rfl⟩ := List.getElem?_eq_some_iff.mp ha
  refine ⟨?_, ?_⟩
  · by_cases hlast : i + 1 < L.length
    · rw [(hjoin i hlast).1, List.getElem?_eq_getElem hlast]
    · rw [List.getElem?_eq_none (by omega)]
      refine h.last _ ?_
      rw [Option.mem_def, List.getLast?_eq_getElem?, List.getElem?_eq_some_iff]
      exact ⟨by omega, by congr 1; omega⟩
  · by_cases hzero : i = 0
    · subst hzero
      rw [if_pos rfl]
      refine h.first _ ?_
      rw [List.head?_eq_getElem?, List.getElem?_eq_getElem hi]
      rfl
    · obtain ⟨j, rfl⟩ : ∃ j, i = j + 1 := ⟨i - 1, by omega⟩
      rw [if_neg hzero, (hjoin j hi).2, Nat.add_sub_cancel, List.getElem?_eq_getElem (by omega)]

theorem chainComplete (h : Rep P t.view T.2)
    (hch : Chained t.view.links ((tips T.2.inorder).map Tip.addr)) : t.ChainComplete := by
  have hroot : t.root = some T.2.addr := h.root
  have hbody : ∀ l ∈ tips T.2.inorder, t.view.body l.addr = some (.leaf l.body) :=
    fun l hl => (h.holds.tip h.paired hl).1
  unfold BTree.ChainComplete
  rw [hroot]
  refine ⟨tips T.2.inorder, BTree.leavesUnder_eq h.holds h.paired h.height_lt, leaves_eq h hch,
    (Tree.tips_sublist h.paired).nodup h.nodup, fun i l hl => ?_, fun l hl n hn b hb => ?_⟩
  · have hmem := List.mem_of_getElem? hl
    obtain ⟨hnext, hprev⟩ := hch.getElem? (i := i) (a := l.addr) (by simp [hl])
    refine ⟨_, BTree.leaf_eq (hbody l hmem), ?_, ?_⟩
    · rw [← List.getElem?_map]
      exact hnext
    · rw [← List.getElem?_map]
      exact hprev
  · -- every link leads to a leaf of the list
    obtain ⟨i, hi⟩ := List.getElem?_of_mem hl
    obtain ⟨hnext, hprev⟩ := hch.getElem? (i := i) (a := l.addr) (by simp [hi])
    obtain rfl := Except.ok.inj ((BTree.leaf_eq (hbody l hl)).symm.trans hn)
    have hmem : b ∈ (tips T.2.inorder).map Tip.addr := by
      rcases hb with hb | hb
      · exact List.mem_of_getElem? (hnext.symm.trans hb)
      · replace hb := hprev.symm.trans hb
        split at hb
        · cases hb
        · exact List.mem_of_getElem? hb
    obtain ⟨m, hm, rfl⟩ := List.mem_map.mp hmem
    exact ⟨_, BTree.leaf_eq (hbody m hm)⟩

/-- Whether the parent of the leaf has a right neighbour. -/
theorem hasNext_eq {up : MCtx K D 1} {b : Addr} {ks : List K} {cs : List (MTree K D 0)}
    (h : Rep P t.view (up.fill (.node b ks cs)).2) :
    ∃ next, t.hasNext b = .ok next ∧ (next = some false → up.IsLast) ∧
      (next = some true → up.HasNext) := by
  obtain ⟨-, ⟨sb, hb, -⟩, -⟩ := (holds_fill up (.node b ks cs)).mp h.holds
  cases up with
  | top =>
    have hpar : t.view.par b = none := ((parOK_fill _ (.node b ks cs)).mp h.par).2.addr
    exact ⟨none, by simp only [BTree.hasNext, BTree.inner_eq hb, ok_bind, hpar]; rfl, nofun, nofun⟩
  | frame up g ksL csL ksR csR =>
    obtain ⟨sg, hg, hing, hpar, -, hidx⟩ := h.above
    change t.view.par b = some g at hpar
    change sg.firstChild.idxOf (some b) = csL.length at hidx
    have hnum : sg.numChildren = csL.length + (csR.length + 1) := by simpa using hing.num
    refine ⟨some (decide (csL.length + 1 < csL.length + (csR.length + 1))), ?_, fun hf => ?_,
      fun ht => ?_⟩
    · simp only [BTree.hasNext, BTree.inner_eq hb, ok_bind, hpar, BTree.inner_eq hg, hidx, hnum]
      rfl
    · have := of_decide_eq_false (Option.some.inj hf)
      exact List.eq_nil_of_length_eq_zero (by omega)
    · have := of_decide_eq_true (Option.some.inj ht)
      exact List.ne_nil_of_length_pos (by omega)

/-- The leaf in a hole of a complete chain, at its ends. -/
theorem tips_left_eq_nil {c : MCtx K D 0} (hc : c.Paired) {a : Addr} {s : LeafSlots K D}
    (hch : Chained t.view.links ((tips (c.fill (.leaf a s)).2.inorder).map Tip.addr)) :
    (t.view.links.prv a = none → tips c.left = []) ∧
      (t.view.links.nxt a = none → tips c.right = []) := by
  rw [Ctx.inorder_fill_leaf hc] at hch
  simp only [tips_append, tips_inr, List.map_append, List.map_cons] at hch
  have hat : ((tips c.left).map Tip.addr ++ a :: (tips c.right).map Tip.addr)[
      (tips c.left).length]? = some a := by
    rw [List.getElem?_append_right (by simp)]
    simp
  obtain ⟨hnext, hprev⟩ := hch.getElem? hat
  refine ⟨fun hnone => ?_, fun hnone => ?_⟩
  · rw [hprev] at hnone
    split at hnone
    · next hzero => exact List.eq_nil_of_length_eq_zero hzero
    · next hzero =>
      rw [List.getElem?_eq_none_iff] at hnone
      simp at hnone
      omega
  · rw [hnext, List.getElem?_eq_none_iff] at hnone
    simp only [List.length_append, List.length_cons, List.length_map] at hnone
    exact List.eq_nil_of_length_eq_zero (by omega)

/-- The removal of the leaf is mended. -/
theorem mends_of_unlinksWell (hP : P.Four) {c : MCtx K D 0} {a : Addr} {s s' : LeafSlots K D}
    (h : Rep P t.view (c.fill (.leaf a s)).2) (hc : c.Paired)
    (hch : Chained t.view.links ((tips (c.fill (.leaf a s)).2.inorder).map Tip.addr))
    (hless : s'.slotsinuse + 1 = s.slotsinuse) (hwell : t.unlinksWell P a = .ok true)
    (hj : c.Joins s') : c.Mends P.innernodemax := by
  obtain ⟨hctx, ha, -⟩ := (holds_fill c (.leaf a s)).mp h.holds
  obtain ⟨hfirst, hlast⟩ := tips_left_eq_nil hc hch
  cases c with
  | top => trivial
  | frame up g ksL csL ksR csR =>
    obtain ⟨hone, hjoin⟩ := hj
    obtain ⟨sg, hg, hing, hpar, hflag, hidx⟩ := h.above
    have hnode : Rep P t.view (up.fill (.node g (ksL ++ ksR) (csL ++ .leaf a s :: csR))).2 := h
    obtain ⟨next, hnext, hnextF, hnextT⟩ := hasNext_eq hnode
    simp only [Tree.addr_leaf] at hing hpar hflag hidx
    have hnum : sg.numChildren = csL.length + (csR.length + 1) := by simpa using hing.num
    obtain ⟨-, hholdsL, hholdsR, -⟩ := hctx
    obtain ⟨hL, hR, h0, -, -, hup⟩ := hc
    -- the sibling it is joined with
    obtain ⟨q, sq, hq, hload, hsmall⟩ : ∃ q sq, t.view.body q = some (.leaf sq) ∧
        load sg.firstChild (if 0 < csL.length then csL.length - 1 else 1) = .ok (some q) ∧
        sq.slotsinuse < 3 := by
      rcases hjoin with ⟨⟨p, sp⟩, hp, hsmall⟩ | ⟨rfl, ⟨q, sq⟩, hq, hsmall⟩
      · obtain ⟨csL, rfl⟩ := List.getLast?_eq_some_iff.mp hp
        refine ⟨p, sp, (hholdsL ⟨p, sp⟩ (by simp)).1, ?_, hsmall⟩
        rw [if_pos (by simp), List.length_append, List.length_singleton, Nat.add_sub_cancel]
        have : InnerHas P sg (ksL ++ ksR) (csL.map Tree.addr ++ p :: a :: csR.map Tree.addr) := by
          simpa using hing
        exact this.load_childAt (by simp)
      · obtain ⟨csR, rfl⟩ := List.head?_eq_some_iff.mp hq
        refine ⟨q, sq, (hholdsR ⟨q, sq⟩ List.mem_cons_self).1, ?_, hsmall⟩
        exact hing.load_second
    have h2 : s.slotsinuse = 2 := by omega
    have hjoins : ¬4 ≤ sq.slotsinuse + (2 - 1) := by omega
    simp only [BTree.unlinksWell, BTree.leaf_eq ha, ok_bind, hflag, Bool.false_or,
      hP.leafnodemax, h2,
      Nat.lt_irrefl, decide_false, Bool.false_eq_true, if_false, hpar, deref,
        BTree.inner_eq hg, hidx,
      hload, BTree.leaf_eq hq, hjoins, hnext, hnum, Nat.reduceDiv] at hwell
    obtain ⟨hw1, hw2⟩ := of_decide_eq_true (Except.ok.inj hwell)
    refine ⟨fun hnil => ?_, fun hnil => ?_⟩
    · subst hnil
      rcases hw1 rfl with ⟨hprev, hmany⟩ | ⟨hfew, hn⟩
      · have hleft := hfirst hprev
        rw [Ctx.left_frame, tips_append] at hleft
        exact .inl ⟨(List.append_eq_nil_iff.mp hleft).1, by simp at hmany; omega⟩
      · exact .inr ⟨by simpa using hfew, hnextF hn⟩
    · subst hnil
      rcases hw2 rfl with hnone | ⟨hfew, hn⟩
      · have hright := hlast hnone
        rw [Ctx.right_frame, tips_append] at hright
        exact .inl (List.append_eq_nil_iff.mp hright).2
      · exact .inr ⟨by simpa using hfew, hnextT hn⟩

variable [LinearOrder K] {q : Request K D}

theorem Change.chained (hP : P.Four) (h : Kept P t T)
    (hch : Chained t.view.links ((tips T.2.inorder).map Tip.addr))
    (hkeeps : t.keepsChain P q = .ok true) (hchange : Change P t T q t' T') :
    Chained t'.view.links ((tips T'.2.inorder).map Tip.addr) := by
  cases hchange with
  | none => exact hch
  | grown _ hx => exact hx.chain hch
  | @shrunk _ _ c a s s' _ hT hc htarget hr =>
    subst hT
    simp only [BTree.keepsChain, htarget, ok_bind] at hkeeps
    have hrep := h.stocked.lessened hc hr.ok (n := (t.totalkeycount + 4294967295) % 4294967296)
    refine hr.even.chained hc hrep
      (fun hj => mends_of_unlinksWell hP h.rep hc hch hr.less hkeeps hj) ?_
    rw [Ctx.inorder_fill_leaf hc] at hch ⊢
    simpa using hch

end Chain

variable [LinearOrder K] [DecidableEq D] {P : Template K D}

theorem chain_complete (hinner : P.nodeslots = 4) (hleaf : P.leafslots = 4)
    {qs : List (Request K D)} (hasc : AscendingKeys qs)
    (h : EachCall P (fun t q => t.canPerform P q = .ok true ∧ t.keepsChain P q = .ok true) qs) :
    ∃ rs t, run (BTree.perform P) BTree.init qs = .ok (rs, t) ∧ t.ChainComplete := by
  have hP : P.Four := ⟨hinner, hleaf⟩
  obtain ⟨rs, t, e, hT⟩ := tended_run
    (R := fun _ t T => Chained t.view.links ((tips T.2.inorder).map Tip.addr)) hP And.left
      First.chain
    (fun hkept hR hcond hch => hch.chained hP hkept hR hcond.2) hasc h
  refine ⟨rs, t, e, ?_⟩
  generalize qs.filterMap Request.newKey = g at hT
  cases hT with
  | empty hroot _ => simp [BTree.ChainComplete, hroot]
  | kept hkept _ _ hR => exact chainComplete hkept.rep hR

theorem chain_complete_nine : ∃ rs t, run (BTree.perform (Template.plain 4)) BTree.init
    [.insert 1 10, .insert 2 20, .insert 3 30, .insert 4 40, .insert 5 50, .insert 6 60,
      .insert 7 70,
      .erase 3, .erase 1] = .ok (rs, t) ∧ t.ChainComplete :=
  chain_complete rfl rfl (by unfold AscendingKeys; decide) (show EachCall _ _ _ from by
    unfold EachCall; decide +kernel)

/-- The second of two leaves stays with a pointer to the first one, which is freed. -/
theorem not_chain_complete : ¬∃ rs t, run (BTree.perform (Template.plain 4)) BTree.init
    [.insert 1 10, .insert 2 20, .insert 3 30, .insert 4 40, .insert 5 50, .erase 5, .erase 1] =
      .ok (rs, t) ∧ t.ChainComplete := by
  rintro ⟨rs, t, e, hcomplete⟩
  -- the first leaf under the root has a previous leaf
  have h : ((run (BTree.perform (Template.plain 4)) BTree.init
      [.insert 1 10, .insert 2 20, .insert 3 30, .insert 4 40, .insert 5 50, .erase 5,
        .erase (1 : Nat)]) >>= fun r => do
      let ls ← r.2.leavesUnder r.2.fuel (← deref r.2.root)
      let l ← deref (ls[0]?.map Tip.addr)
      return (← r.2.leaf l).prevLeaf) = .ok (some 1) := by
    decide +kernel
  rw [e, ok_bind] at h
  unfold BTree.ChainComplete at hcomplete
  split at hcomplete
  · next hroot =>
    simp only [hroot] at h
    cases h
  · next a hroot =>
    obtain ⟨ls, hls, -, -, hlinks, -⟩ := hcomplete
    simp only [hroot, deref, ok_bind, hls] at h
    cases hfirst : ls[0]? with
    | none =>
      simp only [hfirst] at h
      cases h
    | some l =>
      obtain ⟨n, hn, -, hprev⟩ := hlinks 0 l hfirst
      simp only [hfirst, Option.map_some, ok_bind, hn, hprev] at h
      cases h

end NwtBTree
