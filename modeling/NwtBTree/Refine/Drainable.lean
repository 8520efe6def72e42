import NwtBTree.Refine.Content
import NwtBTree.Refine.Guide
import NwtBTree.Refine.Laden

/-!
# Erasing a key that is repeated

`Drainable` is what `erase` of one key keeps while the key is repeated: the search for
it ends at a leaf that has it as long as one has, and the leaves in front are half
full.
-/

namespace NwtBTree

variable {K D : Type} [LinearOrder K]

namespace BTree

/-- The leaf at `a` is left with the keys `ks`. If `k` is not one of them but in another leaf, the
leaf is joined with its left sibling. -/
def keepsSight (P : Template K D) (t : BTree K D) (k : K) (a : Addr) (ks : List K) :
    Except Fault Bool := do
  if k ∈ ks then return true
  let ls ← t.leavesUnder t.fuel (← deref t.root)
  if ∀ l ∈ ls, l.addr ≠ a → k ∉ l.body.keys then return true
  let l ← t.leaf a
  if l.isrootnode || P.leafnodemax / 2 < l.slotsinuse then return false
  let parent ← t.inner (← deref l.parent)
  return decide (0 < parent.firstChild.idxOf (some a))

end BTree

variable {P : Template K D} {t t' : BTree K D} {c : MCtx K D 0} {a : Addr} {s s' : LeafSlots K D}
  {k : K}

omit [LinearOrder K] in
/-- The leaf is the first child of its parent. -/
def Ctx.First : MCtx K D 0 → Prop
  | .top => True
  | .frame _ _ _ csL _ _ => csL = []

/-- The place of the key after the balancing. -/
theorem Rebalanced.lodged {v v' : View K D} {T : (m : Nat) × MTree K D m}
    (h : Rebalanced P v v' a s c T) (hc : c.Paired) (hr : c.Routes k)
    (ho : Ascends LeafSlots.keys (c.left ++ .inr ⟨a, s⟩ :: c.right))
    (hleft : ∀ l ∈ tips c.left, 2 ≤ l.body.keys.length ∧ l.body.keys.length < 3)
    (hk : k ∈ allKeys LeafSlots.keys c.left → k ∈ s.keys ∨ s.slotsinuse < 2 ∧ ¬c.First) :
    Lodged LeafSlots.keys 3 k T.2.inorder := by
  have hI := ho.seps_le hc hr
  have hJ := Ascends.lt_seps (J := c.left ++ [.inr ⟨a, s⟩]) (by simpa using ho) hc hr
  have hright := Ascends.lt_keys (J := c.left ++ [.inr ⟨a, s⟩]) (by simpa using ho) hc hr
  cases h with
  | kept hs hv h =>
    rw [Ctx.inorder_fill_leaf hc]
    refine ⟨c.left, ⟨a, s⟩, c.right, rfl, hI, hJ, fun hm => ?_, fun m hm => (hleft m hm).2⟩
    refine (hk hm).resolve_right fun ⟨hone, hfirst⟩ => ?_
    rcases hs with hs | rfl
    · omega
    · exact hfirst trivial
  | @mergedPrev up b p sp sp' sep kL ksR r rp rp' cL csR e ep ep' T hs hsp hroom hsp' hep' hT h =>
    have heq := left_prev hc
    have hT := settled_prev hc hT
    generalize up.left ++ before .inl Tree.inorder kL cL = X at heq hT
    have hle := ho.keys_le hc hr
    have ho := ho.append.1
    rw [heq] at hI hleft hle ho
    refine ⟨X, ⟨p, sp'⟩, _, hT, fun z hz => hI z (by simp [hz]), hJ, fun hm => ?_,
      fun m hm => (hleft m (by simp [hm])).2⟩
    -- between two equal keys there are no others
    obtain ⟨x, hx⟩ : ∃ x, x ∈ sp.keys := by
      refine List.exists_mem_of_length_pos ?_
      exact Nat.lt_of_lt_of_le Nat.zero_lt_two (hleft ⟨p, sp⟩ (by simp)).1
    obtain rfl : k = x := le_antisymm
      (ho.append.2.2 k ((allKeys_sublist_keyRow _).subset hm) x (by simp [hx]))
      (hle x (by simp [hx]))
    show k ∈ sp'.keys
    rw [hsp.keys_eq] at hx
    rw [hsp'.keys_eq]
    rcases hep' with ⟨-, rfl⟩ | ⟨-, rfl⟩
    · exact hx
    · rw [List.map_append]
      exact List.mem_append_left _ hx
  | @borrowedPrev up b p sp s' sp' sep kL ksR r r' rp rp' cL csR e x es' ep hs hsp hmany hs' hes'
    hsp' h =>
    -- the left sibling has too few
    have hfew := (hleft ⟨p, sp⟩ (by rw [left_prev hc]; simp)).2
    change sp.keys.length < 3 at hfew
    rw [hsp.keys_eq] at hfew
    simp at hfew
    omega
  | @mergedNext up b q sq sq' sep ksR r rq rq' csR e eq eq' T hs hsq hroom hsq' heq' hT h =>
    rw [settled_next hc hT]
    simp only [Ctx.left_frame, Ctx.right_frame, before_nil, List.append_nil, after_cons,
      List.cons_append] at hI hJ hleft hk
    refine ⟨up.left, ⟨q, sq'⟩, _, rfl, hI, fun z hz => hJ z ?_, fun hm => ?_,
      fun m hm => (hleft m hm).2⟩
    · simp only [Tree.inorder_leaf, List.cons_append, List.nil_append, seps_inl, seps_inr,
        List.mem_cons]
      exact .inr hz
    · have hks := (hk hm).resolve_right fun h => h.2 rfl
      show k ∈ sq'.keys
      rw [hs.keys_eq] at hks
      obtain rfl : k = e.1 := by simpa using hks
      rw [hsq'.keys_eq, heq']
      exact List.mem_cons_self
  | @borrowedNext up b q sq s' sq' ksR r r' rq rq' csR e x y eq hs hsq hmany hs' hsq' h =>
    obtain ⟨hL, hR, h0, hcL, -, hup⟩ := id hc
    have hc' : (Ctx.frame up b [] [] (y.1 :: ksR) (.leaf q sq' :: csR)).Paired :=
      ⟨hL, hR, h0, hcL, fun c _ => trivial, hup⟩
    rw [Ctx.inorder_fill_leaf hc']
    refine ⟨_, ⟨a, s'⟩, _, rfl, hI, fun z hz => ?_, fun hm => ?_, fun m hm => (hleft m hm).2⟩
    · simp only [Ctx.right_frame, after_cons, List.cons_append, seps_inl, List.mem_cons] at hz
      rcases hz with rfl | hz
      · refine hright y.1 ?_
        simp [Ctx.right_frame, Tree.inorder, hsq.keys_eq]
      · refine hJ z ?_
        simp only [Ctx.right_frame, after_cons, List.cons_append, seps_inl, List.mem_cons]
        exact .inr hz
    · have hks := (hk hm).resolve_right fun h => h.2 rfl
      show k ∈ s'.keys
      rw [hs.keys_eq] at hks
      obtain rfl : k = e.1 := by simpa using hks
      rw [hs'.keys_eq]
      exact List.mem_cons_self

/-- The next search is looked after. -/
theorem sight_of_keepsSight (hP : P.Four) (h : Rep P t.view (c.fill (.leaf a s)).2) (hc : c.Paired)
    (hless : s'.slotsinuse + 1 = s.slotsinuse) (hsight : t.keepsSight P k a s'.keys = .ok true)
    (hk : k ∈ allKeys LeafSlots.keys c.left) : k ∈ s'.keys ∨ s'.slotsinuse < 2 ∧ ¬c.First := by
  obtain ⟨-, ha, -⟩ := (holds_fill c (.leaf a s)).mp h.holds
  have hroot : t.root = some (c.fill (.leaf a s)).2.addr := h.root
  have hleaves := BTree.leavesUnder_eq h.holds h.paired h.height_lt
  rw [or_iff_not_imp_left]
  intro hnot
  simp only [BTree.keepsSight, if_neg hnot, hroot, deref, ok_bind, hleaves, BTree.leaf_eq ha,
    hP.leafnodemax] at hsight
  -- a leaf in front has the key
  obtain ⟨l, hl, hkl⟩ := List.mem_flatMap.mp hk
  have hin := Ctx.inorder_fill_leaf hc (Tree.leaf (K := K) a s)
  have hla : l.addr ≠ a := by
    have hnd := (Tree.tips_sublist h.paired).nodup h.nodup
    rw [hin] at hnd
    simp only [tips_append, tips_inr, List.map_append, List.map_cons] at hnd
    exact (List.nodup_append.mp hnd).2.2 l.addr (List.mem_map_of_mem hl) a List.mem_cons_self
  rw [if_neg fun hall => hall l (by rw [hin]; simp [hl]) hla hkl] at hsight
  split at hsight
  · simp [pure, Except.pure] at hsight
  · next hfew =>
    simp only [Bool.or_eq_true, decide_eq_true_eq, not_or] at hfew
    refine ⟨by omega, ?_⟩
    cases c with
    | top => simp at hk
    | frame up g ksL csL ksR csR =>
      obtain ⟨sg, hg, -, hpar, -, hidx⟩ := h.above
      simp only [Tree.addr_leaf] at hpar hidx
      simp only [hpar, ok_bind, BTree.inner_eq hg, hidx] at hsight
      have hpos := of_decide_eq_true (Except.ok.inj hsight)
      exact fun hnil => absurd (congrArg List.length hnil) (Nat.ne_of_gt hpos)

/-- The key `k` is stored several times and is being erased. -/
structure Drainable (P : Template K D) (t : BTree K D) (k : K) (T : (n : Nat) × MTree K D n) : Prop
    extends Stocked P t T where
  ascends : Ascends LeafSlots.keys T.2.inorder
  lodged : Lodged LeafSlots.keys 3 k T.2.inorder

section Drainable

variable {T : (n : Nat) × MTree K D n}

theorem Laden.drainable (h : Laden P t T) (k : K) : Drainable P t k T := by
  obtain ⟨c, a, s, rfl, hc, hr⟩ := exists_landing h.rep.paired k
  have hin := Ctx.inorder_fill_leaf hc (Tree.leaf (K := K) a s)
  refine ⟨h.toStocked, h.ascends, ?_⟩
  have hleads := h.leads
  have ho := h.ascends
  have hhalf := h.half
  rw [hin] at hleads ho hhalf
  rw [hin]
  refine hleads.lodged hc hr ho fun m hm => ?_
  obtain ⟨-, hok⟩ := h.rep.holds.tip h.rep.paired (l := m) (by rw [hin]; simp [hm])
  rw [hok.length_keys, hhalf m (by simp [hm])]
  decide

/-- `find` ends at a leaf that has the key if one has. -/
theorem Drainable.find (hP : P.Four) (h : Drainable P t k T) :
    ∃ (c : MCtx K D 0) (a : Addr) (s : LeafSlots K D), T = c.fill (.leaf a s) ∧ c.Paired ∧
      c.Routes k ∧ t.find P k = .ok (some a) ∧
      (k ∈ allKeys LeafSlots.keys T.2.inorder → k ∈ s.keys) ∧
      ∀ m ∈ tips c.left, m.body.keys.length < 3 := by
  obtain ⟨c, a, s, rfl, hc, hr⟩ := exists_landing h.rep.paired k
  have hin := Ctx.inorder_fill_leaf hc (Tree.leaf (K := K) a s)
  have ho := h.ascends
  have hlodged := h.lodged
  rw [hin] at ho hlodged
  obtain ⟨hmem, hsmall⟩ := hlodged.here hc hr ho
  obtain ⟨-, hok⟩ := h.leaf
  refine ⟨c, a, s, rfl, hc, hr, BTree.find_stay h.rep.stands hc hr hok.leafIs ?_, fun hk => ?_,
    hsmall⟩
  · rcases h.fullLast hP ⟨a, s⟩ (by rw [hin]; simp) with hroom | hlast
    · exact .inr (.inl (hok.leafIs.inuse ▸ hroom))
    · exact .inr (.inr hlast)
  · rw [hin, allKeys_append, allKeys_inr, List.mem_append, List.mem_append] at hk
    rcases hk with hk | hk | hk
    · exact hmem hk
    · exact hk
    · -- the keys behind are greater
      have hlt := Ascends.lt_keys (J := c.left ++ [.inr ⟨a, s⟩]) (by simpa using ho) hc hr
      exact absurd (hlt k ((allKeys_sublist_keyRow _).subset hk)) (lt_irrefl k)

theorem Drainable.existsKey (hP : P.Four) (h : Drainable P t k T) :
    t.existsKey P k = .ok (decide (k ∈ allKeys LeafSlots.keys T.2.inorder)) := by
  obtain ⟨c, a, s, rfl, hc, -, hfind, hmem, -⟩ := h.find hP
  obtain ⟨hbody, hok⟩ := h.leaf
  rw [BTree.existsKey_eq hfind hbody hok.leafIs, ← hok.leafIs.keys_eq]
  refine congrArg _ (decide_eq_decide.mpr ⟨fun hk => ?_, hmem⟩)
  rw [Ctx.inorder_fill_leaf hc]
  simp [hk]

variable [DecidableEq D]

/-- One of the keys goes. -/
theorem Drainable.erase_leaf (hP : P.Four) (h : Drainable P t k (c.fill (.leaf a s)))
    (hc : c.Paired) (hr : c.Routes k) (hfind : t.find P k = .ok (some a)) (hk : k ∈ s.keys)
    (hsmall : ∀ m ∈ tips c.left, m.body.keys.length < 3)
    (hspare : t.sparesPair P a = .ok true)
    (hjoins : t.joinsAll P a (s.keys.erase k) = .ok true)
    (htells : t.tellsPair P a (s.keys.erase k) = .ok true)
    (hsight : t.keepsSight P k a (s.keys.erase k) = .ok true) :
    ∃ (i : Nat) (t' : BTree K D) (T' : (m : Nat) × MTree K D m), t.erase P k = .ok ((i : Int), t') ∧
      Drainable P t' k T' ∧ (allKeys LeafSlots.keys T'.2.inorder).count k + 1 =
        (allKeys LeafSlots.keys (c.fill (.leaf a s)).2.inorder).count k := by
  have hin := Ctx.inorder_fill_leaf hc (Tree.leaf (K := K) a s)
  have hok := h.leaf.2
  have hsizes : ∀ m ∈ tips c.left, m.body.keys.length = m.body.slotsinuse := fun m hm =>
    (h.rep.holds.tip h.rep.paired (l := m) (by rw [hin]; simp [hm])).2.length_keys
  obtain ⟨as, e, bs, r, rfl, hs, hnot, herase⟩ := hok.split_first hk
  obtain ⟨t', s', es, y, T', e₁, hs', hfst, -, hrem⟩ := h.erase_pairs hP hc hfind hs hnot
    (fun {s'} hok' hkeys hbeyond hone => by
      have hlen := congrArg List.length (hkeys.trans herase)
      rw [List.length_erase_of_mem hk, hok.length_keys, hok'.length_keys, hone] at hlen
      refine guides_of_tellsPair hP h.rep hc hr h.ascends
        (fun m hm => hsizes m hm ▸ hsmall m hm) (by omega) ?_ (fun y hy => ?_)
        (hok'.length_keys.trans hone) ?_
      · rw [hkeys, herase]
        exact List.erase_sublist
      · rw [hkeys, List.map_append]
        have := hbeyond y hy
        rw [List.map_cons, List.mem_cons] at this
        exact this.imp_right (List.mem_append_right _)
      · rwa [hkeys, herase])
    fun h2 => recovers_of_sparesPair hP h.rep hc hspare h2
  have hkeys : s'.keys = s.keys.erase e.1 := by rw [hs'.keys_eq, hfst, herase]
  rw [← hkeys] at hjoins htells hsight
  have ho : Ascends LeafSlots.keys (c.left ++ .inr ⟨a, s'⟩ :: c.right) := by
    have ho := h.ascends
    rw [hin] at ho
    exact ho.shrink hrem.sub
  have heven := h.evened hP hc hrem
  refine ⟨as.length, t', T', e₁, ⟨h.removal hP hc hrem, heven.ascends ho, ?_⟩, ?_⟩
  · refine hrem.even.lodged hc hr ho (fun m hm => ⟨?_, hsmall m hm⟩)
      (sight_of_keepsSight hP h.rep hc hrem.less hsight)
    rw [hsizes m hm]
    exact ((h.beside hc).1 m hm).1
  · rw [heven.allKeys_eq (not_loses_of_joinsAll hP h.rep hrem.less hjoins), hin]
    simp only [allKeys_append, allKeys_inr, List.count_append]
    rw [hkeys, List.count_erase_self]
    have := List.count_pos_iff.mpr hk
    omega

end Drainable

end NwtBTree
