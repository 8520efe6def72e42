import NwtBTree.Refine.Frame
import NwtBTree.Refine.Unlink

/-!
# Which leaves there are

A leaf that is joined with a neighbour is freed, and no other one: `deleteInnerNode` finds
the leaf by the key in its first slot, and what it frees higher up are inner nodes. In all else
a removal does no more than write slots.
-/

namespace NwtBTree

variable {K D : Type} {P : Template K D}

/-- There is a leaf at `a`. -/
def View.HasLeaf (v : View K D) (a : Addr) : Prop := ∃ s, v.body a = some (.leaf s)

/-- No leaf has come. -/
structure Fewer (t t' : BTree K D) : Prop where
  hasLeaf : ∀ a, t'.view.HasLeaf a → t.view.HasLeaf a

theorem Fewer.refl (t : BTree K D) : Fewer t t := ⟨fun _ => id⟩

instance : IsTrans (BTree K D) Fewer where
  trans _ _ _ h h' := ⟨fun a ha => h.hasLeaf a (h'.hasLeaf a ha)⟩

theorem Fewer.recount {t t' : BTree K D} (h : Fewer t t') {c : Nat} :
    Fewer t { t' with totalkeycount := c } :=
  ⟨fun a ha => h.hasLeaf a ha⟩

theorem Frame.fewer {t t' : BTree K D} (h : Frame t t') : Fewer t t' :=
  ⟨fun a ⟨s, hs⟩ => ⟨s, h.slots a s hs⟩⟩

/-- A leaf that has gone does not come back. -/
theorem Frame.gone {t t' : BTree K D} {a : Addr} (h : Frame t t') (ha : ¬t.view.HasLeaf a) :
    ¬t'.view.HasLeaf a := fun ha' => ha (h.fewer.hasLeaf a ha')

/-- At most the slots of the leaf at `a` have been written. -/
structure Writes (a : Addr) (t t' : BTree K D) : Prop where
  body : ∀ b, b ≠ a → t'.view.body b = t.view.body b
  hasLeaf : t'.view.HasLeaf a → t.view.HasLeaf a

theorem Writes.refl (a : Addr) (t : BTree K D) : Writes a t t := ⟨fun _ _ => rfl, id⟩

instance {a : Addr} : IsTrans (BTree K D) (Writes a) where
  trans _ _ _ h h' := ⟨fun b hb => (h'.body b hb).trans (h.body b hb),
    fun ha => h.hasLeaf (h'.hasLeaf ha)⟩

theorem Writes.fewer {t t' : BTree K D} {a : Addr} (h : Writes a t t') : Fewer t t' := by
  refine ⟨fun b hb => ?_⟩
  by_cases hba : b = a
  · subst hba
    exact h.hasLeaf hb
  · rw [View.HasLeaf, ← h.body b hba]
    exact hb

variable {t t' : BTree K D} {a b p q : Addr} {s : LeafSlots K D}

theorem writes_setLeaf : Ensures (t.setLeaf a s) (Writes a t) := by
  refine .bind fun l hl => ?_
  have ha := (BTree.body_of_leaf hl).1
  obtain ⟨u, e, v⟩ := BTree.setLeaf_view ha s
  simp only [BTree.setLeaf, hl, ok_bind] at e
  rw [e]
  refine .ok ⟨fun b hb => ?_, fun _ => ⟨_, ha⟩⟩
  rw [v, View.body_setBody, if_neg hb]

variable [LinearOrder K] {k : K} {d : D} {s : InnerSlots K}

/-! ## The leaf that is freed -/

omit [LinearOrder K] in
theorem gone_freeNode : Ensures (t.freeNode a) fun t' => ¬t'.view.HasLeaf a := by
  refine .bind fun n _ => .pure ?_
  rintro ⟨s, hs⟩
  simp [BTree.view, Store.get_free] at hs

omit [LinearOrder K] in
theorem gone_removeChild {loc keyloc : Nat} (ha : t.view.body a = some (.inner s))
    (hx : load s.firstChild loc = .ok (some b)) :
    Ensures (t.removeChild a loc keyloc) fun t' => ¬t'.view.HasLeaf b := by
  refine .bind fun s' hs' => .bind fun x hx' => .bind fun child hchild => ?_
  cases (BTree.inner_eq ha).symm.trans hs'
  cases hx.symm.trans hx'
  cases hchild
  refine .bind fun u _ => .seq gone_freeNode fun w hw => ?_
  refine .mono (Q := Frame w) ?_ fun t' h => h.gone hw
  refine .bind fun _ _ => .trans (BTree.frame_setInner _) fun _ => ?_
  refine .trans BTree.frame_shiftChildren fun u => .trans ?_ fun _ => .bind fun _ _ =>
    BTree.frame_setInner _
  exact .ite (fun _ => BTree.frame_shiftLastChild) fun _ => .ok (.refl u)

/-- The child that is found is the one that is freed. -/
theorem gone_deleteInnerNode {ks : List K} {as bs : List Addr} {fuel : Nat}
    (ha : t.view.body a = some (.inner s)) (hs : InnerHas P s ks (as ++ b :: bs))
    (hloc : t.findInnerNodeLoc (some a) (some b) = .ok (as.length : Int)) :
    Ensures (t.deleteInnerNode P fuel a k b) fun r => ¬r.2.view.HasLeaf b := by
  cases fuel with
  | zero => exact .error
  | succ fuel =>
    have hload : load s.firstChild as.length = .ok (some b) := hs.load_childAt rfl
    have hnum : (as.length : Int) < s.numChildren := by
      rw [hs.num]
      grind
    rw [BTree.deleteInnerNode_eq, hloc, ok_bind, BTree.inner_eq ha, ok_bind]
    refine .bind fun keyloc _ => .ite (fun hneg => by omega) fun _ => .bind fun _ _ => ?_
    rw [if_pos hnum]
    refine .seq (gone_removeChild ha hload) fun u hu => ?_
    exact .mono (BTree.frame_repair fun _ _ _ _ => BTree.frame_deleteInnerNode)
      fun r h => h.gone hu

/-- The search in `b` for the leaf at `a` passes by the children `as` and ends at it. -/
def View.LeadsTo (P : Template K D) (v : View K D) (b : Addr) (as : List Addr) (a : Addr) : Prop :=
  ∃ s ks bs, v.body b = some (.inner s) ∧ InnerHas P s ks (as ++ a :: bs) ∧
    ks.length = as.length + bs.length ∧ v.Places ks as.length a

section LeadsTo

variable {as : List Addr}

theorem View.LeadsTo.loc (h : t.view.LeadsTo P b as a) :
    t.findInnerNodeLoc (some b) (some a) = .ok (as.length : Int) := by
  obtain ⟨s, _, bs, hb, hin, hlen, ksL, ksR, z, rfl, hL, hz, hle, hlt⟩ := h
  rw [List.length_append, hL, Nat.add_left_cancel_iff] at hlen
  exact findInnerNodeLoc_spec hb hin hL hlen hz hle hlt

theorem View.LeadsTo.gone (h : t.view.LeadsTo P b as a) {fuel : Nat} :
    Ensures (t.deleteInnerNode P fuel b k a) fun r => ¬r.2.view.HasLeaf a := by
  obtain ⟨s, ks, bs, hb, hin, -, -⟩ := id h
  exact gone_deleteInnerNode hb hin h.loc

/-- Writing another leaf does not hide it. -/
theorem View.LeadsTo.writes (h : t.view.LeadsTo P b as a) (hw : Writes p t t') (ha : a ≠ p)
    (hb : b ≠ p) : t'.view.LeadsTo P b as a := by
  obtain ⟨s, ks, bs, hbody, hin, hlen, ksL, ksR, z, hks, hL, hz, hkeys⟩ := h
  refine ⟨s, ks, bs, hw.body b hb ▸ hbody, hin, hlen, ksL, ksR, z, hks, hL, ?_, hkeys⟩
  rw [View.firstKey, hw.body a ha]
  exact hz

end LeadsTo

omit [LinearOrder K] in
theorem par_of_leaf {l : LeafNode K D} (h : t.leaf a = .ok l) : t.view.par a = l.parent :=
  congrArg LeafNode.parent (Except.ok.inj ((BTree.leaf_eq (BTree.body_of_leaf h).1).symm.trans h))

/-! ## Leaves that are merged or borrow -/

variable [DecidableEq D]

theorem writes_insertLeafPair : Ensures (t.insertLeafPair P a k d) fun r => Writes a t r.2 := by
  refine .bind fun l _ => .ite (fun _ => .pure (.refl a t)) fun _ => .bind fun _ _ => ?_
  refine .bind fun _ _ => .ite (fun _ => .pure (.refl a t)) fun _ => .bind fun _ _ => ?_
  exact .trans writes_setLeaf fun u => .pure (.refl a u)

theorem writes_moveAll {i n : Nat} : Ensures (t.moveAll P a b i n) (Writes b t) := by
  induction n generalizing t i with
  | zero => exact .ok (.refl b t)
  | succ n ih =>
    exact .bind fun _ _ => .bind fun _ _ => .bind fun _ _ => .trans writes_insertLeafPair
      fun _ => ih

section Merge

variable {as : List Addr} {loc : Int}

theorem gone_mergeLeafIntoPrev (h : t.view.LeadsTo P b as a) (hpar : t.view.par a = some b)
    (ha : a ≠ p) (hb : b ≠ p) :
    Ensures (t.mergeLeafIntoPrev P a p loc) fun t' => ¬t'.view.HasLeaf a := by
  refine .bind fun l hl => .bind fun _ _ => .seq writes_moveAll fun u hu => ?_
  refine .ite (fun _ => .throw) fun _ => .bind fun g hg => .bind fun _ _ => ?_
  rw [← par_of_leaf hl, hpar] at hg
  cases hg
  refine .ite (fun _ => .throw) fun _ => .bind fun _ _ => ?_
  exact .seq (h.writes hu ha hb).gone fun r hr => .pure hr

theorem gone_mergeLeafIntoNext (h : t.view.LeadsTo P b as a) (hpar : t.view.par a = some b)
    (ha : a ≠ p) (hb : b ≠ p) :
    Ensures (t.mergeLeafIntoNext P a p) fun t' => ¬t'.view.HasLeaf a := by
  refine .bind fun l hl => .seq writes_moveAll fun u hu => .bind fun _ _ => ?_
  refine .ite (fun _ => .throw) fun _ => .bind fun g hg => .bind fun _ _ => .bind fun _ _ => ?_
  rw [← par_of_leaf hl, hpar] at hg
  cases hg
  exact .seq (h.writes hu ha hb).gone fun r hr => .pure hr

theorem fewer_mergeLeafIntoPrev : Ensures (t.mergeLeafIntoPrev P a p loc) (Fewer t) := by
  refine .bind fun l _ => .bind fun _ _ => ?_
  refine .trans (writes_moveAll.mono fun _ h => h.fewer) fun u => ?_
  refine .ite (fun _ => .throw) fun _ => .bind fun _ _ => .bind fun _ _ => ?_
  refine .ite (fun _ => .throw) fun _ => .bind fun _ _ => ?_
  exact .seq BTree.frame_deleteInnerNode fun r hr => .pure hr.fewer

theorem fewer_mergeLeafIntoNext : Ensures (t.mergeLeafIntoNext P a p) (Fewer t) := by
  refine .bind fun l _ => .trans (writes_moveAll.mono fun _ h => h.fewer) fun u => ?_
  refine .bind fun _ _ => .ite (fun _ => .throw) fun _ => .bind fun _ _ => .bind fun _ _ => ?_
  exact .bind fun _ _ => .seq BTree.frame_deleteInnerNode fun r hr => .pure hr.fewer

end Merge

omit [DecidableEq D] in
theorem fewer_deleteLeafPair : Ensures (t.deleteLeafPair a k d) fun r => Fewer t r.2 := by
  refine .bind fun l _ => .ite (fun _ => .pure (.refl t)) fun _ => .bind fun _ _ => ?_
  refine .bind fun _ _ => .ite (fun _ => ?_) fun _ => .pure (.refl t)
  refine .bind fun _ _ => .bind fun _ _ => .seq writes_setLeaf fun u hu => ?_
  exact .pure hu.fewer.recount

theorem fewer_borrowFromPrev {loc : Int} : Ensures (t.borrowFromPrev P a p loc) (Fewer t) := by
  refine .bind fun l _ => .bind fun _ _ => .ite (fun _ => .throw) fun _ => ?_
  refine .bind fun _ _ => .bind fun _ _ => .trans (writes_insertLeafPair.mono fun _ h => h.fewer)
    fun r => ?_
  refine .bind fun _ _ => .bind fun _ _ => .bind fun _ _ => .bind fun _ _ => .bind fun _ _ => ?_
  refine .trans (BTree.frame_replaceKey.mono fun _ h => h.fewer) fun r => ?_
  refine .bind fun _ _ => .bind fun _ _ => .bind fun _ _ => ?_
  exact .seq fewer_deleteLeafPair fun r hr => .pure hr.recount

theorem fewer_borrowFromNext : Ensures (t.borrowFromNext P a p) (Fewer t) := by
  refine .bind fun l _ => .bind fun _ _ => .ite (fun _ => .throw) fun _ => ?_
  refine .bind fun _ _ => .bind fun _ _ => .trans (writes_insertLeafPair.mono fun _ h => h.fewer)
    fun r => ?_
  refine .bind fun _ _ => .bind fun _ _ => .bind fun _ _ => ?_
  refine .trans (BTree.frame_replaceKey.mono fun _ h => h.fewer) fun r => ?_
  refine .bind fun _ _ => .bind fun _ _ => .bind fun _ _ => ?_
  exact .seq fewer_deleteLeafPair fun r hr => .pure hr.recount

theorem fewer_balanceTree : Ensures (t.balanceTree P a) (Fewer t) := by
  refine .bind fun l _ => .bind fun loc _ => .ite (fun _ => ?_) fun _ => .pure (.refl t)
  split
  · exact .bind fun q _ => .ite (fun _ => fewer_mergeLeafIntoPrev) fun _ => fewer_borrowFromPrev
  · exact .bind fun q _ => .ite (fun _ => fewer_mergeLeafIntoNext) fun _ => fewer_borrowFromNext
  · exact .pure (.refl t)

theorem fewer_erase : Ensures (t.erase P k) fun r => Fewer t r.2 := by
  refine .bind fun n _ => ?_
  cases n with
  | none => exact .pure (.refl t)
  | some a =>
    refine .bind fun l _ => .bind fun _ _ => .bind fun _ _ => .ite (fun _ => ?_) fun _ =>
      .pure (.refl t)
    refine .bind fun _ _ => .trans (writes_setLeaf.mono fun _ h => h.fewer) fun u => ?_
    have hdown : Fewer u u.downkeycount := (Fewer.refl u).recount
    refine .ite (fun _ => .pure hdown) fun _ => .step ?_ hdown
    exact .trans fewer_balanceTree fun v => .pure (.refl v)

theorem fewer_deletePair : Ensures (t.deletePair P k d) fun r => Fewer t r.2 := by
  refine .bind fun n _ => ?_
  cases n with
  | none => exact .pure (.refl t)
  | some a =>
    refine .trans fewer_deleteLeafPair fun r => .ite (fun _ => .pure (.refl r.2)) fun _ => ?_
    exact .trans fewer_balanceTree fun v => .pure (.refl v)

/-- The leaf in the hole goes when it is joined with a sibling. -/
theorem gone_balanceTree (hP : P.Four) {c : MCtx K D 0} {s : LeafSlots K D}
    (h : Rep P t.view (c.fill (.leaf a s)).2) (hc : c.Paired) (hroute : ∀ x ∈ s.keys, c.Routes x)
    (hjoin : c.Joins s) : Ensures (t.balanceTree P a) fun t' => ¬t'.view.HasLeaf a := by
  cases c with
  | top => exact hjoin.elim
  | frame up b ksL csL ksR csR =>
    obtain ⟨hone, hjoin⟩ := hjoin
    obtain ⟨ha, hok⟩ := h.leaf_hole
    have hs := hok.leafIs
    obtain ⟨e, he⟩ : ∃ e, s.entries = [e] := List.length_eq_one_iff.mp (hs.inuse ▸ hone)
    rw [he] at hs
    have hhere := (hroute e.1 (by simp [hs.keys_eq])).here
    obtain ⟨hpar, hloc, hplace⟩ := leaf_loc h hc hs.head_key hhere
    obtain ⟨⟨sb, hb, hin⟩, -⟩ := (h.hole hc).holds
    have hother : ∀ {q : Addr} {sq : LeafSlots K D}, t.view.body q = some (.leaf sq) → b ≠ q := by
      rintro q sq hq rfl
      rw [hb] at hq
      cases hq
    have hleads : t.view.LeadsTo P b (csL.map Tree.addr) a := by
      obtain ⟨hL, hR, -⟩ := id hc
      refine ⟨sb, ksL ++ ksR, csR.map Tree.addr, hb, hin, by simp [hL, hR], ?_⟩
      rwa [List.length_map]
    have hunder : s.slotsinuse < P.leafnodemin := by
      rw [hone, hP.leafnodemin]
      exact Nat.one_lt_two
    rcases List.eq_nil_or_concat csL with rfl | ⟨cL, ⟨p, sp⟩, rfl⟩
    · -- the first child turns to its right sibling
      obtain ⟨_, hp, -⟩ | ⟨-, ⟨q, sq⟩, hq, hsmall⟩ := hjoin
      · cases hp
      obtain ⟨csR, rfl⟩ := List.head?_eq_some_iff.mp hq
      change sq.slotsinuse < 3 at hsmall
      have hbody := h.leaf_next.1
      rw [balanceTree_next ha hloc hunder h.joined_next.1 hbody, hP.leafnodemax, if_pos (by omega)]
      have hne : q ≠ a := h.apart (y := .leaf q sq) (by simp)
      exact gone_mergeLeafIntoNext hleads hpar hne.symm (hother hbody)
    · rw [List.concat_eq_append] at *
      have hsmall : sp.slotsinuse < 3 := by
        obtain ⟨p', hp, hsmall⟩ | ⟨hnil, -⟩ := hjoin
        · obtain rfl : Tree.leaf p sp = p' := by simpa using hp
          exact hsmall
        · simp at hnil
      have hbody := h.leaf_prev.1
      rw [balanceTree_prev ha hloc (by simp) hunder h.joined_prev.2 hbody, hP.leafnodemax,
        if_pos (by omega)]
      have hne : p ≠ a := h.apart (y := .leaf p sp) (by simp)
      exact gone_mergeLeafIntoPrev hleads hpar hne.symm (hother hbody)

end NwtBTree
