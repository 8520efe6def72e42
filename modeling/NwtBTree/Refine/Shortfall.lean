import NwtBTree.Refine.Spare
import NwtBTree.Refine.Valid

/-!
# A leaf that falls short

An `erase` from a leaf below the root that has no more than half of its slots in use makes
`balancetree` turn to a sibling.
-/

namespace NwtBTree

variable {K D : Type}

/-- A leaf that falls short, its sibling, their parent, and the place of the leaf there. -/
structure Shortfall where
  leaf : Addr
  sibling : Addr
  parent : Addr
  place : Nat
  deriving DecidableEq

/-- The leaf that falls short when `k` is erased. Its sibling is the one on the left, if there is
one. -/
def BTree.shortfall [LinearOrder K] (P : Template K D) (t : BTree K D) (k : K) :
    Except Fault (Option Shortfall) := do
  match ← t.find P k with
  | none => return none
  | some a =>
    let l ← t.leaf a
    if l.isrootnode || P.leafnodemin < l.slotsinuse then return none
    let g ← deref l.parent
    let parent ← t.inner g
    let i := parent.firstChild.idxOf (some a)
    if parent.numChildren = 1 then return none
    let q ← deref (← load parent.firstChild (if 0 < i then i - 1 else 1))
    return some ⟨a, q, g, i⟩

/-- `T` is the tree of the state, and its keys lie between their separators. -/
structure InOrder [LinearOrder K] (P : Template K D) (t : BTree K D) (T : (n : Nat) × MTree K D n) :
    Prop where
  rep : Rep P t.view T.2
  order : SearchOrder LeafSlots.keys T.2.inorder

section Frame

variable {P : Template K D} [LinearOrder K] {t : BTree K D} {k : K} {a : Addr} {s : LeafSlots K D}
  {u : Shortfall}

/-- The sibling of the leaf in a hole. -/
inductive Beside (P : Template K D) (t : BTree K D) (u : Shortfall) :
    MCtx K D 0 → LeafSlots K D → Prop
  | left {up : MCtx K D 1} {kL ksR : List K} {cL csR : List (MTree K D 0)} {sep : K}
      {sp : LeafSlots K D} (hplace : u.place = cL.length + 1) (hlen : kL.length = cL.length)
      (hp : t.view.body u.sibling = some (.leaf sp)) (hok : LeafOK P sp) :
      Beside P t u (.frame up u.parent (kL ++ [sep]) (cL ++ [.leaf u.sibling sp]) ksR csR) sp
  | right {up : MCtx K D 1} {ksR : List K} {csR : List (MTree K D 0)} {sep : K}
      {sq : LeafSlots K D} (hplace : u.place = 0) (hlen : ksR.length = csR.length)
      (hq : t.view.body u.sibling = some (.leaf sq)) (hok : LeafOK P sq) :
      Beside P t u (.frame up u.parent [] [] (sep :: ksR) (.leaf u.sibling sq :: csR)) sq

theorem shortfall_spared (ha : t.view.body a = some (.leaf s)) (hfind : t.find P k = .ok (some a))
    (h : t.view.flag a = true ∨ P.leafnodemin < s.slotsinuse) : t.shortfall P k = .ok none := by
  simp only [BTree.shortfall, hfind, ok_bind, BTree.leaf_eq ha]
  rw [if_pos (by simpa using h)]
  rfl

section Sides

variable {up : MCtx K D 1} {b p q : Addr} {ksL ksR : List K} {cL csR : List (MTree K D 0)}
  {sp sq : LeafSlots K D}

theorem shortfall_left
    (h : Rep P t.view ((Ctx.frame up b ksL (cL ++ [.leaf p sp]) ksR csR).fill (.leaf a s)).2)
    (hfind : t.find P k = .ok (some a)) (hsize : s.slotsinuse ≤ P.leafnodemin) :
    t.shortfall P k = .ok (some ⟨a, p, b, cL.length + 1⟩) := by
  have ha : t.view.body a = some (.leaf s) := h.leaf_hole.1
  obtain ⟨g, hg, hing, hpar, hflag, hidx⟩ := h.above
  simp only [Tree.addr_leaf] at hing hpar hflag hidx
  have hnum : g.numChildren = cL.length + (csR.length + 1 + 1) := by simpa using hing.num
  have hload : load g.firstChild cL.length = .ok (some p) := by
    have : InnerHas P g (ksL ++ ksR) (cL.map Tree.addr ++ p :: a :: csR.map Tree.addr) := by
      simpa using hing
    exact this.load_childAt (by simp)
  simp only [BTree.shortfall, hfind, ok_bind, BTree.leaf_eq ha, hflag, Bool.false_or, hpar, deref,
    BTree.inner_eq hg, hidx, hnum]
  rw [if_neg (by simpa using hsize), if_neg (by omega)]
  simp only [List.length_append, List.length_singleton, Nat.succ_pos, if_true, Nat.add_sub_cancel,
    hload, ok_bind]
  rfl

theorem shortfall_right
    (h : Rep P t.view ((Ctx.frame up b [] [] ksR (.leaf q sq :: csR)).fill (.leaf a s)).2)
    (hfind : t.find P k = .ok (some a)) (hsize : s.slotsinuse ≤ P.leafnodemin) :
    t.shortfall P k = .ok (some ⟨a, q, b, 0⟩) := by
  have ha : t.view.body a = some (.leaf s) := h.leaf_hole.1
  obtain ⟨g, hg, hing, hpar, hflag, hidx⟩ := h.above
  simp only [Tree.addr_leaf] at hing hpar hflag hidx
  have hnum : g.numChildren = csR.length + 1 + 1 := by simpa using hing.num
  have hload : load g.firstChild 1 = .ok (some q) := hing.load_second
  simp only [BTree.shortfall, hfind, ok_bind, BTree.leaf_eq ha, hflag, Bool.false_or, hpar, deref,
    BTree.inner_eq hg, hidx, hnum]
  rw [if_neg (by simpa using hsize), if_neg (by omega)]
  simp only [List.length_nil, Nat.lt_irrefl, if_false, hload, ok_bind]
  rfl

end Sides

theorem beside_of_shortfall {c : MCtx K D 0} (h : Rep P t.view (c.fill (.leaf a s)).2)
    (hc : c.Paired) (hfind : t.find P k = .ok (some a)) (hu : t.shortfall P k = .ok (some u)) :
    u.leaf = a ∧ s.slotsinuse ≤ P.leafnodemin ∧ ∃ sq, Beside P t u c sq := by
  obtain ⟨hctx, ha, -⟩ := (holds_fill c (.leaf a s)).mp h.holds
  have ha' : t.view.body a = some (.leaf s) := ha
  have hspared : ¬(t.view.flag a = true ∨ P.leafnodemin < s.slotsinuse) := fun hs => by
    rw [shortfall_spared ha' hfind hs] at hu
    cases hu
  obtain ⟨hflag, hsize⟩ := not_or.mp hspared
  rw [Nat.not_lt] at hsize
  cases c with
  | top => exact absurd (h.flag_leaf.mpr rfl) hflag
  | frame up g ksL csL ksR csR =>
    obtain ⟨-, hholdsL, hholdsR, -⟩ := hctx
    obtain ⟨hL, hR, h0, -⟩ := hc
    rcases List.eq_nil_or_concat csL with rfl | ⟨cL, ⟨p, sp⟩, rfl⟩
    · obtain rfl := List.eq_nil_of_length_eq_zero hL
      cases csR with
      | nil => simp only [List.length_nil] at hL hR h0; omega
      | cons q csR =>
        obtain ⟨sep, ksR, rfl⟩ := List.exists_cons_of_length_eq_add_one hR
        obtain ⟨q, sq⟩ := q
        obtain ⟨hq, hokq⟩ := hholdsR ⟨q, sq⟩ List.mem_cons_self
        rw [shortfall_right h hfind hsize] at hu
        obtain rfl := Option.some.inj (Except.ok.inj hu)
        exact ⟨rfl, hsize, sq, .right rfl (by simpa using hR) hq hokq⟩
    · rw [List.concat_eq_append] at *
      obtain ⟨kL, sep, rfl⟩ : ∃ kL sep, ksL = kL ++ [sep] := by
        rcases List.eq_nil_or_concat ksL with rfl | ⟨kL, sep, hks⟩
        · simp at hL
        · exact ⟨kL, sep, by rw [hks, List.concat_eq_append]⟩
      obtain ⟨hp, hokp⟩ := hholdsL ⟨p, sp⟩ (by simp)
      rw [shortfall_left h hfind hsize] at hu
      obtain rfl := Option.some.inj (Except.ok.inj hu)
      exact ⟨rfl, hsize, sp, .left rfl (by simpa using hL) hp hokp⟩

/-- A stored key and its leaf. -/
theorem Rep.find_leaf {T : (n : Nat) × MTree K D n} (h : Rep P t.view T.2)
    (ho : SearchOrder LeafSlots.keys T.2.inorder) (hk : k ∈ allKeys LeafSlots.keys T.2.inorder) :
    ∃ (c : MCtx K D 0) (a : Addr) (s : LeafSlots K D), T = c.fill (.leaf a s) ∧ c.Paired ∧
      t.find P k = .ok (some a) ∧ k ∈ s.keys := by
  obtain ⟨c, ⟨a, s⟩, rfl, hc, hr⟩ := Ctx.exists_tip k T h.paired
  rw [Ctx.inorder_fill hc] at ho hk
  have hks : k ∈ s.keys := by simpa [Tree.inorder] using (Ctx.Routes.mem_iff hc hr ho).mp hk
  exact ⟨c, a, s, rfl, hc, h.stands.find_stored (l := ⟨a, s⟩) hc hr hks, hks⟩

variable [DecidableEq D]

/-- An `erase` below the root goes on with `balancetree`, which finds the leaf in its parent. -/
theorem erase_below {up : MCtx K D 1} {b : Addr} {ksL ksR : List K} {csL csR : List (MTree K D 0)}
    (h : Rep P t.view ((Ctx.frame up b ksL csL ksR csR).fill (.leaf a s)).2)
    (hc : (Ctx.frame up b ksL csL ksR csR).Paired)
    (ho : SearchOrder LeafSlots.keys ((Ctx.frame up b ksL csL ksR csR).fill (.leaf a s)).2.inorder)
    (hfind : t.find P k = .ok (some a)) (hk : k ∈ s.keys) :
    ∃ (i : Nat) (t₁ : BTree K D) (s' : LeafSlots K D) (es : List (K × D)) (y : K) (r : List K),
      LeafIs P s' es (y :: r) ∧ es.map Prod.fst = s.keys.erase k ∧ y ∈ s.keys ∧
      (∀ z ∈ s'.keySlots.head?, z ∈ s.keys) ∧
      t₁.view = { t.view.setBody a (.leaf s') with
        count := (t.totalkeycount + 4294967295) % 4294967296 } ∧
      t.dropKey a k = .ok t₁ ∧
      t.erase P k = (do
        let t' ← t₁.balanceTree P a
        return ((i : Int), t')) ∧
      Rep P t₁.view ((Ctx.frame up b ksL csL ksR csR).fill (.leaf a s')).2 ∧
      SearchOrder LeafSlots.keys ((Ctx.frame up b ksL csL ksR csR).fill (.leaf a s')).2.inorder ∧
      t₁.findInnerNodeLoc (t₁.view.par a) (some a) = .ok (csL.length : Int) := by
  obtain ⟨ha, hok⟩ : t.view.body a = some (.leaf s) ∧ LeafOK P s := h.leaf_hole
  have hsort : s.keys.Pairwise (· < ·) := by
    rw [Ctx.inorder_fill_leaf hc] at ho
    exact (searchOrder_leaf.mp ho).2.1
  obtain ⟨as, e, bs, r, rfl, hs, hlt, herase⟩ := hok.split_entries hsort hk
  obtain ⟨t₁, s', es, y, hs', hfst, -, hy, v₁, hdrop, e₁⟩ :=
    erase_key hfind ha hs (not_mem_of_lt hlt)
  have hkeys : es.map Prod.fst = s.keys.erase e.1 := hfst.trans herase
  have hys : y ∈ s.keys := by
    rw [hs.keys_eq, List.map_append]
    exact List.mem_append_right _ hy
  have hsub : s'.keys.Sublist s.keys := by
    rw [hs'.keys_eq, hkeys]
    exact List.erase_sublist
  have hrep : Rep P t₁.view ((Ctx.frame up b ksL csL ksR csR).fill (.leaf a s')).2 := by
    rw [v₁]
    exact (h.setLeaf hc hs'.ok).congr rfl (fun _ _ => rfl) (fun _ _ => rfl) (fun _ _ => rfl)
      (fun _ _ => ⟨rfl, rfl⟩)
  -- the first slot holds a key of the leaf, also if the leaf is empty now
  obtain ⟨z, hz, hzs⟩ : ∃ z, s'.keySlots.head? = some z ∧ z ∈ s.keys := by
    cases es with
    | nil => exact ⟨y, by rw [hs'.keys]; rfl, hys⟩
    | cons x xs =>
      refine ⟨x.1, hs'.head_key, List.erase_subset (a := e.1) ?_⟩
      rw [← hkeys]
      exact List.mem_cons_self
  have hflag : ¬t.view.flag a = true := fun hf => by cases h.flag_leaf.mp hf
  rw [if_neg hflag] at e₁
  refine ⟨as.length, t₁, s', es, y, r, hs', hkeys, hys, fun z' hz' => ?_, v₁, hdrop, e₁, hrep, ?_,
    (leaf_loc hrep hc hz (ho.routes hc hzs).here).2.1⟩
  · obtain rfl : z = z' := Option.some.inj (hz.symm.trans hz')
    exact hzs
  · rw [Ctx.inorder_fill_leaf hc] at ho ⊢
    exact ho.shrink hsub

end Frame

end NwtBTree
