import NwtBTree.Machine.Ensures
import NwtBTree.Refine.Repair

/-!
# What the operations on inner nodes leave alone

Neither `insert_in_parent` nor `deleteInnerNode` writes a slot of a leaf, counts keys or
moves the two ends of the chain, whatever they find in the heap.
-/

namespace NwtBTree

variable {K D : Type} {P : Template K D}

/-- The leaves of `t'` are leaves of `t` with the same slots. -/
structure Frame (t t' : BTree K D) : Prop where
  slots : ∀ a s, t'.view.body a = some (.leaf s) → t.view.body a = some (.leaf s)
  root : t.root ≠ none → t'.root ≠ none
  count : t'.totalkeycount = t.totalkeycount
  head : t'.headleaf = t.headleaf
  tail : t'.tailleaf = t.tailleaf

theorem Frame.refl (t : BTree K D) : Frame t t := ⟨fun _ _ h => h, id, rfl, rfl, rfl⟩

instance : IsTrans (BTree K D) Frame where
  trans _ _ _ h h' := ⟨fun a s hs => h.slots a s (h'.slots a s hs), h'.root ∘ h.root,
    h'.count.trans h.count, h'.head.trans h.head, h'.tail.trans h.tail⟩

namespace BTree

variable {t : BTree K D} {a b : Addr} {k : K} {c d : Option Addr}

/-! ## Writes to one node -/

/-- The members outside the slots of a leaf are written. -/
theorem frame_put {n n' : Node K D} (hn : t.node a = .ok n)
    (hb : ∀ s, n'.body = .leaf s → n.body = .leaf s) : Frame t (t.put a n') where
  slots b s hs := by
    have hget : t.nodes.get a = some n := by
      unfold node at hn
      split at hn <;> simp_all
    simp only [view, put, Store.get_put hget] at hs ⊢
    split_ifs at hs with hba
    · rw [hba, hget]
      exact congrArg some (hb s (Option.some.inj hs))
    · exact hs
  root := id
  count := rfl
  head := rfl
  tail := rfl

theorem frame_setInner (s : InnerSlots K) : Ensures (t.setInner a s) (Frame t) :=
  .bind fun n hn => by
    obtain ⟨m, hm, h⟩ := bind_eq_ok.mp hn
    exact .pure (frame_put hm nofun)

theorem frame_setParent : Ensures (t.setParent a c) (Frame t) :=
  .bind fun n hn => by
    cases n with
    | leaf l => exact .pure (frame_put hn fun _ => id)
    | inner n => exact .pure (frame_put hn fun _ => id)

theorem frame_setIsRoot {f : Bool} : Ensures (t.setIsRoot a f) (Frame t) :=
  .bind fun n hn => by
    cases n with
    | leaf l => exact .pure (frame_put hn fun _ => id)
    | inner n => exact .pure (frame_put hn fun _ => id)

theorem node_of_leaf {l : LeafNode K D} (h : t.leaf a = .ok l) : t.node a = .ok (.leaf l) := by
  obtain ⟨n, hn, h⟩ := bind_eq_ok.mp h
  cases n with
  | leaf m => rw [hn, Except.ok.inj h]
  | inner m => cases h

theorem frame_setNextLeaf : Ensures (t.setNextLeaf a c) (Frame t) :=
  .bind fun _ hl => .pure (frame_put (node_of_leaf hl) fun _ => id)

theorem frame_setPrevLeaf : Ensures (t.setPrevLeaf a c) (Frame t) :=
  .bind fun _ hl => .pure (frame_put (node_of_leaf hl) fun _ => id)

theorem frame_freeNode : Ensures (t.freeNode a) (Frame t) :=
  .bind fun n hn => .pure {
    slots b s hs := by
      simp only [view, Store.get_free] at hs ⊢
      split_ifs at hs with hba
      · cases hs
      · exact hs
    root := id
    count := rfl
    head := rfl
    tail := rfl }

theorem frame_newInner : Frame t (t.newInner P) where
  slots b s hs := by
    simp only [view, newInner, Store.get_alloc] at hs ⊢
    split_ifs at hs
    · cases hs
    · exact hs
  root := id
  count := rfl
  head := rfl
  tail := rfl

/-! ## Positional insertion -/

theorem frame_linkLeaves : Ensures (t.linkLeaves c d) (Frame t) :=
  .bind fun _ _ => .bind fun _ _ => .trans frame_setPrevLeaf fun _ => frame_setNextLeaf

theorem frame_linkNeighbours {cs : List (Option Addr)} {num i : Nat} :
    Ensures (t.linkNeighbours cs num c i) (Frame t) := by
  refine .trans
    (.ite (fun _ => .bind fun _ _ => frame_linkLeaves) fun _ => .ok (.refl t)) fun u => ?_
  exact .ite (fun _ => .bind fun _ _ => frame_linkLeaves) fun _ => .pure (.refl u)

theorem frame_insertInnerNodeChildAt {i : Int} :
    Ensures (t.insertInnerNodeChildAt a c i) fun r => Frame t r.2 := by
  refine .bind fun n _ => .ite (fun _ => .pure (.refl t)) fun _ => ?_
  refine .bind fun _ _ => .bind fun _ _ => .bind fun _ _ => .trans (frame_setInner _) fun u => ?_
  refine .trans frame_setParent fun u => .bind fun _ _ => .trans ?_ fun u => .pure (.refl u)
  exact .ite (fun _ => frame_linkNeighbours) fun _ => .ok (.refl u)

theorem frame_insertChildAt {i : Nat} : Ensures (t.insertChildAt a c i) (Frame t) :=
  .trans frame_insertInnerNodeChildAt fun r => .pure (.refl r.2)

theorem frame_insertKeyAt {i : Nat} : Ensures (t.insertKeyAt a k i) (Frame t) :=
  .bind fun _ _ => .bind fun _ _ => frame_setInner _

variable [LinearOrder K]

theorem frame_insertInnerNodePair : Ensures (t.insertInnerNodePair a k b) fun r => Frame t r.2 := by
  refine .bind fun n _ => .ite (fun _ => .throw) fun _ => .bind fun _ _ => .bind fun _ _ => ?_
  exact .trans (frame_setInner _) fun u => .trans frame_insertInnerNodeChildAt fun r =>
    .pure (.refl r.2)

theorem frame_replaceKey {x y : K} : Ensures (t.replaceKey c x y) fun r => Frame t r.2 := by
  cases c with
  | none => exact .pure (.refl t)
  | some a =>
    refine .bind fun n _ => .bind fun i _ => ?_
    cases i with
    | none => exact .pure (.refl t)
    | some i => exact .bind fun _ _ => .trans (frame_setInner _) fun u => .pure (.refl u)

/-! ## `insert_in_parent` -/

section Split

variable {p pNode ppNode N Nprime : Addr} {s : InnerSplit K D}

theorem frame_splitPushed :
    Ensures (splitPushed p pNode N k Nprime s) fun s' => Frame s.t s'.t := by
  refine .bind fun n _ => .bind fun _ _ => .ite (fun _ => .ite (fun _ => ?_) fun _ => ?_) fun _ =>
    .pure (.refl s.t)
  · exact .trans frame_insertKeyAt fun _ => .trans frame_insertChildAt fun _ =>
      .trans frame_insertChildAt fun u => .pure (.refl u)
  · exact .trans frame_insertKeyAt fun _ => .trans frame_insertChildAt fun _ =>
      .trans frame_insertChildAt fun u => .pure (.refl u)

omit [LinearOrder K] in
theorem frame_splitFirst : Ensures (splitFirst p pNode s) fun s' => Frame s.t s'.t := by
  refine .bind fun n _ => .ite (fun _ => .bind fun _ _ => ?_) fun _ => .pure (.refl s.t)
  exact .trans frame_insertKeyAt fun _ => .bind fun _ _ => .trans frame_insertChildAt fun u =>
    .pure (.refl u)

omit [LinearOrder K] in
theorem frame_splitSecond : Ensures (splitSecond p ppNode s) fun s' => Frame s.t s'.t := by
  refine .bind fun n _ => .ite (fun _ => .bind fun _ _ => ?_) fun _ => .pure (.refl s.t)
  exact .trans frame_insertKeyAt fun _ => .bind fun _ _ => .trans frame_insertChildAt fun u =>
    .pure (.refl u)

omit [LinearOrder K] in
theorem frame_splitMiddle : Ensures (splitMiddle p pNode s) fun s' => Frame s.t s'.t := by
  refine .bind fun n _ => .ite (fun _ => ?_) fun _ => .pure (.refl s.t)
  refine .bind fun _ _ => .bind fun _ _ => .trans (frame_setInner _) fun u => ?_
  refine .bind fun _ _ => .bind fun _ _ => .bind fun _ _ => .trans ?_ fun u => .pure (.refl u)
  exact .ite (fun _ => .bind fun _ _ => frame_linkLeaves) fun _ => .ok (.refl u)

theorem frame_innerSplitLoop {fuel : Nat} :
    Ensures (innerSplitLoop p pNode ppNode N k Nprime fuel s) fun s' => Frame s.t s'.t := by
  induction fuel generalizing s with
  | zero => exact .error
  | succ fuel ih =>
    refine .bind fun n _ => .ite (fun _ => ?_) fun _ => .pure (.refl s.t)
    exact .trans frame_splitPushed fun _ => .trans frame_splitFirst fun _ =>
      .trans frame_splitSecond fun _ => .trans frame_splitMiddle fun _ => ih

omit [LinearOrder K] in
theorem frame_splitEnd {j : Nat} : Ensures (t.splitEnd ppNode N k Nprime j) (Frame t) :=
  .bind fun _ _ => .trans (frame_setInner _) fun _ => .trans frame_insertChildAt fun _ =>
    .trans frame_insertKeyAt fun _ => frame_insertChildAt

theorem frame_splitInner : Ensures (splitInner P t p N k Nprime) fun r => Frame t r.2 := by
  refine .step ?_ (frame_newInner (P := P))
  refine .step ?_ (frame_newInner (P := P))
  refine .bind fun n _ => .trans frame_innerSplitLoop fun s => .bind fun last _ => ?_
  refine .trans (.ite (fun _ => frame_insertChildAt) fun _ => .ok (.refl s.t)) fun u => ?_
  refine .trans (.ite (fun _ => .ok (.refl u)) fun _ => frame_splitEnd) fun u => ?_
  refine .bind fun q _ => .bind fun _ _ => ?_
  split
  · exact .pure (.refl u)
  · exact .throw

end Split

theorem frame_insertInRoom {Nprime : Addr} :
    Ensures (insertInRoom t a b k Nprime) (Frame t) := by
  refine .bind fun n _ => .trans (frame_setInner _) fun u => ?_
  refine .trans frame_insertInnerNodePair fun r => .ite (fun _ => ?_) fun _ => .pure (.refl r.2)
  exact .trans frame_insertInnerNodeChildAt fun r => .pure (.refl r.2)

omit [LinearOrder K] in
theorem frame_setRoot : Frame t { t with root := some a } :=
  ⟨fun _ _ h => h, nofun, rfl, rfl, rfl⟩

omit [LinearOrder K] in
theorem frame_insertNewRoot {Nprime : Addr} :
    Ensures (insertNewRoot P t b k Nprime) (Frame t) := by
  refine .step ?_ (frame_newInner (P := P))
  refine .trans frame_setIsRoot fun _ => .trans frame_insertKeyAt fun _ => ?_
  exact .trans frame_insertChildAt fun _ => .trans frame_insertChildAt fun u => .pure frame_setRoot

theorem frame_insertInParent {fuel : Nat} {N Nprime : Addr} :
    Ensures (insertInParent P fuel t c N k Nprime) (Frame t) := by
  induction fuel generalizing t c N k Nprime with
  | zero => exact .error
  | succ fuel ih =>
    cases c with
    | none => exact frame_insertNewRoot
    | some p =>
      refine .bind fun n _ => .ite (fun _ => frame_insertInRoom) fun _ => ?_
      exact .trans frame_splitInner fun r => .bind fun _ _ => ih

/-! ## `deleteInnerNode` -/

omit [LinearOrder K] in
theorem frame_shiftChildren {i n : Nat} : Ensures (t.shiftChildren a i n) (Frame t) := by
  induction n generalizing t i with
  | zero => exact .ok (.refl t)
  | succ n ih =>
    refine .bind fun s _ => .ite (fun _ => .throw) fun _ => .bind fun _ _ => .bind fun _ _ => ?_
    refine .trans (frame_setInner _) fun u => ?_
    refine .bind fun _ _ => .bind fun _ _ => .trans ?_ fun _ => ih
    refine .ite (fun _ => .ite (fun _ => ?_) fun _ => frame_setPrevLeaf) fun _ => .ok (.refl u)
    exact .bind fun _ _ => frame_linkLeaves

omit [LinearOrder K] in
theorem frame_shiftLastChild {i : Nat} : Ensures (t.shiftLastChild a i) (Frame t) := by
  refine .bind fun s _ => .bind fun _ _ => .bind fun _ _ => .bind fun _ _ => ?_
  refine .trans (frame_setInner _) fun u => .bind fun _ _ => .bind fun _ _ => ?_
  exact .ite (fun _ => .ite (fun _ => .bind fun _ _ => frame_linkLeaves) fun _ => .pure (.refl u))
    fun _ => .pure (.refl u)

omit [LinearOrder K] in
theorem frame_removeChild {loc keyloc : Nat} : Ensures (t.removeChild a loc keyloc) (Frame t) := by
  refine .bind fun s _ => .bind fun _ _ => .bind fun child _ => .trans (p := id) ?_ fun u => ?_
  · refine .ite (fun _ => .bind fun _ _ => .ite (fun _ => ?_) fun _ => .ok (.refl t)) fun _ =>
      .ok (.refl t)
    exact .bind fun _ _ => .bind fun _ _ => .bind fun _ _ => frame_setNextLeaf
  · refine .trans frame_freeNode fun _ => .bind fun _ _ => .trans (frame_setInner _) fun _ => ?_
    refine .trans frame_shiftChildren fun u => .trans ?_ fun _ => .bind fun _ _ => frame_setInner _
    exact .ite (fun _ => frame_shiftLastChild) fun _ => .ok (.refl u)

omit [LinearOrder K] in
theorem frame_prependAll {n : Nat} : Ensures (t.prependAll a b n) (Frame t) := by
  induction n generalizing t with
  | zero => exact .ok (.refl t)
  | succ n ih =>
    exact .bind fun _ _ => .bind fun _ _ => .trans frame_insertKeyAt fun _ => .bind fun _ _ =>
      .trans frame_insertChildAt fun _ => ih

omit [LinearOrder K] in
theorem frame_mergeIntoNext : Ensures (t.mergeIntoNext k a b) (Frame t) :=
  .bind fun _ _ => .trans frame_insertKeyAt fun _ => .bind fun _ _ =>
    .trans frame_insertChildAt fun _ => frame_prependAll

omit [LinearOrder K] in
theorem frame_appendPair : Ensures (t.appendPair a k c) (Frame t) :=
  .bind fun _ _ => .trans frame_insertKeyAt fun _ => frame_insertChildAt

omit [LinearOrder K] in
theorem frame_appendAll {i n : Nat} : Ensures (t.appendAll a b i n) (Frame t) := by
  induction n generalizing t i with
  | zero => exact .ok (.refl t)
  | succ n ih =>
    exact .bind fun _ _ => .bind fun _ _ => .bind fun _ _ => .trans frame_appendPair fun _ => ih

omit [LinearOrder K] in
theorem frame_mergeIntoPrev : Ensures (t.mergeIntoPrev k a b) (Frame t) :=
  .bind fun _ _ => .bind fun _ _ => .trans frame_appendPair fun _ => frame_appendAll

theorem frame_redistributeFromNext : Ensures (t.redistributeFromNext k a b) (Frame t) := by
  refine .bind fun _ _ => .bind fun _ _ => .trans frame_appendPair fun _ => ?_
  refine .bind fun _ _ => .bind fun _ _ => .trans frame_replaceKey fun r => ?_
  exact .bind fun _ _ => .bind fun _ _ => .bind fun _ _ => .bind fun _ _ => frame_setInner _

theorem frame_redistributeFromPrev : Ensures (t.redistributeFromPrev k a b c) (Frame t) := by
  refine .bind fun _ _ => .bind fun _ _ => .trans frame_insertKeyAt fun _ => .bind fun _ _ => ?_
  refine .trans frame_insertChildAt fun _ => .bind fun _ _ => .bind fun _ _ => .bind fun _ _ => ?_
  refine .bind fun _ _ => .trans frame_replaceKey fun r => ?_
  exact .bind fun _ _ => .bind fun _ _ => frame_setInner _

theorem frame_repair {del : BTree K D → Addr → K → Addr → Except Fault (Int × BTree K D)}
    (hdel : ∀ (u : BTree K D) (g : Addr) (x : K) (N : Addr),
      Ensures (del u g x N) fun r => Frame u r.2) {loc : Int} :
    Ensures (t.repair P del a loc) fun r => Frame t r.2 := by
  refine .bind fun s _ => .ite (fun _ => .ite (fun _ => ?_) fun _ => .pure (.refl t)) fun _ =>
    .ite (fun _ => ?_) fun _ => .pure (.refl t)
  · refine .bind fun _ _ => .bind fun c _ => .trans frame_setParent fun _ => ?_
    refine .trans frame_setIsRoot fun _ => .step ?_ (frame_setRoot (a := c))
    exact .trans frame_freeNode fun u => .pure (.refl u)
  · refine .bind fun loc _ => .bind fun g _ => .bind fun parent _ => .bind fun prev _ => ?_
    refine .bind fun next _ => ?_
    cases next with
    | some next =>
      refine .bind fun q _ => .bind fun sep _ => .ite (fun _ => ?_) fun _ => ?_
      · exact .trans frame_mergeIntoNext fun u => .trans (hdel u _ _ _) fun r => .pure (.refl r.2)
      · exact .trans frame_redistributeFromNext fun u => .pure (.refl u)
    | none =>
      cases prev with
      | none => exact .pure (.refl t)
      | some prev =>
        refine .bind fun q _ => .bind fun sep _ => .ite (fun _ => ?_) fun _ => ?_
        · exact .trans frame_mergeIntoPrev fun u => .trans (hdel u _ _ _) fun r => .pure (.refl r.2)
        · exact .trans frame_redistributeFromPrev fun u => .pure (.refl u)

theorem frame_deleteInnerNode {fuel : Nat} :
    Ensures (deleteInnerNode P fuel t a k b) fun r => Frame t r.2 := by
  induction fuel generalizing t a k b with
  | zero => exact .error
  | succ fuel ih =>
    rw [deleteInnerNode_eq]
    refine .bind fun loc _ => .bind fun s _ => .bind fun keyloc _ => ?_
    refine .ite (fun _ => .pure (.refl t)) fun _ => .bind fun _ _ => ?_
    refine .trans (.ite (fun _ => frame_removeChild) fun _ => .ok (.refl t)) fun u => ?_
    exact frame_repair fun _ _ _ _ => ih

end BTree

end NwtBTree
