import NwtBTree.Multiway.Even
import NwtBTree.Refine.Balance

/-!
# What `balancetree` makes of a leaf

For `btree<_Key, _Datatype, 4, 4>`. `Rebalanced` lists the outcomes for a leaf that
has lost a pair. Which of them it is depends on the neighbour under the same
parent; `Ctx.Recovers` leaves out the two cases that do not end in a search tree.
-/

namespace NwtBTree

variable {K D : Type} {P : Template K D}

/-- `btree<_Key, _Datatype, 4, 4>`. -/
structure Template.Four (P : Template K D) : Prop where
  nodeslots : P.nodeslots = 4
  leafslots : P.leafslots = 4

namespace Template.Four

variable (h : P.Four)
include h

theorem leafnodemax : P.leafnodemax = 4 := by
  rw [Template.leafnodemax, h.leafslots]

theorem leafnodemin : P.leafnodemin = 2 := by
  rw [Template.leafnodemin, h.leafslots]

theorem innernodemax : P.innernodemax = 4 := by
  rw [Template.innernodemax, h.nodeslots]

theorem innernodemin : P.innernodemin = P.innernodemax / 2 := by
  rw [Template.innernodemin, Template.innernodemax, h.nodeslots]

end Template.Four

/-- The state after the balancing of the leaf `s` at `a`, whose place is the context: `v` has
become `v'`, which holds the tree. -/
inductive Rebalanced (P : Template K D) (v v' : View K D) (a : Addr) (s : LeafSlots K D) :
    MCtx K D 0 → (m : Nat) × MTree K D m → Prop
  | kept {c : MCtx K D 0} (hs : 2 ≤ s.slotsinuse ∨ c = .top) (hv : v' = v)
      (h : Rep P v (c.fill (.leaf a s)).2) : Rebalanced P v v' a s c (c.fill (.leaf a s))
  | mergedPrev {up : MCtx K D 1} {b p : Addr} {sp sp' : LeafSlots K D} {sep : K}
      {kL ksR r rp rp' : List K} {cL csR : List (MTree K D 0)} {e : K × D} {ep ep' : List (K × D)}
      {T : (m : Nat) × MTree K D m} (hs : LeafIs P s [e] r) (hsp : LeafIs P sp ep rp)
      (hroom : ep.length < 3) (hsp' : LeafIs P sp' ep' rp')
      (hep' : sp.beyond = some e.1 ∧ ep' = ep ∨ sp.beyond ≠ some e.1 ∧ ep' = ep ++ [e])
      (hT : up.Settled P.innernodemax b (kL ++ ksR) (cL ++ .leaf p sp' :: csR) T)
      (h : Shrunk P v v' (mendLinks P.innernodemax up (cL ++ .leaf p sp' :: csR)
        (removalLinks true v.links ((cL ++ [Tree.leaf p sp]).map Tree.addr) a
          (csR.map Tree.addr))) T) :
      Rebalanced P v v' a s (.frame up b (kL ++ [sep]) (cL ++ [.leaf p sp]) ksR csR) T
  | borrowedPrev {up : MCtx K D 1} {b p : Addr} {sp s' sp' : LeafSlots K D} {sep : K}
      {kL ksR r r' rp rp' : List K} {cL csR : List (MTree K D 0)} {e x : K × D}
      {es' ep : List (K × D)}
      (hs : LeafIs P s [e] r) (hsp : LeafIs P sp (ep ++ [x]) rp) (hmany : 2 ≤ ep.length)
      (hs' : LeafIs P s' es' r') (hes' : es'.map Prod.fst = [x.1, e.1]) (hsp' : LeafIs P sp' ep rp')
      (h : Shrunk P v v' v.links ((Ctx.frame up b (kL ++ [x.1]) (cL ++ [.leaf p sp']) ksR csR).fill
        (.leaf a s'))) :
      Rebalanced P v v' a s (.frame up b (kL ++ [sep]) (cL ++ [.leaf p sp]) ksR csR)
        ((Ctx.frame up b (kL ++ [x.1]) (cL ++ [.leaf p sp']) ksR csR).fill (.leaf a s'))
  | mergedNext {up : MCtx K D 1} {b q : Addr} {sq sq' : LeafSlots K D} {sep : K}
      {ksR r rq rq' : List K} {csR : List (MTree K D 0)} {e : K × D} {eq eq' : List (K × D)}
      {T : (m : Nat) × MTree K D m} (hs : LeafIs P s [e] r) (hsq : LeafIs P sq eq rq)
      (hroom : eq.length < 3) (hsq' : LeafIs P sq' eq' rq')
      (heq' : eq'.map Prod.fst = e.1 :: eq.map Prod.fst)
      (hT : up.Settled P.innernodemax b ksR (.leaf q sq' :: csR) T)
      (h : Shrunk P v v' (mendLinks P.innernodemax up (.leaf q sq' :: csR)
        (removalLinks true v.links [] a (q :: csR.map Tree.addr))) T) :
      Rebalanced P v v' a s (.frame up b [] [] (sep :: ksR) (.leaf q sq :: csR)) T
  | borrowedNext {up : MCtx K D 1} {b q : Addr} {sq s' sq' : LeafSlots K D}
      {ksR r r' rq rq' : List K}
      {csR : List (MTree K D 0)} {e x y : K × D} {eq : List (K × D)}
      (hs : LeafIs P s [e] r) (hsq : LeafIs P sq (x :: y :: eq) rq) (hmany : eq ≠ [])
      (hs' : LeafIs P s' [e, x] r') (hsq' : LeafIs P sq' (y :: eq) rq')
      (h : Shrunk P v v' v.links ((Ctx.frame up b [] [] (y.1 :: ksR) (.leaf q sq' :: csR)).fill
        (.leaf a s'))) :
      Rebalanced P v v' a s (.frame up b [] [] (x.1 :: ksR) (.leaf q sq :: csR))
        ((Ctx.frame up b [] [] (y.1 :: ksR) (.leaf q sq' :: csR)).fill (.leaf a s'))

namespace Ctx

/-- What the context must be like for the balancing of a leaf with one pair: where the leaf goes
its parent can be repaired, and where it takes the first pair of the leaf on the right the
separator between them is the key of that pair. -/
def Recovers (P : Template K D) : MCtx K D 0 → Prop
  | .top => True
  | .frame up _ _ csL ksR csR =>
    match csL.getLast?, csR with
    | some p, _ => (Tip.body p).slotsinuse < 3 →
        up.Settles P.innernodemax (csL.length + csR.length)
    | none, q :: csR => if (Tip.body q).slotsinuse < 3 then
        up.Settles P.innernodemax (csR.length + 1)
      else ksR.head? = (Tip.body q).keys.head?
    | none, [] => True

/-- The pair that the leaf is left with is taken for a duplicate when it moves to the left: its
key is in the first unused slot there. -/
def Loses (s : LeafSlots K D) : MCtx K D 0 → Prop
  | .top => False
  | .frame _ _ _ csL _ _ => ∃ p ∈ csL.getLast?, (Tip.body p).slotsinuse < 3 ∧ s.slotsinuse = 1 ∧
      (Tip.body p).beyond = s.keys.head?

/-- What is asked of the keys around a leaf with one key: the leaf is found in its parent, its key
belongs behind those of the left neighbour or in front of those of the right one, and the parent is
told where the leaf goes. The slot behind the key must not hold one of the right neighbour's. -/
def Guides [LinearOrder K] (P : Template K D) (s : LeafSlots K D) : MCtx K D 0 → Prop
  | .top => True
  | .frame up _ ksL csL ksR csR => ∀ z ∈ s.keys.head?, (∀ y ∈ ksL, y ≤ z) ∧
      (∀ y ∈ ksR.head?, z < y) ∧ (ksL ++ ksR).Pairwise (· ≤ ·) ∧
      match csL.getLast?, csR with
      | some p, _ => (∀ x ∈ (Tip.body p).keys, x < z) ∧
          ((Tip.body p).slotsinuse < 3 → up.Told P.innernodemax (ksL.dropLast ++ ksR)) ∧
          (¬(Tip.body p).slotsinuse < 3 → (Tip.body p).keys.Pairwise (· < ·) ∧
            ∀ y ∈ ksL.getLast?, y ∉ ksL.dropLast)
      | none, q :: _ => (∀ x ∈ (Tip.body q).keys, z < x) ∧
          ((Tip.body q).slotsinuse < 3 → up.Told P.innernodemax ksR.tail) ∧
          ∀ x ∈ s.beyond, ∀ y ∈ ksR.head?, x < y
      | none, [] => True

end Ctx

variable [LinearOrder K] {t : BTree K D} {up : MCtx K D 1} {a b p q : Addr}
  {s sp sq : LeafSlots K D}
  {sep : K} {ksL ksR kL : List K} {csL csR cL : List (MTree K D 0)} {e : K × D} {r : List K}

section Order

variable {c : MCtx K D 0}

/-- The keys of a leaf lead to it. -/
theorem SearchOrder.routes (ho : SearchOrder LeafSlots.keys (c.fill (.leaf a s)).2.inorder)
    (hc : c.Paired) {x : K} (hx : x ∈ s.keys) : c.Routes x := by
  rw [Ctx.inorder_fill_leaf hc] at ho
  have hfit := (searchOrder_leaf.mp ho).2.2 x hx
  exact Ctx.routes_of_seps hc hfit.seps_le hfit.lt_seps

/-- The separators around a leaf. -/
theorem SearchOrder.frame_seps
    (ho : SearchOrder LeafSlots.keys ((Ctx.frame up b ksL csL ksR csR).fill (.leaf a s)).2.inorder)
    (hc : (Ctx.frame up b ksL csL ksR csR).Paired) :
    (seps up.left ++ (ksL ++ ksR) ++ seps up.right).Pairwise (· < ·) := by
  obtain ⟨hL, hR, -, -, -, hup⟩ := hc
  have := ho.seps_sorted
  rw [Ctx.fill_frame, Ctx.inorder_fill hup, Tree.inorder_node, seps_append, seps_append,
    seps_interleave_leaves (by simp; omega)] at this
  exact this

omit [LinearOrder K] in
/-- A leaf and its left neighbour in the sequence. -/
theorem left_prev
    (hc : (Ctx.frame up b (kL ++ [sep]) (cL ++ [.leaf p sp]) ksR csR).Paired) :
    (Ctx.frame up b (kL ++ [sep]) (cL ++ [.leaf p sp]) ksR csR).left =
      up.left ++ before .inl Tree.inorder kL cL ++ [.inr ⟨p, sp⟩, .inl sep] := by
  have hL : kL.length = cL.length := by simpa using hc.1
  rw [Ctx.left_frame, before_append _ _ hL]
  simp

/-- The keys of a leaf are greater than those of the leaf before it. -/
theorem SearchOrder.keys_prev
    (ho : SearchOrder LeafSlots.keys
      ((Ctx.frame up b (kL ++ [sep]) (cL ++ [.leaf p sp]) ksR csR).fill (.leaf a s)).2.inorder)
    (hc : (Ctx.frame up b (kL ++ [sep]) (cL ++ [.leaf p sp]) ksR csR).Paired) :
    (sp.keys ++ s.keys).Pairwise (· < ·) := by
  rw [Ctx.inorder_fill_leaf hc, left_prev hc, List.append_assoc] at ho
  exact ho.neighbours.2.1

/-- And smaller than those of the leaf after it. -/
theorem SearchOrder.keys_next
    (ho : SearchOrder LeafSlots.keys
      ((Ctx.frame up b ksL csL (sep :: ksR) (.leaf q sq :: csR)).fill (.leaf a s)).2.inorder)
    (hc : (Ctx.frame up b ksL csL (sep :: ksR) (.leaf q sq :: csR)).Paired) :
    (s.keys ++ sq.keys).Pairwise (· < ·) := by
  rw [Ctx.inorder_fill_leaf hc] at ho
  exact ho.neighbours.2.1

/-- The keys of the next leaf lead past the separator. -/
theorem SearchOrder.routes_next
    (ho : SearchOrder LeafSlots.keys
      ((Ctx.frame up b ksL csL (sep :: ksR) (.leaf q sq :: csR)).fill (.leaf a s)).2.inorder)
    (hc : (Ctx.frame up b ksL csL (sep :: ksR) (.leaf q sq :: csR)).Paired) {z : K}
    (hz : z ∈ sq.keys) :
    (Ctx.frame up b (ksL ++ [sep]) (csL ++ [.leaf a s]) ksR csR).Routes z := by
  have hshift : (Ctx.frame up b (ksL ++ [sep]) (csL ++ [.leaf a s]) ksR csR).fill (.leaf q sq) =
      (Ctx.frame up b ksL csL (sep :: ksR) (.leaf q sq :: csR)).fill (.leaf a s) := Ctx.fill_shift
  rw [← hshift] at ho
  exact ho.routes (Ctx.paired_shift_right hc trivial) hz

/-- A separator occurs once. -/
theorem SearchOrder.sep_not_mem
    (ho : SearchOrder LeafSlots.keys
      ((Ctx.frame up b (kL ++ [sep]) csL ksR csR).fill (.leaf a s)).2.inorder)
    (hc : (Ctx.frame up b (kL ++ [sep]) csL ksR csR).Paired) : sep ∉ kL := by
  have hsub := (List.pairwise_append.mp (List.pairwise_append.mp (ho.frame_seps hc)).1).2.1
  have hlt := (List.pairwise_append.mp (List.pairwise_append.mp hsub).1).2.2
  exact fun hm => lt_irrefl sep (hlt sep hm sep (by simp))

/-- The separators behind the next leaf are greater than its keys. -/
theorem SearchOrder.key_not_mem
    (ho : SearchOrder LeafSlots.keys
      ((Ctx.frame up b ksL csL (sep :: ksR) (.leaf q sq :: csR)).fill (.leaf a s)).2.inorder)
    (hc : (Ctx.frame up b ksL csL (sep :: ksR) (.leaf q sq :: csR)).Paired) {z : K}
    (hz : z ∈ sq.keys) : z ∉ ksR := by
  have hsub := (List.pairwise_append.mp (List.pairwise_append.mp (ho.frame_seps hc)).1).2.1
  have hsort := (List.pairwise_cons.mp (List.pairwise_append.mp hsub).2.1).2
  have hnext := (ho.routes_next hc hz).2.1
  intro hm
  cases ksR with
  | nil => simp at hm
  | cons y ys =>
    have hlt : z < y := hnext y (by simp)
    rcases List.mem_cons.mp hm with rfl | hm
    · exact lt_irrefl z hlt
    · exact lt_asymm hlt ((List.pairwise_cons.mp hsort).1 z hm)

/-- In a search tree everything around a leaf is in order. -/
theorem SearchOrder.guides (ho : SearchOrder LeafSlots.keys (c.fill (.leaf a s)).2.inorder)
    (hc : c.Paired) (hbeyond : ∀ y ∈ s.beyond, ∀ z ∈ seps c.right, y < z) : c.Guides P s := by
  cases c with
  | top => trivial
  | frame up b ksL csL ksR csR =>
    intro z hz
    have hmem : z ∈ s.keys := List.mem_of_mem_head? hz
    have hseps := ho.frame_seps hc
    have hframe := (List.pairwise_append.mp (List.pairwise_append.mp hseps).1).2.1
    obtain ⟨hle, hnext⟩ := (ho.routes hc hmem).here
    refine ⟨hle, hnext, hframe.imp le_of_lt, ?_⟩
    obtain ⟨hL, hR, h0, -, -, hup⟩ := id hc
    rcases List.eq_nil_or_concat csL with rfl | ⟨cL, ⟨p, sp⟩, rfl⟩
    · cases csR with
      | nil => trivial
      | cons q csR =>
        obtain ⟨q, sq⟩ := q
        obtain ⟨sep, ksR, rfl⟩ := List.exists_cons_of_length_eq_add_one hR
        obtain rfl := List.eq_nil_of_length_eq_zero hL
        have hkeys := (List.pairwise_append.mp (ho.keys_next hc)).2.2
        refine ⟨fun x hx => hkeys z hmem x hx, fun _ => Ctx.told_of_sorted hup ?_,
          fun x hx y hy => hbeyond x hx y ?_⟩
        · exact hseps.sublist (((List.sublist_cons_self ..).append_left _).append_right _)
        · obtain rfl : sep = y := by simpa using hy
          simp
    · rw [List.concat_eq_append] at *
      obtain ⟨kL, sep, rfl⟩ := List.eq_nil_or_concat ksL |>.resolve_left (by
        rintro rfl
        simp at hL)
      rw [List.concat_eq_append] at *
      obtain ⟨hsort, -, hlt⟩ := List.pairwise_append.mp (ho.keys_prev hc)
      simp only [List.getLast?_concat, List.dropLast_concat]
      refine ⟨fun x hx => hlt x hx z hmem, fun _ => Ctx.told_of_sorted hup ?_, fun _ => ⟨hsort, ?_⟩⟩
      · exact hseps.sublist
          ((((List.sublist_append_left kL [sep]).append_right ksR).append_left _).append_right _)
      · rintro y hy
        obtain rfl : sep = y := by simpa using hy
        exact ho.sep_not_mem hc

end Order

variable [DecidableEq D]

/-- The scan from the end of the leaf on the left finds the pair in the leaf itself. -/
theorem duplicateScan_across {es : List (K × D)} {rp : List K}
    (hp : t.view.body p = some (.leaf sp)) (hsp : LeafIs P sp es rp)
    (hbeyond : sp.beyond = some e.1)
    (hnext : t.view.links.nxt p = some a) (ha : t.view.body a = some (.leaf s))
    (hs : LeafIs P s [e] r) : t.duplicateScan e.1 e.2 t.fuel (some p) es.length = .ok true := by
  obtain ⟨f, hf⟩ := fuel_eq ha
  have hload : load sp.keySlots es.length = .ok e.1 := by
    rw [← hsp.inuse]
    exact load_of_getElem? hbeyond
  have hkey : load s.keySlots 0 = .ok e.1 := hs.load_key (i := 0) (by simp)
  have hdata : load s.dataSlots 0 = .ok e.2 := hs.load_data (i := 0) (by simp)
  have hrefl : keyequal e.1 e.1 = true := (keyequal_iff e.1 e.1).mpr rfl
  have hsame : duplicateIn s e.1 e.2 (s.slotsinuse - 0) 0 = .ok true := by
    rw [hs.inuse]
    simp only [List.length_singleton, Nat.sub_zero, duplicateIn, hkey, hdata, ok_bind, hrefl,
      if_true]
    rfl
  have hnone : duplicateIn sp e.1 e.2 (sp.slotsinuse - es.length) es.length = .ok false := by
    rw [hsp.inuse, Nat.sub_self]
    rfl
  rw [hf, BTree.duplicateScan]
  simp only [BTree.leaf_eq hp, ok_bind, hload, hrefl, if_true, hnone, Bool.false_eq_true, if_false,
    hnext]
  rw [BTree.duplicateScan]
  simp only [BTree.leaf_eq ha, ok_bind, hkey, hrefl, if_true, hsame]
  rfl

/-- The pair moves to the end of the leaf on the left, or is taken for one that is there. -/
theorem insertLeafPair_prev {rp : List K} (hp : t.view.body p = some (.leaf sp))
    (hsp : LeafIs P sp sp.entries rp) (hroom : sp.entries.length < P.leafnodemax)
    (hlt : ∀ x ∈ sp.entries, x.1 < e.1) (hnext : t.view.links.nxt p = some a)
    (ha : t.view.body a = some (.leaf s)) (hs : LeafIs P s [e] r) :
    ∃ o t1 sp' es' r', t.insertLeafPair P p e.1 e.2 = .ok (o, t1) ∧
      t1.view = t.view.setBody p (.leaf sp') ∧ LeafIs P sp' es' r' ∧
      (sp.beyond = some e.1 ∧ es' = sp.entries ∨ sp.beyond ≠ some e.1 ∧
        es' = sp.entries ++ [e]) := by
  by_cases hbeyond : sp.beyond = some e.1
  · have hscan := duplicateScan_across hp hsp hbeyond hnext ha hs
    have hsp0 : LeafIs P sp (sp.entries ++ []) rp := by simpa using hsp
    have e1 := insertLeafPair_duplicate hp hsp0 (by simpa using hroom) hlt (by simp) hscan
    exact ⟨-2, t, sp, sp.entries, rp, e1, (View.setBody_self hp).symm, hsp, .inl ⟨hbeyond, rfl⟩⟩
  · obtain ⟨t1, sp', e1, hsp', v1⟩ := insertLeafPair_last (d := e.2) hp hsp hroom hlt hbeyond
    exact ⟨1, t1, sp', _, _, e1, v1, hsp', .inr ⟨hbeyond, rfl⟩⟩

/-- A leaf with one pair and a left neighbour. -/
theorem rebalance_prev (hP : P.Four)
    (h : Rep P t.view ((Ctx.frame up b (kL ++ [sep]) (cL ++ [.leaf p sp]) ksR csR).fill
      (.leaf a s)).2)
    (hc : (Ctx.frame up b (kL ++ [sep]) (cL ++ [.leaf p sp]) ksR csR).Paired)
    (hr : (∀ y ∈ kL ++ [sep], y ≤ e.1) ∧ ∀ y ∈ ksR.head?, e.1 < y)
    (hsort : (kL ++ [sep] ++ ksR).Pairwise (· ≤ ·)) (hlt : ∀ x ∈ sp.keys, x < e.1)
    (hfew : sp.slotsinuse < 3 → up.Told P.innernodemax (kL ++ ksR))
    (hmany : ¬sp.slotsinuse < 3 → sp.keys.Pairwise (· < ·) ∧ sep ∉ kL)
    (hbushy : (Ctx.frame up b (kL ++ [sep]) (cL ++ [.leaf p sp]) ksR csR).Bushy
      (P.innernodemax / 2 ≤ ·))
    (hs : LeafIs P s [e] r) (hleast : 2 ≤ sp.slotsinuse) (hmost : sp.slotsinuse < P.leafnodemax)
    (hcount : t.totalkeycount < 4294967296)
    (hrec : sp.slotsinuse < 3 → up.Settles P.innernodemax (cL.length + 1 + csR.length)) :
    ∃ t' T, t.balanceTree P a = .ok t' ∧ Rebalanced P t.view t'.view a s
      (.frame up b (kL ++ [sep]) (cL ++ [.leaf p sp]) ksR csR) T := by
  have hmax := hP.leafnodemax
  have hL : kL.length = cL.length := by simpa using hc.1
  have ha : t.view.body a = some (.leaf s) := h.leaf_hole.1
  obtain ⟨hp, hok⟩ := h.leaf_prev
  have hsp := LeafOK.leafIs hok
  have hin : sp.slotsinuse = sp.entries.length := hsp.inuse
  have hloc := (leaf_loc h hc hs.head_key hr).2.1
  have hlen : ((cL ++ [Tree.leaf (K := K) p sp]).length : Int) = (cL.length : Int) + 1 := by simp
  rw [hlen] at hloc
  have hjoin := h.joined_prev
  rw [hsp.keys_eq] at hlt hmany
  have hlt' : ∀ x ∈ sp.entries, x.1 < e.1 := fun x hx => hlt x.1 (List.mem_map_of_mem hx)
  rw [balanceTree_prev ha hloc (by omega) (by rw [hs.inuse, hP.leafnodemin]; simp) hjoin.2 hp,
    hs.inuse, hmax]
  by_cases hroom : sp.slotsinuse < 3
  · rw [if_pos (by simp; omega)]
    obtain ⟨o, t1, sp', es', r', e1, v1, hsp', hes'⟩ :=
      insertLeafPair_prev hp hsp (by omega) hlt' hjoin.1 ha hs
    obtain ⟨T, hT⟩ : ∃ T, up.Settled P.innernodemax b (kL ++ ksR) (cL ++ .leaf p sp' :: csR) T :=
      Ctx.exists_settled (hrec hroom) hc.2.2.2.2.2 (by simp; omega)
    obtain ⟨t', e2, hshrunk⟩ := mergeLeafIntoPrev_spec (by rw [hP.innernodemax])
      hP.innernodemin h hc hs hr hsort (hfew hroom) hbushy e1 v1 hsp'.ok hT
    exact ⟨t', T, e2, .mergedPrev hs hsp (hin ▸ hroom) hsp' hes' hT hshrunk⟩
  · rw [if_neg (by simp; omega)]
    obtain ⟨hkeys, hsep⟩ := hmany hroom
    obtain ⟨ep, x, hep⟩ : ∃ ep x, sp.entries = ep ++ [x] := by
      rcases List.eq_nil_or_concat sp.entries with hnil | ⟨ep, x, hx⟩
      · simp [hnil] at hin
        omega
      · exact ⟨ep, x, by rw [hx, List.concat_eq_append]⟩
    rw [hep] at hsp hlt' hin hkeys
    have hfull : 2 ≤ ep.length := by
      simp only [List.length_append, List.length_singleton] at hin
      omega
    have hltx : ∀ y ∈ ep, y.1 < x.1 := by
      rw [List.map_append] at hkeys
      exact fun y hy => (List.pairwise_append.mp hkeys).2.2 y.1 (List.mem_map_of_mem hy) x.1
        (by simp)
    obtain ⟨t', s', sp', es', e2, hsp', hs', hes', hrep, hlinks, hsize, hcnt, htail, hhead⟩ :=
      borrowFromPrev_spec h hc hs hsp (by simp; omega) (by simp; omega) hltx
        (by simpa using (hlt' x (by simp)).le) (by simpa [hs.head_key] using (hlt' x (by simp)).ne')
        hsep
    have hcnt' : t'.view.count = t.view.count := by
      rw [hcnt]
      exact Nat.mod_eq_of_lt hcount
    exact ⟨t', _, e2, .borrowedPrev hs hsp hfull hs' hes' hsp'
      ⟨hrep, hlinks, hsize, hcnt', htail, hhead⟩⟩

/-- A leaf with one pair that is the first one of its parent. -/
theorem rebalance_next (hP : P.Four)
    (h : Rep P t.view ((Ctx.frame up b [] [] (sep :: ksR) (.leaf q sq :: csR)).fill (.leaf a s)).2)
    (hc : (Ctx.frame up b [] [] (sep :: ksR) (.leaf q sq :: csR)).Paired)
    (hsep : e.1 < sep) (hsort : (sep :: ksR).Pairwise (· ≤ ·)) (hlt : ∀ x ∈ sq.keys, e.1 < x)
    (hfew : sq.slotsinuse < 3 → up.Told P.innernodemax ksR)
    (hbushy : (Ctx.frame up b [] [] (sep :: ksR) (.leaf q sq :: csR)).Bushy
      (P.innernodemax / 2 ≤ ·))
    (hs : LeafIs P s [e] r) (hleast : 2 ≤ sq.slotsinuse) (hcount : t.totalkeycount < 4294967296)
    (hbeyond : ∀ y ∈ s.beyond, y < sep)
    (hrec : if sq.slotsinuse < 3 then up.Settles P.innernodemax (csR.length + 1)
      else sq.keys.head? = some sep) :
    ∃ t' T, t.balanceTree P a = .ok t' ∧ Rebalanced P t.view t'.view a s
      (.frame up b [] [] (sep :: ksR) (.leaf q sq :: csR)) T := by
  have hmax := hP.leafnodemax
  have ha : t.view.body a = some (.leaf s) := h.leaf_hole.1
  obtain ⟨hq, hok⟩ := h.leaf_next
  have hsq := LeafOK.leafIs hok
  have hin : sq.slotsinuse = sq.entries.length := hsq.inuse
  have hr : (∀ y ∈ ([] : List K), y ≤ e.1) ∧ ∀ y ∈ (sep :: ksR).head?, e.1 < y :=
    ⟨by simp, by simpa using hsep⟩
  have hloc := (leaf_loc h hc hs.head_key hr).2.1
  have hjoin := h.joined_next
  obtain ⟨x, y, eq, heq⟩ : ∃ x y eq, sq.entries = x :: y :: eq := by
    match hentries : sq.entries with
    | [] => simp [hentries] at hin; omega
    | [x] => simp [hentries] at hin; omega
    | x :: y :: eq => exact ⟨x, y, eq, rfl⟩
  rw [heq] at hsq hin
  have hex : e.1 < x.1 := hlt x.1 (by simp [hsq.keys_eq])
  rw [balanceTree_next ha hloc (by rw [hs.inuse, hP.leafnodemin]; simp) hjoin.1 hq, hs.inuse, hmax]
  by_cases hroom : sq.slotsinuse < 3
  · rw [if_pos (by simp; omega)]
    rw [if_pos hroom] at hrec
    obtain ⟨t1, sq', es', e1, hsq', hes', -, v1⟩ := insertLeafPair_first (d := e.2) hq hsq
      (by omega)
      (by simpa using hex.le) (by simpa [hsq.head_key] using hex.ne')
    obtain ⟨T, hT⟩ : ∃ T, up.Settled P.innernodemax b ksR (.leaf q sq' :: csR) T :=
      Ctx.exists_settled hrec hc.2.2.2.2.2 (by simp)
    obtain ⟨t', e2, hshrunk⟩ := mergeLeafIntoNext_spec (by rw [hP.innernodemax])
      hP.innernodemin h hc hs hr hsort (hfew hroom) hbushy e1 v1 hsq'.ok hT
    exact ⟨t', T, e2, .mergedNext hs hsq (hin ▸ hroom) hsq' hes' hT hshrunk⟩
  · rw [if_neg (by simp; omega)]
    rw [if_neg hroom, hsq.keys_eq] at hrec
    obtain rfl : x.1 = sep := by simpa using hrec
    obtain ⟨t', s', sq', w, e2, hs', hsq', hrep, hlinks, hsize, hcnt, htail, hhead⟩ :=
      borrowFromNext_spec h hc hs hsq (by simp) (by simp; omega) (by simpa using hex)
        (fun hy => lt_irrefl x.1 (hbeyond x.1 hy)) (by simp) (fun hne => absurd rfl hne)
    have hcnt' : t'.view.count = t.view.count := by
      rw [hcnt]
      exact Nat.mod_eq_of_lt hcount
    rw [if_pos rfl] at hrep
    exact ⟨t', _, e2, .borrowedNext hs hsq (by rintro rfl; simp at hin; omega) hs' hsq'
      ⟨hrep, hlinks, hsize, hcnt', htail, hhead⟩⟩

/-- `balancetree` on a leaf that has lost a pair. -/
theorem balanceTree_spec (hP : P.Four) {c : MCtx K D 0} (h : Rep P t.view (c.fill (.leaf a s)).2)
    (hc : c.Paired) (hguide : s.slotsinuse = 1 → c.Guides P s)
    (hbushy : c.Bushy (P.innernodemax / 2 ≤ ·)) (hcount : t.totalkeycount < 4294967296)
    (hpos : 0 < s.slotsinuse ∨ c = .top) (hroot : c = .top → t.view.links.nxt a = none)
    (hleft : ∀ l ∈ tips c.left, 2 ≤ l.body.slotsinuse ∧ l.body.slotsinuse < P.leafnodemax)
    (hright : ∀ l ∈ tips c.right, 2 ≤ l.body.slotsinuse)
    (hrec : s.slotsinuse = 1 → c.Recovers P) :
    ∃ t' T, t.balanceTree P a = .ok t' ∧ Rebalanced P t.view t'.view a s c T := by
  obtain ⟨ha, hok⟩ : t.view.body a = some (.leaf s) ∧ LeafOK P s :=
    h.leaf_hole
  have hs := LeafOK.leafIs hok
  have hin : s.slotsinuse = s.entries.length := hs.inuse
  cases c with
  | top =>
    have hpar : t.view.par a = none := h.par
    exact ⟨t, _, balanceTree_root ha hpar (hroot rfl), .kept (.inr rfl) rfl h⟩
  | frame up b ksL csL ksR csR =>
    have hpos' : 0 < s.entries.length := by
      rcases hpos with hpos | hpos
      · omega
      · simp at hpos
    obtain ⟨e, es, hes⟩ := List.exists_cons_of_length_pos hpos'
    rw [hes] at hs hin
    by_cases hmany : 2 ≤ s.slotsinuse
    · obtain ⟨loc, hloc⟩ := leaf_loc_ok (by rw [hP.leafnodemax]; decide) h hc
      have e1 := balanceTree_enough ha hloc (by rwa [hP.leafnodemin])
      exact ⟨t, _, e1, .kept (.inl hmany) rfl h⟩
    obtain rfl : es = [] := by
      simp only [List.length_cons] at hin
      exact List.eq_nil_of_length_eq_zero (by omega)
    have hone : s.slotsinuse = 1 := by simpa using hin
    replace hrec := hrec hone
    obtain ⟨hle, hnext, hsort, hguide⟩ := hguide hone e.1 (by simp [hs.keys_eq])
    obtain ⟨hL, hR, h0, -⟩ := id hc
    rcases List.eq_nil_or_concat csL with rfl | ⟨cL, ⟨p, sp⟩, rfl⟩
    · -- the first leaf of its parent
      obtain rfl : ksL = [] := List.eq_nil_of_length_eq_zero hL
      simp only [List.length_nil, Nat.zero_add] at h0
      obtain ⟨sep, ksR, rfl⟩ := List.exists_cons_of_length_pos h0
      obtain ⟨⟨q, sq⟩, csR, rfl⟩ := List.exists_cons_of_length_eq_add_one hR.symm
      have hrec' : if sq.slotsinuse < 3 then up.Settles P.innernodemax (csR.length + 1)
          else sq.keys.head? = some sep := by
        simpa only [Ctx.Recovers, List.getLast?_nil, List.head?_cons, eq_comm] using hrec
      obtain ⟨hlt, hfew, hbeyond⟩ := hguide
      exact rebalance_next hP h hc (hnext sep rfl) hsort hlt hfew hbushy hs
        (hright ⟨q, sq⟩ (by simp [Tree.inorder])) hcount
        (fun y hy => hbeyond y hy sep rfl) hrec'
    · rw [List.concat_eq_append] at *
      obtain ⟨kL, sep, rfl⟩ := List.eq_nil_or_concat ksL |>.resolve_left (by
        rintro rfl
        simp at hL)
      rw [List.concat_eq_append] at *
      have hmem : (⟨p, sp⟩ : Tip Addr (LeafSlots K D)) ∈
          tips (Ctx.frame up b (kL ++ [sep]) (cL ++ [Tree.leaf p sp]) ksR csR).left := by
        rw [left_prev hc]
        simp
      obtain ⟨hp2, hp4⟩ := hleft _ hmem
      have hrec' : sp.slotsinuse < 3 →
          up.Settles P.innernodemax (cL.length + 1 + csR.length) := by
        simpa only [Ctx.Recovers, List.getLast?_concat, List.length_append, List.length_singleton]
          using hrec
      simp only [List.getLast?_concat, List.dropLast_concat] at hguide
      obtain ⟨hlt, hfew, hmany⟩ := hguide
      exact rebalance_prev hP h hc ⟨hle, hnext⟩ hsort hlt hfew
        (fun hfull => (hmany hfull).imp_right fun hnot => hnot sep rfl) hbushy hs hp2 hp4 hcount
        hrec'

section Outcome

variable {v v' : View K D} {c : MCtx K D 0} {T : (m : Nat) × MTree K D m}

omit [LinearOrder K] [DecidableEq D] in
theorem Rebalanced.rep (h : Rebalanced P v v' a s c T) : Rep P v' T.2 := by
  cases h with
  | kept hs hv h => exact hv ▸ h
  | mergedPrev hs hsp hroom hsp' hep' hT h => exact h.rep
  | borrowedPrev hs hsp hmany hs' hes' hsp' h => exact h.rep
  | mergedNext hs hsq hroom hsq' heq' hT h => exact h.rep
  | borrowedNext hs hsq hmany hs' hsq' h => exact h.rep

omit [LinearOrder K] [DecidableEq D] in
/-- Balancing does not change the counter. -/
theorem Rebalanced.count (h : Rebalanced P v v' a s c T) : v'.count = v.count := by
  cases h with
  | kept hs hv h => rw [hv]
  | mergedPrev hs hsp hroom hsp' hep' hT h => exact h.count
  | borrowedPrev hs hsp hmany hs' hes' hsp' h => exact h.count
  | mergedNext hs hsq hroom hsq' heq' hT h => exact h.count
  | borrowedNext hs hsq hmany hs' hsq' h => exact h.count

omit [LinearOrder K] [DecidableEq D] in
/-- The inner nodes stay half full. -/
theorem Rebalanced.bushy (h : Rebalanced P v v' a s c T) (hc : c.Paired)
    (hbushy : c.Bushy (P.innernodemax / 2 ≤ ·)) : T.2.Bushy (P.innernodemax / 2 ≤ ·) := by
  cases h with
  | kept hs hv h => exact Ctx.bushy_fill hbushy trivial fun _ => trivial
  | mergedPrev hs hsp hroom hsp' hep' hT h =>
    obtain ⟨hL, hR, -, -, -, hup⟩ := hc
    obtain ⟨hkeys, -, -, hbushy⟩ := hbushy
    simp only [List.length_append, List.length_singleton] at hL hkeys
    refine hT.bushy hup (by simp; omega) hbushy (fun c _ => trivial) fun hsome => ?_
    have := hkeys hsome
    simp only [List.length_append]
    omega
  | @borrowedPrev up b p sp s' sp' sep kL ksR r r' rp rp' cL csR e x es' ep hs hsp hmany hs' hes'
    hsp' h =>
    obtain ⟨hkeys, -, -, hbushy⟩ := hbushy
    have hbushy' : (Ctx.frame up b (kL ++ [x.1]) (cL ++ [Tree.leaf p sp']) ksR csR).Bushy
        (P.innernodemax / 2 ≤ ·) :=
      ⟨by simpa using hkeys, fun c _ => trivial, fun c _ => trivial, hbushy⟩
    exact Ctx.bushy_fill hbushy' trivial fun _ => trivial
  | mergedNext hs hsq hroom hsq' heq' hT h =>
    obtain ⟨-, hR, -, -, -, hup⟩ := hc
    obtain ⟨hkeys, -, -, hbushy⟩ := hbushy
    simp only [List.length_cons, List.length_nil] at hR hkeys
    refine hT.bushy hup (by simp; omega) hbushy (fun c _ => trivial) fun hsome => ?_
    have := hkeys hsome
    omega
  | @borrowedNext up b q sq s' sq' ksR r r' rq rq' csR e x y eq hs hsq hmany hs' hsq' h =>
    obtain ⟨hkeys, -, -, hbushy⟩ := hbushy
    have hbushy' : (Ctx.frame up b [] [] (y.1 :: ksR) (Tree.leaf q sq' :: csR)).Bushy
        (P.innernodemax / 2 ≤ ·) :=
      ⟨by simpa using hkeys, fun c _ => trivial, fun c _ => trivial, hbushy⟩
    exact Ctx.bushy_fill hbushy' trivial fun _ => trivial

omit [LinearOrder K] [DecidableEq D] in
theorem settled_prev {sp' : LeafSlots K D}
    (hc : (Ctx.frame up b (kL ++ [sep]) (cL ++ [.leaf p sp]) ksR csR).Paired)
    (hT : up.Settled P.innernodemax b (kL ++ ksR) (cL ++ .leaf p sp' :: csR) T) :
    T.2.inorder = up.left ++ before .inl Tree.inorder kL cL ++
      .inr ⟨p, sp'⟩ :: (Ctx.frame up b (kL ++ [sep]) (cL ++ [.leaf p sp]) ksR csR).right := by
  obtain ⟨hL, hR, -, -, -, hup⟩ := hc
  have hL' : kL.length = cL.length := by simpa using hL
  rw [hT.inorder hup (by simp; omega), interleave_split _ _ hL', Ctx.right_frame]
  simp only [Tree.inorder_leaf, List.append_assoc, List.cons_append, List.nil_append]

omit [LinearOrder K] [DecidableEq D] in
theorem settled_next {sq' : LeafSlots K D}
    (hc : (Ctx.frame up b [] [] (sep :: ksR) (.leaf q sq :: csR)).Paired)
    (hT : up.Settled P.innernodemax b ksR (.leaf q sq' :: csR) T) :
    T.2.inorder = up.left ++ .inr ⟨q, sq'⟩ :: (after .inl Tree.inorder ksR csR ++ up.right) := by
  obtain ⟨-, hR, -, -, -, hup⟩ := hc
  simp only [List.length_cons] at hR
  rw [hT.inorder hup (by simp; omega)]
  simp only [interleave_cons, Tree.inorder_leaf, List.append_assoc, List.cons_append,
    List.nil_append]

omit [LinearOrder K] [DecidableEq D] in
/-- Balancing evens out the sequence of the leaves. -/
theorem Rebalanced.evened (h : Rebalanced P v v' a s c T) (hc : c.Paired) (hok : LeafOK P s)
    (hP : P.Four) (hleft : ∀ l ∈ tips c.left, 2 ≤ l.body.slotsinuse)
    (hright : ∀ l ∈ tips c.right, 2 ≤ l.body.slotsinuse) :
    Evened LeafSlots.keys 2 3 (c.Loses s) c.left ⟨a, s⟩ c.right T.2.inorder := by
  cases h with
  | kept hs hv h =>
    rw [Ctx.inorder_fill_leaf hc]
    refine .keep ?_
    rcases hs with hs | rfl
    · left
      rw [hok.leafIs.keys_eq, List.length_map, ← hok.leafIs.inuse]
      exact hs
    · exact .inr ⟨rfl, rfl⟩
  | @mergedPrev up b p sp sp' sep kL ksR r rp rp' cL csR e ep ep' T hs hsp hroom hsp' hep' hT h =>
    have hlen := hleft ⟨p, sp⟩ (by rw [left_prev hc]; simp)
    replace hlen : 2 ≤ ep.length := hsp.inuse ▸ hlen
    rw [settled_prev hc hT, left_prev hc]
    refine .joinLeft ?_ ?_ ?_
    · rw [hsp'.keys_eq, hsp.keys_eq, hs.keys_eq]
      rcases hep' with ⟨hb, rfl⟩ | ⟨-, rfl⟩
      · right
        refine ⟨⟨.leaf p sp, by simp, hsp.inuse ▸ hroom, hs.inuse, ?_⟩, rfl⟩
        rw [hs.keys_eq]
        exact hb
      · left
        simp
    · rw [hsp'.keys_eq, List.length_map]
      rcases hep' with ⟨-, rfl⟩ | ⟨-, rfl⟩
      · exact hlen
      · simp
        omega
    · rw [hsp'.keys_eq, List.length_map]
      rcases hep' with ⟨-, rfl⟩ | ⟨-, rfl⟩
      · omega
      · simp
        omega
  | @borrowedPrev up b p sp s' sp' sep kL ksR r r' rp rp' cL csR e x es' ep hs hsp hmany hs' hes'
    hsp' h =>
    obtain ⟨hL, hR, -, hcL, hcR, hup⟩ := id hc
    have hc' : (Ctx.frame up b (kL ++ [x.1]) (cL ++ [.leaf p sp']) ksR csR).Paired :=
      ⟨by simpa using hL, hR, Nat.add_pos_left (by simp) _, fun c _ => trivial, hcR, hup⟩
    have hle := hsp.length_le
    rw [hP.leafnodemax] at hle
    simp only [List.length_append, List.length_singleton] at hle
    rw [Ctx.inorder_fill_leaf hc', left_prev hc', left_prev hc, Ctx.right_frame, Ctx.right_frame]
    simp only [List.append_assoc, List.cons_append, List.nil_append]
    rw [← List.append_assoc up.left, ← List.append_assoc up.left]
    refine .shiftRight ?_ ?_ ⟨?_, ?_⟩ ⟨?_, ?_⟩
    · rw [hsp'.keys_eq, hsp.keys_eq, hs'.keys_eq, hes', hs.keys_eq]
      simp
    · rw [hs'.keys_eq, hes']
      simp
    · rw [hsp'.keys_eq, List.length_map]
      exact hmany
    · rw [hs'.keys_eq, hes']
      simp
    · rw [hsp'.keys_eq, List.length_map]
      omega
    · rw [hs'.keys_eq, hes']
      simp
  | @mergedNext up b q sq sq' sep ksR r rq rq' csR e eq eq' T hs hsq hroom hsq' heq' hT h =>
    have hlen := hright ⟨q, sq⟩ (by simp [Tree.inorder])
    replace hlen : 2 ≤ eq.length := hsq.inuse ▸ hlen
    rw [settled_next hc hT]
    simp only [Ctx.left_frame, Ctx.right_frame, before_nil, List.append_nil, Tree.inorder_leaf,
      after_cons, List.cons_append, List.nil_append]
    refine .joinRight ?_ ?_ ?_
    · rw [hsq'.keys_eq, heq', hs.keys_eq, hsq.keys_eq]
      simp
    · rw [hsq'.keys_eq, heq']
      simp
      omega
    · rw [hsq'.keys_eq, heq']
      simp
      omega
  | @borrowedNext up b q sq s' sq' ksR r r' rq rq' csR e x y eq hs hsq hmany hs' hsq' h =>
    obtain ⟨hL, hR, h0, hcL, -, hup⟩ := id hc
    have hc' : (Ctx.frame up b [] [] (y.1 :: ksR) (.leaf q sq' :: csR)).Paired :=
      ⟨hL, hR, h0, hcL, fun c _ => trivial, hup⟩
    have hle := hsq.length_le
    rw [hP.leafnodemax] at hle
    simp only [List.length_cons] at hle
    have hpos := List.length_pos_iff.mpr hmany
    rw [Ctx.inorder_fill_leaf hc']
    simp only [Ctx.left_frame, Ctx.right_frame, before_nil, List.append_nil, Tree.inorder_leaf,
      after_cons, List.cons_append, List.nil_append]
    refine .shiftLeft ?_ ?_ ⟨?_, ?_⟩ ⟨?_, ?_⟩
    · rw [hs'.keys_eq, hsq'.keys_eq, hs.keys_eq, hsq.keys_eq]
      simp
    · rw [hsq'.keys_eq]
      simp
    · rw [hs'.keys_eq]
      simp
    · rw [hsq'.keys_eq]
      simp
      omega
    · rw [hs'.keys_eq]
      simp
    · rw [hsq'.keys_eq]
      simp
      omega

end Outcome

end NwtBTree
