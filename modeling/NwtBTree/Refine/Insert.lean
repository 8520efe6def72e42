import NwtBTree.Refine.Find
import NwtBTree.Refine.InsertParent

/-!
# What `insert` does to the tree

Three outcomes for a key that is not stored: the first pair makes a root leaf, a
pair for a leaf with room goes into that leaf, and a pair for a full leaf splits
it and pushes a separator up.
-/

namespace NwtBTree

variable {K D : Type} [LinearOrder K] [DecidableEq D] {P : Template K D} {t : BTree K D} {k : K}
  {d : D}

/-- The leaf after `a` in the chain, if there is one, starts with a key other than `k`. -/
def NextDiffers (P : Template K D) (v : View K D) (a : Addr) (k : K) : Prop :=
  ∀ b, v.links.nxt a = some b → ∃ s e es r, v.body b = some (.leaf s) ∧
    LeafIs P s (e :: es) r ∧ e.1 ≠ k

/-! ## `insertleafpair` -/

section Pair

variable {a : Addr} {s s' : LeafSlots K D} {as bs es : List (K × D)} {r : List K}

omit [DecidableEq D] in
theorem findKeyLoc_spec (hs : LeafIs P s (as ++ bs) r) (hlt : ∀ e ∈ as, e.1 < k)
    (hge : ∀ e ∈ bs.head?, k ≤ e.1) : findKeyLoc s k = .ok as.length := by
  have hscan := hs.scan_eq (keygreaterequal · k)
  have hnone : (as.map Prod.fst).findIdx? (keygreaterequal · k) = none := by
    rw [List.findIdx?_eq_none_iff]
    intro x hx
    obtain ⟨e, he, rfl⟩ := List.mem_map.mp hx
    simpa [keygreaterequal] using hlt e he
  rw [List.map_append, List.findIdx?_append, hnone] at hscan
  rw [findKeyLoc, hscan]
  cases bs with
  | nil =>
    simp [hs.inuse]
  | cons b bs =>
    have hb : keygreaterequal b.1 k = true := (keygreaterequal_iff _ _).mpr (hge b (by simp))
    simp [List.findIdx?_cons, hb]

omit [LinearOrder K] [DecidableEq D] in
theorem fuel_eq (ha : t.view.body a = some (.leaf s)) : ∃ f, t.fuel = f + 2 := by
  obtain ⟨m, hm⟩ := Nat.exists_eq_succ_of_ne_zero (Nat.ne_zero_of_lt (BTree.body_lt_size ha))
  exact ⟨m, by rw [BTree.fuel, hm]⟩

/-- No duplicate is found when the key is in no leaf that the scan can reach. -/
theorem duplicateScan_fresh (ha : t.view.body a = some (.leaf s)) (hs : LeafIs P s es r)
    (hroom : es.length < P.leafnodemax) (hk : ∀ e ∈ es, e.1 ≠ k) (hn : NextDiffers P t.view a k)
    {j : Nat} (hj : j ≤ es.length) : t.duplicateScan k d t.fuel (some a) j = .ok false := by
  obtain ⟨f, hf⟩ := fuel_eq ha
  rw [hf]
  have hload : ∃ y, load s.keySlots j = .ok y ∧ (j < es.length → y ≠ k) := by
    by_cases hlt : j < es.length
    · exact ⟨es[j].1, hs.load_key hlt, fun _ => hk _ (List.getElem_mem hlt)⟩
    · have hlen : j < s.keySlots.length := by
        rw [hs.keyCap]
        omega
      exact ⟨_, load_of_getElem? (List.getElem?_eq_getElem hlen), fun h => absurd h hlt⟩
  obtain ⟨y, hy, hne⟩ := hload
  rw [BTree.duplicateScan]
  simp only [BTree.leaf_eq ha, ok_bind, hy]
  by_cases heq : keyequal y k = true
  · -- only a slot beyond the live ones can hold the key
    have hj' : s.slotsinuse - j = 0 := by
      by_contra h
      rw [hs.inuse] at h
      exact hne (by omega) ((keyequal_iff _ _).mp heq)
    simp only [heq, if_true, hj', duplicateIn, ok_bind, Bool.false_eq_true, if_false]
    cases hnext : t.view.links.nxt a with
    | none => rfl
    | some b =>
      obtain ⟨s', e, es', r', hb, hs', he⟩ := hn b hnext
      have hload' : load s'.keySlots 0 = .ok e.1 := hs'.load_key (i := 0) (by simp)
      rw [BTree.duplicateScan]
      simp only [BTree.leaf_eq hb, ok_bind, hload']
      rw [if_neg (by simpa using he)]
      rfl
  · rw [if_neg heq]
    rfl

/-- A leaf with room takes the pair at the lower bound of its key. -/
theorem insertLeafPair_room (ha : t.view.body a = some (.leaf s)) (hs : LeafIs P s (as ++ bs) r)
    (hroom : (as ++ bs).length < P.leafnodemax) (hlt : ∀ e ∈ as, e.1 < k)
    (hge : ∀ e ∈ bs.head?, k ≤ e.1)
    (hscan : t.duplicateScan k d t.fuel (some a) as.length = .ok false)
    (h1 : insertLeafSlotsAt P s k d as.length = .ok s') :
    ∃ t', t.insertLeafPair P a k d = .ok (1, t') ∧ t'.view = t.view.setBody a (.leaf s') := by
  obtain ⟨t', h2, v'⟩ := BTree.setLeaf_view ha s'
  refine ⟨t', ?_, v'⟩
  have hfull : ¬s.isfull P = true := fun h => absurd (hs.isfull_iff.mp h) (by omega)
  rw [BTree.insertLeafPair, BTree.leaf_eq ha, ok_bind]
  simp only [if_neg hfull, findKeyLoc_spec hs hlt hge, ok_bind, hscan, Bool.false_eq_true, if_false,
    h1, h2]
  rfl

theorem insertLeafPair_duplicate (ha : t.view.body a = some (.leaf s))
    (hs : LeafIs P s (as ++ bs) r) (hroom : (as ++ bs).length < P.leafnodemax)
    (hlt : ∀ e ∈ as, e.1 < k) (hge : ∀ e ∈ bs.head?, k ≤ e.1)
    (hscan : t.duplicateScan k d t.fuel (some a) as.length = .ok true) :
    t.insertLeafPair P a k d = .ok (-2, t) := by
  have hfull : ¬s.isfull P = true := fun h => absurd (hs.isfull_iff.mp h) (by omega)
  rw [BTree.insertLeafPair, BTree.leaf_eq ha, ok_bind]
  simp only [if_neg hfull, findKeyLoc_spec hs hlt hge, ok_bind, hscan, if_true]
  rfl

theorem insertLeafPair_full (ha : t.view.body a = some (.leaf s)) (hs : LeafIs P s es r)
    (hfull : es.length = P.leafnodemax) : t.insertLeafPair P a k d = .ok (-1, t) := by
  rw [BTree.insertLeafPair, BTree.leaf_eq ha, ok_bind]
  simp only [if_pos (hs.isfull_iff.mpr hfull)]
  rfl

end Pair

/-! ## The split -/

/-- What the split of a leaf leaves behind: the leaves `sln` and `slp` are at the first two
new addresses, and `n` is gone. -/
structure LeafSplitDone (P : Template K D) (t t' : BTree K D) (c : MCtx K D 0) (n : Addr)
    (sln slp : LeafSlots K D) (kp : K) : Prop where
  rep : Rep P t'.view (c.pushUp P.innernodemax id (t.nodes.size + 2)
    (.leaf t.nodes.size sln) kp (.leaf (t.nodes.size + 1) slp)).2
  nxt : ∀ b, b ≠ n → t'.view.links.nxt b =
    (t.view.links.grow true c.lefts t.nodes.size (t.nodes.size + 1)).nxt b
  prv : ∀ b, b ≠ n → t'.view.links.prv b =
    (t.view.links.grow true c.lefts t.nodes.size (t.nodes.size + 1)).prv b
  freed : t'.view.body n = none
  size : t.nodes.size + 2 ≤ t'.nodes.size
  count : t'.totalkeycount = t.upkeycount.totalkeycount
  tailleaf : t'.tailleaf = t.tailleaf
  headleaf : t'.headleaf = t.headleaf

section Split

variable {n : Addr} {s : LeafSlots K D} {as bs : List (K × D)} {r : List K} {c : MCtx K D 0}

omit [DecidableEq D] in
/-- Whatever the two new leaves are, they take the place of the old one. -/
theorem splitLeaf_done (hcap : c.Growable P.innernodemax) (h : Rep P t.view (c.fill (.leaf n s)).2)
    (hc : c.Paired) {sln slp : LeafSlots K D} {kp : K}
    (e1 : leafSplit P s (LeafNode.fresh P t.nodes.size).toLeafSlots
      (LeafNode.fresh P (t.nodes.size + 1)).toLeafSlots k d = .ok (sln, slp))
    (hln : LeafOK P sln) (hlp : LeafOK P slp) (hkp : load slp.keySlots 0 = .ok kp)
    (hend : c.AtEnd P.innernodemax kp) :
    ∃ t', t.splitLeaf P n k d = .ok t' ∧ LeafSplitDone P t t' c n sln slp kp := by
  obtain ⟨-, hn, -⟩ := (holds_fill c (.leaf n s)).mp h.holds
  have hpar : t.view.par n = c.parent := ((parOK_fill c (.leaf n s)).mp h.par).2
  have hnlt : n < t.nodes.size := BTree.body_lt_size hn
  have hn0 : n ≠ t.nodes.size := Nat.ne_of_lt hnlt
  have hn1 : n ≠ t.nodes.size + 1 := Nat.ne_of_lt (Nat.lt_succ_of_lt hnlt)
  have h01 : t.nodes.size ≠ t.nodes.size + 1 := Nat.ne_of_lt (Nat.lt_succ_self _)
  -- two new leaves
  obtain ⟨t0, ht0⟩ : ∃ t0, t0 = (t.newLeaf P).newLeaf P := ⟨_, rfl⟩
  have v0 : t0.view = (t.view.alloc (.leaf (LeafNode.fresh P t.nodes.size).toLeafSlots)).alloc
      (.leaf (LeafNode.fresh P (t.nodes.size + 1)).toLeafSlots) := by
    rw [ht0, BTree.newLeaf_view, BTree.newLeaf_view]
    simp [BTree.newLeaf]
  have hb0 : t0.view.body t.nodes.size =
      some (.leaf (LeafNode.fresh P t.nodes.size).toLeafSlots) := by
    rw [v0]
    simp
  have hb1 : t0.view.body (t.nodes.size + 1) =
      some (.leaf (LeafNode.fresh P (t.nodes.size + 1)).toLeafSlots) := by
    rw [v0]
    simp
  -- their slots
  obtain ⟨t1, e2, v1⟩ := BTree.setLeaf_view hb0 sln
  obtain ⟨t2, e3, v2⟩ := BTree.setLeaf_view (show t1.view.body (t.nodes.size + 1) = _ by
    rw [v1]; simpa using hb1) slp
  -- the link between them
  obtain ⟨t3, e4, v3⟩ := BTree.linkLeaves_view (t := t2.upkeycount)
    (show t2.view.body t.nodes.size = some (.leaf sln) by rw [v2, v1]; simp)
    (show t2.view.body (t.nodes.size + 1) = some (.leaf slp) by rw [v2]; simp)
  have vup : t2.upkeycount.view = { t2.view with count := t.upkeycount.totalkeycount } := by
    have hcount : t2.totalkeycount = t.totalkeycount := by
      rw [← BTree.count_view, v2, v1, v0]
      rfl
    simp only [BTree.upkeycount, hcount]
    rfl
  rw [vup, v2, v1, v0] at v3
  have hbln : t3.view.body t.nodes.size = some (.leaf sln) := by
    rw [v3]
    simp
  have hblp : t3.view.body (t.nodes.size + 1) = some (.leaf slp) := by
    rw [v3]
    simp
  have hbody : ∀ b < t.nodes.size, t3.view.body b = t.view.body b := by
    intro b hb
    have h1 : b ≠ t.nodes.size := Nat.ne_of_lt hb
    have h2 : b ≠ t.nodes.size + 1 := Nat.ne_of_lt (Nat.lt_succ_of_lt hb)
    rw [v3]
    simp [h1, h2]
  have hpar3 : t3.view.par = t.view.par := by
    rw [v3]
    rfl
  have hflag3 : t3.view.flag = t.view.flag := by
    rw [v3]
    rfl
  have hlinks3 : t3.view.links = t.view.links.link t.nodes.size (t.nodes.size + 1) := by
    rw [v3]
    rfl
  have hsize3 : t3.nodes.size = t.nodes.size + 2 := by
    have : t3.view.size = t.nodes.size + 2 := by
      rw [v3]
      rfl
    exact this
  have hlt : ∀ b ∈ n :: c.addrs, b < t.nodes.size := by
    intro b hb
    refine h.lt_size ((mem_addrs_fill c _).mpr ?_)
    simp only [List.mem_cons, Tree.addrs_leaf, List.not_mem_nil, or_false] at hb ⊢
    tauto
  have hndc := h.nodup_fill
  have hnc : n ∉ c.addrs := fun hm =>
    (List.nodup_append'.mp hndc).2.2 hm (by simp)
  have hsplit : Splitting P t3.view c n (.leaf t.nodes.size sln)
    (.leaf (t.nodes.size + 1) slp) := by
    refine ⟨?_, ⟨⟨hbln, hln⟩, rfl, trivial, ?_, trivial⟩, ⟨⟨hblp, hlp⟩, rfl, trivial, ?_,
      trivial⟩, ?_, ?_, ⟨s, by rw [hbody n hnlt]; exact hn⟩⟩
    · refine (h.hole hc).congr (by rw [v3]; rfl) (fun b hb => hbody b (hlt b (by simp [hb])))
        (fun b _ => by rw [hpar3]) (fun b _ => by rw [hflag3]) (fun b hb => ?_)
      have hb' := hlt b hb
      have h1 : b ≠ t.nodes.size := Nat.ne_of_lt hb'
      have h2 : b ≠ t.nodes.size + 1 := Nat.ne_of_lt (Nat.lt_succ_of_lt hb')
      rw [hlinks3]
      simp [h1, h2]
    · intro b hb
      obtain rfl : b = t.nodes.size := by simpa using hb
      rw [hflag3]
      exact (BTree.view_new (le_refl _)).2
    · intro b hb
      obtain rfl : b = t.nodes.size + 1 := by simpa using hb
      rw [hflag3]
      exact (BTree.view_new (Nat.le_succ _)).2
    · refine List.nodup_append'.mpr ⟨(List.nodup_append'.mp hndc).1, by simp, fun b hb hb' => ?_⟩
      have := hlt b (by simp [hb])
      simp only [Tree.addrs_leaf, List.cons_append, List.nil_append, List.mem_cons,
        List.not_mem_nil, or_false] at hb'
      obtain rfl | rfl := hb'
      · exact absurd this (Nat.lt_irrefl _)
      · exact absurd this (Nat.not_lt.mpr (Nat.le_succ _))
    · simp only [List.mem_append, Tree.addrs_leaf, List.mem_singleton, not_or]
      exact ⟨hnc, hn0, hn1⟩
  obtain ⟨t4, e5, hg⟩ := insertInParent_spec (k := kp) c hcap hsplit hend
    (show c.depth < t3.fuel by
      have := h.depth_lt_fuel
      unfold BTree.fuel at this ⊢
      omega)
  have hn4 : t4.view.body n = some (.leaf s) := by
    have hlt : n < t3.view.size := by
      rw [BTree.size_view, hsize3]
      exact Nat.lt_succ_of_lt (Nat.lt_succ_of_lt hnlt)
    rw [hg.body n hlt hnc, hbody n hnlt, hn]
  obtain ⟨t5, e6, v5⟩ := BTree.freeNode_view hn4
  have hgrow : t4.view.links = t.view.links.grow true c.lefts t.nodes.size (t.nodes.size + 1) := by
    rw [hg.links, hlinks3]
    exact Links.grow_link
  refine ⟨t5, ?_, ⟨?_, ?_, ?_, ?_, ?_, ?_, ?_, ?_⟩⟩
  · have e5' : BTree.insertInParent P t3.fuel t3 (t.view.par n) t.nodes.size kp
        (t.nodes.size + 1) = .ok t4 := by
      rw [hpar]
      exact e5
    simp only [BTree.splitLeaf, BTree.leaf_eq hn, ok_bind, ← ht0, BTree.leaf_eq hb0,
      BTree.leaf_eq hb1, e1, e2, e3, hkp, e4, e5', e6]
  · rw [v5]
    rw [hsize3] at hg
    refine hg.rep.free fun hm => ?_
    obtain hm | hm | hm | ⟨i, hi⟩ := Ctx.mem_addrs_pushUp hm
    · exact hnc hm
    · exact hn0 (by simpa using hm)
    · exact hn1 (by simpa using hm)
    · rw [hi] at hnlt
      exact absurd hnlt
        (Nat.not_lt.mpr (Nat.le_trans (Nat.le_add_right _ 2) (Nat.le_add_right _ i)))
  · intro b hb
    rw [v5, View.nxt_free, if_neg hb, hgrow]
  · intro b hb
    rw [v5, View.prv_free, if_neg hb, hgrow]
  · rw [v5]
    simp
  · have h1 := hg.size
    have h2 : t5.view.size = t4.view.size := by rw [v5]; rfl
    simp only [BTree.size_view, hsize3] at h1 h2
    rw [h2]
    exact h1
  · have : t5.view.count = t.upkeycount.totalkeycount := by
      rw [v5, View.count_free, hg.count, v3]
      rfl
    exact this
  · have : t5.view.tailleaf = t.tailleaf := by
      rw [v5, View.tailleaf_free, hg.tailleaf, v3]
      rfl
    exact this
  · have : t5.view.headleaf = t.headleaf := by
      rw [v5, View.headleaf_free, hg.headleaf, v3]
      rfl
    exact this

omit [DecidableEq D] in
/-- The two new leaves share the merged list of pairs when the new key is not the first. -/
theorem splitLeaf_spec (hcap : 2 ≤ P.innernodemax) (hgrow : c.Growable P.innernodemax)
    (hsame : P.leafnodemax = P.innernodemax) (h : Rep P t.view (c.fill (.leaf n s)).2)
    (hc : c.Paired) (hs : LeafIs P s (as ++ bs) r)
    (hfull : (as ++ bs).length = P.leafnodemax) (has : 0 < as.length) (hle : ∀ e ∈ as, e.1 ≤ k)
    (hgt : ∀ e ∈ bs.head?, k < e.1) {e : K × D}
    (he : e ∈ ((as ++ (k, d) :: bs).drop (splitPoint P as)).head?)
    (hend : c.AtEnd P.innernodemax e.1) :
    ∃ t' sln slp, t.splitLeaf P n k d = .ok t' ∧
      LeafIs P sln ((as ++ (k, d) :: bs).take (splitPoint P as))
        ((LeafNode.fresh (D := D) P t.nodes.size).keySlots.drop (splitPoint P as)) ∧
      LeafIs P slp ((as ++ (k, d) :: bs).drop (splitPoint P as))
        ((LeafNode.fresh (D := D) P (t.nodes.size + 1)).keySlots.drop
          (P.leafnodemax + 1 - splitPoint P as)) ∧
      LeafSplitDone P t t' c n sln slp e.1 := by
  obtain ⟨sln, slp, e1, hln, hlp⟩ := leafSplit_spec (k := k) (d := d) hs
    (by rw [hs.inuse, hfull]) has hle hgt (by omega) (LeafIs.fresh P t.nodes.size)
    (LeafIs.fresh P (t.nodes.size + 1))
  obtain ⟨es, hes⟩ : ∃ es, (as ++ (k, d) :: bs).drop (splitPoint P as) = e :: es := by
    cases hd : (as ++ (k, d) :: bs).drop (splitPoint P as) with
    | nil =>
      rw [hd] at he
      simp at he
    | cons x es =>
      rw [hd] at he
      obtain rfl : x = e := by simpa using he
      exact ⟨es, rfl⟩
  have hkp : load slp.keySlots 0 = .ok e.1 := by
    rw [hes] at hlp
    exact hlp.load_key (i := 0) (by simp)
  obtain ⟨t', e2, hdone⟩ := splitLeaf_done hgrow h hc e1 hln.ok hlp.ok hkp hend
  exact ⟨t', sln, slp, e2, hln, hlp, hdone⟩

end Split

/-! ## `insert` -/

section Insert

variable {n a : Addr} {s s' : LeafSlots K D} {as bs es : List (K × D)} {r : List K}
  {c : MCtx K D 0}

omit [LinearOrder K] [DecidableEq D] in
/-- Writing the slots of a leaf. -/
theorem Rep.setLeaf {v : View K D} (h : Rep P v (c.fill (.leaf a s)).2) (hc : c.Paired)
    (hok : LeafOK P s') : Rep P (v.setBody a (.leaf s')) (c.fill (.leaf a s')).2 := by
  have hnd := h.nodup_fill
  have hne : ∀ b ∈ c.addrs, b ≠ a := by
    rintro b hb rfl
    exact (List.nodup_append'.mp hnd).2.2 hb (by simp)
  have hhole : Hole P (v.setBody a (.leaf s')) c a :=
    (h.hole hc).congr rfl (fun b hb => by simp [hne b hb]) (fun b _ => rfl) (fun b _ => rfl)
      (fun b _ => ⟨rfl, rfl⟩)
  refine Hole.rep (t := Tree.leaf a s') hhole ⟨by simp, hok⟩ ((parOK_fill c (.leaf a s)).mp h.par).2
    trivial (fun b hb => ?_) hnd trivial
  have := h.flag b ((mem_addrs_fill c _).mpr (.inr hb))
  rwa [c.addr_fill] at this

theorem insert_first (hroot : t.root = none) (hcap : 0 < P.leafnodemax) :
    ∃ t' s', t.insert P k d = .ok (1, t') ∧ LeafIs P s' [(k, d)]
        (LeafNode.fresh (D := D) P t.nodes.size).keySlots.tail ∧
      Rep P t'.view (Tree.leaf t.nodes.size s' : MTree K D 0) ∧ t'.view.links = t.view.links ∧
      t'.totalkeycount = t.upkeycount.totalkeycount ∧ t'.tailleaf = t.tailleaf ∧
      t'.headleaf = some t.nodes.size := by
  have v0 := BTree.newLeaf_view P t
  have hb0 : (t.newLeaf P).view.body t.nodes.size =
      some (.leaf (LeafNode.fresh P t.nodes.size).toLeafSlots) := by
    rw [v0]
    simp
  obtain ⟨t1, e1, v1⟩ := BTree.setIsRoot_view hb0 true
  have hb1 : t1.view.body t.nodes.size =
      some (.leaf (LeafNode.fresh P t.nodes.size).toLeafSlots) := by
    rw [v1]
    exact hb0
  have hnone : t.nodes.get t.nodes.size = none := by
    cases hg : t.nodes.get t.nodes.size with
    | none => rfl
    | some m => exact absurd (Store.lt_size_of_get hg) (Nat.lt_irrefl _)
  have hnext : t1.view.links.nxt t.nodes.size = none := by
    rw [v1, View.links_setFlag, v0, View.links_alloc]
    simp [BTree.view, hnone]
  have hfresh := LeafIs.fresh (D := D) P t.nodes.size
  obtain ⟨s'', e4, hs''⟩ := insertLeafSlotsAt_end hfresh (by simpa using hcap) k d rfl
  have hscan := duplicateScan_fresh (k := k) (d := d) hb1 hfresh (by simpa using hcap) (by simp)
    (fun b hb => by rw [hnext] at hb; simp at hb) (le_refl _)
  obtain ⟨t2, e2, v2⟩ := insertLeafPair_room (d := d) (k := k) hb1
    (show LeafIs P _ ([] ++ []) _ from hfresh) (by simpa using hcap) (by simp) (by simp) hscan e4
  have vend : ({ t2 with headleaf := some t.nodes.size, root := some t.nodes.size } :
      BTree K D).view = { t2.view with headleaf := some t.nodes.size, root := some t.nodes.size } :=
    rfl
  have hcount : t2.totalkeycount = t.totalkeycount := by
    rw [← BTree.count_view, v2, v1, v0]
    rfl
  refine ⟨({ t2 with headleaf := some t.nodes.size, root := some t.nodes.size } :
      BTree K D).upkeycount, s'', ?_, hs'', ?_, ?_, ?_, ?_, rfl⟩
  · simp only [BTree.insert, hroot, Option.isNone_none, if_true, BTree.makeRoot, e1, ok_bind, e2]
    rfl
  · have vfin : (({ t2 with headleaf := some t.nodes.size, root := some t.nodes.size } :
        BTree K D).upkeycount).view.body = t2.view.body := rfl
    refine ⟨rfl, ⟨?_, hs''.ok⟩, ?_, trivial, ?_, by simp, trivial⟩
    · rw [vfin, v2]
      simp
    · have : t2.view.par t.nodes.size = none := by
        rw [v2, View.par_setBody, v1, View.par_setFlag, v0, View.par_alloc]
        exact (BTree.view_new (le_refl _)).1
      exact this
    · intro b hb
      obtain rfl : b = t.nodes.size := by simpa using hb
      have : t2.view.flag t.nodes.size = true := by
        rw [v2, View.flag_setBody, v1, View.flag_setFlag, if_pos rfl]
      rw [Tree.addr_leaf, decide_eq_true rfl]
      exact this
  · have : t2.view.links = t.view.links := by
      rw [v2, View.links_setBody, v1, View.links_setFlag, v0, View.links_alloc]
    exact this
  · simp [BTree.upkeycount, hcount]
  · have : t2.view.tailleaf = t.tailleaf := by
      rw [v2, View.tailleaf_setBody, v1, View.tailleaf_setFlag, v0, View.tailleaf_alloc]
      rfl
    exact this

omit [LinearOrder K] [DecidableEq D] in
theorem isNone_root (hroot : t.root ≠ none) : t.root.isNone = false := by
  cases h : t.root with
  | none => exact absurd h hroot
  | some _ => rfl

/-- A leaf with room takes the pair. -/
theorem insert_room (hroot : t.root ≠ none) (hfind : t.find P k = .ok (some a))
    (ha : t.view.body a = some (.leaf s)) (hs : LeafIs P s (as ++ bs) r)
    (hroom : (as ++ bs).length < P.leafnodemax) (hlt : ∀ e ∈ as, e.1 < k)
    (hge : ∀ e ∈ bs.head?, k ≤ e.1)
    (hscan : t.duplicateScan k d t.fuel (some a) as.length = .ok false)
    (h1 : insertLeafSlotsAt P s k d as.length = .ok s') :
    ∃ t', t.insert P k d = .ok (1, t') ∧
      t'.view = { t.view.setBody a (.leaf s') with count := t.upkeycount.totalkeycount } := by
  obtain ⟨t1, e1, v1⟩ := insertLeafPair_room (d := d) ha hs hroom hlt hge hscan h1
  refine ⟨t1.upkeycount, ?_, ?_⟩
  · simp only [BTree.insert, isNone_root hroot, Bool.false_eq_true, if_false, hfind, ok_bind, e1]
    rfl
  · have hcount : t1.totalkeycount = t.totalkeycount := by
      rw [← BTree.count_view, v1]
      rfl
    simp only [BTree.upkeycount, hcount, ← v1]
    rfl

theorem insert_duplicate (hroot : t.root ≠ none) (hfind : t.find P k = .ok (some a))
    (ha : t.view.body a = some (.leaf s)) (hs : LeafIs P s (as ++ bs) r)
    (hroom : (as ++ bs).length < P.leafnodemax) (hlt : ∀ e ∈ as, e.1 < k)
    (hge : ∀ e ∈ bs.head?, k ≤ e.1)
    (hscan : t.duplicateScan k d t.fuel (some a) as.length = .ok true) :
    t.insert P k d = .ok (-2, t) := by
  simp only [BTree.insert, isNone_root hroot, Bool.false_eq_true, if_false, hfind, ok_bind,
    insertLeafPair_duplicate ha hs hroom hlt hge hscan]
  rfl

/-- A full leaf is split. -/
theorem insert_split (hroot : t.root ≠ none) (hsame : P.leafnodemax = P.innernodemax)
    (hfind : t.find P k = .ok (some n)) (hn : t.view.body n = some (.leaf s))
    (hs : LeafIs P s es r) (hfull : es.length = P.leafnodemax) {t' : BTree K D}
    (hsplit : t.splitLeaf P n k d = .ok t') : t.insert P k d = .ok (1, t') := by
  have hlen : s.slotsinuse = P.innernodemax := by rw [hs.inuse, hfull, hsame]
  simp only [BTree.insert, isNone_root hroot, Bool.false_eq_true, if_false, hfind, ok_bind,
    insertLeafPair_full hn hs hfull, BTree.leaf_eq hn, hlen, hsplit]
  rfl

end Insert

end NwtBTree
