import NwtBTree.Refine.Inner

/-!
# Searches by value in an inner node

`findInnerNodeLoc` looks for a child by the key in its first slot,
`findInnerNodeKey` and `replacekey` look for a separator. Both find the place
that was meant when that key lies between the separators around it, and the
separator occurs once.
-/

namespace NwtBTree

variable {K D : Type} {P : Template K D}

/-- The key in slot `0` of a node. -/
def Body.firstKey : Body K D → Option K
  | .leaf s => s.keySlots[0]?
  | .inner s => s.keySlots[0]?

/-- The key in slot `0` of the node at `a`. -/
def View.firstKey (v : View K D) (a : Addr) : Option K := (v.body a).bind Body.firstKey

theorem View.firstKey_congr {v v' : View K D} {a : Addr} (h : v'.body a = v.body a) :
    v'.firstKey a = v.firstKey a := by
  unfold firstKey
  rw [h]

theorem InnerHas.firstKey {v : View K D} {a : Addr} {s : InnerSlots K} {k : K} {ks : List K}
    {cs : List Addr} (ha : v.body a = some (.inner s)) (hs : InnerHas P s (k :: ks) cs) :
    v.firstKey a = some k := by
  obtain ⟨r, hr⟩ := hs.keys
  simp [View.firstKey, ha, Body.firstKey, hr]

variable [LinearOrder K] {t : BTree K D} {p x : Addr} {s : InnerSlots K} {ks ksL ksR : List K}
  {cs csL csR : List Addr} {k z : K}

/-- The first separator greater than `k`. -/
theorem InnerHas.scan_greater (hs : InnerHas P s (ksL ++ ksR) cs) (hL : ∀ y ∈ ksL, y ≤ k)
    (hR : ∀ y ∈ ksR.head?, k < y) : scan (keygreater · k) s.keySlots s.slotsinuse 0 =
      .ok (if ksR = [] then none else some ksL.length) := by
  obtain ⟨r, hr⟩ := hs.keys
  have hL' : ∀ y ∈ ksL, keygreater y k = false := by
    intro y hy
    simpa [keygreater] using hL y hy
  rw [hs.inuse, hr]
  cases ksR with
  | nil =>
    rw [List.append_nil]
    exact scan_none r hL'
  | cons y ksR => exact scan_some r hL' ((keygreater_iff _ _).mpr (hR y rfl))

/-- The separator `k`. -/
theorem InnerHas.scan_equal (hs : InnerHas P s (ksL ++ k :: ksR) cs) (hk : k ∉ ksL) :
    scan (keyequal · k) s.keySlots s.slotsinuse 0 = .ok (some ksL.length) := by
  obtain ⟨r, hr⟩ := hs.keys
  rw [hs.inuse, hr]
  refine scan_some r (fun y hy => ?_) ((keyequal_iff _ _).mpr rfl)
  rw [Bool.eq_false_iff, Ne, keyequal_iff]
  rintro rfl
  exact hk hy

theorem findInnerNodeKey_spec (hs : InnerHas P s (ksL ++ k :: ksR) cs) (hk : k ∉ ksL) :
    BTree.findInnerNodeKey s k = .ok (ksL.length : Int) := by
  rw [BTree.findInnerNodeKey, hs.scan_equal hk]
  rfl

omit [LinearOrder K] in
theorem InnerHas.load_childAt (hs : InnerHas P s ks (csL ++ x :: csR)) {i : Nat}
    (hi : i = csL.length) : load s.firstChild i = .ok (some x) := by
  obtain ⟨r, hr⟩ := hs.children
  rw [hr, List.map_append, List.map_cons, List.append_assoc]
  exact load_append (by simpa using hi)

omit [LinearOrder K] in
/-- The second child. -/
theorem InnerHas.load_second {as : List Addr} {y : Addr} (hs : InnerHas P s ks (x :: y :: as)) :
    load s.firstChild 1 = .ok (some y) := by
  have hcut : InnerHas P s ks ([x] ++ y :: as) := hs
  exact hcut.load_childAt rfl

omit [LinearOrder K] in
theorem InnerHas.load_firstChild (hs : InnerHas P s ks (x :: csR)) :
    load s.firstChild 0 = .ok (some x) := by
  obtain ⟨r, hr⟩ := hs.children
  rw [hr]
  rfl

omit [LinearOrder K] in
theorem InnerHas.load_firstKey (hs : InnerHas P s (k :: ksR) cs) : load s.keySlots 0 = .ok k := by
  obtain ⟨r, hr⟩ := hs.keys
  rw [hr]
  rfl

omit [LinearOrder K] in
theorem InnerHas.load_keyAt (hs : InnerHas P s (ksL ++ k :: ksR) cs) {i : Nat}
    (hi : i = ksL.length) : load s.keySlots i = .ok k := by
  obtain ⟨r, hr⟩ := hs.keys
  rw [hr, List.append_assoc]
  exact load_append hi

theorem findInnerNodeLoc_spec (hp : t.view.body p = some (.inner s))
    (hs : InnerHas P s (ksL ++ ksR) (csL ++ x :: csR)) (hlen : ksL.length = csL.length)
    (hlen' : ksR.length = csR.length) (hx : t.view.firstKey x = some k) (hL : ∀ y ∈ ksL, y ≤ k)
    (hR : ∀ y ∈ ksR.head?, k < y) : t.findInnerNodeLoc (some p) (some x) = .ok
    (csL.length : Int) := by
  obtain ⟨b, hb, hbk⟩ := Option.bind_eq_some_iff.mp hx
  have hscan := hs.scan_greater hL hR
  have hin : s.slotsinuse = csL.length + csR.length := by
    rw [hs.inuse, List.length_append, hlen, hlen']
  have hnum : s.numChildren = csL.length + (csR.length + 1) := by
    rw [hs.num]
    simp
  cases b with
  | leaf l =>
    have hload : load l.keySlots 0 = .ok k := load_of_getElem? hbk
    simp only [BTree.findInnerNodeLoc, BTree.isleaf_leaf hb, BTree.leaf_eq hb, BTree.inner_eq hp,
      ok_bind, if_true, hload, hscan]
    by_cases hnil : ksR = []
    · -- the last child is compared instead
      subst hnil
      obtain rfl := List.eq_nil_of_length_eq_zero hlen'.symm
      have hlast := hs.load_childAt (i := s.slotsinuse) (by simpa using hin)
      have hlt : s.slotsinuse < s.numChildren := by
        rw [hin, hnum]
        omega
      simp only [if_true, if_pos hlt, hlast, ok_bind, deref, BTree.leaf_eq hb, hload,
        (keyequal_iff k k).mpr rfl]
      rw [hin]
      rfl
    · simp [hnil, hlen]
  | inner l =>
    have hload : load l.keySlots 0 = .ok k := load_of_getElem? hbk
    simp only [BTree.findInnerNodeLoc, BTree.isleaf_inner hb, BTree.inner_eq hb, BTree.inner_eq hp,
      ok_bind, Bool.false_eq_true, if_false, hload, hscan]
    by_cases hnil : ksR = []
    · subst hnil
      obtain rfl := List.eq_nil_of_length_eq_zero hlen'.symm
      have hlast := hs.load_childAt (i := s.numChildren - 1) (by simp [hnum])
      have hlt : s.slotsinuse < s.numChildren := by
        rw [hin, hnum]
        omega
      simp only [if_true, if_pos hlt, hlast, ok_bind, deref, BTree.inner_eq hb, hload]
      rw [hin]
      rfl
    · simp [hnil, hlen]

theorem replaceKey_spec (hp : t.view.body p = some (.inner s))
    (hs : InnerHas P s (ksL ++ k :: ksR) cs) (hk : k ∉ ksL) (z : K) :
    ∃ s' t', t.replaceKey (some p) k z = .ok (1, t') ∧ InnerHas P s' (ksL ++ z :: ksR) cs ∧
      t'.view = t.view.setBody p (.inner s') := by
  obtain ⟨h1, h2, h3, ⟨r, hr⟩, h5, h6, h7⟩ := id hs
  have hstore : store s.keySlots ksL.length z = .ok (ksL ++ z :: (ksR ++ r)) := by
    rw [hr, List.append_assoc]
    exact store_append z rfl
  obtain ⟨t', e, v'⟩ := BTree.setInner_view hp { s with keySlots := ksL ++ z :: (ksR ++ r) }
  refine ⟨{ s with keySlots := ksL ++ z :: (ksR ++ r) }, t', ?_,
    ⟨h1, by simpa using h2, h3, ⟨r, by simp⟩, h5, ?_, h7⟩, v'⟩
  · simp only [BTree.replaceKey, BTree.inner_eq hp, ok_bind, hs.scan_equal hk, hstore, e]
    rfl
  · simp only [hr, List.length_append, List.length_cons] at h6 ⊢
    omega

end NwtBTree
