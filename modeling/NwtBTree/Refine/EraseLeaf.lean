import NwtBTree.Refine.Insert

/-!
# Taking a pair out of a leaf
-/

namespace NwtBTree

variable {K D : Type} {P : Template K D}

/-- The key in the first slot beyond the live ones. -/
def LeafSlots.beyond (s : LeafSlots K D) : Option K := s.keySlots[s.slotsinuse]?

section Slots

variable {s : LeafSlots K D} {as bs es : List (K × D)} {e : K × D} {r : List K}

theorem LeafIs.beyond_eq (h : LeafIs P s es r) : s.beyond = r.head? := by
  rw [LeafSlots.beyond, h.inuse, h.keys, List.getElem?_append_right (by simp)]
  simp [List.head?_eq_getElem?]

theorem LeafIs.load_first {k : K} {ks : List K} (h : LeafIs P s es r)
    (hfst : es.map Prod.fst = k :: ks) : load s.keySlots 0 = .ok k := by
  rw [h.keys, hfst]
  rfl

theorem LeafIs.dec_inuse (h : LeafIs P s es r) (hne : es ≠ []) :
    dec16 s.slotsinuse = es.length - 1 := by
  have h1 := h.length_le
  have h2 := leafnodemax_lt P
  rw [h.inuse, dec16_of_pos (List.length_pos_iff.mpr hne) (by omega)]

/-- The keys close the gap, the payloads do not. -/
theorem LeafIs.shiftKeys (h : LeafIs P s (as ++ e :: bs) r) :
    ∃ keys es y, shiftDown s.keySlots as.length (s.slotsinuse - 1 - as.length) = .ok keys ∧
      LeafIs P { s with keySlots := keys, slotsinuse := dec16 s.slotsinuse } es (y :: r) ∧
      es.map Prod.fst = (as ++ bs).map Prod.fst ∧
      es.map Prod.snd = ((as ++ e :: bs).map Prod.snd).dropLast ∧
      y ∈ (e :: bs).map Prod.fst := by
  have hdec := h.dec_inuse (by simp)
  obtain ⟨hslots, hin, hkeys, ⟨q, hq⟩, hkc, hdc⟩ := h
  simp only [List.length_append, List.length_cons] at hin hdec
  have hshift := shiftDown_spec (as.map Prod.fst) (bs.map Prod.fst) r e.1
  obtain ⟨y, hy⟩ : ∃ y, y = (e.1 :: bs.map Prod.fst).getLast (by simp) := ⟨_, rfl⟩
  obtain ⟨ds, w, hds⟩ : ∃ ds w, (as ++ e :: bs).map Prod.snd = ds ++ [w] := by
    obtain hnil | ⟨ds, w, h⟩ := List.eq_nil_or_concat ((as ++ e :: bs).map Prod.snd)
    · simp at hnil
    · exact ⟨ds, w, by rw [h, List.concat_eq_append]⟩
  have hdlen : ((as ++ bs).map Prod.fst).length = ds.length := by
    have := congrArg List.length hds
    simp at this ⊢
    omega
  rw [← hy, List.length_map, List.length_map] at hshift
  refine ⟨as.map Prod.fst ++ (bs.map Prod.fst ++ y :: r), ((as ++ bs).map Prod.fst).zip ds, y, ?_,
    ⟨hslots, ?_, ?_, ?_, ?_, hdc⟩, List.map_fst_zip hdlen.le, ?_, ?_⟩
  · rw [show s.slotsinuse - 1 - as.length = bs.length by omega, hkeys]
    simpa using hshift
  · simp [hdec, ← hdlen]
  · rw [List.map_fst_zip hdlen.le]
    simp
  · rw [List.map_snd_zip hdlen.ge]
    exact ⟨w :: q, by simp [hq, hds]⟩
  · simp only [hkeys, List.length_append, List.length_map, List.length_cons] at hkc ⊢
    omega
  · rw [List.map_snd_zip hdlen.ge, hds, List.dropLast_concat]
  · rw [hy, List.map_cons]
    exact List.getLast_mem _

/-- Keys and payloads close the gap. -/
theorem LeafIs.shiftPairs (h : LeafIs P s (as ++ e :: bs) r) :
    ∃ keys ds y, shiftDown s.keySlots as.length (s.slotsinuse - 1 - as.length) = .ok keys ∧
      shiftDown s.dataSlots as.length (s.slotsinuse - 1 - as.length) = .ok ds ∧
      LeafIs P { s with
        keySlots := keys, dataSlots := ds, slotsinuse := dec16 s.slotsinuse } (as ++ bs) (y :: r) ∧
      y ∈ (e :: bs).map Prod.fst := by
  have hdec := h.dec_inuse (by simp)
  obtain ⟨hslots, hin, hkeys, ⟨q, hq⟩, hkc, hdc⟩ := h
  simp only [List.length_append, List.length_cons] at hin hdec
  have hshift := shiftDown_spec (as.map Prod.fst) (bs.map Prod.fst) r e.1
  have hshift' := shiftDown_spec (as.map Prod.snd) (bs.map Prod.snd) q e.2
  obtain ⟨y, hy⟩ : ∃ y, y = (e.1 :: bs.map Prod.fst).getLast (by simp) := ⟨_, rfl⟩
  obtain ⟨w, hw⟩ : ∃ w, w = (e.2 :: bs.map Prod.snd).getLast (by simp) := ⟨_, rfl⟩
  rw [← hy, List.length_map, List.length_map] at hshift
  rw [← hw, List.length_map, List.length_map] at hshift'
  have hn : s.slotsinuse - 1 - as.length = bs.length := by omega
  refine ⟨as.map Prod.fst ++ (bs.map Prod.fst ++ y :: r),
    as.map Prod.snd ++ (bs.map Prod.snd ++ w :: q),
    y, ?_, ?_, ⟨hslots, ?_, ?_, ⟨w :: q, ?_⟩, ?_, ?_⟩, ?_⟩
  · rw [hn, hkeys]
    simpa using hshift
  · rw [hn, hq]
    simpa using hshift'
  · simp [hdec]
  · simp
  · simp
  · simp only [hkeys, List.length_append, List.length_map, List.length_cons] at hkc ⊢
    omega
  · simp only [hq, List.length_append, List.length_map, List.length_cons] at hdc ⊢
    omega
  · rw [hy, List.map_cons]
    exact List.getLast_mem _

/-- The counter alone goes down: the last live key is dropped. -/
theorem LeafIs.dropLast (h : LeafIs P s (es ++ [e]) r) :
    LeafIs P { s with slotsinuse := dec16 s.slotsinuse } es (e.1 :: r) := by
  have hdec := h.dec_inuse (by simp)
  obtain ⟨hslots, hin, hkeys, ⟨q, hq⟩, hkc, hdc⟩ := h
  exact ⟨hslots, by simpa using hdec, by simp [hkeys], ⟨e.2 :: q, by simp [hq]⟩, hkc, hdc⟩

variable [LinearOrder K] {k : K}

/-- The slot of a live key. -/
theorem findKeyEqual_live (h : LeafIs P s (as ++ e :: bs) r) (hk : e.1 = k)
    (hnot : k ∉ as.map Prod.fst) : findKeyEqual s k = .ok as.length := by
  have hscan := h.scan_eq (keyequal · k)
  have hnone : (as.map Prod.fst).findIdx? (keyequal · k) = none := by
    rw [List.findIdx?_eq_none_iff]
    intro x hx
    rw [Bool.eq_false_iff, Ne, keyequal_iff]
    rintro rfl
    exact hnot hx
  rw [List.map_append, List.findIdx?_append, hnone] at hscan
  rw [findKeyEqual, hscan]
  simp [List.findIdx?_cons, hk]

/-- The slot behind the live keys for any other. -/
theorem findKeyEqual_absent (h : LeafIs P s es r) (hk : k ∉ es.map Prod.fst) :
    findKeyEqual s k = .ok es.length := by
  have hnone : (es.map Prod.fst).findIdx? (keyequal · k) = none := by
    rw [List.findIdx?_eq_none_iff]
    intro x hx
    rw [Bool.eq_false_iff, Ne, keyequal_iff]
    rintro rfl
    exact hk hx
  rw [findKeyEqual, h.scan_eq, hnone]
  exact congrArg Except.ok h.inuse

theorem findLowerKey_some (h : LeafIs P s (as ++ e :: bs) r) (hlt : ∀ x ∈ as, x.1 < k)
    (hk : k ≤ e.1) : findLowerKey s k = .ok (as.length : Int) := by
  have hscan := h.scan_eq (keylessequal k ·)
  have hnone : (as.map Prod.fst).findIdx? (keylessequal k ·) = none := by
    rw [List.findIdx?_eq_none_iff]
    intro x hx
    obtain ⟨a, ha, rfl⟩ := List.mem_map.mp hx
    simpa [keylessequal] using hlt a ha
  have hin : s.slotsinuse ≠ 0 := by
    rw [h.inuse]
    simp
  rw [List.map_append, List.findIdx?_append, hnone] at hscan
  rw [findLowerKey, if_neg hin, hscan]
  simp [List.findIdx?_cons, hk]

theorem findLowerKey_none (h : LeafIs P s es r) (hne : es ≠ []) (hlt : ∀ x ∈ es, x.1 < k) :
    findLowerKey s k = .ok (-1) := by
  have hnone : (es.map Prod.fst).findIdx? (keylessequal k ·) = none := by
    rw [List.findIdx?_eq_none_iff]
    intro x hx
    obtain ⟨a, ha, rfl⟩ := List.mem_map.mp hx
    simpa [keylessequal] using hlt a ha
  have hin : s.slotsinuse ≠ 0 := by
    rw [h.inuse]
    simpa using hne
  rw [findLowerKey, if_neg hin, h.scan_eq, hnone]
  rfl

end Slots

/-- The counter is not part of any node. -/
theorem view_count (t : BTree K D) (c : Nat) :
    ({ t with totalkeycount := c } : BTree K D).view = { t.view with count := c } := rfl

section Pair

variable [LinearOrder K] {t : BTree K D} {a : Addr} {s : LeafSlots K D} {as bs es : List (K × D)}
  {e : K × D} {r : List K} {k : K}

/-- The pair at the lower bound of its key goes. -/
theorem deleteLeafPair_spec (ha : t.view.body a = some (.leaf s))
    (hs : LeafIs P s (as ++ e :: bs) r)
    (hlt : ∀ x ∈ as, x.1 < e.1) (d : D) :
    ∃ t' s' y, t.deleteLeafPair a e.1 d = .ok ((as.length : Int), t') ∧
      LeafIs P s' (as ++ bs) (y :: r) ∧ y ∈ (e :: bs).map Prod.fst ∧
      t'.view = { t.view.setBody a (.leaf s') with count := t.downkeycount.totalkeycount } := by
  obtain ⟨keys, ds, y, hkeys, hds, hs', hy⟩ := hs.shiftPairs
  obtain ⟨t', e', v'⟩ := BTree.setLeaf_view ha
    { s with keySlots := keys, dataSlots := ds, slotsinuse := dec16 s.slotsinuse }
  have hpos : ¬s.slotsinuse < 1 := by
    rw [hs.inuse]
    simp
  have hkey : load s.keySlots as.length = .ok e.1 := by
    have := hs.load_key (i := as.length) (by simp)
    simpa using this
  refine ⟨t'.downkeycount, _, y, ?_, hs', hy, ?_⟩
  · simp only [BTree.deleteLeafPair, BTree.leaf_eq ha, ok_bind, if_neg hpos,
      findLowerKey_some hs hlt (le_refl _), loadInt_natCast, hkey, (keyequal_iff e.1 e.1).mpr rfl,
      if_true, Int.toNat_natCast, hkeys, hds, e']
    rfl
  · have hcount : t'.totalkeycount = t.totalkeycount := by
      rw [← BTree.count_view, v']
      rfl
    rw [BTree.downkeycount, BTree.downkeycount, view_count, v', hcount]

/-- An empty leaf has nothing to lose. -/
theorem deleteLeafPair_empty (ha : t.view.body a = some (.leaf s)) (hs : LeafIs P s [] r) (k : K)
    (d : D) : t.deleteLeafPair a k d = .ok (-1, t) := by
  have hpos : s.slotsinuse < 1 := by
    rw [hs.inuse]
    simp
  simp only [BTree.deleteLeafPair, BTree.leaf_eq ha, ok_bind, if_pos hpos]
  rfl

/-- Another key at the lower bound stays. -/
theorem deleteLeafPair_other (ha : t.view.body a = some (.leaf s))
    (hs : LeafIs P s (as ++ e :: bs) r) (hlt : ∀ x ∈ as, x.1 < k) (hk : k < e.1) (d : D) :
    t.deleteLeafPair a k d = .ok (-1, t) := by
  have hpos : ¬s.slotsinuse < 1 := by
    rw [hs.inuse]
    simp
  have hkey : load s.keySlots as.length = .ok e.1 := by
    have := hs.load_key (i := as.length) (by simp)
    simpa using this
  have hne : keyequal k e.1 = false := by
    rw [Bool.eq_false_iff, Ne, keyequal_iff]
    exact ne_of_lt hk
  simp only [BTree.deleteLeafPair, BTree.leaf_eq ha, ok_bind, if_neg hpos,
    findLowerKey_some hs hlt hk.le, loadInt_natCast, hkey, hne, Bool.false_eq_true, if_false]
  rfl

/-- Where every key is smaller the slot `-1` is read. -/
theorem deleteLeafPair_above (ha : t.view.body a = some (.leaf s)) (hs : LeafIs P s es r)
    (hne : es ≠ []) (hlt : ∀ x ∈ es, x.1 < k) (d : D) :
    t.deleteLeafPair a k d = .error .outOfRange := by
  have hpos : ¬s.slotsinuse < 1 := by
    rw [hs.inuse]
    have := List.length_pos_iff.mpr hne
    omega
  simp only [BTree.deleteLeafPair, BTree.leaf_eq ha, ok_bind, if_neg hpos,
    findLowerKey_none hs hne hlt]
  rfl

end Pair

section Insertion

variable [LinearOrder K] [DecidableEq D] {t : BTree K D} {a : Addr} {s : LeafSlots K D}
  {es bs : List (K × D)} {e : K × D} {r : List K} {k : K} {d : D}

/-- The duplicate scan stops at once when the first slot it looks at has another key. -/
theorem duplicateScan_stop (ha : t.view.body a = some (.leaf s)) {y : K} {j : Nat}
    (hload : load s.keySlots j = .ok y) (hy : y ≠ k) :
    t.duplicateScan k d t.fuel (some a) j = .ok false := by
  obtain ⟨f, hf⟩ := fuel_eq ha
  have hne : ¬keyequal y k = true := fun h => hy ((keyequal_iff _ _).mp h)
  rw [hf, BTree.duplicateScan]
  simp only [BTree.leaf_eq ha, ok_bind, hload, if_neg hne]
  rfl

/-- A pair behind all others, where the first unused slot does not have its key. -/
theorem insertLeafPair_last (ha : t.view.body a = some (.leaf s)) (hs : LeafIs P s es r)
    (hroom : es.length < P.leafnodemax) (hlt : ∀ x ∈ es, x.1 < k) (hr : s.beyond ≠ some k) :
    ∃ t' s', t.insertLeafPair P a k d = .ok (1, t') ∧ LeafIs P s' (es ++ [(k, d)]) r.tail ∧
      t'.view = t.view.setBody a (.leaf s') := by
  obtain ⟨s', e1, hs'⟩ := insertLeafSlotsAt_end hs hroom k d rfl
  have hr0 : r ≠ [] := by
    rintro rfl
    have := hs.length_rest
    simp at this
    omega
  obtain ⟨y, r, rfl⟩ := List.exists_cons_of_ne_nil hr0
  have hy : y ≠ k := by
    rintro rfl
    exact hr (by rw [hs.beyond_eq]; rfl)
  have hs0 : LeafIs P s (es ++ []) (y :: r) := by simpa using hs
  obtain ⟨t', e2, v'⟩ := insertLeafPair_room ha hs0 (by simpa using hroom) hlt (by simp)
    (duplicateScan_stop ha hs.load_rest hy) e1
  exact ⟨t', s', e2, hs', v'⟩

/-- A pair in front of all others. -/
theorem insertLeafPair_first (ha : t.view.body a = some (.leaf s)) (hs : LeafIs P s es r)
    (hroom : es.length < P.leafnodemax) (hk : ∀ e ∈ es.head?, k ≤ e.1)
    (hne : s.keySlots.head? ≠ some k) :
    ∃ t' s' es', t.insertLeafPair P a k d = .ok (1, t') ∧ LeafIs P s' es' r.tail ∧
      es'.map Prod.fst = k :: es.map Prod.fst ∧ s'.dataSlots = s.dataSlots.set 0 d ∧
      t'.view = t.view.setBody a (.leaf s') := by
  have hs0 : LeafIs P s ([] ++ es) r := hs
  obtain ⟨s', es', e1, hs', hfst, hdata⟩ := insertLeafSlotsAt_spec hs0 hroom k d
  obtain ⟨y, ys, hys⟩ : ∃ y ys, s.keySlots = y :: ys :=
    List.exists_cons_of_length_pos (by rw [hs.keyCap]; omega)
  have hload : load s.keySlots 0 = .ok y := by rw [hys, load_cons_zero]
  obtain ⟨t', e2, v'⟩ := insertLeafPair_room ha hs0 hroom (by simp) hk
    (duplicateScan_stop ha hload (by simpa [hys] using hne)) e1
  exact ⟨t', s', es', e2, hs', hfst, hdata, v'⟩

end Insertion

end NwtBTree
