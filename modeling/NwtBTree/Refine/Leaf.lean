import NwtBTree.Refine.Inner

/-!
# What the operations on leaves do to the slots

`LeafIs P s es r` reads a leaf as the list `es` of its pairs, followed by the keys
`r` that the slots beyond `slotsinuse` still hold. The searches are positions in
`es`; insertion at the end appends a pair; insertion before the end moves the
keys but not the payloads.
-/

namespace NwtBTree

variable {K D : Type} {P : Template K D}

/-- The live pairs of a leaf are `es`, and `r` are the keys in the slots after them. -/
structure LeafIs (P : Template K D) (s : LeafSlots K D) (es : List (K × D)) (r : List K) :
    Prop where
  slots : s.slots = P.leafnodemax
  inuse : s.slotsinuse = es.length
  keys : s.keySlots = es.map Prod.fst ++ r
  data : ∃ q, s.dataSlots = es.map Prod.snd ++ q
  keyCap : s.keySlots.length = P.leafnodemax
  dataCap : s.dataSlots.length = P.leafnodemax

namespace LeafIs

variable {s : LeafSlots K D} {es : List (K × D)} {r : List K}

theorem ok (h : LeafIs P s es r) : LeafOK P s where
  slots := h.slots
  inuse := by
    rw [h.inuse, ← h.keyCap, h.keys]
    simp
  keyCap := h.keyCap
  dataCap := h.dataCap

theorem entries_eq (h : LeafIs P s es r) : s.entries = es := by
  obtain ⟨q, hq⟩ := h.data
  rw [LeafSlots.entries, h.keys, hq, h.inuse, List.zip_append (by simp),
    List.take_left' (by simp)]
  exact (List.zip_of_prod rfl rfl).symm

theorem keys_eq (h : LeafIs P s es r) : s.keys = es.map Prod.fst := by
  rw [LeafSlots.keys, h.keys, h.inuse, List.take_left' (by simp)]

theorem length_le (h : LeafIs P s es r) : es.length ≤ P.leafnodemax :=
  h.inuse ▸ h.ok.inuse

theorem length_rest (h : LeafIs P s es r) : es.length + r.length = P.leafnodemax := by
  rw [← h.keyCap, h.keys]
  simp

/-- The payloads play no part. -/
theorem load_key (h : LeafIs P s es r) {i : Nat} (hi : i < es.length) :
    load s.keySlots i = .ok es[i].1 := by
  rw [h.keys, load_left _ (by simpa using hi)]
  simp

theorem load_data (h : LeafIs P s es r) {i : Nat} (hi : i < es.length) :
    load s.dataSlots i = .ok es[i].2 := by
  obtain ⟨q, hq⟩ := h.data
  rw [hq, load_left _ (by simpa using hi)]
  simp

/-- The first key beyond the live ones. -/
theorem head_key {e : K × D} (h : LeafIs P s (e :: es) r) : s.keySlots.head? = some e.1 := by
  rw [h.keys]
  rfl

theorem load_rest {k : K} (h : LeafIs P s es (k :: r)) : load s.keySlots es.length = .ok k := by
  rw [h.keys]
  exact load_append (by simp)

theorem scan_eq (h : LeafIs P s es r) (p : K → Bool) :
    scan p s.keySlots s.slotsinuse 0 = .ok ((es.map Prod.fst).findIdx? p) := by
  rw [h.keys, h.inuse, ← scan_live p (es.map Prod.fst) r]
  simp

theorem isfull_iff (h : LeafIs P s es r) : s.isfull P = true ↔ es.length = P.leafnodemax := by
  simp [LeafSlots.isfull, h.inuse]

end LeafIs

theorem LeafOK.leafIs {s : LeafSlots K D} (h : LeafOK P s) :
    LeafIs P s s.entries (s.keySlots.drop s.slotsinuse) := by
  obtain ⟨h1, h2, h3, h4⟩ := h
  have hfst : s.entries.map Prod.fst = s.keySlots.take s.slotsinuse := by
    rw [LeafSlots.entries, List.map_take, List.map_fst_zip (by omega)]
  have hsnd : s.entries.map Prod.snd = s.dataSlots.take s.slotsinuse := by
    rw [LeafSlots.entries, List.map_take, List.map_snd_zip (by omega)]
  refine ⟨h1, ?_, ?_, ⟨s.dataSlots.drop s.slotsinuse, ?_⟩, h3, h4⟩
  · simp [LeafSlots.entries]
    omega
  · rw [hfst, List.take_append_drop]
  · rw [hsnd, List.take_append_drop]

theorem LeafOK.length_keys {s : LeafSlots K D} (h : LeafOK P s) : s.keys.length = s.slotsinuse := by
  rw [h.leafIs.keys_eq, List.length_map, ← h.leafIs.inuse]

theorem LeafIs.fresh (P : Template K D) (a : Addr) :
    LeafIs P (LeafNode.fresh P a).toLeafSlots [] (LeafNode.fresh P a).keySlots where
  slots := rfl
  inuse := rfl
  keys := rfl
  data := ⟨_, rfl⟩
  keyCap := by simp [LeafNode.fresh]
  dataCap := by simp [LeafNode.fresh]

/-! ## Insertion -/

section Insertion

variable {s : LeafSlots K D} {as bs es : List (K × D)} {r : List K}

/-- Insertion at a slot: the keys from there on move up, the payload is written over
the one that was there. -/
theorem insertLeafSlotsAt_spec (h : LeafIs P s (as ++ bs) r)
    (hroom : (as ++ bs).length < P.leafnodemax) (k : K) (d : D) :
    ∃ s' es', insertLeafSlotsAt P s k d as.length = .ok s' ∧ LeafIs P s' es' r.tail ∧
      es'.map Prod.fst = as.map Prod.fst ++ k :: bs.map Prod.fst ∧
      s'.dataSlots = s.dataSlots.set as.length d := by
  obtain ⟨hslots, hin, hkeys, ⟨q, hq⟩, hkc, hdc⟩ := h
  have hlen : as.length + bs.length < P.leafnodemax := by simpa using hroom
  have hr0 : r ≠ [] := by
    rintro rfl
    simp [hkeys] at hkc
    omega
  obtain ⟨z, r, rfl⟩ := List.exists_cons_of_ne_nil hr0
  have hinc : inc16 s.slotsinuse = as.length + bs.length + 1 := by
    rw [hin, inc16_of_lt hroom (leafnodemax_lt P)]
    simp
  have hguard : ¬((s.slots : Int) ≤ (as.length : Int) ∨ (as.length : Int) < 0) := by
    rw [hslots]
    omega
  -- the keys
  have hkey : insertLeafKeyAt s k as.length = .ok (1, { s with
      keySlots := as.map Prod.fst ++ k :: (bs.map Prod.fst ++ r)
      slotsinuse := inc16 s.slotsinuse }) := by
    by_cases hend : s.slotsinuse = 0 ∨ (s.slotsinuse : Int) ≤ (as.length : Int)
    · have hbs : bs = [] := by
        rw [hin] at hend
        refine List.eq_nil_of_length_eq_zero ?_
        simp only [List.length_append] at hend
        omega
      subst hbs
      have hstore : store s.keySlots as.length k = .ok (as.map Prod.fst ++ k :: ([] ++ r)) := by
        rw [hkeys]
        simpa using store_append (A := as.map Prod.fst) (B := r) (x := z) k
          (i := as.length) (by simp)
      rw [insertLeafKeyAt, if_neg hguard, if_pos hend, Int.toNat_natCast, hstore]
      rfl
    · have hin' : s.slotsinuse = as.length + bs.length := by rw [hin]; simp
      obtain ⟨y, hy⟩ := shiftUp_spec (as.map Prod.fst) (bs.map Prod.fst) r z
      have hshift : shiftUp s.keySlots as.length s.slotsinuse =
          .ok (as.map Prod.fst ++ y :: (bs.map Prod.fst ++ r)) := by
        rw [hkeys, hin', List.map_append, List.append_assoc]
        simpa using hy
      have hstore : store (as.map Prod.fst ++ y :: (bs.map Prod.fst ++ r)) as.length k =
          .ok (as.map Prod.fst ++ k :: (bs.map Prod.fst ++ r)) :=
        store_append k (by simp)
      rw [insertLeafKeyAt, if_neg hguard, if_neg hend, Int.toNat_natCast, hshift, ok_bind, hstore]
      rfl
  -- the payload
  have hguard' : ¬((P.leafnodemax : Int) ≤ (as.length : Int) ∨ (as.length : Int) < 0) := by omega
  have hdata : store s.dataSlots as.length d = .ok (s.dataSlots.set as.length d) := by
    rw [store, if_pos (by omega)]
  let s' : LeafSlots K D := { s with
    keySlots := as.map Prod.fst ++ k :: (bs.map Prod.fst ++ r)
    slotsinuse := inc16 s.slotsinuse
    dataSlots := s.dataSlots.set as.length d }
  have hok : LeafOK P s' := by
    refine ⟨hslots, ?_, ?_, by simpa [s'] using hdc⟩
    · simp only [s', hinc]
      omega
    · simp only [hkeys, List.map_append, List.length_append, List.length_map,
        List.length_cons] at hkc
      simp only [s', List.length_append, List.length_map, List.length_cons]
      omega
  have hs' := hok.leafIs
  have hfst : s'.entries.map Prod.fst = as.map Prod.fst ++ k :: bs.map Prod.fst := by
    rw [LeafSlots.entries, List.map_take, List.map_fst_zip (by rw [hok.keyCap, hok.dataCap])]
    simp only [s', hinc]
    rw [← List.cons_append, ← List.append_assoc]
    exact List.take_left' (by simp; omega)
  have hdrop : s'.keySlots.drop s'.slotsinuse = r := by
    simp only [s', hinc]
    rw [← List.cons_append, ← List.append_assoc]
    exact List.drop_left' (by simp; omega)
  refine ⟨s', s'.entries, ?_, by rw [hdrop] at hs'; simpa using hs', hfst, rfl⟩
  rw [insertLeafSlotsAt, hkey, ok_bind]
  simp only [insertLeafDataAt, if_neg hguard', Int.toNat_natCast, hdata, ok_bind]
  rfl

/-- Insertion after the live pairs. -/
theorem insertLeafSlotsAt_end (h : LeafIs P s es r) (hroom : es.length < P.leafnodemax) (k : K)
    (d : D) {i : Nat} (hi : i = es.length) :
    ∃ s', insertLeafSlotsAt P s k d i = .ok s' ∧ LeafIs P s' (es ++ [(k, d)]) r.tail := by
  subst hi
  obtain ⟨s', es', e, hs', hfst, hdata⟩ :=
    insertLeafSlotsAt_spec (show LeafIs P s (es ++ []) r by simpa using h)
      (by simpa using hroom) k d
  obtain ⟨q, hq⟩ := h.data
  obtain ⟨q', hq'⟩ := hs'.data
  have hlen : es'.length = es.length + 1 := by
    have := congrArg List.length hfst
    simpa using this
  have hq0 : q ≠ [] := by
    rintro rfl
    have := h.dataCap
    rw [hq] at this
    simp at this
    omega
  obtain ⟨y, q, rfl⟩ := List.exists_cons_of_ne_nil hq0
  have hsnd : es'.map Prod.snd = es.map Prod.snd ++ [d] := by
    rw [hq', hq] at hdata
    have hset : (es.map Prod.snd ++ y :: q).set es.length d = es.map Prod.snd ++ [d] ++ q := by
      rw [List.set_append_right _ _ (by simp)]
      simp
    rw [hset] at hdata
    exact (List.append_inj hdata (by simp [hlen])).1
  have heq : es' = es ++ [(k, d)] :=
    (List.zip_of_prod hfst hsnd).trans (List.zip_of_prod (by simp) (by simp)).symm
  exact ⟨s', e, heq ▸ hs'⟩

end Insertion

/-! ## The split of a full leaf -/

section Split

variable [LinearOrder K] {n ln lp : LeafSlots K D} {as bs : List (K × D)} {r rn rp : List K}
  {k : K} {d : D}

/-- How many of the pairs go to the first of the two new leaves: the new pair is one of
them when it lands among the first half of the old ones. -/
def splitPoint (P : Template K D) (as : List (K × D)) : Nat :=
  if as.length < P.leafnodemax / 2 then P.leafnodemax / 2 + 1 else P.leafnodemax / 2

/-- The state of the leaf split when `slot` pairs of the merged list `all` are placed. -/
structure LeafSplitInv (P : Template K D) (cut : Nat) (as all : List (K × D)) (rn rp : List K)
    (slot : Nat) (s : LeafSplit K D) : Prop where
  slot_eq : s.slot = slot
  i_eq : s.i = if slot ≤ as.length then slot else slot - 1
  j_eq : s.j = slot - cut
  added_eq : s.added = decide (as.length < slot)
  left : LeafIs P s.ln ((all.take slot).take cut) (rn.drop (min slot cut))
  right : LeafIs P s.lp ((all.take slot).drop cut) (rp.drop (slot - cut))

omit [LinearOrder K] in
theorem LeafSplitInv.place_left {cut slot : Nat} {all : List (K × D)} {s : LeafSplit K D}
    (h : LeafSplitInv P cut as all rn rp slot s) (hslot : slot < all.length) (hcut : slot < cut)
    (hroom : slot < P.leafnodemax) :
    ∃ ln', insertLeafSlotsAt P s.ln all[slot].1 all[slot].2 s.slot = .ok ln' ∧
      LeafIs P ln' ((all.take (slot + 1)).take cut) (rn.drop (min (slot + 1) cut)) ∧
      LeafIs P s.lp ((all.take (slot + 1)).drop cut) (rp.drop (slot + 1 - cut)) := by
  have hleft := h.left
  have hright := h.right
  rw [List.take_take, Nat.min_eq_right (by omega), Nat.min_eq_left (by omega)] at hleft
  have hlen : (all.take slot).length = slot := by simp; omega
  obtain ⟨ln', e, hln⟩ := insertLeafSlotsAt_end hleft (by rw [hlen]; exact hroom) all[slot].1
    all[slot].2 (show s.slot = _ by rw [hlen, h.slot_eq])
  refine ⟨ln', e, ?_, ?_⟩
  · rw [List.take_take, Nat.min_eq_right (by omega), Nat.min_eq_left (by omega)]
    have hall : all.take slot ++ [all[slot]] = all.take (slot + 1) := List.take_append_getElem hslot
    simpa [hall] using hln
  · rw [List.drop_eq_nil_of_le (by simp; omega), show slot + 1 - cut = 0 by omega]
    rwa [List.drop_eq_nil_of_le (by simp; omega), show slot - cut = 0 by omega] at hright

omit [LinearOrder K] in
theorem LeafSplitInv.place_right {cut slot : Nat} {all : List (K × D)} {s : LeafSplit K D}
    (h : LeafSplitInv P cut as all rn rp slot s) (hslot : slot < all.length) (hcut : cut ≤ slot)
    (hroom : slot - cut < P.leafnodemax) :
    ∃ lp', insertLeafSlotsAt P s.lp all[slot].1 all[slot].2 s.j = .ok lp' ∧
      LeafIs P s.ln ((all.take (slot + 1)).take cut) (rn.drop (min (slot + 1) cut)) ∧
      LeafIs P lp' ((all.take (slot + 1)).drop cut) (rp.drop (slot + 1 - cut)) := by
  have hleft := h.left
  have hright := h.right
  have hlen : ((all.take slot).drop cut).length = slot - cut := by simp; omega
  obtain ⟨lp', e, hlp⟩ := insertLeafSlotsAt_end hright (by rw [hlen]; exact hroom) all[slot].1
    all[slot].2 (show s.j = _ by rw [hlen, h.j_eq])
  refine ⟨lp', e, ?_, ?_⟩
  · rw [List.take_take, Nat.min_eq_left (by omega), Nat.min_eq_right (by omega)]
    rwa [List.take_take, Nat.min_eq_left (by omega), Nat.min_eq_right (by omega)] at hleft
  · have hall : (all.take (slot + 1)).drop cut = (all.take slot).drop cut ++ [all[slot]] := by
      rw [← List.take_append_getElem hslot, List.drop_append_of_le_length (by simp; omega)]
    rw [hall, show slot + 1 - cut = slot - cut + 1 by omega]
    simpa using hlp

/-- One iteration places the next pair of the merged list. -/
theorem leafSplitBody_spec (hn : LeafIs P n (as ++ bs) r) (hfull : n.slotsinuse = P.leafnodemax)
    (has : 0 < as.length) (hle : ∀ e ∈ as, e.1 ≤ k) (hgt : ∀ e ∈ bs.head?, k < e.1)
    (hcap : 2 ≤ P.leafnodemax) {slot : Nat} {s : LeafSplit K D}
    (h : LeafSplitInv P (splitPoint P as) as (as ++ (k, d) :: bs) rn rp slot s)
    (hi : s.i < n.slotsinuse) :
    ∃ s', leafSplitBody P n k d s = .ok s' ∧
      LeafSplitInv P (splitPoint P as) as (as ++ (k, d) :: bs) rn rp (slot + 1)
        { s' with i := s'.i + 1, slot := s'.slot + 1 } := by
  have hlen : as.length + bs.length = P.leafnodemax := by
    rw [← hfull, hn.inuse]
    simp
  have hslot : slot < (as ++ (k, d) :: bs).length := by
    have := h.i_eq
    simp only [List.length_append, List.length_cons]
    split_ifs at this <;> omega
  have hlt : s.i < (as ++ bs).length := by simp; omega
  have hkey : load n.keySlots s.i = .ok (as ++ bs)[s.i].1 := hn.load_key _
  have hdata : load n.dataSlots s.i = .ok (as ++ bs)[s.i].2 := hn.load_data _
  obtain ⟨hs, hsi, hj, hadd, -, -⟩ := id h
  have hhalf : n.slotsinuse / 2 = P.leafnodemax / 2 := by rw [hfull]
  rcases Nat.lt_trichotomy slot as.length with hlt | heq | hgt'
  · -- before the new pair: copy
    rw [if_pos (by omega)] at hsi
    have hitem : (as ++ bs)[s.i] = (as ++ (k, d) :: bs)[slot] := by
      simp [hsi, hlt]
    have hnot : ¬(keygreater (as ++ (k, d) :: bs)[slot].1 k = true ∧ s.slot = s.i) := by
      rintro ⟨hg, -⟩
      have := hle (as ++ (k, d) :: bs)[slot] (by simp [hlt])
      exact absurd ((keygreater_iff _ _).mp hg) (not_lt.mpr this)
    rw [hitem, hsi] at hkey hdata
    rw [hsi] at hnot
    by_cases hcut : slot < P.leafnodemax / 2
    · obtain ⟨ln', e, h1, h2⟩ := h.place_left hslot (by unfold splitPoint; split <;> omega)
        (by omega)
      refine ⟨{ s with ln := ln' }, ?_, ⟨by simp [hs], ?_, ?_, ?_, h1, h2⟩⟩
      · simp only [leafSplitBody, hkey, hdata, ok_bind, if_neg hnot, hhalf, hsi, if_pos hcut, e]
        rfl
      · rw [if_pos (by omega)]
        simp [hsi]
      · simp only [hj]
        unfold splitPoint
        split <;> omega
      · rw [hadd, decide_eq_false (by omega), decide_eq_false (by omega)]
    · have hpoint : splitPoint P as = P.leafnodemax / 2 := if_neg (by omega)
      obtain ⟨lp', e, h1, h2⟩ := h.place_right hslot (by omega) (by omega)
      refine ⟨{ s with lp := lp', j := s.j + 1 }, ?_, ⟨by simp [hs], ?_, ?_, ?_, h1, h2⟩⟩
      · simp only [leafSplitBody, hkey, hdata, ok_bind, if_neg hnot, hhalf, hsi, if_neg hcut, e]
        rfl
      · rw [if_pos (by omega)]
        simp [hsi]
      · simp only [hj]
        omega
      · rw [hadd, decide_eq_false (by omega), decide_eq_false (by omega)]
  · -- the new pair goes in, and `i` stays
    subst heq
    rw [if_pos (le_refl _)] at hsi
    obtain ⟨b, bs, rfl⟩ := List.exists_cons_of_ne_nil (show bs ≠ [] by
      rintro rfl
      simp only [List.length_nil] at hlen
      omega)
    have hitem : (as ++ b :: bs)[s.i] = b := by simp [hsi]
    have hall : (as ++ (k, d) :: b :: bs)[as.length] = (k, d) := by simp
    rw [hitem] at hkey
    have hyes : keygreater b.1 k = true ∧ s.slot = s.i :=
      ⟨(keygreater_iff _ _).mpr (hgt b (by simp)), by rw [hs, hsi]⟩
    rw [hsi] at hkey hyes
    by_cases hcut : as.length < P.leafnodemax / 2
    · have hpoint : splitPoint P as = P.leafnodemax / 2 + 1 := if_pos hcut
      obtain ⟨ln', e, h1, h2⟩ := h.place_left hslot (by omega) (by omega)
      rw [hall] at e
      refine ⟨{ s with ln := ln', added := true, i := s.i - 1 }, ?_, ⟨by simp [hs], ?_, ?_, ?_,
        h1, h2⟩⟩
      · simp only [leafSplitBody, hkey, ok_bind, if_pos hyes, hhalf, hsi, if_pos hcut, e]
        rfl
      · rw [if_neg (by omega)]
        simp only [hsi]
        omega
      · simp only [hj]
        omega
      · simp
    · have hpoint : splitPoint P as = P.leafnodemax / 2 := if_neg (by omega)
      obtain ⟨lp', e, h1, h2⟩ := h.place_right hslot (by omega) (by omega)
      rw [hall] at e
      refine ⟨{ s with lp := lp', j := s.j + 1, added := true, i := s.i - 1 }, ?_,
        ⟨by simp [hs], ?_, ?_, ?_, h1, h2⟩⟩
      · simp only [leafSplitBody, hkey, ok_bind, if_pos hyes, hhalf, hsi, if_neg hcut, e]
        rfl
      · rw [if_neg (by omega)]
        simp only [hsi]
        omega
      · simp only [hj]
        omega
      · simp
  · -- after the new pair `slot` is one ahead of `i`: copy
    rw [if_neg (by omega)] at hsi
    have hitem : (as ++ bs)[s.i] = (as ++ (k, d) :: bs)[slot] := by
      simp only [hsi]
      rw [List.getElem_append_right (by omega), List.getElem_append_right (by omega),
        List.getElem_cons, dif_neg (by omega)]
      congr 1
      omega
    have hnot : ¬(keygreater (as ++ (k, d) :: bs)[slot].1 k = true ∧ s.slot = s.i) := by
      rintro ⟨-, he⟩
      omega
    rw [hitem] at hkey hdata
    by_cases hcut : slot < splitPoint P as
    · obtain ⟨ln', e, h1, h2⟩ := h.place_left hslot hcut
        (by unfold splitPoint at hcut; split at hcut <;> omega)
      have hi' : s.i < P.leafnodemax / 2 := by
        unfold splitPoint at hcut
        split at hcut <;> omega
      refine ⟨{ s with ln := ln' }, ?_, ⟨by simp [hs], ?_, ?_, ?_, h1, h2⟩⟩
      · simp only [leafSplitBody, hkey, hdata, ok_bind, if_neg hnot, hhalf, if_pos hi', e]
        rfl
      · rw [if_neg (by omega)]
        simp only [hsi]
        omega
      · simp only [hj]
        omega
      · rw [hadd, decide_eq_true (by omega), decide_eq_true (by omega)]
    · obtain ⟨lp', e, h1, h2⟩ := h.place_right hslot (by omega)
        (by
          simp only [List.length_append, List.length_cons] at hslot
          unfold splitPoint
          split <;> omega)
      have hi' : ¬s.i < P.leafnodemax / 2 := by
        unfold splitPoint at hcut
        split at hcut <;> omega
      refine ⟨{ s with lp := lp', j := s.j + 1 }, ?_, ⟨by simp [hs], ?_, ?_, ?_, h1, h2⟩⟩
      · simp only [leafSplitBody, hkey, hdata, ok_bind, if_neg hnot, hhalf, if_neg hi', e]
        rfl
      · rw [if_neg (by omega)]
        simp only [hsi]
        omega
      · simp only [hj]
        omega
      · rw [hadd, decide_eq_true (by omega), decide_eq_true (by omega)]

theorem leafSplitLoop_spec (hn : LeafIs P n (as ++ bs) r) (hfull : n.slotsinuse = P.leafnodemax)
    (has : 0 < as.length) (hle : ∀ e ∈ as, e.1 ≤ k) (hgt : ∀ e ∈ bs.head?, k < e.1)
    (hcap : 2 ≤ P.leafnodemax) (m : Nat) {slot fuel : Nat} {s : LeafSplit K D}
    (h : LeafSplitInv P (splitPoint P as) as (as ++ (k, d) :: bs) rn rp slot s)
    (hm : slot + m = if as.length = P.leafnodemax then P.leafnodemax else P.leafnodemax + 1)
    (hfuel : m < fuel) :
    ∃ s', leafSplitLoop P n k d fuel s = .ok s' ∧
      LeafSplitInv P (splitPoint P as) as (as ++ (k, d) :: bs) rn rp (slot + m) s' := by
  have hlen : as.length + bs.length = P.leafnodemax := by
    rw [← hfull, hn.inuse]
    simp
  induction m generalizing slot s fuel with
  | zero =>
    obtain ⟨fuel, rfl⟩ : ∃ f, fuel = f + 1 := ⟨fuel - 1, by omega⟩
    refine ⟨s, ?_, h⟩
    have hi : ¬s.i < n.slotsinuse := by
      rw [h.i_eq, hfull]
      split_ifs at hm ⊢ <;> omega
    rw [leafSplitLoop, if_neg hi]
  | succ m ih =>
    obtain ⟨fuel, rfl⟩ : ∃ f, fuel = f + 1 := ⟨fuel - 1, by omega⟩
    have hi : s.i < n.slotsinuse := by
      rw [h.i_eq, hfull]
      split_ifs at hm ⊢ <;> omega
    obtain ⟨s1, e1, h1⟩ := leafSplitBody_spec hn hfull has hle hgt hcap h hi
    obtain ⟨s2, e2, h2⟩ := ih h1 (by omega) (show m < fuel by omega)
    refine ⟨s2, ?_, by rwa [show slot + (m + 1) = slot + 1 + m by omega]⟩
    rw [leafSplitLoop, if_pos hi, e1, ok_bind, e2]

/-- The two new leaves share the merged list of pairs. -/
theorem leafSplit_spec (hn : LeafIs P n (as ++ bs) r) (hfull : n.slotsinuse = P.leafnodemax)
    (has : 0 < as.length) (hle : ∀ e ∈ as, e.1 ≤ k) (hgt : ∀ e ∈ bs.head?, k < e.1)
    (hcap : 2 ≤ P.leafnodemax) (hln : LeafIs P ln [] rn) (hlp : LeafIs P lp [] rp) :
    ∃ ln' lp', leafSplit P n ln lp k d = .ok (ln', lp') ∧
      LeafIs P ln' ((as ++ (k, d) :: bs).take (splitPoint P as)) (rn.drop (splitPoint P as)) ∧
      LeafIs P lp' ((as ++ (k, d) :: bs).drop (splitPoint P as))
        (rp.drop (P.leafnodemax + 1 - splitPoint P as)) := by
  have hlen : as.length + bs.length = P.leafnodemax := by
    rw [← hfull, hn.inuse]
    simp
  have hbs : bs = [] ↔ as.length = P.leafnodemax := by
    rw [← List.length_eq_zero_iff]
    omega
  have hpoint : splitPoint P as ≤ P.leafnodemax / 2 + 1 := by
    unfold splitPoint
    split <;> omega
  have hpoint' : P.leafnodemax / 2 ≤ splitPoint P as := by
    unfold splitPoint
    split <;> omega
  have hstart : LeafSplitInv P (splitPoint P as) as (as ++ (k, d) :: bs) rn rp 0
      ⟨ln, lp, 0, 0, 0, false⟩ :=
    ⟨rfl, by simp, by simp, by simp, by simpa using hln, by simpa using hlp⟩
  obtain ⟨s, e, hs⟩ := leafSplitLoop_spec hn hfull has hle hgt hcap
    (if as.length = P.leafnodemax then P.leafnodemax else P.leafnodemax + 1) hstart (by simp)
    (show _ < n.slotsinuse + 2 by rw [hfull]; split <;> omega)
  rw [Nat.zero_add] at hs
  by_cases hend : bs = []
  · -- the new pair is the largest and comes last
    have has' := hbs.mp hend
    rw [if_pos has'] at hs
    subst hend
    have hadd : s.added = false := by
      rw [hs.added_eq, decide_eq_false (by omega)]
    obtain ⟨lp', e', h1, h2⟩ := hs.place_right (by simp; omega) (by omega) (by omega)
    have hlong : P.leafnodemax < (as ++ [(k, d)]).length := by simp; omega
    have hall : (as ++ [(k, d)])[P.leafnodemax] = (k, d) := by
      simp [← has']
    have htake : (as ++ [(k, d)]).take (P.leafnodemax + 1) = as ++ [(k, d)] :=
      List.take_of_length_le (by simp; omega)
    rw [hall] at e'
    rw [htake, Nat.min_eq_right (by omega)] at h1
    rw [htake] at h2
    refine ⟨s.ln, lp', ?_, h1, h2⟩
    simp only [leafSplit, e, ok_bind, hadd, Bool.false_eq_true, if_false, e']
    rfl
  · rw [if_neg (mt hbs.mpr hend)] at hs
    have hadd : s.added = true := by
      rw [hs.added_eq, decide_eq_true]
      have := mt hbs.mpr hend
      omega
    have h1 := hs.left
    have h2 := hs.right
    have htake : (as ++ (k, d) :: bs).take (P.leafnodemax + 1) = as ++ (k, d) :: bs :=
      List.take_of_length_le (by simp; omega)
    rw [htake, Nat.min_eq_right (by omega)] at h1
    rw [htake] at h2
    refine ⟨s.ln, s.lp, ?_, h1, h2⟩
    simp only [leafSplit, e, ok_bind, hadd, if_true]
    rfl

/-- A new key in front of a full leaf of four keys is stored twice, and the first key is lost: `i`
cannot move back behind `0`. -/
theorem leafSplit_front {e₀ e₁ e₂ e₃ : K × D} (hn : LeafIs P n [e₀, e₁, e₂, e₃] r)
    (hcap : P.leafnodemax = 4) (hk₀ : k < e₀.1) (hk₁ : k < e₁.1)
    (hln : LeafIs P ln [] rn) (hlp : LeafIs P lp [] rp) :
    ∃ ln' lp', leafSplit P n ln lp k d = .ok (ln', lp') ∧
      LeafIs P ln' [(k, d), (k, d), e₁] rn.tail.tail.tail ∧ LeafIs P lp' [e₂, e₃] rp.tail.tail := by
  have hin : n.slotsinuse = 4 := hn.inuse
  -- the two new leaves are filled from left to right
  obtain ⟨l₁, a₁, h₁⟩ := insertLeafSlotsAt_end hln (by simp [hcap]) k d (i := 0) rfl
  obtain ⟨l₂, a₂, h₂⟩ := insertLeafSlotsAt_end h₁ (by simp [hcap]) k d (i := 1) rfl
  obtain ⟨l₃, a₃, h₃⟩ := insertLeafSlotsAt_end h₂ (by simp [hcap]) e₁.1 e₁.2 (i := 2) rfl
  obtain ⟨p₁, b₁, g₁⟩ := insertLeafSlotsAt_end hlp (by simp [hcap]) e₂.1 e₂.2 (i := 0) rfl
  obtain ⟨p₂, b₂, g₂⟩ := insertLeafSlotsAt_end g₁ (by simp [hcap]) e₃.1 e₃.2 (i := 1) rfl
  have k₀ : load n.keySlots 0 = .ok e₀.1 := hn.load_key (i := 0) (by simp)
  have k₁ : load n.keySlots 1 = .ok e₁.1 := hn.load_key (i := 1) (by simp)
  have k₂ : load n.keySlots 2 = .ok e₂.1 := hn.load_key (i := 2) (by simp)
  have k₃ : load n.keySlots 3 = .ok e₃.1 := hn.load_key (i := 3) (by simp)
  have d₁ : load n.dataSlots 1 = .ok e₁.2 := hn.load_data (i := 1) (by simp)
  have d₂ : load n.dataSlots 2 = .ok e₂.2 := hn.load_data (i := 2) (by simp)
  have d₃ : load n.dataSlots 3 = .ok e₃.2 := hn.load_data (i := 3) (by simp)
  refine ⟨l₃, p₂, ?_, h₃, g₂⟩
  simp only [Int.cast_ofNat_Int] at a₁ a₂ a₃ b₁ b₂
  simp [leafSplit, leafSplitLoop, leafSplitBody, hin, hk₀, hk₁, k₀, k₁, k₂, k₃, d₁, d₂, d₃,
    a₁, a₂, a₃, b₁, b₂]

end Split

end NwtBTree
