import NwtBTree.Calls.Lookup
import NwtBTree.Refine.Scatter

/-!
# The split of a full leaf

The loop keeps two counters and moves `i` back by one after it has placed the
new pair. In front of slot 0 it cannot (`if (i > 0) i--`): the new pair is then
placed twice and the first pair of the leaf is lost.
-/

namespace NwtBTree

variable {K D : Type} [LinearOrder K] {P : Template K D}

/-- The leaves `ln` and `lp` hold the pairs of `n` and the new one in ascending order, at least two
each, and slot 0 of `lp`, which `insert` passes up, is the first key of `lp`. -/
structure SplitsWell (n : LeafSlots K D) (k : K) (d : D) (ln lp : LeafSlots K D) : Prop where
  pairs : (ln.entries ++ lp.entries).Perm ((k, d) :: n.entries)
  sorted : ((ln.entries ++ lp.entries).map Prod.fst).Pairwise (· < ·)
  left : 2 ≤ ln.slotsinuse
  right : 2 ≤ lp.slotsinuse
  passedUp : ∃ kp, load lp.keySlots 0 = .ok kp ∧ lp.entries.head?.map Prod.fst = some kp

variable {n : LeafSlots K D} {k : K}

/-- Cut the leaf at the new key. -/
theorem exists_cut_lt {es : List (K × D)} (hs : (es.map Prod.fst).Pairwise (· < ·))
    (hk : k ∉ es.map Prod.fst) :
    ∃ as bs, es = as ++ bs ∧ (∀ e ∈ as, e.1 < k) ∧ ∀ e ∈ bs, k < e.1 := by
  induction es with
  | nil => exact ⟨[], [], rfl, by simp, by simp⟩
  | cons e es ih =>
    simp only [List.map_cons, List.pairwise_cons, List.mem_cons, not_or] at hs hk
    rcases lt_or_gt_of_ne hk.1 with hlt | hgt
    · refine ⟨[], e :: es, rfl, by simp, List.forall_mem_cons.mpr ⟨hlt, fun e' he' => ?_⟩⟩
      exact lt_trans hlt (hs.1 _ (List.mem_map_of_mem he'))
    · obtain ⟨as, bs, rfl, has, hbs⟩ := ih hs.2 hk.2
      exact ⟨e :: as, bs, rfl, List.forall_mem_cons.mpr ⟨hgt, has⟩, hbs⟩

/-- The split of a full leaf keeps all pairs exactly if the new key is not the first. -/
theorem splits_well (hleaf : P.leafslots = 4) (hok : LeafOK P n) (hfull : n.isfull P = true)
    (hsort : n.keys.Pairwise (· < ·)) (hk : k ∉ n.keys) (a b : Addr) (d : D) :
    (∃ ln lp, leafSplit P n (LeafNode.fresh P a).toLeafSlots (LeafNode.fresh P b).toLeafSlots k d =
        .ok (ln, lp) ∧ SplitsWell n k d ln lp) ↔ ∀ x ∈ n.keys.head?, x < k := by
  have hcap : P.leafnodemax = 4 := by rw [Template.leafnodemax, hleaf]
  have hs := hok.leafIs
  have hlen : n.entries.length = 4 := by rw [hs.isfull_iff.mp hfull, hcap]
  rw [hs.keys_eq] at hsort hk ⊢
  obtain ⟨as, bs, hcut, has, hbs⟩ := exists_cut_lt hsort hk
  rw [hcut] at hs hlen ⊢
  have hsum : as.length + bs.length = 4 := by simpa using hlen
  have hmerge : ((as ++ (k, d) :: bs).map Prod.fst).Pairwise (· < ·) := by
    rw [hcut, List.map_append] at hsort
    simp only [List.map_append, List.map_cons]
    refine pairwise_insert lt_trans hsort (by simpa using has) fun y hy => ?_
    obtain ⟨e, he, rfl⟩ := List.mem_map.mp (List.mem_of_mem_head? hy)
    exact hbs e he
  by_cases hnil : as = []
  · -- the new key is in front of slot 0
    subst hnil
    obtain ⟨e₀, e₁, e₂, e₃, rfl⟩ : ∃ e₀ e₁ e₂ e₃, bs = [e₀, e₁, e₂, e₃] := by
      match bs, (show bs.length = 4 by simpa using hsum) with
      | [e₀, e₁, e₂, e₃], _ => exact ⟨e₀, e₁, e₂, e₃, rfl⟩
    have hk₀ : k < e₀.1 := hbs e₀ (by simp)
    obtain ⟨sln, slp, e, h1, -⟩ := leafSplit_front (d := d) hs hcap hk₀ (hbs e₁ (by simp))
      (LeafIs.fresh P a) (LeafIs.fresh P b)
    constructor
    · rintro ⟨ln, lp, e', hwell⟩
      obtain ⟨rfl, rfl⟩ : sln = ln ∧ slp = lp := by simpa [e] using e'
      have hsorted := hwell.sorted
      rw [h1.entries_eq] at hsorted
      simp at hsorted
    · intro hfirst
      exact absurd (hfirst e₀.1 (by simp)) (not_lt.mpr (le_of_lt hk₀))
  · have hpos : 0 < as.length := List.length_pos_iff.mpr hnil
    obtain ⟨sln, slp, e, h1, h2⟩ := leafSplit_spec (d := d) hs
      (by simpa [LeafSlots.isfull] using hfull) hpos (fun e he => le_of_lt (has e he))
      (fun e he => hbs e (List.mem_of_mem_head? he)) (by omega) (LeafIs.fresh P a)
      (LeafIs.fresh P b)
    have hpoint : splitPoint P as = 2 ∨ splitPoint P as = 3 := by
      unfold splitPoint
      split <;> omega
    have hall : (as ++ (k, d) :: bs).length = 5 := by
      rw [List.length_append, List.length_cons]
      omega
    have hlt : splitPoint P as < (as ++ (k, d) :: bs).length := by omega
    constructor
    · intro _ x hx
      obtain ⟨e₀, as, rfl⟩ := List.exists_cons_of_ne_nil hnil
      obtain rfl : e₀.1 = x := by simpa using hx
      exact has e₀ (by simp)
    · intro _
      refine ⟨sln, slp, e, ?_, ?_, ?_, ?_, _, h2.load_key (i := 0) ?_, ?_⟩
      · rw [h1.entries_eq, h2.entries_eq, List.take_append_drop, hcut]
        exact List.perm_middle
      · rw [h1.entries_eq, h2.entries_eq, List.take_append_drop]
        exact hmerge
      · rw [h1.inuse, List.length_take]
        omega
      · rw [h2.inuse, List.length_drop]
        omega
      · rw [List.length_drop]
        omega
      · rw [h2.entries_eq, List.head?_eq_getElem?, List.getElem?_eq_getElem]
        rfl

/-- A full leaf. -/
def fullLeaf : LeafSlots Nat String := ⟨4, 4, [2, 4, 6, 8], ["b", "d", "f", "h"]⟩

theorem splits_well_five : ∃ ln lp, leafSplit Template.strings fullLeaf
    (LeafNode.fresh Template.strings 7).toLeafSlots (LeafNode.fresh Template.strings 8).toLeafSlots
      5 "e" = .ok (ln, lp) ∧ SplitsWell fullLeaf 5 "e" ln lp :=
  (splits_well rfl ⟨rfl, by decide, rfl, rfl⟩ rfl (by decide) (by decide) 7 8 "e").mpr (by decide)

/-- The key 1 is placed twice and the key 2 is lost. -/
theorem not_splits_well : ¬∃ ln lp, leafSplit Template.strings fullLeaf
    (LeafNode.fresh Template.strings 7).toLeafSlots (LeafNode.fresh Template.strings 8).toLeafSlots
      1 "a" = .ok (ln, lp) ∧ SplitsWell fullLeaf 1 "a" ln lp := by
  rintro ⟨ln, lp, e, h⟩
  have hsplit : (do
      let (ln, lp) ← leafSplit Template.strings fullLeaf
        (LeafNode.fresh Template.strings 7).toLeafSlots
        (LeafNode.fresh Template.strings 8).toLeafSlots 1 "a"
      return (ln.entries ++ lp.entries).map Prod.fst) = .ok [1, 1, 4, 6, 8] := by decide +kernel
  rw [e] at hsplit
  have hsorted := h.sorted
  rw [show _ = [1, 1, 4, 6, 8] from Except.ok.inj hsplit] at hsorted
  simp at hsorted

end NwtBTree
