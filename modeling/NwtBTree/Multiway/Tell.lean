import NwtBTree.Multiway.Shrink

/-!
# Telling a node from the next one

A node that is left too small is looked up from above by its first separator. Where
keys are repeated this can be equal to the separator behind the node, and then the
search ends at a node further right. `Told` is what the repair of a node asks of the
separators: the node is found, and so are those above it that lose a child in turn.
-/

namespace NwtBTree

variable {A K L : Type}

/-- Of several equal keys in a row it does not matter which one goes. -/
theorem exists_first_cut [LinearOrder K] {ksL ksR : List K} {k : K}
    (h : (ksL ++ k :: ksR).Pairwise (· ≤ ·)) :
    ∃ kL kR, kL ++ k :: kR = ksL ++ k :: ksR ∧ kL ++ kR = ksL ++ ksR ∧ k ∉ kL := by
  by_cases hk : k ∈ ksL
  · obtain ⟨kL, kM, rfl, hnot⟩ := List.eq_append_cons_of_mem hk
    -- what lies between two of them is equal to both
    have hM : kM = List.replicate kM.length k := by
      refine List.eq_replicate_of_mem fun y hy => ?_
      obtain ⟨hL, -, hLR⟩ := List.pairwise_append.mp h
      have hle := (List.pairwise_cons.mp (List.pairwise_append.mp hL).2.1).1 y hy
      exact le_antisymm (hLR y (by simp [hy]) k (by simp)) hle
    have hshift : kM ++ k :: ksR = k :: kM ++ ksR := by
      rw [hM, ← List.replicate_succ, List.replicate_succ', List.append_assoc]
      rfl
    refine ⟨kL, kM ++ k :: ksR, by simp, ?_, hnot⟩
    rw [hshift]
    simp
  · exact ⟨ksL, ksR, rfl, rfl, hk⟩

/-- The number of children. -/
def Tree.width : {n : Nat} → Tree A K L n → Nat
  | 0, _ => 0
  | _ + 1, t => (Branch.children t).length

@[simp] theorem Tree.width_node {n : Nat} (a : A) (ks : List K) (cs : List (Tree A K L n)) :
    (Tree.node a ks cs).width = cs.length := rfl

namespace Ctx

variable {cap n : Nat} {up : Ctx A K L (n + 1)} {b : A} {ks ksL ksR : List K}
  {csL csR : List (Tree A K L n)}

section Sublist

/-- The separators of a frame are among those on the two sides. -/
theorem sublist_frame (hc : (frame up b ksL csL ksR csR).Paired) :
    (ksL ++ ks ++ ksR).Sublist (seps (frame up b ksL csL ksR csR).left ++ ks ++
      seps (frame up b ksL csL ksR csR).right) := by
  obtain ⟨hL, hR, -⟩ := hc
  rw [left_frame, right_frame, seps_append, seps_append]
  exact (((sublist_seps_before hL).trans (List.sublist_append_right _ _)).append_right ks).append
    ((sublist_seps_after hR).trans (List.sublist_append_left _ _))

/-- The separators of the node above, seen from there. -/
theorem sublist_above (hc : (frame up b ksL csL ksR csR).Paired) :
    (seps up.left ++ (ksL ++ ksR) ++ seps up.right).Sublist
      (seps (frame up b ksL csL ksR csR).left ++ ks ++
        seps (frame up b ksL csL ksR csR).right) := by
  obtain ⟨hL, hR, -⟩ := hc
  rw [left_frame, right_frame, seps_append, seps_append]
  have hleft := (sublist_seps_before hL).append_left (seps up.left)
  have hright := (sublist_seps_after hR).append_right (seps up.right)
  have hall := (hleft.trans (List.sublist_append_left _ ks)).append hright
  simpa only [List.append_assoc] using hall

end Sublist

variable [LinearOrder K]

/-- The node in the hole is left with the separators `ks`. If that is too few, the first of them
tells it from the node behind it, and the node above is told in turn if it loses a child. -/
def Told (cap : Nat) : {n : Nat} → Ctx A K L n → List K → Prop
  | _, top, _ => True
  | _, frame up _ ksL csL ksR csR, ks =>
    (ksL ++ ks ++ ksR).Pairwise (· ≤ ·) ∧ (ks.length < cap / 2 →
      (∀ z ∈ ks.head?, ∀ y ∈ ksR.head?, z < y) ∧
      (∀ q ∈ csR.head?, ks.length + 1 + q.width ≤ cap + 1 → up.Told cap (ksL ++ ksR.tail)) ∧
      (csR = [] → ∀ q ∈ csL.getLast?, q.width + (ks.length + 1) ≤ cap + 1 →
        up.Told cap (ksL ++ ksR).dropLast))

@[simp] theorem told_top (ks : List K) : (top : Ctx A K L n).Told cap ks := trivial

theorem told_frame : (frame up b ksL csL ksR csR).Told cap ks ↔
    (ksL ++ ks ++ ksR).Pairwise (· ≤ ·) ∧ (ks.length < cap / 2 →
      (∀ z ∈ ks.head?, ∀ y ∈ ksR.head?, z < y) ∧
      (∀ q ∈ csR.head?, ks.length + 1 + q.width ≤ cap + 1 → up.Told cap (ksL ++ ksR.tail)) ∧
      (csR = [] → ∀ q ∈ csL.getLast?, q.width + (ks.length + 1) ≤ cap + 1 →
        up.Told cap (ksL ++ ksR).dropLast)) := Iff.rfl

/-- Where no separator is repeated every node is told. -/
theorem told_of_sorted {n : Nat} {c : Ctx A K L n} (hc : c.Paired) {ks : List K}
    (h : (seps c.left ++ ks ++ seps c.right).Pairwise (· < ·)) : c.Told cap ks := by
  induction c generalizing ks with
  | top => trivial
  | frame up b ksL csL ksR csR ih =>
    have hframe := h.sublist (sublist_frame hc)
    have habove := h.sublist (sublist_above hc)
    have hup := hc.2.2.2.2.2
    refine ⟨hframe.imp le_of_lt, fun _ => ⟨fun z hz y hy => ?_, fun q _ _ => ?_, fun _ q _ _ => ?_⟩⟩
    · exact (List.pairwise_append.mp hframe).2.2 z
        (List.mem_append_right _ (List.mem_of_mem_head? hz)) y (List.mem_of_mem_head? hy)
    · exact ih hup (habove.sublist
        ((((List.tail_sublist ksR).append_left ksL).append_left _).append_right _))
    · exact ih hup (habove.sublist (((List.dropLast_sublist _).append_left _).append_right _))

end Ctx

end NwtBTree
