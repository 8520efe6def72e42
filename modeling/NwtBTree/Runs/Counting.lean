import Mathlib.Algebra.GroupWithZero.Nat
import NwtBTree.Refine.Content
import NwtBTree.Runs.Mixed

/-!
# The count of the stored pairs

`totalkeycount` is decremented for a pair that a merge refuses as a duplicate only
once, and a tree that has lost its last pair keeps its root, so that it is not
`empty()` any more.
-/

namespace NwtBTree

variable {K D : Type} [LinearOrder K] {P : Template K D}

namespace BTree

/-- The live slots of the leaves under the root, summed up. -/
def liveSlots (t : BTree K D) : Except Fault Nat :=
  match t.root with
  | none => .ok 0
  | some r => do return ((← t.leavesUnder t.fuel r).map fun l => l.body.slotsinuse).sum

/-- A call that takes a pair away loses no other one, and it is not the last one. -/
def keepsCount (P : Template K D) (t : BTree K D) (q : Request K D) : Except Fault Bool := do
  match ← t.target P q with
  | none => return true
  | some (a, ks) => return (← t.joinsAll P a ks) && decide (1 < t.totalkeycount)

end BTree

section Step

variable {t t' : BTree K D} {T T' : (n : Nat) × MTree K D n} {q : Request K D}

/-- The counter follows the number of keys. -/
structure Tallied (g : List K) (t : BTree K D) (T : (n : Nat) × MTree K D n) : Prop where
  count : t.totalkeycount = (allKeys LeafSlots.keys T.2.inorder).length % 4294967296
  pos : 0 < (allKeys LeafSlots.keys T.2.inorder).length
  le : (allKeys LeafSlots.keys T.2.inorder).length ≤ g.length

omit [LinearOrder K] in
/-- The live slots of the leaves hold the keys. -/
theorem Rep.sum_slotsinuse {n : Nat} {T : MTree K D n} (h : Rep P t.view T) :
    ((tips T.inorder).map fun l => l.body.slotsinuse).sum =
      (allKeys LeafSlots.keys T.inorder).length := by
  rw [allKeys, List.length_flatMap]
  refine congrArg List.sum (List.map_congr_left fun l hl => ?_)
  exact (h.holds.tip h.paired hl).2.length_keys.symm

omit [LinearOrder K] in
theorem BTree.Reachable.root_ne {d : Nat} {a : Addr} (h : t.Reachable d a) : t.root ≠ none := by
  induction h with
  | root hroot => simp [hroot]
  | child _ _ _ ih => exact ih

omit [LinearOrder K] in
/-- No counter of a node exceeds the capacity. -/
theorem Rep.slotsinuse_le {n : Nat} {T : MTree K D n} (h : Rep P t.view T) {d : Nat} {a : Addr}
    (hr : t.Reachable d a) : (∀ l, t.leaf a = .ok l → l.slotsinuse ≤ P.leafnodemax) ∧
      ∀ i, t.inner a = .ok i → i.slotsinuse ≤ P.innernodemax := by
  obtain ⟨m, S, -, rfl, hS, hp⟩ := h.subtree hr
  cases m with
  | zero =>
    have hleaf := BTree.leaf_eq hS.1
    have hinner := BTree.inner_leaf hS.1
    refine ⟨fun l hl => ?_, fun i hi => ?_⟩
    · obtain rfl := Except.ok.inj (hleaf.symm.trans hl)
      exact hS.2.inuse
    · cases hinner.symm.trans hi
  | succ m =>
    obtain ⟨a, ks, cs⟩ := S
    obtain ⟨⟨s, hs, hin⟩, -⟩ := hS
    have hinner := BTree.inner_eq hs
    refine ⟨fun l hl => ?_, fun i hi => ?_⟩
    · have hleaf := BTree.leaf_inner hs
      cases hleaf.symm.trans hl
    · obtain rfl := Except.ok.inj (hinner.symm.trans hi)
      obtain ⟨r, hr⟩ := hin.keys
      have hcap := hin.keyCap
      rw [hr, List.length_append] at hcap
      have := hin.inuse
      show s.slotsinuse ≤ _
      omega

theorem First.tallied {k : K} (h : First P t' k T') : Tallied [k] t' T' := by
  refine ⟨?_, ?_, ?_⟩ <;> simp [h.keys, h.count]

/-- A removal that loses nothing else leaves one key less. -/
theorem Removal.length_allKeys (hP : P.Four) {c : MCtx K D 0} {a : Addr} {s s' : LeafSlots K D}
    (h : Kept P t (c.fill (.leaf a s))) (hc : c.Paired) (hr : Removal P t t' c a s s' T')
    (hlost : ¬c.Loses s') : (allKeys LeafSlots.keys T'.2.inorder).length + 1 =
      (allKeys LeafSlots.keys (c.fill (.leaf a s)).2.inorder).length := by
  obtain ⟨hleft, hright⟩ := h.beside hc
  have heven := hr.even.evened hc hr.ok hP (fun l hl => (hleft l hl).1) hright
  have hs : s.keys.length = s.slotsinuse := h.leaf.2.length_keys
  have hs' : s'.keys.length = s'.slotsinuse := hr.ok.length_keys
  have hless := hr.less
  rw [heven.allKeys_eq hlost, Ctx.inorder_fill_leaf hc]
  simp only [allKeys_append, allKeys_inr, List.length_append]
  omega

omit [LinearOrder K] in
theorem Removal.count (hr : ∃ c a s s', Removal P t t' c a s s' T') :
    t'.totalkeycount = (t.totalkeycount + 4294967295) % 4294967296 := by
  obtain ⟨c, a, s, s', hr⟩ := hr
  rw [← BTree.count_view, hr.even.count]

theorem Change.tallied (hP : P.Four) (h : Kept P t T) {g : List K} (hR : Tallied g t T)
    (hkeeps : t.keepsCount P q = .ok true) (hch : Change P t T q t' T') :
    Tallied (g ++ q.newKey.toList) t' T' := by
  obtain ⟨hcount, hpos, hle⟩ := hR
  cases hch with
  | none _ hnew => exact ⟨hcount, hpos, by rw [List.length_append]; omega⟩
  | grown hnew hx =>
    have hlen := congrArg List.length hx.keys
    rw [List.length_append, List.length_singleton] at hlen
    refine ⟨?_, by omega, ?_⟩
    · rw [hx.count, hcount, hlen, Nat.mod_add_mod]
    · rw [hnew, List.length_append, Option.toList_some, List.length_singleton]
      omega
  | shrunk hnew hT hc htarget hr =>
    subst hT
    simp only [BTree.keepsCount, htarget, ok_bind] at hkeeps
    obtain ⟨b, hb, hmany⟩ := bind_eq_ok.mp hkeeps
    obtain ⟨rfl, hmore⟩ := Bool.and_eq_true_iff.mp (Except.ok.inj hmany)
    replace hmore := of_decide_eq_true hmore
    have hlen := hr.length_allKeys hP h hc (not_loses_of_joinsAll hP h.rep hr.less hb)
    refine ⟨?_, by omega, ?_⟩
    · rw [Removal.count ⟨_, _, _, _, hr⟩, hcount]
      omega
    · rw [List.length_append]
      omega

end Step

variable [DecidableEq D]

/-- The run goes through, `size()` is the number of live slots, no counter has wrapped, and only a
tree of size `0` is empty. -/
def CountsRight (P : Template K D) (qs : List (Request K D)) : Prop :=
  ∃ rs t n, run (BTree.perform P) BTree.init qs = .ok (rs, t) ∧ t.liveSlots = .ok n ∧ t.size = n ∧
    t.totalkeycount = n ∧
    (∀ d a, t.Reachable d a → (∀ l, t.leaf a = .ok l → l.slotsinuse ≤ P.leafnodemax) ∧
      ∀ i, t.inner a = .ok i → i.slotsinuse ≤ P.innernodemax) ∧
    (t.empty = true ↔ t.size = 0)

theorem counts_right (hinner : P.nodeslots = 4) (hleaf : P.leafslots = 4) {qs : List (Request K D)}
    (hasc : AscendingKeys qs) (hlen : qs.length < 2147483648)
    (h : EachCall P (fun t q => t.canPerform P q = .ok true ∧ t.keepsCount P q = .ok true) qs) :
    CountsRight P qs := by
  have hP : P.Four := ⟨hinner, hleaf⟩
  obtain ⟨rs, t, e, hT⟩ := tended_run (R := Tallied) hP And.left First.tallied
    (fun hkept hR hcond hch => hch.tallied hP hkept hR hcond.2) hasc h
  have hnew := List.length_filterMap_le Request.newKey qs
  generalize qs.filterMap Request.newKey = g at hT hnew
  refine ⟨rs, t, ?_⟩
  cases hT with
  | empty hroot hcount =>
    refine ⟨0, e, by simp [BTree.liveSlots, hroot], by simp [BTree.size, hcount], hcount, ?_, ?_⟩
    · intro d a hr
      exact absurd hroot hr.root_ne
    · simp [BTree.empty, hroot, BTree.size, hcount]
  | @kept _ T hkept hkeys hseps hR =>
    obtain ⟨hcount, hpos, hle⟩ := hR
    have hroot : t.root = some T.2.addr := hkept.rep.root
    have htotal : t.totalkeycount = (allKeys LeafSlots.keys T.2.inorder).length := by
      rw [hcount]
      exact Nat.mod_eq_of_lt (by omega)
    have hsize : t.size = (allKeys LeafSlots.keys T.2.inorder).length := by
      rw [BTree.size, if_pos (by omega), htotal]
    refine ⟨_, e, ?_, hsize, htotal, fun d a hr => ?_, ?_⟩
    · have hlive := BTree.leavesUnder_eq hkept.rep.holds hkept.rep.paired hkept.rep.height_lt
      simp only [BTree.liveSlots, hroot, hlive, ok_bind]
      exact congrArg Except.ok hkept.rep.sum_slotsinuse
    · exact hkept.rep.slotsinuse_le hr
    · simp only [BTree.empty, hroot, hsize, Option.isNone_some, Bool.false_eq_true, false_iff]
      omega

theorem counts_right_eight : CountsRight (Template.plain 4) [.insert 1 10, .insert 2 20,
    .insert 3 30, .insert 4 40, .insert 5 50, .erase 2, .deletePair 4 40, .erase 5] :=
  counts_right rfl rfl (by unfold AscendingKeys; decide) (by decide) (show EachCall _ _ _ from by
    unfold EachCall; decide +kernel)

/-- The root leaf stays behind when its only pair goes. -/
theorem not_counts_right : ¬CountsRight (Template.plain 4) [.insert 1 10, .erase 1] := by
  rintro ⟨rs, t, n, e, -, -, -, -, hempty⟩
  have h : (run (BTree.perform (Template.plain 4)) BTree.init [.insert 1 10, .erase 1]).map
      (fun r => (r.2.empty, r.2.size)) = .ok (false, 0) := by decide +kernel
  rw [e] at h
  obtain ⟨hf, hs⟩ := Prod.mk.inj (Except.ok.inj h)
  change t.empty = false at hf
  rw [hf, show t.size = 0 from hs] at hempty
  simp at hempty

end NwtBTree
