import NwtBTree.Multiway.Height
import NwtBTree.Runs.Descend
import NwtBTree.Runs.Mixed

/-!
# The length of the descents

Every inner node but the root has three to five children, and every leaf two to four
pairs. So the height of the tree, which is how often the descent loop of `find` is
entered, grows with the logarithm of the number of pairs.
-/

namespace NwtBTree

variable {K D : Type} {P : Template K D}

theorem Rep.le_pow (hP : P.Four) {v : View K D} {n : Nat} {T : MTree K D n} (h : Rep P v T) :
    (pairs T.inorder).length ≤ 4 * 5 ^ n := by
  have hin := hP.innernodemax
  have hlf := hP.leafnodemax
  have htips := h.holds.each.tips_le_pow (b := 5) (fun hi => by omega) h.paired
  have hleaves : (pairs T.inorder).length ≤ (tips T.inorder).length * 4 := by
    refine length_flatMap_le_mul fun l hl => ?_
    obtain ⟨-, hok⟩ := h.holds.tip h.paired hl
    have := hok.inuse
    rw [hok.leafIs.inuse] at this
    omega
  omega

variable [LinearOrder K] {t : BTree K D} {T : (n : Nat) × MTree K D n}

/-- A tree of height `h` has at least `4 * 3 ^ (h - 1)` pairs, unless it is a leaf. -/
theorem Kept.pow_le (hP : P.Four) (h : Kept P t T) {n : Nat} (hn : T.1 = n + 1) :
    4 * 3 ^ n ≤ (pairs T.2.inorder).length := by
  obtain ⟨m, T⟩ := T
  obtain rfl : m = n + 1 := hn
  have hin := hP.innernodemax
  have htips := h.bushy.pow_le_tips (b := 3) (fun hi => by omega) h.rep.paired
  have hleaves : (tips T.inorder).length * 2 ≤ (pairs T.inorder).length := by
    refine mul_le_length_flatMap fun l hl => ?_
    have hs := (h.rep.holds.tip h.rep.paired hl).2.leafIs
    rw [← hs.inuse]
    refine (h.least l hl).resolve_right fun hone => ?_
    have hpos : 0 < 3 ^ n := Nat.pow_pos (by decide)
    rw [hone] at htips
    simp only [tips_inr, tips_nil, List.length_singleton] at htips
    omega
  change 2 * 3 ^ n ≤ (tips T.inorder).length at htips
  show 4 * 3 ^ n ≤ (pairs T.inorder).length
  omega

variable [DecidableEq D]

/-- After every run of inserts with ascending keys, lookups and removals, each descent takes as many
iterations as the tree has levels below the root, and the stored pairs are exponentially many in
that number. -/
theorem descents_short (hinner : P.nodeslots = 4) (hleaf : P.leafslots = 4)
    {qs : List (Request K D)} (hasc : AscendingKeys qs)
    (h : EachCall P (fun t q => t.canPerform P q = .ok true) qs) :
    ∃ rs t es, run (BTree.perform P) BTree.init qs = .ok (rs, t) ∧ t.content = .ok es ∧
      ∀ r, t.root = some r → ∃ height, t.DescentEnds r height ∧
        (0 < height → 4 * 3 ^ (height - 1) ≤ es.length) ∧ es.length ≤ 4 * 5 ^ height := by
  have hP : P.Four := ⟨hinner, hleaf⟩
  obtain ⟨rs, t, e, hT⟩ := tended_run (R := fun _ _ _ => True) hP id (fun _ => trivial)
    (fun _ _ _ _ => trivial) hasc h
  generalize qs.filterMap Request.newKey = g at hT
  cases hT with
  | empty hroot _ => exact ⟨rs, t, [], e, by rw [BTree.content, hroot], fun r hr => by simp_all⟩
  | @kept _ T hkept _ _ _ =>
    refine ⟨rs, t, _, e, content_eq hkept.rep, fun r hr => ?_⟩
    obtain rfl : T.2.addr = r := Option.some.inj (hkept.rep.root.symm.trans hr)
    refine ⟨T.1, BTree.descentEnds hkept.rep, fun hpos => ?_, hkept.rep.le_pow hP⟩
    exact hkept.pow_le hP (Nat.sub_add_cancel hpos).symm

theorem descents_short_nine : ∃ rs t es, run (BTree.perform (Template.plain 4)) BTree.init
    [.insert 1 10, .insert 2 20, .insert 3 30, .insert 4 40, .insert 5 50, .insert 6 60,
      .insert 7 70, .erase 6, .existsKey 3] = .ok (rs, t) ∧ t.content = .ok es ∧
      ∀ r, t.root = some r → ∃ height, t.DescentEnds r height ∧
        (0 < height → 4 * 3 ^ (height - 1) ≤ es.length) ∧ es.length ≤ 4 * 5 ^ height :=
  descents_short rfl rfl (by unfold AscendingKeys; decide) (show EachCall _ _ _ from by
    unfold EachCall; decide +kernel)

end NwtBTree
