import NwtBTree.Refine.EraseLeaf
import NwtBTree.Runs.Mixed

/-!
# Erasing a key that is not stored

`findKeyEqual` answers `slotsinuse` when it finds nothing, and `erase` compares with the
slot there, whatever the run has left in it.
-/

namespace NwtBTree

variable {K D : Type} [LinearOrder K] [DecidableEq D] {P : Template K D}

omit [DecidableEq D] in
/-- The leaf that `find` ends at has a slot behind the used ones, with another key. -/
def BTree.tellsAbsent (P : Template K D) (t : BTree K D) (k : K) : Except Fault Bool := do
  match ← t.find P k with
  | none => return true
  | some a =>
    let l ← t.leaf a
    return l.beyond.any (· ≠ k)

section Leaf

variable {t : BTree K D} {k : K} {a : Addr} {l : LeafNode K D}

/-- An `erase` that finds the key does not answer -1. -/
theorem erase_hit (hfind : t.find P k = .ok (some a)) (hl : t.leaf a = .ok l) {i : Nat}
    (hloc : findKeyEqual l.toLeafSlots k = .ok i) (hload : load l.keySlots i = .ok k)
    (t' : BTree K D) :
    t.erase P k ≠ .ok (-1, t') := by
  intro h
  have hrefl : keyequal k k = true := (keyequal_iff k k).mpr rfl
  simp only [BTree.erase, hfind, ok_bind, hl, hloc, hload, hrefl, if_true] at h
  obtain ⟨keys, -, h⟩ := bind_eq_ok.mp h
  obtain ⟨t₁, -, h⟩ := bind_eq_ok.mp h
  split at h
  · cases h
  · obtain ⟨t₂, -, h⟩ := bind_eq_ok.mp h
    cases h

/-- `erase` where no used slot holds the key. -/
theorem erase_iff_beyond (hfind : t.find P k = .ok (some a)) (hl : t.leaf a = .ok l)
    (hnone : ∀ i, scan (keyequal · k) l.keySlots l.slotsinuse 0 ≠ .ok (some i)) :
    (t.erase P k = .ok (-1, t) ↔ l.beyond.any (· ≠ k) = true) ∧
      ∀ t', t.erase P k = .ok (-1, t') → t' = t := by
  cases hscan : scan (keyequal · k) l.keySlots l.slotsinuse 0 with
  | error e =>
    -- the slots in use reach behind the array
    have hbeyond : l.beyond = none :=
      List.getElem?_eq_none (by simpa using (length_lt_of_scan hscan).le)
    have herase : t.erase P k = .error e := by
      simp only [BTree.erase, hfind, ok_bind, hl, findKeyEqual, hscan, error_bind]
    simp [herase, hbeyond]
  | ok r =>
    cases r with
    | some i => exact absurd hscan (hnone i)
    | none =>
      have hloc : findKeyEqual l.toLeafSlots k = .ok l.slotsinuse := by
        simp [findKeyEqual, hscan]
      cases hbeyond : l.beyond with
      | none =>
        have hload : load l.keySlots l.slotsinuse = .error .outOfRange := by
          rw [load, show l.keySlots[l.slotsinuse]? = none from hbeyond]
        simp only [BTree.erase, hfind, ok_bind, hl, hloc, hload, error_bind]
        simp
      | some y =>
        have hload : load l.keySlots l.slotsinuse = .ok y := load_of_getElem? hbeyond
        by_cases hy : y = k
        · subst hy
          have hhit := erase_hit hfind hl hloc hload
          exact ⟨⟨fun h => absurd h (hhit t), by simp⟩, fun t' h => absurd h (hhit t')⟩
        · have hne : keyequal k y = false := by
            rw [Bool.eq_false_iff, Ne, keyequal_iff]
            exact Ne.symm hy
          simp only [BTree.erase, hfind, ok_bind, hl, hloc, hload, hne, Bool.false_eq_true,
            if_false]
          simp [hy]

end Leaf

/-- In every state that a run ends in, `erase` of a key that is not stored (such a key is not found
either) answers -1 and changes nothing where the slot behind the used ones tells that it is not. -/
theorem erase_absent (qs : List (Request K D)) :
    ∀ rs t, run (BTree.perform P) BTree.init qs = .ok (rs, t) →
      ∀ k, t.existsKey P k ≠ .ok true →
        (t.erase P k = .ok (-1, t) ↔ t.tellsAbsent P k = .ok true) ∧
          ∀ t', t.erase P k = .ok (-1, t') → t' = t := by
  intro _ t _ k hk
  cases hfind : t.find P k with
  | error e => simp [BTree.erase, BTree.tellsAbsent, hfind]
  | ok p =>
    cases p with
    | none => simp [BTree.erase, BTree.tellsAbsent, hfind]
    | some a =>
      cases hl : t.leaf a with
      | error e => simp [BTree.erase, BTree.tellsAbsent, hfind, hl]
      | ok l =>
        have htells : t.tellsAbsent P k = .ok (l.beyond.any (· ≠ k)) := by
          simp [BTree.tellsAbsent, hfind, hl]
        rw [htells, Except.ok.injEq]
        refine erase_iff_beyond hfind hl fun i hscan => hk ?_
        simp [BTree.existsKey, hfind, hl, hscan]

theorem erase_absent_three : ∃ rs t, run (BTree.perform (Template.plain 4)) BTree.init
    [.insert 1 10, .insert 2 20, .insert 3 30, .erase 2] = .ok (rs, t) ∧
      t.erase (Template.plain 4) 2 = .ok (-1, t) := by
  have h : (run (BTree.perform (Template.plain 4)) BTree.init
      [.insert 1 10, .insert 2 20, .insert 3 30, .erase (2 : Nat)] >>= fun r => do
        return (← r.2.existsKey (Template.plain 4) 2, ← r.2.tellsAbsent (Template.plain 4) 2)) =
      .ok (false, true) := by
    decide +kernel
  obtain ⟨⟨rs, t⟩, hrun, h⟩ := bind_eq_ok.mp h
  obtain ⟨b, hb, h⟩ := bind_eq_ok.mp h
  obtain ⟨b', hb', h⟩ := bind_eq_ok.mp h
  obtain ⟨rfl, rfl⟩ := Prod.mk.inj (Except.ok.inj h)
  exact ⟨rs, t, hrun, (erase_absent _ rs t hrun 2 (by rw [hb]; simp)).1.mpr hb'⟩

/-- The key of an erased pair is found again in its old slot, and the other pair is lost. -/
theorem not_erase_absent : ¬∃ rs t, run (BTree.perform (Template.plain 4)) BTree.init
    [.insert 1 10, .insert 2 20, .erase 2] = .ok (rs, t) ∧
      ∃ t', t.erase (Template.plain 4) 2 = .ok (-1, t') := by
  rintro ⟨rs, t, e, t', herase⟩
  have h : (run (BTree.perform (Template.plain 4)) BTree.init
      [.insert 1 10, .insert 2 20, .erase (2 : Nat)] >>= fun r => do
        return (← r.2.erase (Template.plain 4) 2).1) = .ok 1 := by
    decide +kernel
  rw [e, ok_bind, herase] at h
  cases h

end NwtBTree
