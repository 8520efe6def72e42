import NwtBTree.Runs.Append
import NwtBTree.Source.Iterator

/-!
# Iteration over a loaded tree

`insert` never writes `tailleaf`, so `end()` is the iterator at the `NULL` leaf,
and `operator++` never gets there.
-/

namespace NwtBTree

variable {K D : Type} {P : Template K D}

namespace BTree

/-- `for (it; it != stop; ++it)`, with the pairs that `*it` gives. -/
def iterate (t : BTree K D) (stop : Iterator) : Nat → Iterator → Except Fault (List (K × D))
  | 0, it => if it = stop then .ok [] else .error .diverges
  | fuel + 1, it =>
    if it = stop then .ok [] else do
      let e ← t.deref it
      let it ← t.next it
      return e :: (← iterate t stop fuel it)

/-- `begin()` names the leftmost leaf, and `NULL` in a tree without a root. -/
def BeginCurrent (t : BTree K D) : Prop :=
  match t.root with
  | none => t.beginIter = ⟨none, 0⟩
  | some r => ∃ a, t.leftmost t.fuel r = .ok a ∧ t.beginIter = ⟨some a, 0⟩

/-- Iteration from `begin()` to `end()` yields the pairs `es`. -/
def FullIteration (t : BTree K D) (es : List (K × D)) : Prop :=
  (∃ stop, t.endIter = .ok stop ∧ ∃ fuel, t.iterate stop fuel t.beginIter = .ok es) ∧
    t.BeginCurrent

variable {t : BTree K D}

/-- `operator++` stays at a leaf. -/
theorem next_currnode {it it' : Iterator} (h : t.next it = .ok it') : it'.currnode ≠ none := by
  obtain ⟨p, i⟩ := it
  cases p with
  | none => simp [next, NwtBTree.deref] at h
  | some a =>
    cases hl : t.leaf a with
    | error e => simp [next, NwtBTree.deref, hl] at h
    | ok l =>
      simp only [next, NwtBTree.deref, hl, ok_bind] at h
      split at h
      · obtain rfl := Except.ok.inj h
        simp
      · split at h
        · obtain rfl := Except.ok.inj h
          simp
        · obtain rfl := Except.ok.inj h
          simp

/-- An iterator at a leaf never becomes equal to one at `NULL`. -/
theorem iterate_ne {stop it : Iterator} (hstop : stop.currnode = none) (hit : it.currnode ≠ none)
    (fuel : Nat) (es : List (K × D)) : t.iterate stop fuel it ≠ .ok es := by
  have hne : ∀ {it : Iterator}, it.currnode ≠ none → it ≠ stop := by
    rintro it hit rfl
    exact hit hstop
  induction fuel generalizing it es with
  | zero => simp [iterate, hne hit]
  | succ fuel ih =>
    rw [iterate, if_neg (hne hit)]
    cases hd : t.deref it with
    | error e => simp
    | ok e =>
      cases hn : t.next it with
      | error e => simp
      | ok it' =>
        have hrest := ih (next_currnode hn)
        cases hi : t.iterate stop fuel it' with
        | error e => simp [hi]
        | ok es' => exact absurd hi (hrest es')

theorem not_fullIteration (htail : t.tailleaf = none) {a : Addr} (hhead : t.headleaf = some a)
    (es : List (K × D)) : ¬t.FullIteration es := by
  rintro ⟨⟨stop, hstop, fuel, hit⟩, -⟩
  rw [endIter, htail] at hstop
  obtain rfl := Except.ok.inj hstop
  refine iterate_ne rfl ?_ fuel es hit
  simp [beginIter, hhead]

end BTree

variable [LinearOrder K] [DecidableEq D]

theorem fullIteration_iff (hinner : P.nodeslots = 4) (hleaf : P.leafslots = 4) {es : List (K × D)}
    (hasc : es.Pairwise (fun a b => a.1 < b.1)) :
    ∃ t, run (BTree.insertStep P) BTree.init es = .ok (List.replicate es.length 1, t) ∧
      (t.FullIteration es ↔ es = []) := by
  by_cases hne : es = []
  · subst hne
    exact ⟨BTree.init, rfl, fun _ => rfl, fun _ => ⟨⟨⟨none, 0⟩, rfl, 0, rfl⟩, rfl⟩⟩
  · have hinner' : P.innernodemax = 4 := by rw [Template.innernodemax, hinner]
    have hleaf' : P.leafnodemax = 4 := by rw [Template.leafnodemax, hleaf]
    obtain ⟨t, T, I, l, hrun, -, -, htail, hhead⟩ :=
      load_spec (P := P) (by omega) (by omega) hne hasc
    exact ⟨t, hrun, fun h => absurd h (BTree.not_fullIteration htail hhead es),
      fun h => absurd h hne⟩

theorem fullIteration_iff_two :
    ∃ t, run (BTree.insertStep (Template.plain 4)) BTree.init [(1, 10), (2, 20)] = .ok ([1, 1], t) ∧
      (t.FullIteration [(1, 10), (2, 20)] ↔ [(1, 10), (2, 20)] = []) :=
  fullIteration_iff rfl rfl (by decide)

/-- One insert, and the iteration does not end. -/
theorem not_fullIteration_one :
    ∃ t, run (BTree.insertStep (Template.plain 4)) BTree.init [(1, 10)] = .ok ([1], t) ∧
      ¬t.FullIteration [(1, 10)] := by
  refine ⟨_, rfl, ?_⟩
  exact BTree.not_fullIteration rfl rfl _

end NwtBTree
