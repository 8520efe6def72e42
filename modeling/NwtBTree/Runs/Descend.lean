import NwtBTree.Refine.Scatter
import NwtBTree.Runs.Append

/-!
# The descent after inserts in any order

The descent loop of `find` only advances at a node with more children than keys.
Inserts keep it so as long as they split nothing but last children;
`insertinnernodepair` puts the key of any other split at the last greater slot.
-/

namespace NwtBTree

variable {K D : Type} [LinearOrder K] {P : Template K D}

namespace BTree

variable {t : BTree K D} {k : K}

/-- From the node `a` the descent loop takes `n` iterations, each to a child, and ends at a leaf. -/
inductive Descends (t : BTree K D) (k : K) : Nat → Addr → Prop
  | leaf {a : Addr} : t.isleaf a = .ok true → Descends t k 0 a
  | step {n : Nat} {a b : Addr} {i : InnerNode K} : t.inner a = .ok i →
      t.descendStep k a = .ok b → some b ∈ i.firstChild.take i.numChildren →
      Descends t k n b → Descends t k (n + 1) a

/-- Every descent from the root `r` ends at a leaf after `height` iterations, which is the depth
of every leaf, and no node has as many keys as children. -/
structure DescentEnds (t : BTree K D) (r : Addr) (height : Nat) : Prop where
  iterations : ∀ k, t.Descends k height r
  returns : ∀ k fuel, height < fuel →
    ∃ a, t.descend k fuel r = .ok a ∧ t.isleaf a = .ok true
  depth : ∀ d a, t.Reachable d a → t.isleaf a = .ok true → d = height
  counters : ∀ d a i, t.Reachable d a → t.inner a = .ok i → i.slotsinuse < i.numChildren

theorem descends_of_holds {n : Nat} {T : MTree K D n} (h : Holds P t.view.body T)
    (hp : T.Paired) (k : K) : t.Descends k n T.addr := by
  induction n with
  | zero => exact .leaf (isleaf_leaf h.1)
  | succ n ih =>
    obtain ⟨a, ks, cs⟩ := T
    obtain ⟨⟨s, hs, hin⟩, hcs⟩ := h
    obtain ⟨-, hlen, hpcs⟩ := hp
    replace hlen : cs.length = ks.length + 1 := hlen
    obtain ⟨ksL, ksR, csL, c, csR, rfl, rfl, hlenL, hlenR, hL, hR⟩ := Ctx.exists_slot k hlen
    rw [List.map_append, List.map_cons] at hin
    obtain ⟨q, hq⟩ := hin.children
    refine .step (inner_eq hs) (descendStep_spec hs hin (by simpa using hlenL)
      (by simpa using hlenR) hL hR) ?_ (ih (hcs c (by simp)) (hpcs c (by simp)))
    simp only [hq, hin.num]
    rw [List.take_left' (by simp)]
    simp

theorem Descends.returns {n : Nat} {a : Addr} (h : t.Descends k n a) {fuel : Nat}
    (hfuel : n < fuel) : ∃ b, t.descend k fuel a = .ok b ∧ t.isleaf b = .ok true := by
  induction h generalizing fuel with
  | leaf hleaf =>
    obtain ⟨f, rfl⟩ : ∃ f, fuel = f + 1 := ⟨fuel - 1, by omega⟩
    exact ⟨_, by simp [descend, hleaf], hleaf⟩
  | @step n a b i hi hstep hb _ ih =>
    obtain ⟨f, rfl⟩ : ∃ f, fuel = f + 1 := ⟨fuel - 1, by omega⟩
    obtain ⟨l, e, hl⟩ := ih (show n < f by omega)
    refine ⟨l, ?_, hl⟩
    simp [descend, isleaf_of_inner hi, hstep, e]

theorem descentEnds {n : Nat} {T : MTree K D n} (h : Rep P t.view T) : t.DescentEnds T.addr n where
  iterations := descends_of_holds h.holds h.paired
  returns k _ hfuel := (descends_of_holds h.holds h.paired k).returns hfuel
  depth _ _ := h.leaf_depth
  counters _ _ _ hr hi := h.slotsinuse_lt hr hi

end BTree

variable [DecidableEq D]

/-- Every insert of the sequence splits only nodes that are last children. -/
def SplitsAtEnd (P : Template K D) (es : List (K × D)) : Prop :=
  Meets (BTree.insertStep P) (fun (_ : Unit) _ => ()) (fun _ t e => t.splitsAtEnd P e.1 = true) ()
    BTree.init es

/-- One insert. -/
theorem standing_step (hinner : P.innernodemax = 4) (hleaf : P.leafnodemax = 4) {t : BTree K D}
    (h : t.root = none ∨ ∃ T, Standing P t T) {e : K × D} (hend : t.splitsAtEnd P e.1 = true) :
    ∃ o t', BTree.insertStep P t e = .ok (o, t') ∧ (t'.root = none ∨ ∃ T, Standing P t' T) := by
  obtain hnone | ⟨T, hT⟩ := h
  · obtain ⟨t', s, e1, h', -⟩ := standing_first (by rw [hleaf]; decide) hnone e.1 e.2
    exact ⟨1, t', e1, .inr ⟨_, h'⟩⟩
  · obtain ⟨c, n, o, t', T', -, -, -, -, -, e1, h', -⟩ := hT.insert hleaf hinner hend e.2
    exact ⟨o, t', e1, .inr ⟨T', h'⟩⟩

/-- The inserts return, and then every descent ends at a leaf. -/
def DescentsEnd (P : Template K D) (es : List (K × D)) : Prop :=
  ∃ os t, run (BTree.insertStep P) BTree.init es = .ok (os, t) ∧
    ∀ r, t.root = some r → ∃ height, t.DescentEnds r height

theorem descents_end (hinner : P.nodeslots = 4) (hleaf : P.leafslots = 4) {es : List (K × D)}
    (h : SplitsAtEnd P es) : DescentsEnd P es := by
  have hinner' : P.innernodemax = 4 := by rw [Template.innernodemax, hinner]
  have hleaf' : P.leafnodemax = 4 := by rw [Template.leafnodemax, hleaf]
  have hstep : ∀ (_ : Unit) {t : BTree K D} {e : K × D}, (t.root = none ∨ ∃ T, Standing P t T) →
      t.splitsAtEnd P e.1 = true → ∃ o t', BTree.insertStep P t e = .ok (o, t') ∧ True ∧
        (t'.root = none ∨ ∃ T, Standing P t' T) := by
    intro _ t e hR hend
    obtain ⟨o, t', e1, h'⟩ := standing_step hinner' hleaf' hR hend
    exact ⟨o, t', e1, trivial, h'⟩
  have hrun : ∃ os s', run (BTree.insertStep P) BTree.init es = .ok (os, s') ∧
      Answers (fun (_ : Unit) _ => ()) (fun _ _ _ => True) () es os ∧
      (s'.root = none ∨ ∃ T, Standing P s' T) :=
    run_sim (R := fun _ t => t.root = none ∨ ∃ T, Standing P t T) (fun {g _ _} => hstep g)
      (.inl rfl) h
  obtain ⟨os, t, e, -, hR⟩ := hrun
  refine ⟨os, t, e, fun r hr => ?_⟩
  obtain hnone | ⟨T, hT⟩ := hR
  · rw [hnone] at hr
    simp at hr
  · have haddr : T.2.addr = r := Option.some.inj (hT.rep.root.symm.trans hr)
    exact ⟨T.1, haddr ▸ BTree.descentEnds hT.rep⟩

theorem descents_end_six :
    DescentsEnd (Template.plain 4) [(2, 0), (9, 0), (4, 0), (7, 0), (5, 0), (1, 0)] :=
  descents_end rfl rfl (show SplitsAtEnd _ _ from by unfold SplitsAtEnd; decide +kernel)

/-- After these inserts the root has two keys and two children. -/
theorem not_descents_end :
    ¬DescentsEnd (Template.plain 4)
      [(10, 0), (20, 0), (30, 0), (40, 0), (50, 0), (1, 0), (2, 0), (3, 0)] := by
  rintro ⟨os, t, e, h⟩
  have hroot : (do
      let (_, t) ← run (BTree.insertStep (Template.plain 4)) BTree.init
        [(10, 0), (20, 0), (30, 0), (40, 0), (50, 0), (1, 0), (2, 0), (3, 0)]
      let r ← deref t.root
      let i ← t.inner r
      return (i.slotsinuse, i.numChildren)) = .ok (2, 2) := by decide +kernel
  rw [e] at hroot
  cases hr : t.root with
  | none => simp [hr, deref] at hroot
  | some r =>
    obtain ⟨height, hd⟩ := h r hr
    cases hi : t.inner r with
    | error f => simp [hr, deref, hi] at hroot
    | ok i =>
      have hlt := hd.counters 0 r i (.root hr) hi
      simp only [hr, deref, ok_bind, hi, pure_eq_ok, Except.ok.injEq, Prod.mk.injEq] at hroot
      omega

end NwtBTree
