import NwtBTree.Machine.History
import NwtBTree.Runs.Scattered

/-!
# Pairs are stored once

The scan for a stored pair looks at the run of equal keys from the lower bound on,
in leaves with room. A pair that is stored elsewhere is stored again; and an
insert that moves keys leaves their payloads where they were.
-/

namespace NwtBTree

variable {K D : Type} [LinearOrder K] [DecidableEq D] {P : Template K D}

/-- A stored pair is where the scan looks for it. A new pair moves no key away from its payload:
a full leaf is split at the end and the key is not in front of it, and in a leaf with room the
keys from the lower bound on make the same pairs with the payloads one slot further. -/
def BTree.keepsPairs (P : Template K D) (t : BTree K D) (e : K × D) : Bool :=
  match t.find P e.1 with
  | .ok (some a) =>
    match t.leaf a, t.content with
    | .ok l, .ok es =>
      let lb := l.lowerBound e.1
      if e ∈ es then !l.isfull P && decide (e ∈ t.equalRun e.1 t.fuel (some a) lb)
      else if l.isfull P then t.splitsAtEnd P e.1 && l.keys.head?.all (decide <| · ≤ e.1)
      else decide (((l.keys.drop lb).zip (l.dataSlots.drop (lb + 1))).Perm (l.entries.drop lb))
    | _, _ => true
  | _ => true

/-- No pair is stored twice, and the insert returns `-2` and changes nothing exactly if the pair was
inserted before. -/
def UniquePairs (P : Template K D) (h : List ((K × D) × Int)) (t : BTree K D) (e : K × D) : Prop :=
  ∃ o t' ps, BTree.insertStep P t e = .ok (o, t') ∧ t'.content = .ok ps ∧ ps.Nodup ∧
    (o = -2 ↔ (e, 1) ∈ h) ∧ (o = -2 → t' = t)

variable {h : List ((K × D) × Int)} {t t' : BTree K D} {T : (n : Nat) × MTree K D n} {e : K × D}
  {o : Int}

/-- The tree holds the pairs whose insert returned `1`, each once. -/
def HoldsOnce (P : Template K D) (h : List ((K × D) × Int)) (t : BTree K D) : Prop :=
  (h = [] ∧ t.root = none) ∨ ∃ T, Standing P t T ∧ (pairs T.2.inorder).Nodup ∧
    ∀ e, e ∈ pairs T.2.inorder ↔ (e, 1) ∈ h

theorem Standing.splitsAtEnd_of_keepsPairs (hs : Standing P t T)
    (hkeeps : t.keepsPairs P e = true) :
    t.splitsAtEnd P e.1 = true := by
  obtain ⟨c, n, rfl, hc, hfind, -⟩ := hs.find e.1
  obtain ⟨hbody, hok⟩ := hs.tip hc
  simp only [BTree.keepsPairs, hfind, BTree.leaf_eq hbody, content_eq hs.rep] at hkeeps
  by_cases hfull : n.body.isfull P = true
  · split_ifs at hkeeps with hmem
    · simp [hfull] at hkeeps
    · exact (Bool.and_eq_true _ _ ▸ hkeeps).1
  · simp [BTree.splitsAtEnd, BTree.splitTarget, hfind, BTree.leaf_eq hbody, hfull]

/-- One insert. -/
theorem HoldsOnce.insert (hinner : P.innernodemax = 4) (hleaf : P.leafnodemax = 4)
    (hi : HoldsOnce P h t) (hkeeps : t.keepsPairs P e = true) :
    ∃ o t', BTree.insertStep P t e = .ok (o, t') ∧ HoldsOnce P (h ++ [(e, o)]) t' ∧
      (o = -2 ↔ (e, 1) ∈ h) ∧ (o = -2 → t' = t) := by
  obtain ⟨k, d⟩ := e
  rcases hi with ⟨rfl, hroot⟩ | ⟨T, hT, hnd, hg⟩
  · obtain ⟨t', s, e1, h', hs⟩ := standing_first (by rw [hleaf]; decide) hroot k d
    refine ⟨1, t', e1, .inr ⟨_, h', ?_, fun e => ?_⟩, by simp, by simp⟩
    · simp [hs]
    · simp [hs]
  · obtain ⟨c, n, o, t', T', rfl, hc, hfind, -, -, e1, h', hins⟩ :=
      hT.insert hleaf hinner (hT.splitsAtEnd_of_keepsPairs hkeeps) d
    obtain ⟨hbody, hok⟩ := hT.tip hc
    have hin := Ctx.inorder_fill_leaf hc n
    simp only [BTree.keepsPairs, hfind, BTree.leaf_eq hbody, content_eq hT.rep] at hkeeps
    rw [hin] at hkeeps hnd hg
    -- a new pair joins the others
    have hnew : o = 1 → (k, d) ∉ pairs (c.left ++ .inr n :: c.right) →
        (pairs T'.2.inorder).Perm ((k, d) :: pairs (c.left ++ .inr n :: c.right)) →
        HoldsOnce P (h ++ [((k, d), o)]) t' ∧ (o = -2 ↔ ((k, d), 1) ∈ h) ∧ (o = -2 → t' = t) := by
      rintro rfl hmem hperm
      refine ⟨.inr ⟨T', h', hperm.nodup_iff.mpr (List.nodup_cons.mpr ⟨hmem, hnd⟩), fun e => ?_⟩, ?_,
        by simp⟩
      · rw [hperm.mem_iff, List.mem_cons, hg]
        simp [or_comm]
      · rw [hg] at hmem
        simp [hmem]
    refine ⟨o, t', e1, ?_⟩
    generalize hI : T'.2.inorder = I at hins
    cases hins with
    | duplicate room run stored =>
      refine ⟨.inr ⟨T', h', hI ▸ hnd, fun e => ?_⟩, ?_, fun _ => rfl⟩
      · rw [hI, hg]
        simp
      · rw [hg] at stored
        simp [stored]
    | @room t' s room run links keys data =>
      have hmem : (k, d) ∉ pairs (c.left ++ .inr n :: c.right) := by
        intro hmem
        rw [if_pos hmem, Bool.and_eq_true, decide_eq_true_eq] at hkeeps
        exact run hkeeps.2
      refine hnew rfl hmem ?_
      have hnotfull : n.body.isfull P = false := by
        simpa [LeafSlots.isfull] using Nat.ne_of_lt room
      rw [if_neg hmem, hnotfull, if_neg Bool.false_ne_true, decide_eq_true_eq] at hkeeps
      have hone : s.entries.Perm ((k, d) :: n.body.entries) := by
        rw [LeafSlots.entries_moved hok room keys data]
        refine List.perm_middle.trans (.cons _ ?_)
        refine (hkeeps.append_left _).trans ?_
        rw [List.take_append_drop]
      rw [hI]
      simp only [pairs_append, pairs_inr]
      exact perm_middle_append hone
    | @split t' sln slp kp full halves atEnd next =>
      have hisfull : n.body.isfull P = true := by simpa [LeafSlots.isfull] using full
      have hmem : (k, d) ∉ pairs (c.left ++ .inr n :: c.right) := by
        intro hmem
        rw [if_pos hmem, hisfull] at hkeeps
        exact absurd hkeeps (by simp)
      refine hnew rfl hmem ?_
      rw [if_neg hmem, hisfull, if_pos rfl, Bool.and_eq_true] at hkeeps
      have hfirst : ∀ x ∈ n.body.keys.head?, x ≤ k := by
        intro x hx
        have := hkeeps.2
        rw [Option.mem_def.mp hx] at this
        simpa using this
      rw [hI]
      simp only [pairs_append, pairs_inr, pairs_inl]
      rw [← List.append_assoc sln.entries]
      exact perm_middle_append (halves.perm hfirst)

omit [DecidableEq D] in
/-- What the tree holds can be read off. -/
theorem HoldsOnce.content (hi : HoldsOnce P h t) :
    ∃ ps, t.content = .ok ps ∧ ps.Nodup := by
  rcases hi with ⟨-, hroot⟩ | ⟨T, hT, hnd, -⟩
  · exact ⟨[], by simp [BTree.content, hroot], List.nodup_nil⟩
  · exact ⟨_, content_eq hT.rep, hnd⟩

/-- In a run of inserts that keep their pairs every pair is stored once. -/
theorem unique_pairs (hinner : P.nodeslots = 4) (hleaf : P.leafslots = 4) {es : List (K × D)}
    (h : Always (BTree.insertStep P) (fun _ t e => t.keepsPairs P e = true) [] BTree.init es) :
    Always (BTree.insertStep P) (UniquePairs P) [] BTree.init es := by
  have hinner' : P.innernodemax = 4 := by rw [Template.innernodemax, hinner]
  have hleaf' : P.leafnodemax = 4 := by rw [Template.leafnodemax, hleaf]
  have hstart : HoldsOnce P [] (BTree.init : BTree K D) := .inl ⟨rfl, rfl⟩
  refine h.of_invariant hstart (fun hi hkeeps e => ?_) fun hi hkeeps => ?_
  · obtain ⟨o, t', e1, hi', -⟩ := hi.insert hinner' hleaf' hkeeps
    cases e.symm.trans e1
    exact hi'
  · obtain ⟨o, t', e1, hi', hans, hsame⟩ := hi.insert hinner' hleaf' hkeeps
    obtain ⟨ps, hps, hnd⟩ := hi'.content
    exact ⟨o, t', ps, e1, hps, hnd, hans, hsame⟩

theorem unique_pairs_five :
    Always (BTree.insertStep (Template.plain 4)) (UniquePairs (Template.plain 4)) [] BTree.init
      [(3, 0), (3, 1), (5, 0), (3, 1), (7, 0)] :=
  unique_pairs rfl rfl (by decide +kernel)

/-- A full leaf is split before anything is looked for: the pair is stored again. -/
theorem not_unique_pairs :
    ¬Always (BTree.insertStep (Template.plain 4)) (UniquePairs (Template.plain 4)) [] BTree.init
      [(1, 0), (2, 0), (3, 0), (4, 0), (4, 0)] := by
  intro h
  have hok : ∀ h t e, UniquePairs (Template.plain 4) h t e →
      ∃ o t', BTree.insertStep (Template.plain 4) t e = .ok (o, t') := by
    rintro h t e ⟨o, t', ps, e1, -⟩
    exact ⟨o, t', e1⟩
  have hsplit : Always (BTree.insertStep (Template.plain 4)) (UniquePairs (Template.plain 4)) []
      BTree.init ([(1, 0), (2, 0), (3, 0), (4, 0)] ++ [(4, 0)]) := h
  obtain ⟨hfour, hlast⟩ := hsplit.append
  obtain ⟨os, t, hrun⟩ := hfour.runs hok
  obtain ⟨⟨o, t', ps, e, -, -, hans, -⟩, -⟩ := hlast os t hrun
  have hos : (run (BTree.insertStep (Template.plain 4)) BTree.init
      [(1, 0), (2, 0), (3, 0), (4, 0), (4, 0)]).map Prod.fst = .ok ([1, 1, 1, 1] ++ [1]) := by
    decide +kernel
  rw [show run (BTree.insertStep (Template.plain 4)) BTree.init
    [(1, 0), (2, 0), (3, 0), (4, 0), (4, 0)] = _ from run_concat hrun e] at hos
  obtain ⟨rfl, ho⟩ := List.append_inj' (Except.ok.inj hos) rfl
  cases ho
  exact absurd (hans.mpr (by simp)) (by decide)

end NwtBTree
