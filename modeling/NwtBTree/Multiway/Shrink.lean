import NwtBTree.Multiway.Search
import NwtBTree.Multiway.Shape

/-!
# Shrinking

`Settled` repairs a tree in which the node in the hole of a context lost a child
and a separator. A node that is left too small joins its right sibling, or its
left one where it is the last child, with the separator between them, and the
node above has lost a child in turn; a right sibling that is too large for that
hands over its first child instead. A root with one child gives way to it. There
is no rule for a left sibling that is too large.

Nothing but the brackets changes in the in-order sequence.
-/

namespace NwtBTree

variable {A K L : Type}

namespace Ctx

/-- The node `a` in the hole has the separators `ks` and the children `cs` left; `T` is the tree
after the repair. -/
inductive Settled (cap : Nat) : {n : Nat} → Ctx A K L (n + 1) → A → List K → List (Tree A K L n) →
    ((m : Nat) × Tree A K L m) → Prop
  | collapse {n : Nat} (a : A) (ks : List K) (c : Tree A K L n) :
      Settled cap top a ks [c] ⟨n, c⟩
  | root {n : Nat} {a : A} {ks : List K} {cs : List (Tree A K L n)} (h : cs.length ≠ 1) :
      Settled cap top a ks cs ⟨n + 1, .node a ks cs⟩
  | stay {n : Nat} {up : Ctx A K L (n + 2)} {a b : A} {ks ksL ksR : List K}
      {cs : List (Tree A K L n)} {csL csR : List (Tree A K L (n + 1))} (h : cap / 2 < cs.length) :
      Settled cap (frame up b ksL csL ksR csR) a ks cs
        (up.fill (.node b (ksL ++ ksR) (csL ++ .node a ks cs :: csR)))
  | joinNext {n : Nat} {up : Ctx A K L (n + 2)} {a b d : A} {ks kn ksL ksR : List K} {s : K}
      {cs cn : List (Tree A K L n)} {csL csR : List (Tree A K L (n + 1))}
      {T : (m : Nat) × Tree A K L m} (h : cs.length ≤ cap / 2)
      (hroom : cs.length + cn.length ≤ cap + 1)
      (ht : Settled cap up b (ksL ++ ksR) (csL ++ .node d (ks ++ s :: kn) (cs ++ cn) :: csR) T) :
      Settled cap (frame up b ksL csL (s :: ksR) (.node d kn cn :: csR)) a ks cs T
  | borrowNext {n : Nat} {up : Ctx A K L (n + 2)} {a b d : A} {ks kn ksL ksR : List K} {s z : K}
      {cs cn : List (Tree A K L n)} {c : Tree A K L n} {csL csR : List (Tree A K L (n + 1))}
      (h : cs.length ≤ cap / 2) (hroom : cap + 1 < cs.length + (c :: cn).length) :
      Settled cap (frame up b ksL csL (s :: ksR) (.node d (z :: kn) (c :: cn) :: csR)) a ks cs
        (up.fill (.node b (ksL ++ z :: ksR)
          (csL ++ .node a (ks ++ [s]) (cs ++ [c]) :: .node d kn cn :: csR)))
  | joinPrev {n : Nat} {up : Ctx A K L (n + 2)} {a b d : A} {ks kn ksL : List K} {s : K}
      {cs cn : List (Tree A K L n)} {csL : List (Tree A K L (n + 1))}
      {T : (m : Nat) × Tree A K L m} (h : cs.length ≤ cap / 2)
      (hroom : cn.length + cs.length ≤ cap + 1)
      (ht : Settled cap up b ksL (csL ++ [.node d (kn ++ s :: ks) (cn ++ cs)]) T) :
      Settled cap (frame up b (ksL ++ [s]) (csL ++ [.node d kn cn]) [] []) a ks cs T

/-- A node left with `m` children can be repaired by the rules. -/
inductive Settles (cap : Nat) : {n : Nat} → Ctx A K L (n + 1) → Nat → Prop
  | top {n m : Nat} : Settles cap (top (n := n + 1)) m
  | stay {n m : Nat} {up : Ctx A K L (n + 2)} {b : A} {ksL ksR : List K}
      {csL csR : List (Tree A K L (n + 1))} (h : cap / 2 < m) :
      Settles cap (frame up b ksL csL ksR csR) m
  | joinNext {n m : Nat} {up : Ctx A K L (n + 2)} {b : A} {ksL ksR : List K}
      {next : Tree A K L (n + 1)} {csL csR : List (Tree A K L (n + 1))}
      (hroom : m + next.children.length ≤ cap + 1)
      (h : Settles cap up (csL.length + (csR.length + 1))) :
      Settles cap (frame up b ksL csL ksR (next :: csR)) m
  | borrowNext {n m : Nat} {up : Ctx A K L (n + 2)} {b : A} {ksL ksR : List K}
      {next : Tree A K L (n + 1)} {csL csR : List (Tree A K L (n + 1))}
      (hroom : cap + 1 < m + next.children.length) :
      Settles cap (frame up b ksL csL ksR (next :: csR)) m
  | joinPrev {n m : Nat} {up : Ctx A K L (n + 2)} {b : A} {ksL ksR : List K}
      {prev : Tree A K L (n + 1)} {csL : List (Tree A K L (n + 1))}
      (hroom : prev.children.length + m ≤ cap + 1) (h : Settles cap up (csL.length + 1)) :
      Settles cap (frame up b ksL (csL ++ [prev]) ksR []) m

variable {cap n : Nat} {up : Ctx A K L (n + 1)} {a : A} {ks : List K} {cs : List (Tree A K L n)}
  {T : (m : Nat) × Tree A K L m}

theorem exists_settled {m : Nat} (h : Settles cap up m) (hup : up.Paired) (hm : cs.length = m) :
    ∃ T, Settled cap up a ks cs T := by
  induction h generalizing a ks with
  | top =>
    by_cases h1 : cs.length = 1
    · obtain ⟨c, rfl⟩ := List.length_eq_one_iff.mp h1
      exact ⟨_, .collapse a ks c⟩
    · exact ⟨_, .root h1⟩
  | stay h => exact ⟨_, .stay (hm ▸ h)⟩
  | @joinNext n m up b ksL ksR next csL csR hroom h ih =>
    obtain ⟨hL, hR, -, -, hcR, hup⟩ := hup
    obtain ⟨s, ksR, rfl⟩ := List.exists_cons_of_length_eq_add_one hR
    obtain ⟨d, kn, cn⟩ := next
    by_cases hbig : cap / 2 < cs.length
    · exact ⟨_, .stay hbig⟩
    · obtain ⟨T, hT⟩ : ∃ T, Settled cap up b (ksL ++ ksR)
          (csL ++ .node d (ks ++ s :: kn) (cs ++ cn) :: csR) T := ih hup (by simp)
      exact ⟨T, .joinNext (Nat.not_lt.mp hbig) (hm ▸ hroom) hT⟩
  | @borrowNext n m up b ksL ksR next csL csR hroom =>
    obtain ⟨hL, hR, -, -, hcR, hup⟩ := hup
    obtain ⟨s, ksR, rfl⟩ := List.exists_cons_of_length_eq_add_one hR
    obtain ⟨d, kn, cn⟩ := next
    obtain ⟨hpos, hlen, -⟩ := hcR _ List.mem_cons_self
    by_cases hbig : cap / 2 < cs.length
    · exact ⟨_, .stay hbig⟩
    · obtain ⟨c, cn, rfl⟩ := List.exists_cons_of_length_eq_add_one hlen
      obtain ⟨z, kn, rfl⟩ := List.exists_cons_of_length_pos hpos
      exact ⟨_, .borrowNext (Nat.not_lt.mp hbig) (hm ▸ hroom)⟩
  | @joinPrev n m up b ksL ksR prev csL hroom h ih =>
    obtain ⟨hL, hR, -, -, hcR, hup⟩ := hup
    obtain rfl := List.eq_nil_of_length_eq_zero hR
    obtain ⟨ksL, s, rfl⟩ := List.eq_nil_or_concat ksL |>.resolve_left (by rintro rfl; simp at hL)
    obtain ⟨d, kn, cn⟩ := prev
    by_cases hbig : cap / 2 < cs.length
    · exact ⟨_, .stay hbig⟩
    · obtain ⟨T, hT⟩ : ∃ T, Settled cap up b ksL
          (csL ++ [.node d (kn ++ s :: ks) (cn ++ cs)]) T := ih hup (by simp)
      rw [List.concat_eq_append]
      exact ⟨T, .joinPrev (Nat.not_lt.mp hbig) (hm ▸ hroom) hT⟩

/-! ## What stays -/

/-- In a slanted tree whose branches off the right spine have the least number of keys, nothing is
handed over from the left. -/
theorem settles_of_slanted {q : Nat → Prop} : {n : Nat} → {up : Ctx A K L (n + 1)} → up.Paired →
    {x : Tree A K L (n + 1)} → (up.fill x).2.Slanted (· = cap / 2) q → (m : Nat) → Settles cap up m
  | _, top, _, _, _, _ => .top
  | n, frame up b ksL csL ksR csR, hc, x, h, m => by
    obtain ⟨hL, hR, h0, hcL, -, hup⟩ := hc
    have hup' : ∀ m, Settles cap up m := settles_of_slanted hup h
    by_cases hbig : cap / 2 < m
    · exact .stay hbig
    rcases csR with _ | ⟨next, csR⟩
    · -- the left sibling lies off the right spine
      obtain ⟨csL, prev, rfl⟩ : ∃ cs c, csL = cs ++ [c] := by
        rcases List.eq_nil_or_concat csL with rfl | ⟨cs, c, rfl⟩
        · simp only [List.length_nil] at hL hR
          omega
        · exact ⟨cs, c, List.concat_eq_append⟩
      have hprev : prev.Each (· = cap / 2) := by
        rcases slanted_or_each (c := up) h with hnode | hnode
        · exact ((Tree.slanted_node ..).mp hnode).1 prev (by simp)
        · exact hnode.2 prev (by simp)
      obtain ⟨d, kn, cn⟩ := prev
      obtain ⟨hkn, -⟩ := hprev
      obtain ⟨-, hlen, -⟩ := hcL _ (List.mem_append_right _ List.mem_cons_self)
      refine .joinPrev ?_ (hup' _)
      change cn.length + m ≤ cap + 1
      change kn.length = cap / 2 at hkn
      change cn.length = kn.length + 1 at hlen
      omega
    · by_cases hroom : m + next.children.length ≤ cap + 1
      · exact .joinNext hroom (hup' _)
      · exact .borrowNext (Nat.not_le.mp hroom)

/-- Nothing stands left of a hole that is the first child at every level. -/
theorem left_eq_nil {n : Nat} {up : Ctx A K L (n + 1)} {b : A} {ksL ksR : List K}
    {csL csR : List (Tree A K L n)} (hc : (frame up b ksL csL ksR csR).Paired)
    (h : (frame up b ksL csL ksR csR).left = []) : ksL = [] ∧ csL = [] ∧ up.left = [] := by
  obtain ⟨hlen, -⟩ := hc
  rw [left_frame, List.append_eq_nil_iff] at h
  cases csL with
  | nil => exact ⟨List.eq_nil_of_length_eq_zero hlen, rfl, h.1⟩
  | cons c csL =>
    obtain ⟨k, ksL, rfl⟩ := List.exists_cons_of_length_eq_add_one hlen
    simp at h

/-- A first child always has a right sibling. -/
theorem settles_of_left_nil {n : Nat} {up : Ctx A K L (n + 1)} (hup : up.Paired)
    (hleft : up.left = []) (m : Nat) : Settles cap up m := by
  cases up with
  | top => exact .top
  | frame up b ksL csL ksR csR =>
    obtain ⟨rfl, rfl, hleft'⟩ := left_eq_nil hup hleft
    obtain ⟨-, hR, h0, -, -, hup'⟩ := hup
    cases csR with
    | nil =>
      rw [hR] at h0
      exact absurd h0 (lt_irrefl 0)
    | cons next csR =>
      by_cases hroom : m + next.children.length ≤ cap + 1
      · exact .joinNext hroom (settles_of_left_nil hup' hleft' _)
      · exact .borrowNext (Nat.not_le.mp hroom)

theorem Settled.inorder (h : Settled cap up a ks cs T) (hup : up.Paired)
    (hlen : cs.length = ks.length + 1) :
    T.2.inorder = up.left ++ interleave .inl Tree.inorder ks cs ++ up.right := by
  induction h with
  | collapse a ks c => simp_all
  | root h => simp [Tree.inorder_node]
  | stay h =>
    obtain ⟨hL, -, -, -, -, hup⟩ := hup
    rw [inorder_fill hup, Tree.inorder_node, interleave_split _ _ hL, Tree.inorder_node]
    simp
  | joinNext h hroom ht ih =>
    obtain ⟨hL, hR, -, -, hcR, hup⟩ := hup
    obtain ⟨hpos, hcn, -⟩ := hcR _ List.mem_cons_self
    have hne := List.ne_nil_of_length_eq_add_one hcn
    rw [ih hup (by simp at hL hR ⊢; omega), interleave_split _ _ hL, Tree.inorder_node,
      interleave_append _ _ hlen hne]
    simp [Tree.inorder_node]
  | @borrowNext n up a b d ks kn ksL ksR s z cs cn c csL csR h hroom =>
    obtain ⟨hL, hR, -, -, hcR, hup⟩ := hup
    obtain ⟨-, hcn, -⟩ := hcR _ List.mem_cons_self
    obtain ⟨e, cn, rfl⟩ := List.exists_cons_of_length_eq_add_one (show cn.length = kn.length + 1 by
      simpa using hcn)
    rw [inorder_fill hup, Tree.inorder_node, interleave_split _ _ hL, Tree.inorder_node,
      interleave_append _ _ hlen (by simp)]
    simp [Tree.inorder_node]
  | @joinPrev n up a b d ks kn ksL s cs cn csL T h hroom ht ih =>
    obtain ⟨hL, -, -, hcL, -, hup⟩ := hup
    obtain ⟨hpos, hcn, -⟩ := hcL (.node d kn cn) (by simp)
    have hL' : ksL.length = csL.length := by simpa using hL
    have hne := List.ne_nil_of_length_eq_add_one hlen
    have hbefore : before .inl Tree.inorder (ksL ++ [s]) (csL ++ [.node d kn cn]) =
        before .inl Tree.inorder ksL csL ++ before .inl Tree.inorder [s] [.node d kn cn] :=
      before_append .inl Tree.inorder hL'
    have hleaf : interleave .inl Tree.inorder ksL (csL ++ [.node d (kn ++ s :: ks) (cn ++ cs)]) =
        before .inl Tree.inorder ksL csL ++ (Tree.node d (kn ++ s :: ks) (cn ++ cs)).inorder := by
      have := @interleave_split _ _ _ .inl Tree.inorder ksL [] csL [] hL'
        (Tree.node d (kn ++ s :: ks) (cn ++ cs))
      simpa using this
    rw [ih hup (by simp [hL']), left_frame, hbefore, hleaf, Tree.inorder_node,
      interleave_append _ _ hcn hne]
    simp [Tree.inorder_node]

/-- Branches below the root stay half full. -/
theorem Settled.bushy (h : Settled cap up a ks cs T) (hup : up.Paired)
    (hlen : cs.length = ks.length + 1) (hbushy : up.Bushy (cap / 2 ≤ ·))
    (hcs : ∀ c ∈ cs, c.Each (cap / 2 ≤ ·)) (hks : up.parent.isSome → cap / 2 ≤ ks.length + 1) :
    T.2.Bushy (cap / 2 ≤ ·) := by
  induction h with
  | collapse a ks c => exact (hcs c (by simp)).bushy
  | root h => exact hcs
  | @stay n up a b ks ksL ksR cs csL csR h =>
    obtain ⟨hp, hcL, hcR, hup⟩ := hbushy
    have hmem : ∀ c ∈ csL ++ Tree.node a ks cs :: csR, c.Each (cap / 2 ≤ ·) := by
      simp only [List.mem_append, List.mem_cons]
      rintro c (hc | rfl | hc)
      · exact hcL c hc
      · exact ⟨show _ ≤ ks.length by omega, hcs⟩
      · exact hcR c hc
    exact bushy_fill hup hmem fun hs => ⟨by simpa using hp hs, hmem⟩
  | joinNext h hroom ht ih =>
    obtain ⟨hL, hR, -, -, hpR, hup⟩ := hup
    obtain ⟨hp, hcL, hcR, hb⟩ := hbushy
    obtain ⟨-, hcn, -⟩ := hpR _ List.mem_cons_self
    obtain ⟨hkn, hn⟩ := hcR _ List.mem_cons_self
    refine ih hup (by simp at hL hR ⊢; omega) hb ?_ fun hs => by
      have := hp hs
      simp at this ⊢
      omega
    simp only [List.mem_append, List.mem_cons]
    rintro c (hc | rfl | hc)
    · exact hcL c hc
    · refine ⟨by simp at hkn ⊢; omega, fun e he => ?_⟩
      exact (List.mem_append.mp he).elim (hcs e) (hn e)
    · exact hcR c (by simp [hc])
  | @borrowNext n up a b d ks kn ksL ksR s z cs cn c csL csR h hroom =>
    obtain ⟨-, -, -, -, hpR, -⟩ := hup
    obtain ⟨hp, hcL, hcR, hb⟩ := hbushy
    obtain ⟨-, hcn, -⟩ := hpR _ List.mem_cons_self
    obtain ⟨-, hn⟩ := hcR _ List.mem_cons_self
    simp only [List.length_cons] at hcn hroom
    have hmem : ∀ e ∈ csL ++ .node a (ks ++ [s]) (cs ++ [c]) :: .node d kn cn :: csR,
        e.Each (cap / 2 ≤ ·) := by
      simp only [List.mem_append, List.mem_cons]
      rintro e (he | rfl | rfl | he)
      · exact hcL e he
      · refine ⟨by simpa using hks rfl, fun e he => ?_⟩
        rcases List.mem_append.mp he with he | he
        · exact hcs e he
        · exact hn e (by simp_all)
      · exact ⟨show _ ≤ kn.length by omega, fun e he => hn e (List.mem_cons_of_mem _ he)⟩
      · exact hcR e (by simp [he])
    exact bushy_fill hb hmem fun hs => ⟨by simpa using hp hs, hmem⟩
  | joinPrev h hroom ht ih =>
    obtain ⟨hL, -, -, -, -, hup⟩ := hup
    obtain ⟨hp, hcL, -, hb⟩ := hbushy
    obtain ⟨hkn, hn⟩ := hcL (.node _ _ _) (List.mem_append_right _ List.mem_cons_self)
    refine ih hup (by simpa using hL.symm) hb ?_ fun hs => by simpa using hp hs
    simp only [List.mem_append, List.mem_singleton]
    rintro c (hc | rfl)
    · exact hcL c (by simp [hc])
    · refine ⟨by simp at hkn ⊢; omega, fun e he => ?_⟩
      exact (List.mem_append.mp he).elim (hn e) (hcs e)

/-! ## Separators on both sides of the hole -/

/-- On the right spine of a slanted tree the repair leaves a slanted tree. -/
theorem Settled.slanted (h : Settled cap up a ks cs T) (hup : up.Paired)
    (hlen : cs.length = ks.length + 1) (hslanted : up.Slanted (· = cap / 2) (cap / 2 ≤ ·))
    (hcs : (Tree.node a ks cs).Slanted (· = cap / 2) (cap / 2 ≤ ·)) :
    T.2.Slanted (· = cap / 2) (cap / 2 ≤ ·) := by
  induction h with
  | collapse a ks c => exact ((Tree.slanted_node a ks [] c).mp hcs).2.2
  | root h => exact hcs
  | @stay n up a b ks ksL ksR cs csL csR h =>
    refine slanted_fill (c := frame up b ksL csL ksR csR) hslanted hcs fun _ => ?_
    rw [Tree.stem_node]
    omega
  | joinNext h hroom ht ih => cases hslanted.1
  | borrowNext h hroom => cases hslanted.1
  | @joinPrev n up a b d ks kn ksL s cs cn csL T h hroom ht ih =>
    obtain ⟨-, hcsL, -, hup'⟩ := hslanted
    obtain ⟨hkn, hcn⟩ := hcsL _ (List.mem_append_right _ List.mem_cons_self)
    obtain ⟨hL, -, -, -, -, hpaired⟩ := hup
    obtain ⟨cs, c, rfl⟩ : ∃ xs x, cs = xs ++ [x] := by
      rcases List.eq_nil_or_concat cs with rfl | ⟨xs, x, rfl⟩
      · cases hlen
      · exact ⟨xs, x, List.concat_eq_append⟩
    obtain ⟨hcs, hstem, hlast⟩ := (Tree.slanted_node ..).mp hcs
    refine ih hpaired (by simpa using hL.symm) hup' ((Tree.slanted_node ..).mpr ⟨?_, ?_, ?_⟩)
    · exact fun c hc => hcsL c (List.mem_append_left _ hc)
    · change kn.length = cap / 2 at hkn
      rw [Tree.stem_node, List.length_append, hkn]
      omega
    · rw [← List.append_assoc]
      refine (Tree.slanted_node ..).mpr ⟨fun x hx => ?_, hstem, hlast⟩
      rcases List.mem_append.mp hx with hx | hx
      · exact hcn x hx
      · exact hcs x hx

section Separators

theorem sublist_seps_before {ks : List K} {cs : List (Tree A K L n)} (h : ks.length = cs.length) :
    ks.Sublist (seps (before .inl Tree.inorder ks cs)) := by
  induction ks generalizing cs with
  | nil => simp
  | cons k ks ih =>
    obtain ⟨c, cs, rfl⟩ := List.exists_cons_of_length_eq_add_one h.symm
    rw [before_cons, seps_append, seps_inl]
    exact ((ih (by simpa using h)).cons_cons k).trans (List.sublist_append_right _ _)

theorem sublist_seps_after {ks : List K} {cs : List (Tree A K L n)} (h : ks.length = cs.length) :
    ks.Sublist (seps (after .inl Tree.inorder ks cs)) := by
  induction ks generalizing cs with
  | nil => simp
  | cons k ks ih =>
    obtain ⟨c, cs, rfl⟩ := List.exists_cons_of_length_eq_add_one h.symm
    rw [after_cons, seps_inl, seps_append]
    exact ((ih (by simpa using h)).trans (List.sublist_append_right _ _)).cons_cons k

theorem sublist_seps_interleave {ks : List K} {cs : List (Tree A K L n)}
    (h : cs.length = ks.length + 1) : ks.Sublist (seps (interleave .inl Tree.inorder ks cs)) := by
  obtain ⟨c, cs, rfl⟩ := List.exists_cons_of_length_eq_add_one h
  rw [interleave_cons, seps_append]
  exact (sublist_seps_after (by simpa using h.symm)).trans (List.sublist_append_right _ _)

/-- The separators of a node and of the one above it, in a sequence with increasing separators. -/
theorem frame_sorted [LinearOrder K] {up : Ctx A K L (n + 2)} {b : A} {ks ksL ksR : List K}
    {cs : List (Tree A K L n)} {csL csR : List (Tree A K L (n + 1))}
    (hc : (frame up b ksL csL ksR csR).Paired) (hlen : cs.length = ks.length + 1)
    (h : (seps ((frame up b ksL csL ksR csR).left ++ interleave .inl Tree.inorder ks cs ++
      (frame up b ksL csL ksR csR).right)).Pairwise (· < ·)) :
    (ksL ++ ks ++ ksR).Pairwise (· < ·) := by
  obtain ⟨hL, hR, -⟩ := hc
  refine h.sublist ?_
  rw [left_frame, right_frame, seps_append, seps_append, seps_append, seps_append]
  exact (((sublist_seps_before hL).trans (List.sublist_append_right _ _)).append
    (sublist_seps_interleave hlen)).append
      ((sublist_seps_after hR).trans (List.sublist_append_left _ _))

end Separators

end Ctx

end NwtBTree
