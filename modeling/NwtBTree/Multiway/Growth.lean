import NwtBTree.Multiway.Search

/-!
# Growth at the right end

`pushUp` puts two trees with a separator between them into the hole of a context
whose hole is the last child at every level that overflows. A node with room
takes them; a full one is cut in the middle, its middle separator moves up, and
the trees go to the end of the second half; above the root a new root appears.
None of this changes the in-order sequence.
-/

namespace NwtBTree

variable {A K L : Type}

namespace Ctx

/-- The labels of the siblings on the left of the hole. -/
def lefts : {n : Nat} → Ctx A K L n → List A
  | _, top => []
  | _, frame _ _ _ csL _ _ => csL.map Tree.addr

/-- The hole is the last child, and the separator `k` the largest, at every level
that an overflow starting with `k` reaches. -/
def AtEnd [LE K] (cap : Nat) : {n : Nat} → Ctx A K L n → K → Prop
  | _, top, _ => True
  | _, frame up _ ksL _ ksR csR, k => ksR = [] ∧ csR = [] ∧ (∀ y ∈ ksL, y ≤ k) ∧
      (cap ≤ ksL.length → ∀ m ∈ (ksL.drop (cap / 2)).head?, up.AtEnd cap m)

/-- `pushUp` splits no node of fewer than three keys. -/
def Growable (cap : Nat) : {n : Nat} → Ctx A K L n → Prop
  | _, top => 1 ≤ cap
  | _, frame _ _ ksL _ _ _ => 3 ≤ cap ∨ ksL.length < cap

theorem growable_of_three (h : 3 ≤ cap) {n : Nat} (c : Ctx A K L n) : c.Growable cap := by
  cases c with
  | top => exact Nat.le_trans (by decide) h
  | frame => exact .inl h

/-- Put `N`, `k`, `N'` into the hole; the labels of new nodes are `new f`, `new (f + 1)`, … -/
def pushUp (cap : Nat) (new : Nat → A) : {n : Nat} → Ctx A K L n → Nat →
    Tree A K L n → K → Tree A K L n → (m : Nat) × Tree A K L m
  | _, top, f, N, k, N' => ⟨_, .node (new f) [k] [N, N']⟩
  | _, frame up a ksL csL ksR csR, f, N, k, N' =>
    if ksL.length < cap then
      up.fill (.node a (ksL ++ k :: ksR) (csL ++ N :: N' :: csR))
    else
      match ksL.drop (cap / 2) with
      | m :: B => up.pushUp cap new (f + 2)
          (.node (new f) (ksL.take (cap / 2)) (csL.take (cap / 2 + 1))) m
          (.node (new (f + 1)) (B ++ [k]) (csL.drop (cap / 2 + 1) ++ [N, N']))
      | [] => up.fill (.node a (ksL ++ k :: ksR) (csL ++ N :: N' :: csR))

section PushUp

variable {cap : Nat} {new : Nat → A}

@[simp] theorem pushUp_top {n : Nat} (f : Nat) (N N' : Tree A K L n) (k : K) :
    (top : Ctx A K L n).pushUp cap new f N k N' = ⟨_, .node (new f) [k] [N, N']⟩ := rfl

theorem pushUp_room {n : Nat} (up : Ctx A K L (n + 1)) (a : A) {ksL : List K}
    (csL : List (Tree A K L n)) (ksR : List K) (csR : List (Tree A K L n)) (f : Nat)
    (N N' : Tree A K L n) (k : K) (h : ksL.length < cap) :
    (frame up a ksL csL ksR csR).pushUp cap new f N k N' =
      up.fill (.node a (ksL ++ k :: ksR) (csL ++ N :: N' :: csR)) := by
  rw [pushUp, if_pos h]

theorem pushUp_full {n : Nat} (up : Ctx A K L (n + 1)) (a : A) {X B : List K} {m : K}
    {CA CB : List (Tree A K L n)} (f : Nat) (N N' : Tree A K L n) (k : K)
    (h : cap ≤ (X ++ m :: B).length) (hX : X.length = cap / 2) (hC : CA.length = X.length + 1) :
    (frame up a (X ++ m :: B) (CA ++ CB) [] []).pushUp cap new f N k N' =
      up.pushUp cap new (f + 2) (.node (new f) X CA) m
        (.node (new (f + 1)) (B ++ [k]) (CB ++ [N, N'])) := by
  rw [pushUp, if_neg (by omega)]
  simp [← hX, ← hC]

/-- A full node that overflows at its end, cut in the middle. -/
theorem exists_cut {T : Type} {ks : List K} {cs : List T} (h : ks.length = cs.length)
    (hfull : cap ≤ ks.length) (hcap : 2 ≤ cap) :
    ∃ (X : List K) (m : K) (B : List K) (CA CB : List T), ks = X ++ m :: B ∧ cs = CA ++ CB ∧
      X.length = cap / 2 ∧ CA.length = X.length + 1 := by
  have hlt : cap / 2 < ks.length := by omega
  refine ⟨ks.take (cap / 2), ks[cap / 2], ks.drop (cap / 2 + 1), cs.take (cap / 2 + 1),
    cs.drop (cap / 2 + 1), ?_, by simp, by simp; omega, by simp; omega⟩
  rw [← List.drop_eq_getElem_cons hlt, List.take_append_drop]

/-- Pushing up keeps every sequence that the in-order sequence is made of. -/
theorem inorder_pushUp [LE K] (hcap : 2 ≤ cap) {n : Nat} {c : Ctx A K L n} (hc : c.Paired) {k : K}
    (he : c.AtEnd cap k) (f : Nat) (N N' : Tree A K L n) :
    (c.pushUp cap new f N k N').2.inorder =
      c.left ++ N.inorder ++ .inl k :: N'.inorder ++ c.right := by
  induction c generalizing k f with
  | top => simp [Tree.inorder_node]
  | frame up a ksL csL ksR csR ih =>
    obtain ⟨rfl, rfl, -, hnext⟩ := he
    have hup := hc.2.2.2.2.2
    have hlen := hc.1
    by_cases hroom : ksL.length < cap
    · rw [pushUp_room _ _ _ _ _ _ _ _ _ hroom, inorder_fill hup, Tree.inorder_node,
        interleave_split _ _ hlen]
      simp
    · obtain ⟨X, m, B, CA, CB, rfl, rfl, hX, hCA⟩ := exists_cut hlen (Nat.not_lt.mp hroom) hcap
      rw [pushUp_full _ _ _ _ _ _ (Nat.not_lt.mp hroom) hX hCA,
        ih hup (hnext (Nat.not_lt.mp hroom) m (by simp [← hX]))]
      simp only [List.length_append, List.length_cons] at hlen
      have hB : B.length = CB.length := by omega
      have hbefore : before .inl Tree.inorder (X ++ m :: B) (CA ++ CB) =
          before .inl Tree.inorder (X ++ [m]) CA ++ before .inl Tree.inorder B CB := by
        rw [← before_append _ _ (by simpa using hCA.symm)]
        simp
      have hright : interleave .inl Tree.inorder (B ++ [k]) (CB ++ [N, N']) =
          before .inl Tree.inorder B CB ++ N.inorder ++ .inl k :: N'.inorder := by
        rw [interleave_split _ _ hB]
        simp
      rw [left_frame, hbefore, before_concat _ _ hCA, Tree.inorder_node, Tree.inorder_node, hright]
      simp

/-- Every node of the result was there before or has a new label. -/
theorem mem_addrs_pushUp {n : Nat} {c : Ctx A K L n} {k : K} {f : Nat} {N N' : Tree A K L n}
    {b : A} (hb : b ∈ (c.pushUp cap new f N k N').2.addrs) :
    b ∈ c.addrs ∨ b ∈ N.addrs ∨ b ∈ N'.addrs ∨ ∃ i, b = new (f + i) := by
  induction c generalizing k f with
  | top =>
    simp only [pushUp_top, Tree.addrs_node, List.flatMap_cons, List.flatMap_nil, List.append_nil,
      List.mem_cons, List.mem_append] at hb
    obtain rfl | hb | hb := hb
    · exact .inr (.inr (.inr ⟨0, rfl⟩))
    · exact .inr (.inl hb)
    · exact .inr (.inr (.inl hb))
  | frame up a ksL csL ksR csR ih =>
    have hroom : b ∈ (up.fill (.node a (ksL ++ k :: ksR) (csL ++ N :: N' :: csR))).2.addrs →
        b ∈ (frame up a ksL csL ksR csR).addrs ∨ b ∈ N.addrs ∨ b ∈ N'.addrs ∨
          ∃ i, b = new (f + i) := by
      intro hb
      have := (addrs_fill _ _).mem_iff.mp hb
      simp only [Tree.addrs_node, List.flatMap_append, List.flatMap_cons, List.mem_append,
        List.mem_cons, addrs_frame] at this ⊢
      tauto
    rw [pushUp] at hb
    by_cases h : ksL.length < cap
    · rw [if_pos h] at hb
      exact hroom hb
    · rw [if_neg h] at hb
      cases hdrop : ksL.drop (cap / 2) with
      | nil =>
        rw [hdrop] at hb
        exact hroom hb
      | cons m B =>
        rw [hdrop] at hb
        obtain hb | hb | hb | ⟨i, rfl⟩ := ih hb
        · exact .inl (by simp [hb])
        · simp only [Tree.addrs_node, List.mem_cons] at hb
          obtain rfl | hb := hb
          · exact .inr (.inr (.inr ⟨0, rfl⟩))
          · obtain ⟨c, hc, hb⟩ := List.mem_flatMap.mp hb
            have : b ∈ csL.flatMap Tree.addrs :=
              List.mem_flatMap.mpr ⟨c, List.mem_of_mem_take hc, hb⟩
            exact .inl (by simp [this])
        · simp only [Tree.addrs_node, List.mem_cons, List.flatMap_append, List.flatMap_cons,
            List.flatMap_nil, List.append_nil, List.mem_append] at hb
          obtain rfl | hb | hb | hb := hb
          · exact .inr (.inr (.inr ⟨1, rfl⟩))
          · obtain ⟨c, hc, hb⟩ := List.mem_flatMap.mp hb
            have : b ∈ csL.flatMap Tree.addrs :=
              List.mem_flatMap.mpr ⟨c, List.mem_of_mem_drop hc, hb⟩
            exact .inl (by simp [this])
          · exact .inr (.inl hb)
          · exact .inr (.inr (.inl hb))
        · exact .inr (.inr (.inr ⟨2 + i, by rw [Nat.add_assoc]⟩))

end PushUp

/-- With separators in order the key pushed up at the end is not smaller than any before it. -/
theorem AtEnd.seps_le [LinearOrder K] {cap : Nat} {n : Nat} {c : Ctx A K L n} {k : K}
    (h : c.AtEnd cap k) (hc : c.Paired) (hs : (seps c.left).Pairwise (· ≤ ·)) :
    ∀ s ∈ seps c.left, s ≤ k := by
  cases c with
  | top => simp
  | frame up a ksL csL ksR csR =>
    obtain ⟨rfl, rfl, hle, -⟩ := h
    obtain ⟨hlen, -, hpos, -⟩ := hc
    obtain ⟨I, z, hz, heq⟩ := before_ends hlen (List.ne_nil_of_length_pos hpos)
    rw [left_frame, heq, ← List.append_assoc, seps_append] at hs ⊢
    intro s hs'
    rcases List.mem_append.mp hs' with hs' | hs'
    · exact le_trans ((List.pairwise_append.mp hs).2.2 s hs' z (by simp)) (hle z hz)
    · obtain rfl : s = z := by simpa using hs'
      exact hle s hz

/-- A hole with nothing on its right is the last child. -/
theorem right_eq_nil {n : Nat} {up : Ctx A K L (n + 1)} {a : A} {ksL ksR : List K}
    {csL csR : List (Tree A K L n)} (hc : (frame up a ksL csL ksR csR).Paired)
    (h : (frame up a ksL csL ksR csR).right = []) : ksR = [] ∧ csR = [] ∧ up.right = [] := by
  obtain ⟨-, hlen, -, -, -, -⟩ := hc
  rw [right_frame, List.append_eq_nil_iff] at h
  have hksR : ksR = [] := by
    by_contra hne
    obtain ⟨I, z, -, heq⟩ := after_starts hlen hne
    rw [heq] at h
    simp at h
  subst hksR
  exact ⟨rfl, List.eq_nil_of_length_eq_zero (by simpa using hlen.symm), h.2⟩

/-- A hole with nothing on its right is the last child at every level. -/
theorem atEnd_of_right_nil [LinearOrder K] {cap : Nat} {n : Nat} {c : Ctx A K L n}
    (hc : c.Paired) (hright : c.right = []) (hs : (seps c.left).Pairwise (· ≤ ·)) {k : K}
    (hk : ∀ s ∈ seps c.left, s ≤ k) : c.AtEnd cap k := by
  induction c generalizing k with
  | top => trivial
  | frame up a ksL csL ksR csR ih =>
    obtain ⟨rfl, hcsR, hrup⟩ := right_eq_nil hc hright
    obtain ⟨hlen, -, -, -, -, hup⟩ := hc
    rw [left_frame, seps_append] at hs hk
    refine ⟨rfl, hcsR, fun y hy => hk y (List.mem_append_right _ (mem_seps_before hlen hy)), ?_⟩
    intro _ m hm
    have hm' : m ∈ ksL := List.mem_of_mem_drop (List.mem_of_mem_head? hm)
    refine ih hup hrup (List.pairwise_append.mp hs).1 fun s hs' => ?_
    exact (List.pairwise_append.mp hs).2.2 s hs' m (mem_seps_before hlen hm')

end Ctx

end NwtBTree
