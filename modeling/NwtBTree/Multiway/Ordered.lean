import Mathlib.Data.List.Forall2
import NwtBTree.Multiway.Order

/-!
# Order node by node

The order of a search tree as it is checked at one node at a time: separators
increase inside a node, and the keys under a child lie between the separators
around it. Leaves may be empty, and nothing is said about separators of
different nodes. It is enough to bring every search for a stored key to its leaf.
-/

namespace NwtBTree

variable {A K L : Type} [LinearOrder K] {keys : L → List K}

/-- `x` lies in the interval of child `i` of a node with the separators `ks`. -/
def InSlot (ks : List K) (i : Nat) (x : K) : Prop :=
  (∀ j, j + 1 = i → ∀ s ∈ ks[j]?, s ≤ x) ∧ ∀ s ∈ ks[i]?, x < s

theorem inSlot_split {ksL ksR : List K} {x : K} (hs : (ksL ++ ksR).Pairwise (· < ·)) :
    InSlot (ksL ++ ksR) ksL.length x ↔ (∀ s ∈ ksL, s ≤ x) ∧ ∀ s ∈ ksR.head?, x < s := by
  have hR : (ksL ++ ksR)[ksL.length]? = ksR.head? := by
    rw [List.getElem?_append_right (Nat.le_refl _), Nat.sub_self, List.head?_eq_getElem?]
  unfold InSlot
  rw [hR]
  refine and_congr_left fun _ => ?_
  rcases List.eq_nil_or_concat ksL with rfl | ⟨ks, z, rfl⟩
  · simp
  · have hget : ∀ j, j + 1 = (ks.concat z).length → (ks.concat z ++ ksR)[j]? = some z := by
      intro j hj
      have : j = ks.length := by simpa using hj
      subst this
      simp
    constructor
    · intro h s hs'
      have hz : z ≤ x := h ks.length (by simp) z (hget _ (by simp))
      rw [List.concat_eq_append] at hs hs'
      rcases List.mem_append.mp hs' with hs' | hs'
      · have hlast := (List.pairwise_append.mp (List.pairwise_append.mp hs).1).2.2 s hs' z (by simp)
        exact le_trans (le_of_lt hlast) hz
      · obtain rfl : s = z := by simpa using hs'
        exact hz
    · intro h j hj s hs'
      rw [hget j hj] at hs'
      obtain rfl := Option.mem_some_iff.mp hs'
      exact h _ (by simp)

/-- Separators increase in every node, keys in every leaf, and the keys under child `i` of a
node lie between its separators `i - 1` and `i`. -/
def Tree.Ordered (keys : L → List K) : {n : Nat} → Tree A K L n → Prop
  | 0, t => (keys (Tip.body t)).Pairwise (· < ·)
  | _ + 1, t => (Branch.keys t).Pairwise (· < ·) ∧
      (∀ i, ∀ c ∈ (Branch.children t)[i]?, ∀ x ∈ allKeys keys c.inorder,
        InSlot (Branch.keys t) i x) ∧
      ∀ c ∈ Branch.children t, Tree.Ordered keys c

/-- The leaf that the separators name for `k`. -/
def Tree.home (k : K) : {n : Nat} → Tree A K L n → Option (Tip A L)
  | 0, t => some t
  | _ + 1, t => (Branch.children t)[((Branch.keys t).takeWhile (decide <| · ≤ k)).length]?.bind
      (Tree.home k)

section Node

variable {n : Nat} {a : A} {ks ksL ksR : List K} {cs csL csR : List (Tree A K L n)}
  {c c' : Tree A K L n} {k : K}

@[simp] theorem Tree.ordered_leaf (a : A) (l : L) :
    Tree.Ordered keys (Tree.leaf (K := K) a l) ↔ (keys l).Pairwise (· < ·) := Iff.rfl

@[simp] theorem Tree.ordered_node :
    Tree.Ordered keys (Tree.node a ks cs) ↔ ks.Pairwise (· < ·) ∧
      (∀ i, ∀ c ∈ cs[i]?, ∀ x ∈ allKeys keys c.inorder, InSlot ks i x) ∧
      ∀ c ∈ cs, Tree.Ordered keys c := Iff.rfl

/-- A node stays ordered when a child is replaced by one whose keys fit in its place. -/
theorem Tree.ordered_set (hlen : ksL.length = csL.length)
    (h : Tree.Ordered keys (Tree.node a (ksL ++ ksR) (csL ++ c :: csR))) :
    Tree.Ordered keys (Tree.node a (ksL ++ ksR) (csL ++ c' :: csR)) ↔ Tree.Ordered keys c' ∧
      ∀ x ∈ allKeys keys c'.inorder, (∀ s ∈ ksL, s ≤ x) ∧ ∀ s ∈ ksR.head?, x < s := by
  obtain ⟨hs, hin, hcs⟩ := h
  have hsplit : ∀ x, InSlot (ksL ++ ksR) csL.length x ↔
      (∀ s ∈ ksL, s ≤ x) ∧ ∀ s ∈ ksR.head?, x < s := by
    intro x
    rw [← hlen]
    exact inSlot_split hs
  rw [Tree.ordered_node]
  constructor
  · rintro ⟨-, hin', hcs'⟩
    refine ⟨hcs' c' (by simp), fun x hx => (hsplit x).mp (hin' csL.length c' ?_ x hx)⟩
    simp
  · rintro ⟨hc', hfit⟩
    refine ⟨hs, fun i d hd x hx => ?_, fun d hd => ?_⟩
    · by_cases hi : i = csL.length
      · subst hi
        obtain rfl : c' = d := by simpa using hd
        exact (hsplit x).mpr (hfit x hx)
      · refine hin i d ?_ x hx
        show (csL ++ c :: csR)[i]? = some d
        have hd' : (csL ++ c' :: csR)[i]? = some d := hd
        rw [List.getElem?_append] at hd' ⊢
        split_ifs at hd' ⊢ with hlt
        · exact hd'
        · rw [List.getElem?_cons] at hd' ⊢
          rwa [if_neg (by omega)] at hd' ⊢
    · have hmem : d ∈ csL ∨ d = c' ∨ d ∈ csR := by simpa using hd
      rcases hmem with hd | rfl | hd
      · exact hcs d (List.mem_append_left _ hd)
      · exact hc'
      · exact hcs d (List.mem_append_right _ (List.mem_cons_of_mem _ hd))

theorem Tree.home_node (hlen : ksL.length = csL.length) (hL : ∀ s ∈ ksL, s ≤ k)
    (hR : ∀ s ∈ ksR.head?, k < s) :
    Tree.home k (Tree.node a (ksL ++ ksR) (csL ++ c :: csR)) = c.home k := by
  have htake : (ksL ++ ksR).takeWhile (decide <| · ≤ k) = ksL := by
    rw [List.takeWhile_append_of_pos (by simpa using hL)]
    cases ksR with
    | nil => simp
    | cons s ks =>
      have hlt : ¬s ≤ k := not_le.mpr (hR s rfl)
      simp [hlt]
  simp [Tree.home, htake, hlen]

end Node

/-! ## Leaves that lose keys -/

/-- `t'` is `t` with some keys taken out of leaves. -/
def Tree.Thins (keys : L → List K) : {n : Nat} → Tree A K L n → Tree A K L n → Prop
  | 0, t, t' => Tip.addr t = Tip.addr t' ∧ (keys (Tip.body t')).Sublist (keys (Tip.body t))
  | _ + 1, t, t' => Branch.addr t = Branch.addr t' ∧ Branch.keys t = Branch.keys t' ∧
      List.Forall₂ (Tree.Thins keys) (Branch.children t) (Branch.children t')

omit [LinearOrder K] in
theorem mem_allKeys_node {n : Nat} {a : A} {ks : List K} {cs : List (Tree A K L n)}
    (hlen : cs.length = ks.length + 1) {x : K} :
    x ∈ allKeys keys (Tree.node a ks cs).inorder ↔ ∃ c ∈ cs, x ∈ allKeys keys c.inorder := by
  rw [allKeys, Tree.inorder_node, tips_interleave _ hlen]
  simp only [List.mem_flatMap, Function.comp, allKeys]
  grind

omit [LinearOrder K] in
theorem Tree.Thins.subset {n : Nat} {t t' : Tree A K L n} (h : Tree.Thins keys t t')
    (hp : t.Paired) (hp' : t'.Paired) :
    ∀ x ∈ allKeys keys t'.inorder, x ∈ allKeys keys t.inorder := by
  induction n with
  | zero =>
    intro x hx
    simp only [Tree.inorder, allKeys_inr, allKeys_nil, List.append_nil] at hx ⊢
    exact h.2.subset hx
  | succ n ih =>
    obtain ⟨a, ks, cs⟩ := t
    obtain ⟨a', ks', cs'⟩ := t'
    obtain ⟨-, -, hcs⟩ := h
    intro x hx
    obtain ⟨c', hc', hx⟩ := (mem_allKeys_node hp'.2.1).mp hx
    obtain ⟨i, hi, rfl⟩ := List.mem_iff_getElem.mp hc'
    have hi' : i < cs.length := by rw [List.Forall₂.length_eq hcs]; exact hi
    refine (mem_allKeys_node hp.2.1).mpr ⟨cs[i], List.getElem_mem hi', ?_⟩
    exact ih (hcs.get hi' hi) (hp.2.2 _ (List.getElem_mem hi')) (hp'.2.2 _ hc') x hx

/-- Taking keys out of leaves keeps a tree ordered. -/
theorem Tree.Thins.ordered {n : Nat} {t t' : Tree A K L n} (h : Tree.Thins keys t t')
    (hp : t.Paired) (hp' : t'.Paired) (ho : t.Ordered keys) : t'.Ordered keys := by
  induction n with
  | zero => exact List.Pairwise.sublist h.2 ho
  | succ n ih =>
    obtain ⟨a, ks, cs⟩ := t
    obtain ⟨a', ks', cs'⟩ := t'
    obtain ⟨-, rfl, hcs⟩ := h
    obtain ⟨hks, hin, hord⟩ := ho
    have hchild : ∀ i (hi : i < cs'.length), ∃ hi' : i < cs.length,
        Tree.Thins keys cs[i] cs'[i] ∧ cs[i].Paired ∧ cs'[i].Paired := by
      intro i hi
      have hi' : i < cs.length := by rw [List.Forall₂.length_eq hcs]; exact hi
      exact ⟨hi', hcs.get hi' hi, hp.2.2 _ (List.getElem_mem hi'), hp'.2.2 _ (List.getElem_mem hi)⟩
    refine ⟨hks, fun i c hc x hx => ?_, fun c hc => ?_⟩
    · obtain ⟨hi, rfl⟩ := List.getElem?_eq_some_iff.mp hc
      obtain ⟨hi', ht, h1, h2⟩ := hchild i hi
      exact hin i cs[i] (List.getElem?_eq_getElem hi') x (ht.subset h1 h2 x hx)
    · obtain ⟨i, hi, rfl⟩ := List.mem_iff_getElem.mp hc
      obtain ⟨hi', ht, h1, h2⟩ := hchild i hi
      exact ih ht h1 h2 (hord _ (List.getElem_mem hi'))

section Context

variable {n : Nat} {c : Ctx A K L n} {t t' : Tree A K L n} {k : K}

/-- An ordered tree stays ordered when a subtree is replaced exactly if the keys of the new
subtree lead to its place. -/
theorem Ctx.ordered_fill (hc : c.Paired) (h : (c.fill t).2.Ordered keys) :
    (c.fill t').2.Ordered keys ↔ t'.Ordered keys ∧ ∀ x ∈ allKeys keys t'.inorder, c.Routes x := by
  induction c with
  | top => simp
  | frame up a ksL csL ksR csR ih =>
    obtain ⟨hlen, hlen', -, -, -, hup⟩ := hc
    rw [Ctx.fill_frame] at h ⊢
    obtain ⟨hnode, hroutes⟩ := (ih hup h).mp h
    have hin : ∀ (d : Tree A K L _) x, x ∈ allKeys keys (Tree.node a (ksL ++ ksR)
        (csL ++ d :: csR)).inorder ↔ x ∈ allKeys keys (before .inl Tree.inorder ksL csL) ∨
          x ∈ allKeys keys d.inorder ∨ x ∈ allKeys keys (after .inl Tree.inorder ksR csR) := by
      intro d x
      rw [Tree.inorder_node, interleave_split _ _ hlen]
      simp
    rw [ih hup h, Tree.ordered_set hlen hnode]
    simp only [hin, Ctx.routes_frame] at hroutes ⊢
    constructor
    · rintro ⟨⟨ht, hfit⟩, hr⟩
      exact ⟨ht, fun x hx => ⟨(hfit x hx).1, (hfit x hx).2, hr x (.inr (.inl hx))⟩⟩
    · rintro ⟨ht, hr⟩
      refine ⟨⟨ht, fun x hx => ⟨(hr x hx).1, (hr x hx).2.1⟩⟩, fun x hx => ?_⟩
      rcases hx with hx | hx | hx
      · exact hroutes x (.inl hx)
      · exact (hr x hx).2.2
      · exact hroutes x (.inr (.inr hx))

/-- Every key leads to the leaf that holds it. -/
theorem Ctx.routes_of_ordered (hc : c.Paired) (h : (c.fill t).2.Ordered keys) :
    ∀ x ∈ allKeys keys t.inorder, c.Routes x :=
  ((Ctx.ordered_fill hc h).mp h).2

theorem Ctx.home_fill (hc : c.Paired) (hr : c.Routes k) (t : Tree A K L n) :
    (c.fill t).2.home k = t.home k := by
  induction c with
  | top => rfl
  | frame up a ksL csL ksR csR ih =>
    obtain ⟨hlen, -, -, -, -, hup⟩ := hc
    obtain ⟨hL, hR, hrup⟩ := hr
    rw [Ctx.fill_frame, ih hup hrup, Tree.home_node hlen hL hR]

/-- A key leads to one leaf only. -/
theorem Ctx.routes_unique {c' : Ctx A K L 0} {c : Ctx A K L 0} {l l' : Tip A L} (hc : c.Paired)
    (hc' : c'.Paired) (hr : c.Routes k) (hr' : c'.Routes k) (h : c.fill l = c'.fill l') :
    l = l' := by
  have h1 : (c.fill l).2.home k = some l := Ctx.home_fill hc hr l
  have h2 : (c'.fill l').2.home k = some l' := Ctx.home_fill hc' hr' l'
  rw [h, h2] at h1
  exact (Option.some.inj h1).symm

end Context

end NwtBTree
