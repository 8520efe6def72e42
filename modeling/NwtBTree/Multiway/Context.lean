import NwtBTree.Multiway.Tree

/-!
# Contexts

A context `Ctx A K L n` is a tree with a hole for a subtree of height `n`. Each
frame keeps the siblings on the two sides of the hole, so a climb from a leaf to
the root is a recursion on the context.
-/

namespace NwtBTree

variable {A K L : Type}

inductive Ctx (A K L : Type) : Nat → Type where
  | top {n : Nat} : Ctx A K L n
  | frame {n : Nat} (up : Ctx A K L (n + 1)) (a : A) (ksL : List K) (csL : List (Tree A K L n))
      (ksR : List K) (csR : List (Tree A K L n)) : Ctx A K L n

namespace Ctx

/-- Plug the hole. -/
def fill : {n : Nat} → Ctx A K L n → Tree A K L n → (m : Nat) × Tree A K L m
  | n, top, t => ⟨n, t⟩
  | _, frame up a ksL csL ksR csR, t => up.fill (.node a (ksL ++ ksR) (csL ++ t :: csR))

@[simp] theorem fill_top {n : Nat} (t : Tree A K L n) : (top : Ctx A K L n).fill t = ⟨n, t⟩ := rfl

@[simp] theorem fill_frame {n : Nat} (up : Ctx A K L (n + 1)) (a : A) (ksL ksR : List K)
    (csL csR : List (Tree A K L n)) (t : Tree A K L n) :
    (frame up a ksL csL ksR csR).fill t = up.fill (.node a (ksL ++ ksR) (csL ++ t :: csR)) := rfl

/-- The label of the node that has the hole as a child. -/
def parent : {n : Nat} → Ctx A K L n → Option A
  | _, top => none
  | _, frame _ a _ _ _ _ => some a

/-- The label of the root, given the label at the hole. -/
def rootAddr : {n : Nat} → Ctx A K L n → A → A
  | _, top, x => x
  | _, frame up a _ _ _ _, _ => up.rootAddr a

/-- The labels of all nodes outside the hole. -/
def addrs : {n : Nat} → Ctx A K L n → List A
  | _, top => []
  | _, frame up a _ csL _ csR => a :: (csL.flatMap Tree.addrs ++ csR.flatMap Tree.addrs ++ up.addrs)

/-- What the in-order sequence has before the hole. -/
def left : {n : Nat} → Ctx A K L n → List (Item A K L)
  | _, top => []
  | _, frame up _ ksL csL _ _ => up.left ++ before .inl Tree.inorder ksL csL

/-- What the in-order sequence has after the hole. -/
def right : {n : Nat} → Ctx A K L n → List (Item A K L)
  | _, top => []
  | _, frame up _ _ _ ksR csR => after .inl Tree.inorder ksR csR ++ up.right

def depth : {n : Nat} → Ctx A K L n → Nat
  | _, top => 0
  | _, frame up _ _ _ _ _ => up.depth + 1

/-- Every frame has a separator for each sibling, and the siblings are paired trees. -/
def Paired : {n : Nat} → Ctx A K L n → Prop
  | _, top => True
  | _, frame up _ ksL csL ksR csR =>
      ksL.length = csL.length ∧ ksR.length = csR.length ∧ 0 < ksL.length + ksR.length ∧
      (∀ c ∈ csL, c.Paired) ∧ (∀ c ∈ csR, c.Paired) ∧ up.Paired

@[simp] theorem parent_top {n : Nat} : (top : Ctx A K L n).parent = none := rfl

@[simp] theorem parent_frame {n : Nat} (up : Ctx A K L (n + 1)) (a : A) (ksL ksR : List K)
    (csL csR : List (Tree A K L n)) : (frame up a ksL csL ksR csR).parent = some a := rfl

@[simp] theorem rootAddr_top {n : Nat} (x : A) : (top : Ctx A K L n).rootAddr x = x := rfl

@[simp] theorem rootAddr_frame {n : Nat} (up : Ctx A K L (n + 1)) (a x : A) (ksL ksR : List K)
    (csL csR : List (Tree A K L n)) :
    (frame up a ksL csL ksR csR).rootAddr x = up.rootAddr a := rfl

@[simp] theorem addrs_top {n : Nat} : (top : Ctx A K L n).addrs = [] := rfl

@[simp] theorem addrs_frame {n : Nat} (up : Ctx A K L (n + 1)) (a : A) (ksL ksR : List K)
    (csL csR : List (Tree A K L n)) :
    (frame up a ksL csL ksR csR).addrs =
      a :: (csL.flatMap Tree.addrs ++ csR.flatMap Tree.addrs ++ up.addrs) := rfl

@[simp] theorem left_top {n : Nat} : (top : Ctx A K L n).left = [] := rfl

@[simp] theorem right_top {n : Nat} : (top : Ctx A K L n).right = [] := rfl

@[simp] theorem left_frame {n : Nat} (up : Ctx A K L (n + 1)) (a : A) (ksL ksR : List K)
    (csL csR : List (Tree A K L n)) :
    (frame up a ksL csL ksR csR).left = up.left ++ before .inl Tree.inorder ksL csL := rfl

@[simp] theorem right_frame {n : Nat} (up : Ctx A K L (n + 1)) (a : A) (ksL ksR : List K)
    (csL csR : List (Tree A K L n)) :
    (frame up a ksL csL ksR csR).right = after .inl Tree.inorder ksR csR ++ up.right := rfl

@[simp] theorem paired_top {n : Nat} : (top : Ctx A K L n).Paired := trivial

@[simp] theorem paired_frame {n : Nat} (up : Ctx A K L (n + 1)) (a : A) (ksL ksR : List K)
    (csL csR : List (Tree A K L n)) :
    (frame up a ksL csL ksR csR).Paired ↔
      ksL.length = csL.length ∧ ksR.length = csR.length ∧ 0 < ksL.length + ksR.length ∧
      (∀ c ∈ csL, c.Paired) ∧ (∀ c ∈ csR, c.Paired) ∧ up.Paired := Iff.rfl

/-! ## Plugging -/

theorem inorder_fill {n : Nat} {c : Ctx A K L n} (h : c.Paired) (t : Tree A K L n) :
    (c.fill t).2.inorder = c.left ++ t.inorder ++ c.right := by
  induction c with
  | top => simp
  | frame up a ksL csL ksR csR ih =>
    obtain ⟨hL, -, -, -, -, hup⟩ := h
    rw [fill_frame, ih hup, Tree.inorder_node, interleave_split _ _ hL]
    simp

theorem inorder_fill_leaf {c : Ctx A K L 0} (h : c.Paired) (l : Tip A L) :
    (c.fill l).2.inorder = c.left ++ .inr l :: c.right := by
  rw [inorder_fill h, show Tree.inorder (n := 0) l = [.inr l] from rfl, List.append_assoc,
    List.singleton_append]

theorem addr_fill {n : Nat} (c : Ctx A K L n) (t : Tree A K L n) :
    (c.fill t).2.addr = c.rootAddr t.addr := by
  induction c with
  | top => simp
  | frame up a ksL csL ksR csR ih => rw [fill_frame, ih]; simp

theorem addrs_fill {n : Nat} (c : Ctx A K L n) (t : Tree A K L n) :
    (c.fill t).2.addrs.Perm (c.addrs ++ t.addrs) := by
  induction c with
  | top => simp
  | frame up a ksL csL ksR csR ih =>
    refine (ih _).trans ?_
    classical
    rw [List.perm_iff_count]
    intro b
    simp only [Tree.addrs_node, addrs_frame, List.flatMap_append, List.flatMap_cons,
      List.count_append, List.count_cons, List.cons_append]
    omega

theorem height_fill {n : Nat} (c : Ctx A K L n) (t : Tree A K L n) :
    (c.fill t).1 = n + c.depth := by
  induction c with
  | top => simp [depth]
  | frame up a ksL csL ksR csR ih => rw [fill_frame, ih]; simp only [depth]; omega

theorem rootAddr_mem {n : Nat} {c : Ctx A K L n} {a x : A} (h : c.parent = some a) :
    c.rootAddr x ∈ c.addrs := by
  induction c generalizing a x with
  | top => simp at h
  | frame up b ksL csL ksR csR ih =>
    cases hup : up.parent with
    | none =>
      cases up with
      | top => simp
      | frame => simp at hup
    | some c => simp [ih hup]

theorem paired_fill {n : Nat} {c : Ctx A K L n} (h : c.Paired) {t : Tree A K L n}
    (ht : t.Paired) : (c.fill t).2.Paired := by
  induction c with
  | top => exact ht
  | frame up a ksL csL ksR csR ih =>
    obtain ⟨hL, hR, h0, hcL, hcR, hup⟩ := h
    refine ih hup ⟨by simpa using h0, by simp; omega, fun c hc => ?_⟩
    simp only [List.mem_append, List.mem_cons] at hc
    obtain hc | rfl | hc := hc
    · exact hcL c hc
    · exact ht
    · exact hcR c hc

theorem paired_of_fill {n : Nat} {c : Ctx A K L n} {t : Tree A K L n} (h : (c.fill t).2.Paired) :
    t.Paired := by
  induction c with
  | top => exact h
  | frame up a ksL csL ksR csR ih => exact (ih h).2.2 t (by simp)

/-! ## Moving the hole to the neighbour -/

section Shift

variable {n : Nat} {up : Ctx A K L (n + 1)} {a : A} {k : K} {ksL ksR : List K}
  {csL csR : List (Tree A K L n)} {x y : Tree A K L n}

theorem fill_shift : (frame up a (ksL ++ [k]) (csL ++ [y]) ksR csR).fill x =
    (frame up a ksL csL (k :: ksR) (x :: csR)).fill y := by
  simp

theorem paired_shift_left (h : (frame up a (ksL ++ [k]) (csL ++ [y]) ksR csR).Paired)
    (hx : x.Paired) : (frame up a ksL csL (k :: ksR) (x :: csR)).Paired := by
  obtain ⟨hL, hR, -, hcL, hcR, hup⟩ := h
  refine ⟨by simpa using hL, by simpa using hR, by grind, fun c hc => hcL c (by simp [hc]), ?_,
    hup⟩
  exact List.forall_mem_cons.mpr ⟨hx, hcR⟩

theorem paired_shift_right (h : (frame up a ksL csL (k :: ksR) (x :: csR)).Paired)
    (hy : y.Paired) : (frame up a (ksL ++ [k]) (csL ++ [y]) ksR csR).Paired := by
  obtain ⟨hL, hR, -, hcL, hcR, hup⟩ := h
  refine ⟨by simpa using hL, by simpa using hR, by grind, ?_, fun c hc => hcR c (by simp [hc]),
    hup⟩
  simp only [List.mem_append, List.mem_singleton]
  rintro c (hc | rfl)
  · exact hcL c hc
  · exact hy

end Shift

end Ctx

end NwtBTree
