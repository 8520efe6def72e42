import Mathlib.Data.List.Basic

/-!
# Multiway search trees of uniform height

`Tree A K L n` is a tree whose leaves all lie `n` levels below its root: the type
carries the balance. Nodes and leaves are labelled by `A`, branches carry
separators of type `K` and leaves a content of type `L`.

The in-order sequence of a tree alternates leaves and separators. Almost every
rearrangement of a search tree is a different bracketing of the same sequence,
so the laws below say how it is composed.

A context is a tree with a hole at level `n`, with the innermost frame first; it
is the shape in which an algorithm that climbs parent pointers sees the tree.
-/

namespace NwtBTree

/-- A leaf. -/
structure Tip (A L : Type) where
  addr : A
  body : L

/-- An inner node over subtrees of type `T`. -/
structure Branch (A K T : Type) where
  addr : A
  keys : List K
  children : List T

/-- Trees of height `n`. -/
@[reducible] def Tree (A K L : Type) : Nat → Type
  | 0 => Tip A L
  | n + 1 => Branch A K (Tree A K L n)

/-- The in-order sequence: separators on the left, leaves on the right. -/
abbrev Item (A K L : Type) := K ⊕ Tip A L

variable {A K L : Type}

/-! ## Interleaving separators and subtrees -/

section Interleave

variable {T α : Type} (g : K → α) (f : T → List α)

/-- Every subtree is followed by its separator. -/
def before : List K → List T → List α
  | k :: ks, c :: cs => f c ++ g k :: before ks cs
  | _, _ => []

/-- Every subtree is preceded by its separator. -/
def after : List K → List T → List α
  | k :: ks, c :: cs => g k :: f c ++ after ks cs
  | _, _ => []

/-- One subtree more than separators. -/
def interleave (ks : List K) : List T → List α
  | [] => []
  | c :: cs => f c ++ after g f ks cs

@[simp] theorem before_nil (cs : List T) : before g f [] cs = [] := by
  cases cs <;> rfl

@[simp] theorem before_cons (k : K) (ks : List K) (c : T) (cs : List T) :
    before g f (k :: ks) (c :: cs) = f c ++ g k :: before g f ks cs := rfl

@[simp] theorem after_nil (cs : List T) : after g f [] cs = [] := by
  cases cs <;> rfl

@[simp] theorem after_cons (k : K) (ks : List K) (c : T) (cs : List T) :
    after g f (k :: ks) (c :: cs) = g k :: (f c ++ after g f ks cs) := rfl

@[simp] theorem interleave_cons (ks : List K) (c : T) (cs : List T) :
    interleave g f ks (c :: cs) = f c ++ after g f ks cs := rfl

theorem before_append {ks ks' : List K} {cs cs' : List T} (h : ks.length = cs.length) :
    before g f (ks ++ ks') (cs ++ cs') = before g f ks cs ++ before g f ks' cs' := by
  induction ks generalizing cs with
  | nil =>
    cases cs with
    | nil => simp
    | cons => simp at h
  | cons k ks ih =>
    cases cs with
    | nil => simp at h
    | cons c cs => simp [@ih cs (by simpa using h)]

theorem after_append {ks ks' : List K} {cs cs' : List T} (h : ks.length = cs.length) :
    after g f (ks ++ ks') (cs ++ cs') = after g f ks cs ++ after g f ks' cs' := by
  induction ks generalizing cs with
  | nil =>
    cases cs with
    | nil => simp
    | cons => simp at h
  | cons k ks ih =>
    cases cs with
    | nil => simp at h
    | cons c cs => simp [@ih cs (by simpa using h)]

/-- The sequence around a chosen subtree. -/
theorem interleave_split {ks ks' : List K} {cs cs' : List T} (h : ks.length = cs.length) (c : T) :
    interleave g f (ks ++ ks') (cs ++ c :: cs') =
      before g f ks cs ++ f c ++ after g f ks' cs' := by
  induction cs generalizing ks with
  | nil =>
    cases ks with
    | nil => simp
    | cons => simp at h
  | cons d cs ih =>
    cases ks with
    | nil => simp at h
    | cons k ks =>
      have hlen : ks.length = cs.length := by simpa using h
      cases cs with
      | nil =>
        cases ks with
        | nil => simp
        | cons => simp at hlen
      | cons e cs => simpa using ih hlen

/-- A group of subtrees with the separator after it. -/
theorem before_concat {ks : List K} {cs : List T} (h : cs.length = ks.length + 1) (k : K) :
    before g f (ks ++ [k]) cs = interleave g f ks cs ++ [g k] := by
  induction ks generalizing cs with
  | nil =>
    obtain ⟨c, rfl⟩ := List.length_eq_one_iff.mp h
    simp
  | cons x ks ih =>
    match cs, h with
    | c :: d :: cs, h => simpa using @ih (d :: cs) (by simpa using h)

/-- Two neighbouring groups of subtrees with the separator between them. -/
theorem interleave_append {ks ks' : List K} {cs cs' : List T} {k : K}
    (h : cs.length = ks.length + 1) (hne : cs' ≠ []) :
    interleave g f (ks ++ k :: ks') (cs ++ cs') =
      interleave g f ks cs ++ g k :: interleave g f ks' cs' := by
  obtain ⟨c', cs', rfl⟩ := List.exists_cons_of_ne_nil hne
  cases cs with
  | nil => simp at h
  | cons c cs =>
    have hlen : ks.length = cs.length := by simpa using h.symm
    simp [after_append g f hlen]

end Interleave

/-! ## Trees -/

namespace Tree

/-- A tree of height zero. -/
abbrev leaf (a : A) (l : L) : Tree A K L 0 := Tip.mk a l

/-- A tree of height `n + 1`. -/
abbrev node {n : Nat} (a : A) (ks : List K) (cs : List (Tree A K L n)) : Tree A K L (n + 1) :=
  Branch.mk a ks cs

def addr : {n : Nat} → Tree A K L n → A
  | 0, t => Tip.addr t
  | _ + 1, t => Branch.addr t

@[simp] theorem addr_leaf (a : A) (l : L) : addr (leaf (K := K) a l) = a := rfl

@[simp] theorem addr_node {n : Nat} (a : A) (ks : List K) (cs : List (Tree A K L n)) :
    addr (node a ks cs) = a := rfl

/-- The labels of all nodes. -/
def addrs : {n : Nat} → Tree A K L n → List A
  | 0, t => [Tip.addr t]
  | _ + 1, t => Branch.addr t :: (Branch.children t).flatMap addrs

@[simp] theorem addrs_leaf (a : A) (l : L) : addrs (leaf (K := K) a l) = [a] := rfl

@[simp] theorem addrs_node {n : Nat} (a : A) (ks : List K) (cs : List (Tree A K L n)) :
    addrs (node a ks cs) = a :: cs.flatMap addrs := rfl

def inorder : {n : Nat} → Tree A K L n → List (Item A K L)
  | 0, t => [.inr t]
  | _ + 1, t => interleave .inl inorder (Branch.keys t) (Branch.children t)

@[simp] theorem inorder_leaf (a : A) (l : L) :
    inorder (leaf (K := K) a l) = [.inr ⟨a, l⟩] := rfl

theorem inorder_node {n : Nat} (a : A) (ks : List K) (cs : List (Tree A K L n)) :
    inorder (node a ks cs) = interleave .inl inorder ks cs := rfl

/-- Every branch has a separator, and one child more than separators. -/
def Paired : {n : Nat} → Tree A K L n → Prop
  | 0, _ => True
  | _ + 1, t => 0 < (Branch.keys t).length ∧
      (Branch.children t).length = (Branch.keys t).length + 1 ∧
      ∀ c ∈ Branch.children t, Paired c

@[simp] theorem paired_leaf (a : A) (l : L) : Paired (leaf (K := K) a l) := trivial

@[simp] theorem paired_node {n : Nat} (a : A) (ks : List K) (cs : List (Tree A K L n)) :
    Paired (node a ks cs) ↔
      0 < ks.length ∧ cs.length = ks.length + 1 ∧ ∀ c ∈ cs, Paired c := Iff.rfl

theorem addr_mem_addrs : {n : Nat} → (t : Tree A K L n) → t.addr ∈ t.addrs
  | 0, ⟨_, _⟩ => by simp
  | _ + 1, ⟨_, _, _⟩ => by simp

end Tree

end NwtBTree
