import NwtBTree.Refine.Chain

/-!
# What is under the root

The leaves that are reached through the `children` arrays, and the inner nodes on
the way, read off the heap without the leaf chain.
-/

namespace NwtBTree

variable {K D : Type} {P : Template K D}

namespace BTree

/-- The leaves under the node at `a`, from left to right. -/
def leavesUnder (t : BTree K D) : Nat → Addr → Except Fault (List (Tip Addr (LeafSlots K D)))
  | 0, _ => .error .diverges
  | fuel + 1, a => do
    if ← t.isleaf a then
      let l ← t.leaf a
      return [⟨a, l.toLeafSlots⟩]
    let n ← t.inner a
    let ls ← (n.firstChild.take n.numChildren).mapM fun p => do
      leavesUnder t fuel (← NwtBTree.deref p)
    return ls.flatten

/-- The pairs in the live slots of the leaves under the root, from left to right. -/
def content (t : BTree K D) : Except Fault (List (K × D)) :=
  match t.root with
  | none => .ok []
  | some r => do return (← t.leavesUnder t.fuel r).flatMap fun l => l.body.entries

/-- The nodes `d` levels below the root. -/
inductive Reachable (t : BTree K D) : Nat → Addr → Prop
  | root {r : Addr} : t.root = some r → Reachable t 0 r
  | child {d : Nat} {a b : Addr} {n : InnerNode K} : Reachable t d a → t.inner a = .ok n →
      some b ∈ n.firstChild.take n.numChildren → Reachable t (d + 1) b

variable {t : BTree K D}

theorem mapM_ok {α β : Type} {f : α → Except Fault β} {g : α → β} {xs : List α}
    (h : ∀ x ∈ xs, f x = .ok (g x)) : xs.mapM f = .ok (xs.map g) := by
  induction xs with
  | nil => rfl
  | cons x xs ih =>
    rw [List.mapM_cons, h x (by simp), ok_bind, ih fun y hy => h y (by simp [hy])]
    rfl

theorem leavesUnder_eq {n : Nat} {T : MTree K D n} (h : Holds P t.view.body T) (hp : T.Paired)
    {fuel : Nat} (hfuel : n < fuel) : t.leavesUnder fuel T.addr = .ok (tips T.inorder) := by
  induction n generalizing fuel with
  | zero =>
    obtain ⟨f, rfl⟩ : ∃ f, fuel = f + 1 := ⟨fuel - 1, by omega⟩
    rw [leavesUnder, show T.addr = Tip.addr T from rfl, isleaf_leaf h.1, leaf_eq h.1]
    rfl
  | succ n ih =>
    obtain ⟨f, rfl⟩ : ∃ f, fuel = f + 1 := ⟨fuel - 1, by omega⟩
    obtain ⟨a, ks, cs⟩ := T
    obtain ⟨⟨s, hs, hin⟩, hcs⟩ := h
    obtain ⟨-, hlen, hpcs⟩ := hp
    obtain ⟨r, hr⟩ := hin.children
    have htake : s.firstChild.take s.numChildren = (cs.map Tree.addr).map some := by
      rw [hr, hin.num]
      exact List.take_left' (by simp)
    have hmap : ((cs.map Tree.addr).map some).mapM (fun p => do
        t.leavesUnder f (← NwtBTree.deref p)) = .ok (cs.map fun c => tips c.inorder) := by
      rw [List.mapM_map, List.mapM_map]
      refine mapM_ok fun c hc => ?_
      exact ih (hcs c hc) (hpcs c hc) (by omega)
    rw [leavesUnder, show Tree.addr (n := n + 1) ⟨a, ks, cs⟩ = a from rfl]
    simp only [isleaf_inner hs, inner_eq hs, ok_bind, Bool.false_eq_true, if_false, htake, hmap]
    rw [Tree.inorder_node, tips_interleave _ hlen, List.flatMap_def]
    rfl

end BTree

section Rep

variable {t : BTree K D} {n : Nat} {T : MTree K D n}

theorem content_eq (h : Rep P t.view T) : t.content = .ok (pairs T.inorder) := by
  have hroot : t.root = some T.addr := h.root
  simp only [BTree.content, hroot, BTree.leavesUnder_eq h.holds h.paired h.height_lt, ok_bind]
  rfl

/-- A node that is reached is the root of a subtree of the height left. -/
theorem Rep.subtree (h : Rep P t.view T) {d : Nat} {a : Addr} (hr : t.Reachable d a) :
    ∃ (m : Nat) (S : MTree K D m), d + m = n ∧ S.addr = a ∧ Holds P t.view.body S ∧ S.Paired := by
  induction hr with
  | root hroot =>
    have haddr : T.addr = _ := Option.some.inj (h.root.symm.trans hroot)
    exact ⟨n, T, Nat.zero_add n, haddr, h.holds, h.paired⟩
  | @child d a b i _ hi hb ih =>
    obtain ⟨m, S, hm, rfl, hS, hp⟩ := ih
    cases m with
    | zero =>
      rw [show S.addr = Tip.addr S from rfl, BTree.inner_leaf hS.1] at hi
      simp at hi
    | succ m =>
      obtain ⟨a, ks, cs⟩ := S
      obtain ⟨⟨s, hs, hin⟩, hcs⟩ := hS
      obtain ⟨r, hr⟩ := hin.children
      rw [show Tree.addr (n := m + 1) ⟨a, ks, cs⟩ = a from rfl, BTree.inner_eq hs] at hi
      obtain rfl := Except.ok.inj hi
      simp only [hr, hin.num] at hb
      rw [List.take_left' (by simp)] at hb
      obtain ⟨c, hc, rfl⟩ : ∃ c ∈ cs, c.addr = b := by simpa using hb
      exact ⟨m, c, by omega, rfl, hcs c hc, hp.2.2 c hc⟩

/-- All leaves are at the same depth. -/
theorem Rep.leaf_depth (h : Rep P t.view T) {d : Nat} {a : Addr} (hr : t.Reachable d a)
    (ha : t.isleaf a = .ok true) : d = n := by
  obtain ⟨m, S, hm, rfl, hS, -⟩ := h.subtree hr
  cases m with
  | zero => exact hm
  | succ m =>
    obtain ⟨a, ks, cs⟩ := S
    obtain ⟨⟨s, hs, -⟩, -⟩ := hS
    rw [show Tree.addr (n := m + 1) ⟨a, ks, cs⟩ = a from rfl, BTree.isleaf_inner hs] at ha
    simp at ha

/-- No node on which a descent could stay. -/
theorem Rep.slotsinuse_lt (h : Rep P t.view T) {d : Nat} {a : Addr} (hr : t.Reachable d a)
    {i : InnerNode K} (hi : t.inner a = .ok i) : i.slotsinuse < i.numChildren := by
  obtain ⟨m, S, -, rfl, hS, hp⟩ := h.subtree hr
  cases m with
  | zero =>
    rw [show S.addr = Tip.addr S from rfl, BTree.inner_leaf hS.1] at hi
    simp at hi
  | succ m =>
    obtain ⟨a, ks, cs⟩ := S
    obtain ⟨⟨s, hs, hin⟩, -⟩ := hS
    obtain ⟨-, hlen, -⟩ := hp
    rw [show Tree.addr (n := m + 1) ⟨a, ks, cs⟩ = a from rfl, BTree.inner_eq hs] at hi
    obtain rfl := Except.ok.inj hi
    simp only [hin.inuse, hin.num, List.length_map, hlen]
    exact Nat.lt_succ_self _

end Rep

end NwtBTree
