import NwtBTree.Multiway.Growth
import NwtBTree.Multiway.Lead
import NwtBTree.Refine.Lookup

/-!
# The leaf chain

`Chained` says that a list of leaves is linked in both directions from end to
end. Following `nextLeaf` from the leftmost leaf then visits exactly these
leaves.
-/

namespace NwtBTree

variable {K D : Type} {P : Template K D}

/-- The leaf chain: neighbours are joined, and it ends on both sides. -/
structure Chained (l : Links) (L : List Addr) : Prop where
  joined : L.IsChain l.Joined
  first : ∀ a ∈ L.head?, l.prv a = none
  last : ∀ a ∈ L.getLast?, l.nxt a = none

/-! ## Growth at the right end -/

section Chain

variable {c : MCtx K D 0} {l : Links} {x y : Addr}

theorem not_mem_fresh {b : Addr} {m : Nat} (h : b < m) : b ∉ ([m, m + 1] : List Addr) := by
  simp only [List.mem_cons, List.not_mem_nil, or_false, not_or]
  exact ⟨Nat.ne_of_lt h, Nat.ne_of_lt (Nat.lt_succ_of_lt h)⟩

/-- The next two addresses are new. -/
theorem nodup_fresh {L : List Addr} {m : Nat} (h : L.Nodup) (hlt : ∀ b ∈ L, b < m) :
    (L ++ [m, m + 1]).Nodup := by
  refine List.nodup_append'.mpr ⟨h, ?_, fun b hb => not_mem_fresh (hlt b hb)⟩
  simp

/-- Only the last of the leaves before the new ones matters, and it is a sibling. -/
theorem grow_lefts [LE K] {cap : Nat} {k : K} (hc : c.Paired) (hend : c.AtEnd cap k) :
    l.grow true c.lefts x y = l.grow true ((tips c.left).map Tip.addr) x y := by
  cases c with
  | top => rfl
  | frame up a ksL csL ksR csR =>
    obtain ⟨rfl, rfl, -⟩ := hend
    obtain ⟨hlen, -, hpos, -⟩ := hc
    have hne : csL.map Tree.addr ≠ [] := by
      intro hnil
      have := congrArg List.length hnil
      simp only [List.length_map, List.length_nil] at this hpos
      omega
    have htips : (tips (before .inl Tree.inorder ksL csL)).map Tip.addr = csL.map Tree.addr := by
      rw [tips_before _ hlen, List.map_flatMap]
      exact List.map_eq_flatMap.symm
    rw [Ctx.left_frame, tips_append, List.map_append, htips, Links.grow_append hne]
    rfl

/-- Two joined leaves take the place of the last one. -/
theorem Chained.grow {L : List Addr} {n : Addr} (h : Chained l (L ++ [n]))
    (hnd : (L ++ [x, y]).Nodup) (hx : l.prv x = none) (hy : l.nxt y = none) :
    Chained (l.grow true L x y) (L ++ [x, y]) where
  joined := Links.isChain_grow hnd h.joined.left_of_append
  first a ha := by
    have ha' : a ∈ (L ++ [x]).head? := by
      cases L <;> simpa using ha
    rw [Links.grow_prv_first hnd ha']
    cases L with
    | nil =>
      obtain rfl : a = x := by simpa [eq_comm] using ha
      exact hx
    | cons b L => exact h.first a (by simpa using ha)
  last a ha := by
    obtain rfl : a = y := by simpa [eq_comm] using ha
    rw [Links.grow_nxt_last hnd, hy]

theorem Chained.congr {l' : Links} {L : List Addr} (h : Chained l L)
    (heq : ∀ a ∈ L, l'.nxt a = l.nxt a ∧ l'.prv a = l.prv a) : Chained l' L where
  joined := isChain_congr h.joined heq
  first a ha := by rw [(heq a (List.mem_of_mem_head? ha)).2, h.first a ha]
  last a ha := by rw [(heq a (List.mem_of_mem_getLast? ha)).1, h.last a ha]

end Chain

/-! ## Following the chain -/

namespace BTree

/-- The leaf reached through `firstChild[0]`. -/
def leftmost (t : BTree K D) : Nat → Addr → Except Fault Addr
  | 0, _ => .error .diverges
  | fuel + 1, a => do
    if ← t.isleaf a then return a
    let n ← t.inner a
    leftmost t fuel (← deref (← load n.firstChild 0))

/-- The leaves met from `p` on along `nextLeaf`. -/
def chainFrom (t : BTree K D) : Nat → Option Addr → Except Fault (List (Tip Addr (LeafSlots K D)))
  | _, none => .ok []
  | 0, some _ => .error .diverges
  | fuel + 1, some a => do
    let l ← t.leaf a
    return ⟨a, l.toLeafSlots⟩ :: (← chainFrom t fuel l.nextLeaf)

/-- The leaves met along `nextLeaf` from the leftmost leaf on. -/
def leaves (t : BTree K D) : Except Fault (List (Tip Addr (LeafSlots K D))) :=
  match t.root with
  | none => .ok []
  | some r => do t.chainFrom t.fuel (some (← t.leftmost t.fuel r))

variable {t : BTree K D}

theorem leftmost_eq {n : Nat} {T : MTree K D n} (h : Holds P t.view.body T) (hp : T.Paired)
    {l : Tip Addr (LeafSlots K D)} {I : List (Item Addr K (LeafSlots K D))}
    (hl : T.inorder = .inr l :: I) {fuel : Nat} (hfuel : n < fuel) :
    t.leftmost fuel T.addr = .ok l.addr := by
  induction n generalizing fuel I with
  | zero =>
    obtain ⟨f, rfl⟩ : ∃ f, fuel = f + 1 := ⟨fuel - 1, by omega⟩
    obtain ⟨rfl, -⟩ : T = l ∧ I = [] := by simpa [Tree.inorder, eq_comm] using hl
    rw [leftmost, show T.addr = Tip.addr T from rfl, isleaf_leaf h.1]
    rfl
  | succ n ih =>
    obtain ⟨f, rfl⟩ : ∃ f, fuel = f + 1 := ⟨fuel - 1, by omega⟩
    obtain ⟨a, ks, cs⟩ := T
    obtain ⟨⟨s, hs, hin⟩, hcs⟩ := h
    obtain ⟨-, hlen, hpcs⟩ := hp
    cases cs with
    | nil => simp at hlen
    | cons c cs =>
      obtain ⟨r, hr⟩ := hin.children
      obtain ⟨m, J, hJ⟩ := Tree.inorder_starts (hpcs c (by simp))
      have hm : m = l := by
        rw [Tree.inorder_node] at hl
        simp only [interleave_cons, hJ, List.cons_append, List.cons.injEq, Sum.inr.injEq] at hl
        exact hl.1
      have hload : load s.firstChild 0 = .ok (some c.addr) := by
        rw [hr]
        rfl
      rw [leftmost, show Tree.addr (n := n + 1) ⟨a, ks, c :: cs⟩ = a from rfl]
      simp only [isleaf_inner hs, inner_eq hs, ok_bind, Bool.false_eq_true, if_false, hload, deref]
      exact ih (hcs c (by simp)) (hpcs c (by simp)) (hm ▸ hJ) (by omega)

theorem chainFrom_eq {L : List (Tip Addr (LeafSlots K D))}
    (hbody : ∀ l ∈ L, t.view.body l.addr = some (.leaf l.body))
    (hjoined : (L.map Tip.addr).IsChain t.view.links.Joined)
    (hlast : ∀ a ∈ (L.map Tip.addr).getLast?, t.view.links.nxt a = none) {fuel : Nat}
    (hfuel : L.length ≤ fuel) : t.chainFrom fuel (L.map Tip.addr).head? = .ok L := by
  induction L generalizing fuel with
  | nil => cases fuel <;> rfl
  | cons l L ih =>
    obtain ⟨f, rfl⟩ : ∃ f, fuel = f + 1 := ⟨fuel - 1, by simp at hfuel; omega⟩
    have hnext : t.view.links.nxt l.addr = (L.map Tip.addr).head? := by
      cases L with
      | nil => simpa using hlast l.addr (by simp)
      | cons m L => exact (List.isChain_cons_cons.mp hjoined).1.1
    have hrest := ih (fun m hm => hbody m (by simp [hm])) (by simpa using hjoined.tail)
      (fun a ha => hlast a (by
        cases L with
        | nil => simp at ha
        | cons m L => simpa using ha)) (show L.length ≤ f by simpa using hfuel)
    simp only [List.map_cons, List.head?_cons, chainFrom, leaf_eq (hbody l (by simp)),
      ok_bind, hnext,
      hrest]
    rfl

end BTree

theorem Tree.height_lt {A L : Type} {n : Nat} {T : Tree A K L n} (h : T.Paired) :
    n < T.addrs.length := by
  induction n with
  | zero => simp [Tree.addrs]
  | succ n ih =>
    obtain ⟨a, ks, cs⟩ := T
    obtain ⟨-, hlen, hcs⟩ := h
    cases cs with
    | nil => simp at hlen
    | cons c cs =>
      have := ih (hcs c (by simp))
      simp only [addrs_node, List.flatMap_cons, List.length_cons, List.length_append]
      omega

/-- No leaf occurs twice. -/
theorem Rep.tips_nodup {v : View K D} {n : Nat} {T : MTree K D n} (h : Rep P v T) :
    (tips T.inorder).Nodup :=
  List.Nodup.of_map Tip.addr ((Tree.tips_sublist h.paired).nodup h.nodup)

theorem Rep.height_lt {t : BTree K D} {n : Nat} {T : MTree K D n}
    (h : Rep P t.view T) : n < t.fuel := by
  have h1 := Tree.height_lt h.paired
  have h2 : T.addrs.length ≤ t.nodes.size := length_le_of_nodup h.nodup fun a ha => h.lt_size ha
  simp only [BTree.fuel]
  omega

/-- The chain visits the leaves of the tree, in order. -/
theorem leaves_eq {t : BTree K D} {n : Nat} {T : MTree K D n} (h : Rep P t.view T)
    (hc : Chained t.view.links ((tips T.inorder).map Tip.addr)) :
    t.leaves = .ok (tips T.inorder) := by
  obtain ⟨l, I, hI⟩ := Tree.inorder_starts h.paired
  have hroot : t.root = some T.addr := h.root
  have hsize : T.addrs.length ≤ t.nodes.size :=
    length_le_of_nodup h.nodup fun a ha => h.lt_size ha
  have hlen : (tips T.inorder).length ≤ t.fuel := by
    have := (Tree.tips_sublist h.paired).length_le
    simp only [List.length_map] at this
    simp only [BTree.fuel]
    omega
  have hleft := BTree.leftmost_eq h.holds h.paired hI h.height_lt
  have hchain := BTree.chainFrom_eq (fun m hm => (h.holds.tip h.paired hm).1) hc.joined hc.last hlen
  have hhead : ((tips T.inorder).map Tip.addr).head? = some l.addr := by simp [hI]
  simp only [BTree.leaves, hroot, hleft, ok_bind]
  rw [← hhead]
  exact hchain

end NwtBTree
