import NwtBTree.Multiway.Ordered
import NwtBTree.Refine.Scan

/-!
# Search trees in the heap

What a caller of `find` may rely on: the child pointers form a tree, the
separators of every node are in order and bound the keys under its children, and
`nextLeaf` lists the leaves. Leaves may be full or empty, and nothing is said
about parent pointers, `prevLeaf` and the root flags.
-/

namespace NwtBTree

variable {K D : Type} {P : Template K D}

/-- `nextLeaf` leads from every address of the list to the one after it, and from the last one
to `NULL`. -/
def Lists (nxt : Addr → Option Addr) : List Addr → Prop
  | [] => True
  | a :: L => nxt a = L.head? ∧ Lists nxt L

theorem Lists.forward {nxt : Addr → Option Addr} {L : List Addr} (h : Lists nxt L) :
    Forward nxt L := by
  induction L with
  | nil => trivial
  | cons a L ih =>
    refine ⟨fun b hb => ?_, ih h.2⟩
    rwa [h.1] at hb

theorem LeafSlots.mem_keys {s : LeafSlots K D} {e : K × D} (h : e ∈ s.entries) : e.1 ∈ s.keys := by
  rw [entries, List.zip, List.take_zipWith] at h
  exact (List.of_mem_zip h).1

/-- A heap holds one tree at an address. -/
theorem Holds.unique {body : Addr → Option (Body K D)} {n m : Nat} {T : MTree K D n}
    {T' : MTree K D m} (h : Holds P body T) (h' : Holds P body T') (hp : T.Paired)
    (haddr : T.addr = T'.addr) :
    (⟨n, T⟩ : (n : Nat) × MTree K D n) = ⟨m, T'⟩ := by
  induction n generalizing m with
  | zero =>
    cases m with
    | zero =>
      obtain ⟨a, s⟩ := T
      obtain ⟨a', s'⟩ := T'
      obtain rfl : a = a' := haddr
      have hs := h.1.symm.trans h'.1
      simp_all
    | succ m =>
      obtain ⟨⟨s, hs, -⟩, -⟩ := h'
      have hs' := h.1
      rw [show Tip.addr T = Branch.addr T' from haddr, hs] at hs'
      simp at hs'
  | succ n ih =>
    obtain ⟨a, ks, cs⟩ := T
    obtain ⟨⟨s, hs, hin⟩, hcs⟩ := h
    cases m with
    | zero =>
      have hs' := h'.1
      rw [← show a = Tip.addr T' from haddr] at hs'
      simp [hs'] at hs
    | succ m =>
      obtain ⟨a', ks', cs'⟩ := T'
      obtain ⟨⟨s', hs', hin'⟩, hcs'⟩ := h'
      obtain rfl : a = a' := haddr
      obtain rfl : s = s' := by simpa [hs] using hs'
      obtain ⟨rfl, hmap⟩ : ks = ks' ∧ cs.map Tree.addr = cs'.map Tree.addr := hin.unique hin'
      have hlen : cs.length = cs'.length := by simpa using congrArg List.length hmap
      have hchild : ∀ i (hi : i < cs.length) (hi' : i < cs'.length),
          (⟨n, cs[i]⟩ : (n : Nat) × MTree K D n) = ⟨m, cs'[i]⟩ := by
        intro i hi hi'
        apply ih (hcs _ (List.getElem_mem hi)) (hcs' _ (List.getElem_mem hi'))
          (hp.2.2 _ (List.getElem_mem hi))
        have := congrArg (·[i]?) hmap
        simpa [hi, hi'] using this
      have hpos : 0 < cs.length := by
        have := hp.2.1
        simp only at this
        omega
      obtain rfl : n = m := congrArg Sigma.fst (hchild 0 hpos (hlen ▸ hpos))
      have hcs : cs = cs' := List.ext_getElem hlen fun i hi hi' => by
        simpa using hchild i hi hi'
      rw [hcs]

theorem Stands.setLeaf {v : View K D} {c : MCtx K D 0} {a : Addr} {s s' : LeafSlots K D}
    (h : Stands P v (c.fill (.leaf a s)).2) (hc : c.Paired) (hok : LeafOK P s') :
    Stands P (v.setBody a (.leaf s')) (c.fill (.leaf a s')).2 := by
  have hnd := h.nodup_fill
  obtain ⟨hctx, -⟩ := (holds_fill c (.leaf a s)).mp h.holds
  refine ⟨?_, (holds_fill c (.leaf a s')).mpr ⟨hctx.congr fun b hb => ?_, by simp, hok⟩,
    (NwtBTree.nodup_fill c (.leaf a s')).mpr hnd, Ctx.paired_fill hc trivial⟩
  · have := h.root
    rwa [Ctx.addr_fill] at this ⊢
  · have hne : b ≠ a := by
      rintro rfl
      exact (List.nodup_append'.mp hnd).2.2 hb (by simp)
    simp [hne]

variable [LinearOrder K]

/-- The state holds the search tree `T`. -/
structure Valid (P : Template K D) (t : BTree K D) (T : (n : Nat) × MTree K D n) : Prop where
  stands : Stands P t.view T.2
  ordered : T.2.Ordered LeafSlots.keys
  lists : Lists t.view.links.nxt ((tips T.2.inorder).map Tip.addr)

/-- The state holds a search tree with these leaves, possibly none. -/
inductive SearchTree (P : Template K D) (t : BTree K D) : List (Tip Addr (LeafSlots K D)) → Prop
  | empty : t.root = none → SearchTree P t []
  | tree {T : (n : Nat) × MTree K D n} : Valid P t T → SearchTree P t (tips T.2.inorder)

variable {t : BTree K D} {c : MCtx K D 0} {l : Tip Addr (LeafSlots K D)} {k : K}

/-- The search for a key in the leaf that its separators name ends there. -/
theorem Stands.find_stored (h : Stands P t.view (c.fill l).2) (hc : c.Paired) (hr : c.Routes k)
    (hk : k ∈ l.body.keys) : t.find P k = .ok (some l.addr) := by
  have hl := (h.holds.tip h.paired (l := l) (by simp [Ctx.inorder_fill_leaf hc])).2.leafIs
  rw [hl.keys_eq] at hk
  obtain ⟨e, he, rfl⟩ := List.mem_map.mp hk
  exact BTree.find_stay h hc hr hl (.inl ⟨e, he, le_rfl⟩)

variable {T : (n : Nat) × MTree K D n}

/-- A stored key of an ordered tree is found in its leaf, whatever the leaf chain is. -/
theorem Stands.find_ordered (h : Stands P t.view T.2) (ho : T.2.Ordered LeafSlots.keys)
    (hl : l ∈ tips T.2.inorder) (hk : k ∈ l.body.keys) : t.find P k = .ok (some l.addr) := by
  obtain ⟨c, hfill, hc⟩ := Ctx.exists_hole .top T.2 trivial h.paired hl
  obtain rfl : T = c.fill l := hfill
  apply h.find_stored hc _ hk
  exact Ctx.routes_of_ordered (t := l) hc ho k (by simpa [Tree.inorder] using hk)

namespace Valid

theorem tip (h : Valid P t T) (hl : l ∈ tips T.2.inorder) :
    t.view.body l.addr = some (.leaf l.body) ∧ LeafOK P l.body :=
  h.stands.holds.tip h.stands.paired hl

/-- The heap has one leaf at an address. -/
theorem tip_unique (h : Valid P t T) {m : Tip Addr (LeafSlots K D)} (hl : l ∈ tips T.2.inorder)
    (hm : m ∈ tips T.2.inorder) (haddr : l.addr = m.addr) : l = m := by
  have h1 := (h.tip hl).1
  rw [haddr, (h.tip hm).1] at h1
  cases l
  cases m
  simp_all

theorem exists_ctx (h : Valid P t T) (hl : l ∈ tips T.2.inorder) :
    ∃ c : MCtx K D 0, T = c.fill l ∧ c.Paired := by
  obtain ⟨c, hfill, hc⟩ := Ctx.exists_hole .top T.2 trivial h.stands.paired hl
  exact ⟨c, by simpa using hfill, hc⟩

/-- A stored key is found in its leaf. -/
theorem find_stored (h : Valid P t T) (hl : l ∈ tips T.2.inorder) (hk : k ∈ l.body.keys) :
    t.find P k = .ok (some l.addr) :=
  h.stands.find_ordered h.ordered hl hk

/-- The search for any key ends at a leaf of the tree. -/
theorem find_tip (h : Valid P t T) (k : K) :
    ∃ n ∈ tips T.2.inorder, t.find P k = .ok (some n.addr) := by
  obtain ⟨c, l, n, rfl, hc, -, hstop, e⟩ := find_walk h.stands h.lists.forward k
  refine ⟨n, ?_, e⟩
  have hn := List.mem_of_find?_eq_some hstop
  rw [Ctx.inorder_fill_leaf hc]
  simp only [tips_append, tips_inr, List.mem_append]
  exact .inr hn

/-- The keys of a leaf increase. -/
theorem keys_sorted (h : Valid P t T) (hl : l ∈ tips T.2.inorder) :
    l.body.keys.Pairwise (· < ·) := by
  obtain ⟨c, rfl, hc⟩ := h.exists_ctx hl
  have hordered := h.ordered
  exact ((Ctx.ordered_fill hc hordered).mp hordered).1

end Valid

end NwtBTree
