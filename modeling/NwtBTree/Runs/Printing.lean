import NwtBTree.Runs.Chaining
import NwtBTree.Source.Program

/-!
# What `printleaves` prints

It starts at the leaf that the key 0 belongs to and follows the chain from there. Where
the chain is whole it prints the keys in ascending order from that leaf on: all of them
only if no leaf in front of it holds a key.
-/

namespace NwtBTree

variable {K D : Type} {P : Template K D} {t : BTree K D} {T : (n : Nat) × MTree K D n} {zero : K}

theorem printKeys_eq {s : LeafSlots K D} (h : LeafOK P s) : BTree.printKeys s = .ok s.keys := by
  have hlen : s.slotsinuse ≤ s.keySlots.length := h.keyCap ▸ h.inuse
  have hload : ∀ i ∈ List.range s.slotsinuse, ∀ d,
      load s.keySlots i = .ok (s.keySlots.getD i d) := by
    intro i hi d
    have hi : i < s.keySlots.length := (List.mem_range.mp hi).trans_le hlen
    exact load_of_getElem? (by simp [hi])
  unfold BTree.printKeys LeafSlots.keys
  cases hk : s.keySlots with
  | nil =>
    have hzero : s.slotsinuse = 0 := by simpa [hk] using hlen
    rw [hzero]
    rfl
  | cons k ks =>
    rw [← hk, BTree.mapM_ok fun i hi => hload i hi k]
    congr 1
    refine List.ext_getElem (by simp [hlen]) fun i hi _ => ?_
    have hi : i < s.keySlots.length := by
      rw [List.length_map, List.length_range] at hi
      omega
    simp [hi]

theorem printFrom_eq {L : List (Tip Addr (LeafSlots K D))}
    (hbody : ∀ l ∈ L, t.view.body l.addr = some (.leaf l.body) ∧ LeafOK P l.body)
    (hjoined : (L.map Tip.addr).IsChain t.view.links.Joined)
    (hlast : ∀ a ∈ (L.map Tip.addr).getLast?, t.view.links.nxt a = none) {fuel : Nat}
    (hfuel : L.length ≤ fuel) :
    t.printFrom fuel (L.map Tip.addr).head? = .ok (L.flatMap fun l => l.body.keys) := by
  induction L generalizing fuel with
  | nil => cases fuel <;> rfl
  | cons l L ih =>
    obtain ⟨f, rfl⟩ : ∃ f, fuel = f + 1 := ⟨fuel - 1, by simp at hfuel; omega⟩
    obtain ⟨hl, hok⟩ := hbody l List.mem_cons_self
    have hnext : t.view.links.nxt l.addr = (L.map Tip.addr).head? := by
      cases L with
      | nil => simpa using hlast l.addr (by simp)
      | cons m L => exact (List.isChain_cons_cons.mp hjoined).1.1
    have hrest := ih (fun m hm => hbody m (List.mem_cons_of_mem l hm)) (by simpa using hjoined.tail)
      (fun a ha => hlast a (by
        cases L with
        | nil => simp at ha
        | cons m L => simpa using ha)) (show L.length ≤ f by simpa using hfuel)
    simp only [List.map_cons, List.head?_cons, BTree.printFrom, BTree.leaf_eq hl, ok_bind, hnext,
      printKeys_eq hok, hrest]
    rfl

variable [LinearOrder K]

/-- The leaf of the key 0 and those behind it are printed. -/
theorem printLeaves_eq (h : Rep P t.view T.2) (ho : SearchOrder LeafSlots.keys T.2.inorder)
    (hfull : FullLast P t.view T.2.inorder)
    (hch : Chained t.view.links ((tips T.2.inorder).map Tip.addr)) (zero : K) :
    ∃ (c : MCtx K D 0) (l : Tip Addr (LeafSlots K D)), T = c.fill l ∧ c.Paired ∧ c.Routes zero ∧
      t.printLeaves P zero = .ok (l.body.keys ++ allKeys LeafSlots.keys c.right) := by
  obtain ⟨c, l, rfl, hc, hr, hfind, -⟩ := find_tip h ho hfull zero
  refine ⟨c, l, rfl, hc, hr, ?_⟩
  have hsplit : tips (c.fill l).2.inorder = tips c.left ++ l :: tips c.right := by
    rw [Ctx.inorder_fill hc]
    simp [Tree.inorder]
  have hbody : ∀ m ∈ l :: tips c.right,
      t.view.body m.addr = some (.leaf m.body) ∧ LeafOK P m.body := fun m hm =>
    h.holds.tip h.paired (hsplit ▸ List.mem_append_right _ hm)
  have hlen : (l :: tips c.right).length ≤ t.fuel := by
    have hsize : (c.fill l).2.addrs.length ≤ t.nodes.size :=
      length_le_of_nodup h.nodup fun a ha => h.lt_size ha
    have hsub := (Tree.tips_sublist h.paired).length_le
    rw [hsplit] at hsub
    simp only [List.length_map, List.length_append, List.length_cons, BTree.fuel] at hsub ⊢
    omega
  rw [hsplit, List.map_append] at hch
  have hprint := printFrom_eq hbody hch.joined.right_of_append
    (fun a ha => hch.last a (by
      rw [List.map_cons] at ha ⊢
      rwa [List.getLast?_append_cons])) hlen
  unfold BTree.printLeaves
  rw [hfind, ok_bind]
  exact hprint

/-- The keys `ks` of the tree are printed from the leaf of the key 0 on: every key from 0 on, and
of the smaller ones no more than a leaf holds. -/
def Prints (P : Template K D) (zero : K) (t : BTree K D) (ks : List K) : Prop :=
  ∃ ys, t.printLeaves P zero = .ok ys ∧ ys <:+ ks ∧ (∀ k ∈ ks, zero ≤ k → k ∈ ys) ∧
    (ys.filter (· < zero)).length ≤ P.leafnodemax

theorem prints_of_rep (h : Rep P t.view T.2) (ho : SearchOrder LeafSlots.keys T.2.inorder)
    (hfull : FullLast P t.view T.2.inorder)
    (hch : Chained t.view.links ((tips T.2.inorder).map Tip.addr)) (zero : K) :
    Prints P zero t ((pairs T.2.inorder).map Prod.fst) := by
  obtain ⟨c, l, rfl, hc, hr, hprint⟩ := printLeaves_eq h ho hfull hch zero
  have hl : l ∈ tips (c.fill l).2.inorder := by simp [Ctx.inorder_fill hc, Tree.inorder]
  have hcap : l.body.keys.length ≤ P.leafnodemax :=
    (List.length_take_le _ _).trans (h.holds.tip h.paired hl).2.inuse
  rw [Ctx.inorder_fill hc] at ho
  have hkeys : (pairs (c.fill l).2.inorder).map Prod.fst =
      allKeys LeafSlots.keys c.left ++ (l.body.keys ++ allKeys LeafSlots.keys c.right) := by
    rw [← h.allKeys_eq, Ctx.inorder_fill hc]
    simp [Tree.inorder]
  rw [hkeys]
  refine ⟨_, hprint, List.suffix_append _ _, fun k hk hzero => ?_, ?_⟩
  · refine (List.mem_append.mp hk).resolve_left fun hleft => ?_
    exact absurd hzero (not_le.mpr (Ctx.Routes.keys_lt hc hr ho k hleft))
  · have hright : (allKeys LeafSlots.keys c.right).filter (· < zero) = [] := by
      refine List.filter_eq_nil_iff.mpr fun k hk => ?_
      simpa using (Ctx.Routes.lt_keys hc hr ho k hk).le
    rw [List.filter_append, hright, List.append_nil]
    exact (List.length_filter_le _ _).trans hcap

theorem prints_new (hroot : t.root = none) (zero : K) : Prints P zero t [] := by
  refine ⟨[], ?_, by simp⟩
  cases hf : t.fuel <;> simp [BTree.printLeaves, BTree.find_none hroot, BTree.printFrom]

/-- Nothing is left out where no key is below 0. -/
theorem Prints.all {ks : List K} (h : Prints P zero t ks) (hnd : ks.Nodup)
    (hzero : ∀ k ∈ ks, zero ≤ k) : t.printLeaves P zero = .ok ks := by
  obtain ⟨ys, hprint, hsuffix, hmem, -⟩ := h
  have hlen := (List.subperm_of_subset hnd fun k hk => hmem k hk (hzero k hk)).length_le
  rw [hprint, hsuffix.eq_of_length_le hlen]

variable [DecidableEq D]

end NwtBTree
