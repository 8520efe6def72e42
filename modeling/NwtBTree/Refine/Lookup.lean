import NwtBTree.Multiway.Order
import NwtBTree.Refine.Find

/-!
# Lookups in a search tree

When only the last leaf of the chain can be full, the walk of `find` never
leaves the leaf the descent ends at, and in a search tree `exists` and `get`
then answer for the whole content.
-/

namespace NwtBTree

variable {K D : Type} {P : Template K D}

/-- The pairs in the leaves of a sequence. -/
def pairs (I : List (Item Addr K (LeafSlots K D))) : List (K × D) :=
  (tips I).flatMap fun l => l.body.entries

section Pairs

@[simp] theorem pairs_nil : pairs ([] : List (Item Addr K (LeafSlots K D))) = [] := rfl

@[simp] theorem pairs_inl (s : K) (I : List (Item Addr K (LeafSlots K D))) :
    pairs (.inl s :: I) = pairs I := rfl

@[simp] theorem pairs_inr (l : Tip Addr (LeafSlots K D)) (I : List (Item Addr K (LeafSlots K D))) :
    pairs (.inr l :: I) = l.body.entries ++ pairs I := rfl

@[simp] theorem pairs_append (I J : List (Item Addr K (LeafSlots K D))) :
    pairs (I ++ J) = pairs I ++ pairs J := by
  simp [pairs]

end Pairs

/-- The leaves of the tree are in the heap. -/
theorem Holds.tip {body : Addr → Option (Body K D)} {n : Nat} {T : MTree K D n}
    (h : Holds P body T) (hp : T.Paired) {l : Tip Addr (LeafSlots K D)} (hl : l ∈ tips T.inorder) :
    body l.addr = some (.leaf l.body) ∧ LeafOK P l.body := by
  induction n with
  | zero =>
    obtain rfl : l = T := by simpa [Tree.inorder] using hl
    exact h
  | succ n ih =>
    obtain ⟨a, ks, cs⟩ := T
    obtain ⟨-, hlen, hcs⟩ := hp
    rw [Tree.inorder_node, tips_interleave _ hlen] at hl
    obtain ⟨c, hc, hl⟩ := List.mem_flatMap.mp hl
    exact ih (h.2 c hc) (hcs c hc) hl

theorem Rep.allKeys_eq {v : View K D} {n : Nat} {T : MTree K D n} (h : Rep P v T) :
    allKeys LeafSlots.keys T.inorder = (pairs T.inorder).map Prod.fst := by
  rw [allKeys, pairs, List.map_flatMap]
  refine List.flatMap_congr fun l hl => ?_
  exact (h.holds.tip h.paired hl).2.leafIs.keys_eq

/-- Only a leaf without a successor can be full. -/
def FullLast (P : Template K D) (v : View K D) (I : List (Item Addr K (LeafSlots K D))) : Prop :=
  ∀ l ∈ tips I, l.body.slotsinuse < P.leafnodemax ∨ v.links.nxt l.addr = none

variable [LinearOrder K] {t : BTree K D} {T : (n : Nat) × MTree K D n} {k : K}

/-- `find` ends at the one leaf that may have the key. -/
theorem find_tip (h : Rep P t.view T.2) (ho : SearchOrder LeafSlots.keys T.2.inorder)
    (hfull : FullLast P t.view T.2.inorder) (k : K) :
    ∃ (c : MCtx K D 0) (l : Tip Addr (LeafSlots K D)), T = c.fill l ∧ c.Paired ∧ c.Routes k ∧
      t.find P k = .ok (some l.addr) ∧ (∀ e ∈ pairs T.2.inorder, e.1 = k → e ∈ l.body.entries) := by
  obtain ⟨c, l, rfl, hc, hr⟩ := Ctx.exists_tip k T h.paired
  have hin := Ctx.inorder_fill hc l
  have hl : l ∈ tips (c.fill l).2.inorder := by simp [hin, Tree.inorder]
  obtain ⟨-, hok⟩ := h.holds.tip h.paired hl
  have hs := hok.leafIs
  refine ⟨c, l, rfl, hc, hr, BTree.find_stay h.stands hc hr hs ?_, ?_⟩
  · rcases hfull l hl with hroom | hlast
    · exact .inr (.inl (hs.inuse ▸ hroom))
    · exact .inr (.inr hlast)
  · intro e he hk
    rw [hin] at he ho
    have hside : ∀ J, (∀ m ∈ tips J, m ∈ tips (c.fill l).2.inorder) → e ∈ pairs J →
        k ∈ allKeys LeafSlots.keys J := by
      intro J hJ he
      obtain ⟨m, hm, he⟩ := List.mem_flatMap.mp he
      refine List.mem_flatMap.mpr ⟨m, hm, ?_⟩
      rw [(h.holds.tip h.paired (hJ m hm)).2.leafIs.keys_eq]
      exact hk ▸ List.mem_map_of_mem he
    simp only [pairs_append, List.mem_append] at he
    obtain (he | he) | he := he
    · have := hside c.left (fun m hm => by simp [hin, hm]) he
      exact absurd (Ctx.Routes.keys_lt hc hr ho k this) (lt_irrefl k)
    · simpa [Tree.inorder] using he
    · have := hside c.right (fun m hm => by simp [hin, hm]) he
      exact absurd (Ctx.Routes.lt_keys hc hr ho k this) (lt_irrefl k)

theorem existsKey_iff (h : Rep P t.view T.2) (ho : SearchOrder LeafSlots.keys T.2.inorder)
    (hfull : FullLast P t.view T.2.inorder) (k : K) :
    t.existsKey P k = .ok (decide (k ∈ (pairs T.2.inorder).map Prod.fst)) := by
  obtain ⟨c, l, rfl, hc, -, hfind, hmem⟩ := find_tip h ho hfull k
  have hl : l ∈ tips (c.fill l).2.inorder := by simp [Ctx.inorder_fill hc, Tree.inorder]
  obtain ⟨hbody, hok⟩ := h.holds.tip h.paired hl
  rw [BTree.existsKey_eq hfind hbody hok.leafIs]
  congr 2
  refine propext ⟨fun hk => ?_, fun hk => ?_⟩
  · obtain ⟨e, he, rfl⟩ := List.mem_map.mp hk
    exact List.mem_map_of_mem (List.mem_flatMap.mpr ⟨l, hl, he⟩)
  · obtain ⟨e, he, rfl⟩ := List.mem_map.mp hk
    exact List.mem_map_of_mem (hmem e he rfl)

/-- Two stored pairs with the same key are the same pair. -/
theorem pair_unique (h : Rep P t.view T.2) (ho : SearchOrder LeafSlots.keys T.2.inorder)
    {e e' : K × D} (he : e ∈ pairs T.2.inorder) (he' : e' ∈ pairs T.2.inorder) (hk : e.1 = e'.1) :
    e = e' := by
  have hsorted := ho.keys_sorted
  rw [h.allKeys_eq] at hsorted
  exact List.inj_on_of_nodup_map (hsorted.imp ne_of_lt) he he' hk

theorem get_mem (h : Rep P t.view T.2) (ho : SearchOrder LeafSlots.keys T.2.inorder)
    (hfull : FullLast P t.view T.2.inorder) {e : K × D} (he : e ∈ pairs T.2.inorder) :
    t.get P e.1 = .ok (e.2, true) := by
  obtain ⟨c, l, rfl, hc, -, hfind, hmem⟩ := find_tip h ho hfull e.1
  have hl : l ∈ tips (c.fill l).2.inorder := by simp [Ctx.inorder_fill hc, Tree.inorder]
  obtain ⟨hbody, hok⟩ := h.holds.tip h.paired hl
  rw [BTree.get_eq hfind hbody hok.leafIs]
  cases hfind? : l.body.entries.find? (fun e' => keyequal e'.1 e.1) with
  | none => exact absurd (List.find?_eq_none.mp hfind? e (hmem e he rfl)) (by simp)
  | some e' =>
    have hk : e'.1 = e.1 := by simpa using List.find?_some hfind?
    have he' : e' ∈ pairs (c.fill l).2.inorder :=
      List.mem_flatMap.mpr ⟨l, hl, List.mem_of_find?_eq_some hfind?⟩
    rw [pair_unique h ho he' he hk]

theorem get_not_mem (h : Rep P t.view T.2) (ho : SearchOrder LeafSlots.keys T.2.inorder)
    (hfull : FullLast P t.view T.2.inorder) (hk : k ∉ (pairs T.2.inorder).map Prod.fst) :
    t.get P k = .ok (P.emptyData, false) := by
  obtain ⟨c, l, rfl, hc, -, hfind, -⟩ := find_tip h ho hfull k
  have hl : l ∈ tips (c.fill l).2.inorder := by simp [Ctx.inorder_fill hc, Tree.inorder]
  obtain ⟨hbody, hok⟩ := h.holds.tip h.paired hl
  rw [BTree.get_eq hfind hbody hok.leafIs]
  cases hfind? : l.body.entries.find? (fun e => keyequal e.1 k) with
  | none => rfl
  | some e =>
    have hek : e.1 = k := by simpa using List.find?_some hfind?
    have he : e ∈ pairs (c.fill l).2.inorder :=
      List.mem_flatMap.mpr ⟨l, hl, List.mem_of_find?_eq_some hfind?⟩
    exact absurd (List.mem_map.mpr ⟨e, he, hek⟩) hk

end NwtBTree
