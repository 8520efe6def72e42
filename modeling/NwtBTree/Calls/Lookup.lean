import NwtBTree.Refine.Valid

/-!
# Lookups in any search tree

`find` descends to the leaf that the separators name and leaves it for its
successor when it is full and all its keys are smaller. For a key that is stored
this never happens, and for any other key it does not matter where `find` ends.
-/

namespace NwtBTree

variable {K D : Type} [LinearOrder K] {P : Template K D} {t : BTree K D} {k : K}

/-- `find`, `exists` and `get` for the key `k` in a tree with the leaves `ls`. -/
structure LooksUp (P : Template K D) (t : BTree K D) (ls : List (Tip Addr (LeafSlots K D)))
    (k : K) : Prop where
  finds : ∃ p, t.find P k = .ok p ∧ ∀ l ∈ ls, k ∈ l.body.keys → p = some l.addr
  existsKey : t.existsKey P k = .ok (decide (k ∈ ls.flatMap fun l => l.body.keys))
  get : ∀ l ∈ ls, ∀ d, (k, d) ∈ l.body.entries → t.get P k = .ok (d, true)
  get_absent : k ∉ ls.flatMap (fun l => l.body.keys) → t.get P k = .ok (P.emptyData, false)

/-- `exists` and `get` answer for the leaf that `find` ends at. -/
theorem looksUp_of_find {ls : List (Tip Addr (LeafSlots K D))} {n : Tip Addr (LeafSlots K D)}
    (hfind : t.find P k = .ok (some n.addr)) (hn : n ∈ ls)
    (hbody : t.view.body n.addr = some (.leaf n.body)) (hok : LeafOK P n.body)
    (hsort : n.body.keys.Pairwise (· < ·)) (hall : ∀ l ∈ ls, k ∈ l.body.keys → l = n) :
    LooksUp P t ls k := by
  have hs := hok.leafIs
  have hiff : k ∈ ls.flatMap (fun l => l.body.keys) ↔ k ∈ n.body.keys := by
    rw [List.mem_flatMap]
    constructor
    · rintro ⟨l, hl, hk⟩
      exact hall l hl hk ▸ hk
    · exact fun hk => ⟨n, hn, hk⟩
  refine ⟨⟨_, hfind, fun l hl hk => by rw [hall l hl hk]⟩, ?_, fun l hl d hd => ?_, fun hk => ?_⟩
  · rw [BTree.existsKey_eq hfind hbody hs, ← hs.keys_eq]
    simp [hiff]
  · obtain rfl := hall l hl (LeafSlots.mem_keys hd)
    rw [BTree.get_eq hfind hbody hs]
    rw [hs.keys_eq] at hsort
    cases hfind? : l.body.entries.find? (fun e => keyequal e.1 k) with
    | none => exact absurd (List.find?_eq_none.mp hfind? _ hd) (by simp)
    | some e =>
      have hek : e.1 = k := by simpa using List.find?_some hfind?
      have he := List.mem_of_find?_eq_some hfind?
      rw [List.inj_on_of_nodup_map (hsort.imp ne_of_lt) he hd hek]
  · rw [hiff, hs.keys_eq] at hk
    rw [BTree.get_eq hfind hbody hs]
    have hnone : n.body.entries.find? (fun e => keyequal e.1 k) = none := by
      rw [List.find?_eq_none]
      rintro e he heq
      exact hk (List.mem_map.mpr ⟨e, he, (keyequal_iff _ _).mp heq⟩)
    rw [hnone]

/-- Every lookup in every search tree. -/
theorem looks_up {ls : List (Tip Addr (LeafSlots K D))} (h : SearchTree P t ls) (k : K) :
    LooksUp P t ls k := by
  cases h with
  | empty hroot =>
    have hfind : t.find P k = .ok none := BTree.find_none hroot
    refine ⟨⟨none, hfind, by simp⟩, ?_, by simp, fun _ => ?_⟩
    · simp [BTree.existsKey, hfind]
    · simp [BTree.get, hfind]
  | @tree T h =>
    by_cases hk : ∃ l ∈ tips T.2.inorder, k ∈ l.body.keys
    · obtain ⟨l, hl, hk⟩ := hk
      obtain ⟨hbody, hok⟩ := h.tip hl
      have hfind := h.find_stored hl hk
      refine looksUp_of_find hfind hl hbody hok (h.keys_sorted hl) fun m hm hkm => ?_
      have haddr : m.addr = l.addr := by simpa [hfind, eq_comm] using h.find_stored hm hkm
      exact h.tip_unique hm hl haddr
    · obtain ⟨n, hn, hfind⟩ := h.find_tip k
      obtain ⟨hbody, hok⟩ := h.tip hn
      exact looksUp_of_find hfind hn hbody hok (h.keys_sorted hn)
        fun l hl hkl => absurd ⟨l, hl, hkl⟩ hk

section Sample

/-- Capacity four and payloads that are strings; a slot never written reads as the key 0. -/
def Template.strings : Template Nat String where
  nodeslots := 4
  leafslots := 4
  junkKey _ _ := 0
  newData := ""
  emptyData := ""

/-- A full leaf and its successor. -/
def sampleLeaves : List (Tip Addr (LeafSlots Nat String)) :=
  [⟨1, ⟨4, 4, [1, 2, 3, 4], ["a", "b", "c", "d"]⟩⟩, ⟨2, ⟨4, 2, [10, 20, 0, 0], ["j", "t", "", ""]⟩⟩]

/-- A root over the two leaves. -/
def sampleTree : BTree Nat String where
  nodes :=
    ⟨some (.inner ⟨⟨4, 1, [10, 0, 0, 0], [some 1, some 2, none, none, none], 2⟩, true, none⟩) ::
    sampleLeaves.map fun l => some (.leaf ⟨l.body, false, some 0,
      if l.addr = 1 then some 2 else none, if l.addr = 1 then none else some 1⟩)⟩
  root := some 0
  tailleaf := none
  headleaf := some 1
  totalkeycount := 6

theorem sample_valid : Valid Template.strings sampleTree ⟨1, .node 0 [10] sampleLeaves⟩ where
  stands := by
    refine ⟨rfl, ⟨⟨_, rfl, ?_⟩, ?_⟩, by decide, ?_⟩
    · exact ⟨rfl, rfl, rfl, ⟨_, rfl⟩, ⟨_, rfl⟩, rfl, rfl⟩
    · intro c hc
      obtain rfl | rfl : c = _ ∨ c = _ := by simpa [sampleLeaves] using hc
      · exact ⟨rfl, rfl, by decide, rfl, rfl⟩
      · exact ⟨rfl, rfl, by decide, rfl, rfl⟩
    · exact ⟨Nat.zero_lt_one, rfl, fun c _ => trivial⟩
  ordered := by
    refine Tree.ordered_node.mpr ⟨by simp, ?_, ?_⟩
    · intro i c hc x hx
      rcases i with _ | _ | i
      · obtain rfl : _ = c := by simpa [sampleLeaves] using hc
        have hx' : x = 1 ∨ x = 2 ∨ x = 3 ∨ x = 4 := by simpa [Tree.inorder, LeafSlots.keys] using hx
        refine ⟨by simp, ?_⟩
        simp only [List.getElem?_cons_zero, Option.mem_def, Option.some.injEq, forall_eq']
        omega
      · obtain rfl : _ = c := by simpa [sampleLeaves] using hc
        have hx' : x = 10 ∨ x = 20 := by simpa [Tree.inorder, LeafSlots.keys] using hx
        simp [InSlot]
        omega
      · simp [sampleLeaves] at hc
    · intro c hc
      obtain rfl | rfl : c = _ ∨ c = _ := by simpa [sampleLeaves] using hc
      · exact (Tree.ordered_leaf _ _).mpr (by decide)
      · exact (Tree.ordered_leaf _ _).mpr (by decide)
  lists := ⟨rfl, rfl, trivial⟩

theorem looks_up_sample : LooksUp Template.strings sampleTree sampleLeaves 7 :=
  looks_up (.tree sample_valid) 7

end Sample

end NwtBTree
