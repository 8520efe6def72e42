import NwtBTree.Calls.Lookup
import NwtBTree.Refine.InsertParent

/-!
# A split child in a parent with room

`insert_in_parent` first gives up the last child of the parent
(`numChildren--`), then looks for the place of the new key in a loop without a
`break`, which ends on the last greater key, and inserts the two nodes there.
That replaces the split child only when it was the last one.
-/

namespace NwtBTree

variable {K D : Type} [LinearOrder K] {P : Template K D} {t : BTree K D} {p N N' x : Addr} {k : K}
  {lf : Bool} {ksL ksR : List K} {csL csR : List Addr} {s : InnerSlots K}

/-- The node at `p` has the keys `ksL, k, ksR` and the children `csL, N, N', csR` in the state `t`,
and the child `x` is gone. -/
structure Replaced (P : Template K D) (t : BTree K D) (p : Addr) (ksL ksR : List K) (k : K)
    (csL csR : List Addr) (x N N' : Addr) : Prop where
  slots : ∃ s, t.view.body p = some (.inner s) ∧
    InnerHas P s (ksL ++ k :: ksR) (csL ++ N :: N' :: csR) ∧ s.numChildren = s.slotsinuse + 1
  gone : x ∉ csL ++ N :: N' :: csR

namespace BTree

/-- With a greater key in the node the search loop ends on the last key. -/
theorem insertInnerNodePair_greater {ks : List K} {z : K} {cs : List Addr} {c : Addr}
    (hp : t.view.body p = some (.inner s)) (hs : InnerHas P s (ks ++ [z]) (cs ++ [c]))
    (hlen : cs.length = ks.length) (hroom : ks.length + 1 < P.innernodemax) (hk : k < z)
    (hkind : ∀ b ∈ cs ++ [N, c], t.view.IsKind lf b) :
    ∃ t' s', t.insertInnerNodePair p k N = .ok (ks.length, t') ∧
      InnerHas P s' (ks ++ [k, z]) (cs ++ [N, c]) ∧ t'.view.body p = some (.inner s') ∧
      ∀ b, b ≠ p → t'.view.body b = t.view.body b := by
  have hin : s.slotsinuse = ks.length + 1 := by simpa using hs.inuse
  have hscan : scanLast (keygreater · k) s.keySlots s.slotsinuse 0 none =
      .ok (some ks.length) := by
    obtain ⟨r, hr⟩ := hs.keys
    have hz : keygreater z k = true := (keygreater_iff _ _).mpr hk
    have := scanLast_last (p := (keygreater · k)) ks r [] none hz
    simpa [hr, hin] using this
  obtain ⟨t', s', e, hs', v⟩ := insertInnerNodePair_at hp hs hlen (by simpa using hroom)
    (by simp only [List.length_append, List.length_cons, List.length_nil]; omega) hscan rfl
    (hkind N (by simp)) (fun hlf b hb => hlf ▸ hkind b hb)
  exact ⟨t', s', e, by simpa using hs', by simp [v], fun b hb => by simp [v, hb]⟩

/-- Then the last child takes the place behind the new nodes, and the one after it is lost. -/
theorem insertInRoom_greater {ks : List K} {z : K} {cs : List Addr} {c c' : Addr}
    (hp : t.view.body p = some (.inner s)) (hs : InnerHas P s (ks ++ [z]) (cs ++ [c, c']))
    (hlen : cs.length = ks.length) (hroom : ks.length + 1 < P.innernodemax) (hk : k < z)
    (hkind : ∀ b ∈ cs ++ [N, N', c], t.view.IsKind lf b) :
    ∃ t' s' cs', t.insertInRoom p N k N' = .ok t' ∧ t'.view.body p = some (.inner s') ∧
      InnerHas P s' (ks ++ [k, z]) cs' ∧ cs'.getLast? = some c := by
  have hs0 : InnerHas P s (ks ++ [z]) (cs ++ [c] ++ [c']) := by simpa using hs
  obtain ⟨t1, e1, v1⟩ := setInner_view hp { s with numChildren := s.numChildren - 1 }
  have hp1 : t1.view.body p = some (.inner { s with numChildren := s.numChildren - 1 }) := by
    simp [v1]
  have hkind1 : ∀ b ∈ cs ++ [N, N', c], t1.view.IsKind lf b := by
    intro b hb
    rw [v1]
    exact View.isKind_setBody hp _ (hkind b hb)
  obtain ⟨t2, s2, e2, hs2, hp2, hbody⟩ := insertInnerNodePair_greater (N := N) hp1 hs0.dropChild
    hlen hroom hk (fun b hb => hkind1 b (by grind))
  by_cases hpos : ks = []
  · -- the key went to slot 0, and the second node is left out
    subst hpos
    obtain rfl : cs = [] := List.eq_nil_of_length_eq_zero hlen
    refine ⟨t2, s2, [N, c], ?_, hp2, hs2, rfl⟩
    simp only [insertInRoom, inner_eq hp, ok_bind, e1, e2]
    rfl
  · have hlt : 1 ≤ ks.length := List.length_pos_iff.mpr hpos
    have hkind2 : ∀ b ∈ (cs ++ [N]) ++ N' :: [c], t2.view.IsKind lf b := by
      intro b hb
      exact (hkind1 b (by grind)).congr_inner hp1 hp2 hbody
    obtain ⟨s3, t3, e3, hs3, v3⟩ := insertInnerNodeChildAt_spec hp2
      (show InnerHas P s2 (ks ++ [k, z]) ((cs ++ [N]) ++ [c]) by simpa using hs2)
      (by simp only [List.length_append, List.length_cons, List.length_nil]; omega) hkind2
    refine ⟨t3, s3, _, ?_, by simp [v3], hs3, by simp⟩
    have hidx : (ks.length : Int) + 1 = ((cs ++ [N]).length : Int) := by simp [hlen]
    simp only [insertInRoom, inner_eq hp, ok_bind, e1, e2]
    rw [if_pos (by omega), hidx, e3]
    rfl

end BTree

/-- The parent of a split child: `p` has `m` keys and `m + 1` children, `x` is child `i`, and `k`
lies strictly between the keys around it. -/
structure SplitChild (P : Template K D) (t : BTree K D) (p : Addr) (ksL ksR : List K) (k : K)
    (csL csR : List Addr) (x N N' : Addr) : Prop where
  slots : ∃ s, t.view.body p = some (.inner s) ∧
    InnerHas P s (ksL ++ ksR) (csL ++ x :: csR)
  left : ksL.length = csL.length
  right : ksR.length = csR.length
  keys : 1 ≤ (ksL ++ ksR).length
  room : (ksL ++ ksR).length ≤ 3
  sorted : (ksL ++ ksR).Pairwise (· < ·)
  above : ∀ y ∈ ksL, y < k
  below : ∀ y ∈ ksR, k < y
  kind : ∃ lf, ∀ b ∈ csL ++ x :: N :: N' :: csR, t.view.IsKind lf b
  nodup : (p :: (csL ++ x :: N :: N' :: csR)).Nodup

/-- `insert_in_parent` replaces the child exactly if it is the last one. -/
theorem replaces_last (hinner : P.nodeslots = 4)
    (h : SplitChild P t p ksL ksR k csL csR x N N') {fuel : Nat} (hfuel : 0 < fuel) :
    (∃ t', t.insertInParent P fuel (some p) N k N' = .ok t' ∧
      Replaced P t' p ksL ksR k csL csR x N N') ↔ csR = [] := by
  obtain ⟨s, hp, hs⟩ := h.slots
  obtain ⟨lf, hkind⟩ := h.kind
  have hinner' : P.innernodemax = 4 := by rw [Template.innernodemax, hinner]
  have hlenL := h.left
  have hlenR := h.right
  have hkeys := h.keys
  have hroom := h.room
  have hnd := h.nodup
  obtain ⟨f, rfl⟩ : ∃ f, fuel = f + 1 := ⟨fuel - 1, by omega⟩
  simp only [List.length_append] at hkeys hroom
  have hcall : t.insertInParent P (f + 1) (some p) N k N' = t.insertInRoom p N k N' := by
    have hlt : s.numChildren < P.innernodemax + 1 := by
      rw [hs.num, hinner', List.length_append, List.length_cons]
      omega
    simp only [BTree.insertInParent, BTree.inner_eq hp, ok_bind, if_pos hlt]
  rw [hcall]
  constructor
  · rintro ⟨t', e, hrep⟩
    by_contra hne
    obtain ⟨csR, c', rfl⟩ := List.eq_nil_or_concat csR |>.resolve_left hne
    obtain ⟨ksR, z, rfl⟩ := List.eq_nil_or_concat ksR |>.resolve_left (by
      rintro rfl
      simp at hlenR)
    obtain ⟨cs, c, hcs⟩ := List.eq_nil_or_concat (csL ++ x :: csR) |>.resolve_left (by simp)
    simp only [List.concat_eq_append] at *
    have hchildren : csL ++ x :: (csR ++ [c']) = cs ++ [c, c'] := by
      have := congrArg (· ++ [c']) hcs
      simpa using this
    have hlen := congrArg List.length hcs
    simp only [List.length_append, List.length_cons, List.length_nil] at hlen hlenR hroom
    have hkind' : ∀ b ∈ cs ++ [N, N', c], t.view.IsKind lf b := by
      intro b hb
      have hmem : b ∈ cs ++ [c] → b ∈ csL ++ x :: csR := fun hb => hcs ▸ hb
      apply hkind b
      simp only [List.mem_append, List.mem_cons, List.not_mem_nil, or_false] at hb hmem ⊢
      tauto
    have hnd' : (cs ++ [c, c']).Nodup := by
      rw [← hchildren]
      refine List.Sublist.nodup (.cons p ((List.Sublist.refl csL).append ?_)) hnd
      exact .cons_cons x (.cons N (.cons N' (.refl _)))
    have hs₀ : InnerHas P s (ksL ++ ksR ++ [z]) (cs ++ [c, c']) := by
      rw [← hchildren]
      simpa using hs
    obtain ⟨t'', s', cs', e', hp', hs', hlast⟩ := BTree.insertInRoom_greater hp hs₀
      (by rw [List.length_append]; omega) (by rw [List.length_append]; omega)
      (h.below z (by simp)) hkind'
    obtain rfl : t'' = t' := by simpa [e'] using e
    obtain ⟨s'', hp'', hs'', -⟩ := hrep.slots
    obtain rfl : s' = s'' := by simpa [hp'] using hp''
    obtain ⟨-, rfl⟩ := hs'.unique hs''
    obtain rfl : c' = c := by
      rw [show csL ++ N :: N' :: (csR ++ [c']) = (csL ++ N :: N' :: csR) ++ [c'] by simp,
        List.getLast?_concat] at hlast
      exact Option.some.inj hlast
    exact absurd (List.nodup_append'.mp hnd').2.1 (by simp)
  · rintro rfl
    obtain rfl : ksR = [] := List.eq_nil_of_length_eq_zero hlenR
    simp only [List.append_nil, List.length_nil, Nat.add_zero] at hs hkeys hroom
    have hkind' : ∀ b ∈ csL ++ [N, N'], t.view.IsKind lf b := by
      intro b hb
      apply hkind b
      simp only [List.mem_append, List.mem_cons, List.not_mem_nil, or_false] at hb ⊢
      tauto
    obtain ⟨t', s', e, hs', v⟩ := BTree.insertInRoom_spec hp hs hlenL.symm (by omega) (by omega)
      (fun y hy => le_of_lt (h.above y hy)) hkind'
    refine ⟨t', e, ⟨s', by simp [v], hs', ?_⟩, ?_⟩
    · rw [hs'.num, hs'.inuse]
      simp [hlenL]
    · grind

/-- Two new leaves beside the sample tree. -/
def sampleSplit : BTree Nat String :=
  (sampleTree.newLeaf Template.strings).newLeaf Template.strings

theorem sampleSplit_kind : ∀ b ∈ [1, 2, 3, 4], sampleSplit.view.IsKind true b := by
  intro b hb
  obtain rfl | rfl | rfl | rfl : b = 1 ∨ b = 2 ∨ b = 3 ∨ b = 4 := by simpa using hb
  all_goals exact ⟨_, rfl⟩

theorem sampleSplit_child : SplitChild Template.strings sampleSplit 0 [10] [] 15 [1] [] 2 3 4 where
  slots := ⟨_, rfl, rfl, rfl, rfl, ⟨_, rfl⟩, ⟨_, rfl⟩, rfl, rfl⟩
  left := rfl
  right := rfl
  keys := by decide
  room := by decide
  sorted := by decide
  above := by decide
  below := by decide
  kind := ⟨true, fun b hb => sampleSplit_kind b (by simpa using hb)⟩
  nodup := by decide

theorem replaces_last_sample :
    ∃ t', sampleSplit.insertInParent Template.strings 6 (some 0) 3 15 4 = .ok t' ∧
      Replaced Template.strings t' 0 [10] [] 15 [1] [] 2 3 4 :=
  (replaces_last rfl sampleSplit_child (by decide)).mpr rfl

/-- The first of two children is split: the second node is left out, and the old second child is
lost. -/
theorem not_replaces :
    ¬∃ t', sampleSplit.insertInParent Template.strings 6 (some 0) 3 3 4 = .ok t' ∧
      Replaced Template.strings t' 0 [] [10] 3 [] [2] 1 3 4 := by
  rintro ⟨t', e, h⟩
  have hslots : (do
      let t ← sampleSplit.insertInParent Template.strings 6 (some 0) 3 3 4
      let s ← t.inner 0
      return s.firstChild.take s.numChildren) = .ok [some 3, some 1] := by decide +kernel
  obtain ⟨s, hs, hin, -⟩ := h.slots
  obtain ⟨r, hr⟩ := hin.children
  simp [e, BTree.inner_eq hs, hr, hin.num] at hslots

end NwtBTree
