import NwtBTree.Refine.Chain
import NwtBTree.Refine.Rebalance

/-!
# The leaf chain when a leaf is removed

The removal of a leaf joins its neighbours under the same parent. What lies on the
other side of the parent is not looked at: at the edge of a parent the chain stays
whole only if there is nothing beyond, or if the parent is joined with the parent
beyond afterwards.
-/

namespace NwtBTree

variable {K D : Type} {P : Template K D}

section Removal

variable {l : Links} {A B as bs : List Addr} {c x : Addr}

/-- The last leaf in front of `x` gets a new right neighbour, no other one. -/
theorem removalLinks_nxt (hx : c ≠ x) (hc : c ∉ as.getLast?) :
    (removalLinks true l as x bs).nxt c = l.nxt c := by
  have hforget : (removalLinks true l as x bs).nxt c = (l.bypass as x bs).nxt c := by
    simp [removalLinks, Links.forget, hx]
  rw [hforget]
  rcases List.eq_nil_or_concat as with rfl | ⟨as, p, rfl⟩
  · rcases bs with - | ⟨b, - | ⟨b', bs⟩⟩
    · rfl
    · rfl
    · rfl
  · have hp : c ≠ p := by simpa [eq_comm] using hc
    cases bs with
    | nil => simp [Links.bypass, hp]
    | cons b bs => simp [Links.bypass, hp]

/-- The first leaf behind `x` gets a new left neighbour, no other one. -/
theorem removalLinks_prv (hx : c ≠ x) (hc : c ∉ bs.head?) :
    (removalLinks true l as x bs).prv c = l.prv c := by
  have hforget : (removalLinks true l as x bs).prv c = (l.bypass as x bs).prv c := by
    simp [removalLinks, Links.forget, hx]
  rw [hforget]
  cases bs with
  | nil => rcases List.eq_nil_or_concat as with rfl | ⟨as, p, rfl⟩ <;> simp [Links.bypass]
  | cons b bs =>
    have hb : c ≠ b := by simpa [eq_comm] using hc
    rcases List.eq_nil_or_concat as with rfl | ⟨as, p, rfl⟩
    · cases bs with
      | nil => rfl
      | cons b' bs => simp [Links.bypass, hb]
    · simp [Links.bypass, hb]

/-- A leaf that was the last child hands its right neighbour over. -/
theorem removalLinks_nxt_last {p : Addr} (hp : p ≠ x) :
    (removalLinks true l (as ++ [p]) x []).nxt p = l.nxt x := by
  simp [removalLinks, Links.forget, Links.bypass, hp]

/-- A leaf that was the first of three or more children leaves the end of the chain behind. -/
theorem removalLinks_prv_first {b b' : Addr} (hb : b ≠ x) :
    (removalLinks true l [] x (b :: b' :: bs)).prv b = none := by
  simp [removalLinks, Links.forget, Links.bypass, hb]

/-- The chain still ends at the last leaf. -/
theorem removalLinks_last (hnd : (A ++ (as ++ x :: bs) ++ B).Nodup) (hne : as ++ bs ≠ [])
    (hlast : ∀ z ∈ (A ++ (as ++ x :: bs) ++ B).getLast?, l.nxt z = none) :
    ∀ z ∈ (A ++ (as ++ bs) ++ B).getLast?, (removalLinks true l as x bs).nxt z = none := by
  have hold : A ++ (as ++ x :: bs) ++ B = (A ++ (as ++ [x])) ++ (bs ++ B) := by simp
  have hnew : A ++ (as ++ bs) ++ B = (A ++ as) ++ (bs ++ B) := by simp
  rw [hold] at hnd hlast
  rw [hnew]
  intro z hz
  by_cases hR : bs ++ B = []
  · obtain ⟨rfl, rfl⟩ := List.append_eq_nil_iff.mp hR
    obtain ⟨as, p, rfl⟩ := List.eq_nil_or_concat as |>.resolve_left (by
      rintro rfl
      simp at hne)
    rw [List.concat_eq_append] at *
    obtain rfl : p = z := by simpa [← List.append_assoc] using hz
    have hpx : p ≠ x := by
      have := (List.nodup_append'.mp (List.nodup_append'.mp (List.nodup_append'.mp hnd).1).2.1).2.2
      exact fun hpx => this (by simp : p ∈ as ++ [p]) (by simp [hpx])
    rw [removalLinks_nxt_last hpx]
    exact hlast x (by simp [← List.append_assoc])
  · rw [List.getLast?_append_of_ne_nil _ hR] at hz hlast
    have hzR := List.mem_of_getLast? hz
    have hout : z ∉ A ++ (as ++ [x]) := fun hm => (List.nodup_append'.mp hnd).2.2 hm hzR
    simp only [List.mem_append, List.mem_singleton, not_or] at hout
    rw [removalLinks_nxt hout.2.2 fun hm => hout.2.1 (List.mem_of_getLast? hm)]
    exact hlast z hz

end Removal

section Mend

variable {up : MCtx K D 1} {cs : List (MTree K D 0)} {cap : Nat} {l : Links}

/-- The leaves under a parent of leaves. -/
theorem tips_children {ks : List K} (h : cs.length = ks.length + 1) :
    (tips (interleave .inl Tree.inorder ks cs)).map Tip.addr = cs.map Tree.addr := by
  rw [tips_interleave _ h, List.map_flatMap]
  exact List.map_eq_flatMap.symm

theorem tips_leaves {c : MTree K D (0 + 1)} (hc : c.Paired) :
    (tips c.inorder).map Tip.addr = c.children.map Tree.addr :=
  tips_children hc.2.1

variable (cs cap l) in
/-- What is joined when a parent of leaves is repaired was next to each other. -/
theorem relinks_mendLinks (hup : up.Paired) :
    Relinks ((tips up.left).map Tip.addr ++ cs.map Tree.addr ++ (tips up.right).map Tip.addr) l
      (mendLinks cap up cs l) := by
  cases up with
  | top => exact .refl l
  | frame up b ksL csL ksR csR =>
    obtain ⟨hL, hR, -, hcL, hcR, -⟩ := hup
    rw [mendLinks_frame]
    split
    · cases csR with
      | cons next csR =>
        obtain ⟨s, ksR, rfl⟩ := List.exists_cons_of_length_eq_add_one hR
        refine (Links.relinks_bridge l true _ _).mono fun y z hyz => ?_
        have := (hyz.append_left ((tips (Ctx.frame up b ksL csL (s :: ksR) (next :: csR)).left).map
          Tip.addr)).append_right ((tips (after .inl Tree.inorder ksR csR ++ up.right)).map
            Tip.addr)
        have hnext := tips_leaves (hcR next List.mem_cons_self)
        simpa [hnext] using this
      | nil =>
        rcases List.eq_nil_or_concat csL with rfl | ⟨cL, prev, rfl⟩
        · exact .refl l
        · rw [List.concat_eq_append] at *
          obtain ⟨kL, s, rfl⟩ := List.eq_nil_or_concat ksL |>.resolve_left (by
            rintro rfl
            simp at hL)
          rw [List.concat_eq_append] at *
          have hL' : kL.length = cL.length := by simpa using hL
          have hprev := tips_leaves (hcL prev (by simp))
          rw [List.getLast?_concat]
          refine (Links.relinks_bridge l true _ _).mono fun y z hyz => ?_
          have := (hyz.append_left ((tips (up.left ++ before .inl Tree.inorder kL cL)).map
            Tip.addr)).append_right ((tips (Ctx.frame up b kL cL ksR []).right).map Tip.addr)
          simpa [before_append _ _ hL', hprev] using this
    · exact .refl l

end Mend

section Balance

variable {v v' : View K D} {a b : Addr} {s : LeafSlots K D} {c : MCtx K D 0}
  {T : (m : Nat) × MTree K D m} {up : MCtx K D 1} {ksL ksR : List K} {csL csR : List (MTree K D 0)}

/-- The leaves of a tree, seen from the parent of one. -/
theorem tips_frame {x : MTree K D 0} (hc : (Ctx.frame up b ksL csL ksR csR).Paired) :
    (tips ((Ctx.frame up b ksL csL ksR csR).fill x).2.inorder).map Tip.addr =
      (tips up.left).map Tip.addr ++ (csL.map Tree.addr ++ x.addr :: csR.map Tree.addr) ++
        (tips up.right).map Tip.addr := by
  obtain ⟨hL, hR, -, -, -, hup⟩ := hc
  have hlen : (csL ++ x :: csR).length = (ksL ++ ksR).length + 1 := by
    simp
    omega
  rw [Ctx.fill_frame, Ctx.inorder_fill hup, Tree.inorder_node, tips_append, tips_append,
    List.map_append, List.map_append, tips_children hlen]
  simp

theorem tips_settled {cap : Nat} {ks : List K} {cs : List (MTree K D 0)}
    (hT : up.Settled cap b ks cs T) (hup : up.Paired) (hlen : cs.length = ks.length + 1) :
    (tips T.2.inorder).map Tip.addr =
      (tips up.left).map Tip.addr ++ cs.map Tree.addr ++ (tips up.right).map Tip.addr := by
  rw [hT.inorder hup hlen, tips_append, tips_append, List.map_append, List.map_append,
    tips_children hlen]

/-- The leaf in the hole, left with the slots `s`, is joined with a sibling. -/
def Ctx.Joins (s : LeafSlots K D) : MCtx K D 0 → Prop
  | .top => False
  | .frame _ _ _ csL _ csR => s.slotsinuse = 1 ∧
    ((∃ p ∈ csL.getLast?, (Tip.body p).slotsinuse < 3) ∨
      csL = [] ∧ ∃ q ∈ csR.head?, (Tip.body q).slotsinuse < 3)

/-- Balancing leaves the chain alone or removes the leaf and repairs its parent. -/
theorem Rebalanced.links (h : Rebalanced P v v' a s c T) (hc : c.Paired) :
    (v'.links = v.links ∧ (tips T.2.inorder).map Tip.addr =
      (tips (c.fill (.leaf a s)).2.inorder).map Tip.addr) ∨
    ∃ up b ksL csL ksR csR cs, c = .frame up b ksL csL ksR csR ∧ c.Joins s ∧
      cs.map Tree.addr = csL.map Tree.addr ++ csR.map Tree.addr ∧
      v'.links = mendLinks P.innernodemax up cs
        (removalLinks true v.links (csL.map Tree.addr) a (csR.map Tree.addr)) ∧
      (tips T.2.inorder).map Tip.addr = (tips up.left).map Tip.addr ++
        (csL.map Tree.addr ++ csR.map Tree.addr) ++ (tips up.right).map Tip.addr := by
  cases h with
  | kept hs hv h => exact .inl ⟨by rw [hv], rfl⟩
  | mergedPrev hs hsp hroom hsp' hep' hT h =>
    obtain ⟨hL, hR, -, -, -, hup⟩ := id hc
    refine .inr ⟨_, _, _, _, _, _, _, rfl, ⟨hs.inuse, .inl ⟨_, List.getLast?_concat, ?_⟩⟩, by simp,
      h.links, ?_⟩
    · exact lt_of_eq_of_lt hsp.inuse hroom
    simp only [List.length_append, List.length_singleton] at hL
    rw [tips_settled hT hup (by simp; omega)]
    simp
  | @borrowedPrev up b p sp s' sp' sep kL ksR r r' rp rp' cL csR e x es' ep hs hsp hmany hs' hes'
    hsp' h =>
    obtain ⟨hL, hR, -, hcL, hcR, hup⟩ := id hc
    have hc' : (Ctx.frame up b (kL ++ [x.1]) (cL ++ [.leaf p sp']) ksR csR).Paired :=
      ⟨by simpa using hL, hR, Nat.add_pos_left (by simp) _, fun c _ => trivial, hcR, hup⟩
    refine .inl ⟨h.links, ?_⟩
    rw [tips_frame hc, tips_frame hc']
    simp
  | mergedNext hs hsq hroom hsq' heq' hT h =>
    obtain ⟨-, hR, -, -, -, hup⟩ := id hc
    refine .inr ⟨_, _, _, _, _, _, _, rfl, ⟨hs.inuse, .inr ⟨rfl, _, rfl, ?_⟩⟩, by simp, h.links, ?_⟩
    · exact lt_of_eq_of_lt hsq.inuse hroom
    simp only [List.length_cons] at hR
    rw [tips_settled hT hup (by simp; omega)]
    simp
  | @borrowedNext up b q sq s' sq' ksR r r' rq rq' csR e x y eq hs hsq hmany hs' hsq' h =>
    obtain ⟨hL, hR, h0, hcL, -, hup⟩ := id hc
    have hc' : (Ctx.frame up b [] [] (y.1 :: ksR) (.leaf q sq' :: csR)).Paired :=
      ⟨hL, hR, h0, hcL, fun c _ => trivial, hup⟩
    refine .inl ⟨h.links, ?_⟩
    rw [tips_frame hc, tips_frame hc']
    simp

/-- The chain still ends at the last leaf. -/
theorem Rebalanced.last (h : Rebalanced P v v' a s c T) (hc : c.Paired)
    (hrep : Rep P v (c.fill (.leaf a s)).2)
    (hlast : ∀ z ∈ ((tips (c.fill (.leaf a s)).2.inorder).map Tip.addr).getLast?,
      v.links.nxt z = none) :
    ∀ z ∈ ((tips T.2.inorder).map Tip.addr).getLast?, v'.links.nxt z = none := by
  rcases h.links hc with ⟨hl, hL⟩ | ⟨up, b, ksL, csL, ksR, csR, cs, rfl, -, hcs, hl, hL⟩
  · rw [hl, hL]
    exact hlast
  · have hnd := (Tree.tips_sublist hrep.paired).nodup hrep.nodup
    have hnd' := (Tree.tips_sublist h.rep.paired).nodup h.rep.nodup
    obtain ⟨hlL, hlR, h0, -, -, hup⟩ := id hc
    have hne : csL.map Tree.addr ++ csR.map Tree.addr ≠ [] := by
      intro hnil
      have := congrArg List.length hnil
      simp only [List.length_append, List.length_map, List.length_nil] at this
      omega
    rw [tips_frame hc] at hlast hnd
    rw [hL] at hnd' ⊢
    have hseam := relinks_mendLinks cs P.innernodemax
      (removalLinks true v.links (csL.map Tree.addr) a (csR.map Tree.addr)) hup
    rw [hcs, ← hl] at hseam
    intro z hz
    rw [hseam.nxt_eq fun y => not_adjacent_last hnd' hz]
    exact removalLinks_last hnd hne hlast z hz

end Balance

end NwtBTree
