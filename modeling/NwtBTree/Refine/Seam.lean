import NwtBTree.Refine.Unlink

/-!
# When a removal leaves the chain whole

A leaf that is neither the first nor the last child of its parent is bypassed. At
the edge of the parent the chain is whole again if nothing lies beyond, or if the
parent is joined with the one beyond afterwards, or gets a child from it.
-/

namespace NwtBTree

variable {K D : Type} {P : Template K D}

section Lists

variable {l l' : Links} {L A B as bs : List Addr} {x : Addr}

/-- Only links into the list matter for it. -/
theorem isChain_congr_inner (h : L.IsChain l.Joined) (hn : ∀ a ∈ L.dropLast, l'.nxt a = l.nxt a)
    (hp : ∀ b ∈ L.tail, l'.prv b = l.prv b) : L.IsChain l'.Joined := by
  induction L with
  | nil => exact .nil
  | cons a L ih =>
    cases L with
    | nil => exact .singleton a
    | cons b L =>
      obtain ⟨hab, hL⟩ := List.isChain_cons_cons.mp h
      refine List.isChain_cons_cons.mpr ⟨⟨?_, ?_⟩, ih hL ?_ ?_⟩
      · rw [hn a (by simp), hab.1]
      · rw [hp b (by simp), hab.2]
      · exact fun c hc => hn c (by simp [hc])
      · exact fun c hc => hp c (List.mem_of_mem_tail hc)

/-- In front of the removed leaf nothing changes but the `next` of the last one. -/
theorem removalLinks_left (hnd : (A ++ as ++ x :: (bs ++ B)).Nodup)
    (h : (A ++ as ++ x :: (bs ++ B)).IsChain l.Joined) :
    (A ++ as).IsChain (removalLinks true l as x bs).Joined := by
  obtain ⟨hndF, -, hdisj⟩ := List.nodup_append'.mp hnd
  refine isChain_congr_inner h.left_of_append (fun u hu => ?_) fun v hv => ?_
  · have hmem := List.dropLast_subset _ hu
    refine removalLinks_nxt (fun hux => hdisj hmem (by simp [hux])) fun hlast => ?_
    obtain ⟨as, rfl⟩ := List.getLast?_eq_some_iff.mp hlast
    rw [← List.append_assoc, List.dropLast_concat] at hu
    rw [← List.append_assoc] at hndF
    exact (List.nodup_append'.mp hndF).2.2 hu (by simp)
  · have hmem := List.mem_of_mem_tail hv
    refine removalLinks_prv (fun hvx => hdisj hmem (by simp [hvx])) fun hhead => ?_
    exact hdisj hmem (by simp [List.mem_of_mem_head? hhead])

/-- Behind the removed leaf nothing changes but the `prev` of the first one. -/
theorem removalLinks_right (hnd : (A ++ as ++ x :: (bs ++ B)).Nodup)
    (h : (A ++ as ++ x :: (bs ++ B)).IsChain l.Joined) :
    (bs ++ B).IsChain (removalLinks true l as x bs).Joined := by
  obtain ⟨-, hndG, hdisj⟩ := List.nodup_append'.mp hnd
  obtain ⟨hx, hndG⟩ := List.nodup_cons.mp hndG
  refine isChain_congr_inner h.right_of_append.tail (fun u hu => ?_) fun v hv => ?_
  · have hmem := List.dropLast_subset _ hu
    refine removalLinks_nxt (fun hux => hx (hux ▸ hmem)) fun hlast => ?_
    exact hdisj (List.mem_append_right A (List.mem_of_getLast? hlast)) (List.mem_cons_of_mem x hmem)
  · have hmem := List.mem_of_mem_tail hv
    refine removalLinks_prv (fun hvx => hx (hvx ▸ hmem)) fun hhead => ?_
    cases bs with
    | nil => simp at hhead
    | cons b bs =>
      obtain rfl : b = v := by simpa using hhead
      exact (List.nodup_cons.mp hndG).1 hv

/-- Two siblings are joined across the removed leaf. -/
theorem removalLinks_joined {p b : Addr} (hp : p ≠ x) (hb : b ≠ x) :
    (removalLinks true l (as ++ [p]) x (b :: bs)).Joined p b := by
  simp [removalLinks, Links.Joined, Links.forget, Links.bypass, hp, hb]

end Lists

namespace Ctx

/-- The node in the hole is the last child of its parent. -/
def IsLast : {n : Nat} → MCtx K D n → Prop
  | _, .top => False
  | _, .frame _ _ _ _ _ csR => csR = []

/-- The node in the hole has a right neighbour. -/
def HasNext : {n : Nat} → MCtx K D n → Prop
  | _, .top => False
  | _, .frame _ _ _ _ _ csR => csR ≠ []

/-- The chain is whole again when the leaf in the hole has been removed and its parent repaired. -/
def Mends (cap : Nat) : MCtx K D 0 → Prop
  | .top => True
  | .frame up _ _ csL _ csR =>
    (csL = [] → tips up.left = [] ∧ 1 < csR.length ∨ csR.length ≤ cap / 2 ∧ up.IsLast) ∧
      (csR = [] → tips up.right = [] ∨ csL.length ≤ cap / 2 ∧ up.HasNext)

end Ctx

section Mend

variable {up : MCtx K D 1} {cs : List (MTree K D 0)} {cap : Nat} {l : Links} {u v : Addr}

theorem children_ne_nil {c : MTree K D (0 + 1)} (hc : c.Paired) : c.children ≠ [] :=
  List.ne_nil_of_length_eq_add_one hc.2.1

/-- A parent that gets children from its right neighbour is joined with it. -/
theorem mendLinks_joined_next (hup : up.Paired) (hnext : up.HasNext) (hcs : cs.length ≤ cap / 2)
    (hu : u ∈ (cs.map Tree.addr).getLast?) (hv : v ∈ ((tips up.right).map Tip.addr).head?) :
    (mendLinks cap up cs l).Joined u v := by
  cases up with
  | top => exact absurd hnext id
  | frame up b ksL csL ksR csR =>
    obtain ⟨next, csR, rfl⟩ := List.exists_cons_of_ne_nil hnext
    obtain ⟨-, hR, -, -, hcR, -⟩ := hup
    obtain ⟨s, ksR, rfl⟩ := List.exists_cons_of_length_eq_add_one hR
    have htips := tips_leaves (hcR next List.mem_cons_self)
    have hv' : v ∈ (next.children.map Tree.addr).head? := by
      have hne := children_ne_nil (hcR next List.mem_cons_self)
      simpa [htips, hne] using hv
    rw [mendLinks_frame, if_pos hcs]
    simp only [Option.mem_def] at hu hv'
    simp [Links.bridge, hu, hv', Links.Joined]

/-- A parent that is the last child and too small is joined with its left neighbour. -/
theorem mendLinks_joined_prev (hup : up.Paired) (hlast : up.IsLast) (hcs : cs.length ≤ cap / 2)
    (hu : u ∈ ((tips up.left).map Tip.addr).getLast?) (hv : v ∈ (cs.map Tree.addr).head?) :
    (mendLinks cap up cs l).Joined u v := by
  cases up with
  | top => exact absurd hlast id
  | frame up b ksL csL ksR csR =>
    obtain rfl : csR = [] := hlast
    obtain ⟨hL, hR, h0, hcL, -, -⟩ := hup
    obtain ⟨cL, prev, rfl⟩ := List.eq_nil_or_concat csL |>.resolve_left (by
      rintro rfl
      simp at hL hR
      simp [hL, hR] at h0)
    rw [List.concat_eq_append] at *
    obtain ⟨kL, s, rfl⟩ := List.eq_nil_or_concat ksL |>.resolve_left (by
      rintro rfl
      simp at hL)
    rw [List.concat_eq_append] at *
    have hL' : kL.length = cL.length := by simpa using hL
    have htips := tips_leaves (hcL prev (by simp))
    have hu' : u ∈ (prev.children.map Tree.addr).getLast? := by
      have hne := children_ne_nil (hcL prev (by simp))
      rw [← List.getLast?_append_of_ne_nil ((tips (up.left ++ before .inl Tree.inorder kL cL)).map
        Tip.addr) (by simpa using hne)]
      simpa [before_append _ _ hL', htips] using hu
    rw [mendLinks_frame, if_pos hcs, List.getLast?_concat]
    simp only [Option.mem_def] at hu' hv
    simp [Links.bridge, hu', hv, Links.Joined]

/-- In front of a last child there is something. -/
theorem left_ne_nil (hup : up.Paired) (hlast : up.IsLast) : (tips up.left).map Tip.addr ≠ [] := by
  cases up with
  | top => exact absurd hlast id
  | frame up b ksL csL ksR csR =>
    obtain rfl : csR = [] := hlast
    obtain ⟨hL, hR, h0, hcL, -, -⟩ := hup
    obtain ⟨prev, csL, rfl⟩ := List.exists_cons_of_ne_nil (show csL ≠ [] by
      rintro rfl
      simp at hL hR
      simp [hL, hR] at h0)
    obtain ⟨s, ksL, rfl⟩ := List.exists_cons_of_length_eq_add_one hL
    have htips := tips_leaves (hcL prev (by simp))
    have hne := children_ne_nil (hcL prev (by simp))
    simp [htips, hne]

variable {b a : Addr} {ksL ksR : List K} {csL csR : List (MTree K D 0)}

/-- The chain when a leaf was removed and its parent repaired. -/
theorem chained_mendLinks (hc : (Ctx.frame up b ksL csL ksR csR).Paired)
    (hmend : (Ctx.frame up b ksL csL ksR csR).Mends cap)
    (hcs : cs.map Tree.addr = csL.map Tree.addr ++ csR.map Tree.addr)
    (hnd : ((tips up.left).map Tip.addr ++ (csL.map Tree.addr ++ a :: csR.map Tree.addr) ++
      (tips up.right).map Tip.addr).Nodup)
    (h : Chained l ((tips up.left).map Tip.addr ++ (csL.map Tree.addr ++ a :: csR.map Tree.addr) ++
      (tips up.right).map Tip.addr)) :
    Chained (mendLinks cap up cs (removalLinks true l (csL.map Tree.addr) a (csR.map Tree.addr)))
      ((tips up.left).map Tip.addr ++ (csL.map Tree.addr ++ csR.map Tree.addr) ++
        (tips up.right).map Tip.addr) := by
  have hsplit : ∀ M : List Addr, (tips up.left).map Tip.addr ++ (csL.map Tree.addr ++ M) ++
      (tips up.right).map Tip.addr = ((tips up.left).map Tip.addr ++ csL.map Tree.addr) ++
        (M ++ (tips up.right).map Tip.addr) := fun M => by simp
  obtain ⟨hL, hR, h0, -, -, hup⟩ := hc
  rw [hsplit] at hnd h ⊢
  rw [List.cons_append] at hnd h
  have hnd' : ((tips up.left).map Tip.addr ++ csL.map Tree.addr ++
      (csR.map Tree.addr ++ (tips up.right).map Tip.addr)).Nodup :=
    (List.Sublist.append_left (List.sublist_cons_self _ _) _).nodup hnd
  have hrel := relinks_mendLinks cs cap
    (removalLinks true l (csL.map Tree.addr) a (csR.map Tree.addr)) hup
  rw [hcs, hsplit] at hrel
  obtain ⟨ha, -⟩ := List.nodup_cons.mp ((List.perm_middle.nodup_iff).mp hnd)
  have hseam : ∀ u ∈ ((tips up.left).map Tip.addr ++ csL.map Tree.addr).getLast?,
      ∀ v ∈ (csR.map Tree.addr ++ (tips up.right).map Tip.addr).head?,
      (mendLinks cap up cs (removalLinks true l (csL.map Tree.addr) a (csR.map Tree.addr))).Joined
        u v := by
    intro u hu v hv
    rcases List.eq_nil_or_concat csL with rfl | ⟨csL, p, rfl⟩
    · cases csR with
      | nil =>
        simp at hL hR
        simp [hL, hR] at h0
      | cons q csR =>
        rcases hmend.1 rfl with ⟨hleft, -⟩ | ⟨hsmall, hlast⟩
        · simp [hleft] at hu
        · have hlen := congrArg List.length hcs
          refine mendLinks_joined_prev hup hlast ?_ (by simpa using hu) ?_
          · simp at hlen hsmall
            omega
          · rw [hcs]
            simpa using hv
    · rw [List.concat_eq_append] at *
      obtain rfl : p.addr = u := by simpa using hu
      cases csR with
      | nil =>
        rcases hmend.2 rfl with hright | ⟨hsmall, hnext⟩
        · simp [hright] at hv
        · have hlen := congrArg List.length hcs
          refine mendLinks_joined_next hup hnext ?_ ?_ (by simpa using hv)
          · simp at hlen hsmall
            omega
          · rw [hcs]
            simp
      | cons q csR =>
        obtain rfl : q.addr = v := by simpa using hv
        refine hrel.joined hnd' ?_ ?_
        · have := adjacent_middle ((tips up.left).map Tip.addr ++ csL.map Tree.addr)
            (csR.map Tree.addr ++ (tips up.right).map Tip.addr) p.addr q.addr
          simpa using this
        · rw [List.map_append]
          refine removalLinks_joined (fun hpa => ha ?_) fun hqa => ha ?_
          · simp [← hpa]
          · simp [← hqa]
  refine ⟨List.isChain_append.mpr ⟨?_, ?_, hseam⟩, fun z hz => ?_, fun z hz => ?_⟩
  · exact Relinks.isChain_infix (X := []) hnd' hrel (removalLinks_left hnd h.joined)
  · exact Relinks.isChain_infix (X := (tips up.left).map Tip.addr ++ csL.map Tree.addr) (Y := [])
      (by simpa using hnd') (by simpa using hrel) (removalLinks_right hnd h.joined)
  · rw [hrel.prv_eq fun u => not_adjacent_head hnd' hz]
    have hza : z ≠ a := fun hza => ha (hza ▸ List.mem_of_mem_head? hz)
    by_cases hF : (tips up.left).map Tip.addr ++ csL.map Tree.addr = []
    · -- the first leaf was removed
      obtain ⟨hA, has⟩ := List.append_eq_nil_iff.mp hF
      obtain rfl : csL = [] := by simpa using has
      rcases hmend.1 rfl with ⟨-, hmany⟩ | ⟨-, hlast⟩
      · match csR, hmany with
        | q :: q' :: csR, _ =>
          rw [hF, List.nil_append] at hz
          obtain rfl : q.addr = z := by simpa using hz
          exact removalLinks_prv_first hza
      · exact absurd hA (left_ne_nil hup hlast)
    · rw [List.head?_append_of_ne_nil _ hF] at hz
      rw [removalLinks_prv hza fun hhead => ?_]
      · exact h.first z (by rw [List.head?_append_of_ne_nil _ hF]; exact hz)
      · exact (List.nodup_append'.mp hnd').2.2 (List.mem_of_mem_head? hz)
          (List.mem_append_left _ (List.mem_of_mem_head? hhead))
  · rw [hrel.nxt_eq fun u => not_adjacent_last hnd' hz]
    rw [← hsplit] at hz
    refine removalLinks_last ?_ ?_ ?_ z hz
    · rw [hsplit]
      exact hnd
    · intro hnil
      have := congrArg List.length hnil
      simp only [List.length_append, List.length_map, List.length_nil] at this
      omega
    · rw [hsplit]
      exact h.last

/-- Balancing keeps the chain. -/
theorem Rebalanced.chained {v v' : View K D} {s : LeafSlots K D} {c : MCtx K D 0}
    {T : (m : Nat) × MTree K D m} (h : Rebalanced P v v' a s c T) (hc : c.Paired)
    (hrep : Rep P v (c.fill (.leaf a s)).2)
    (hmend : c.Joins s → c.Mends P.innernodemax)
    (hch : Chained v.links ((tips (c.fill (.leaf a s)).2.inorder).map Tip.addr)) :
    Chained v'.links ((tips T.2.inorder).map Tip.addr) := by
  rcases h.links hc with ⟨hl, hL⟩ | ⟨up, b, ksL, csL, ksR, csR, cs, rfl, hj, hcs, hl, hL⟩
  · rw [hl, hL]
    exact hch
  · have hnd := (Tree.tips_sublist hrep.paired).nodup hrep.nodup
    rw [tips_frame hc] at hch hnd
    rw [hl, hL]
    exact chained_mendLinks hc (hmend hj) hcs hnd hch

end Mend

end NwtBTree
