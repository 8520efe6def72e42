import NwtBTree.Refine.Push
import NwtBTree.Refine.Unlink

/-!
# Half full trees under removals

`Stocked` is what removals keep whatever the order of the keys: a tree in the heap
with half full nodes, in which only the last leaf can be full. `Removal` is what a
successful `erase` or `delete_pair` does.
-/

namespace NwtBTree

variable {K D : Type} {P : Template K D}

/-- A tree with half full nodes. -/
structure Stocked (P : Template K D) (t : BTree K D) (T : (n : Nat) × MTree K D n) : Prop where
  rep : Rep P t.view T.2
  bushy : T.2.Bushy (P.innernodemax / 2 ≤ ·)
  least : ∀ l ∈ tips T.2.inorder, 2 ≤ l.body.slotsinuse ∨ T.2.inorder = [.inr l]
  most : ∀ l ∈ (tips T.2.inorder).dropLast, l.body.slotsinuse < 4
  last : ∀ a ∈ ((tips T.2.inorder).map Tip.addr).getLast?, t.view.links.nxt a = none
  count : t.totalkeycount < 4294967296

/-- One pair of the leaf `s` at `a` has gone, which leaves `s'`, and the leaf has been balanced. -/
structure Removal (P : Template K D) (t t' : BTree K D) (c : MCtx K D 0) (a : Addr)
    (s s' : LeafSlots K D) (T' : (m : Nat) × MTree K D m) : Prop where
  ok : LeafOK P s'
  sub : s'.keys.Sublist s.keys
  less : s'.slotsinuse + 1 = s.slotsinuse
  even : Rebalanced P { t.view.setBody a (.leaf s') with
    count := (t.totalkeycount + 4294967295) % 4294967296 } t'.view a s' c T'

section Stocked

variable {t t' : BTree K D} {T T' : (n : Nat) × MTree K D n} {c : MCtx K D 0} {a : Addr}
  {s s' : LeafSlots K D} {k : K}

theorem Stocked.fullLast (hP : P.Four) (h : Stocked P t T) : FullLast P t.view T.2.inorder := by
  intro l hl
  rcases List.eq_nil_or_concat (tips T.2.inorder) with hnil | ⟨L, m, hL⟩
  · simp [hnil] at hl
  · have hmost := h.most
    have hlast := h.last
    rw [List.concat_eq_append] at hL
    rw [hL] at hl hmost hlast
    rw [hP.leafnodemax]
    rcases List.mem_append.mp hl with hl | hl
    · exact .inl (hmost l (by simpa using hl))
    · obtain rfl : l = m := by simpa using hl
      exact .inr (hlast l.addr (by simp))

/-- The leaves beside the one in the hole. -/
theorem Stocked.beside (h : Stocked P t (c.fill (.leaf a s))) (hc : c.Paired) :
    (∀ l ∈ tips c.left, 2 ≤ l.body.slotsinuse ∧ l.body.slotsinuse < 4) ∧
      ∀ l ∈ tips c.right, 2 ≤ l.body.slotsinuse := by
  have hin := Ctx.inorder_fill_leaf hc (Tree.leaf (K := K) a s)
  have hleast := h.least
  have hmost := h.most
  rw [hin] at hleast hmost
  have hone : ∀ l : Tip Addr (LeafSlots K D), l ∈ tips c.left ∨ l ∈ tips c.right →
      c.left ++ .inr ⟨a, s⟩ :: c.right ≠ [.inr l] := by
    intro l hl heq
    have hlen := congrArg List.length heq
    simp only [List.length_append, List.length_cons, List.length_nil] at hlen
    obtain ⟨hL, hR⟩ : c.left = [] ∧ c.right = [] :=
      ⟨List.eq_nil_of_length_eq_zero (by omega), List.eq_nil_of_length_eq_zero (by omega)⟩
    rw [hL, hR] at hl
    simp at hl
  refine ⟨fun l hl => ⟨?_, hmost l ?_⟩, fun l hl => ?_⟩
  · exact (hleast l (by simp [hl])).resolve_right (hone l (.inl hl))
  · simp only [tips_append, tips_inr, List.dropLast_append_cons]
    exact List.mem_append_left _ hl
  · exact (hleast l (by simp [hl])).resolve_right (hone l (.inr hl))

theorem Stocked.leaf (h : Stocked P t (c.fill (.leaf a s))) :
    t.view.body a = some (.leaf s) ∧ LeafOK P s :=
  h.rep.leaf_hole

/-- The leaf with one pair less, before it is balanced. -/
theorem Stocked.lessened (h : Stocked P t (c.fill (.leaf a s))) (hc : c.Paired) (hok : LeafOK P s')
    {n : Nat} : Rep P ({ t.view.setBody a (.leaf s') with count := n } : View K D)
      (c.fill (.leaf a s')).2 :=
  (h.rep.setLeaf hc hok).congr rfl (fun _ _ => rfl) (fun _ _ => rfl) (fun _ _ => rfl)
    (fun _ _ => ⟨rfl, rfl⟩)

/-- What a removal does to the sequence of the leaves. -/
theorem Stocked.evened (hP : P.Four) (h : Stocked P t (c.fill (.leaf a s))) (hc : c.Paired)
    (hr : Removal P t t' c a s s' T') :
    Evened LeafSlots.keys 2 3 (c.Loses s') c.left ⟨a, s'⟩ c.right T'.2.inorder := by
  obtain ⟨hleft, hright⟩ := h.beside hc
  exact hr.even.evened hc hr.ok hP (fun l hl => (hleft l hl).1) hright

/-- The tree that a removal leaves behind. -/
theorem Stocked.removal (hP : P.Four) (h : Stocked P t (c.fill (.leaf a s))) (hc : c.Paired)
    (hr : Removal P t t' c a s s' T') : Stocked P t' T' := by
  have hrep := h.lessened hc hr.ok (n := (t.totalkeycount + 4294967295) % 4294967296)
  obtain ⟨hleft, hright⟩ := h.beside hc
  have heven := h.evened hP hc hr
  have hin := Ctx.inorder_fill_leaf hc (Tree.leaf (K := K) a s)
  have hin' := Ctx.inorder_fill_leaf hc (Tree.leaf (K := K) a s')
  obtain ⟨hbushy, -, -⟩ := Ctx.bushy_of_fill h.bushy
  have hsize : ∀ l ∈ tips T'.2.inorder, l.body.keys.length = l.body.slotsinuse := fun l hl =>
    (hr.even.rep.holds.tip hr.even.rep.paired hl).2.length_keys
  refine ⟨hr.even.rep, hr.even.bushy hc hbushy, fun l hl => ?_, fun l hl => ?_, ?_, ?_⟩
  · rcases heven.tips_cases hl with hl' | hl' | hlo | hone
    · exact .inl (hleft l hl').1
    · exact .inl (hright l hl')
    · exact .inl (hsize l hl ▸ hlo)
    · exact .inr hone
  · rcases heven.dropLast_cases hl with hl' | hhi
    · -- a leaf that was there, or the one that has lost a pair
      have hmost := h.most
      have hfull := h.leaf.2.inuse
      have hless := hr.less
      rw [hP.leafnodemax] at hfull
      rw [hin] at hmost
      simp only [tips_append, tips_inr, List.dropLast_append_cons, List.mem_append] at hl' hmost
      rcases hl' with hl' | hl'
      · exact hmost l (.inl hl')
      · cases hJ : tips c.right with
        | nil => simp [hJ] at hl'
        | cons m J =>
          rw [hJ, List.dropLast_cons_cons, List.mem_cons] at hl'
          rcases hl' with rfl | hl'
          · show s'.slotsinuse < 4
            omega
          · exact hmost l
              (.inr (by rw [hJ, List.dropLast_cons_cons]; exact List.mem_cons_of_mem _ hl'))
    · have := hsize l (List.dropLast_subset _ hl)
      omega
  · refine hr.even.last hc hrep ?_
    have hlast := h.last
    rw [hin] at hlast
    rw [hin']
    simpa using hlast
  · have := hr.even.count
    rw [BTree.count_view] at this
    rw [this]
    exact Nat.mod_lt _ (by decide)

variable [LinearOrder K] [DecidableEq D]

/-- The balancing of a leaf that has lost a pair succeeds. -/
theorem Stocked.balance (hP : P.Four) (h : Stocked P t (c.fill (.leaf a s))) (hc : c.Paired)
    (hok : LeafOK P s') (hsub : s'.keys.Sublist s.keys) (hless : s'.slotsinuse + 1 = s.slotsinuse)
    (hguide : s'.slotsinuse = 1 → c.Guides P s') (hrec : s.slotsinuse = 2 → c.Recovers P)
    {t₁ : BTree K D} (hview : t₁.view = { t.view.setBody a (.leaf s') with
      count := (t.totalkeycount + 4294967295) % 4294967296 }) :
    ∃ t' T', t₁.balanceTree P a = .ok t' ∧ Removal P t t' c a s s' T' := by
  have hrep := h.lessened hc hok (n := (t.totalkeycount + 4294967295) % 4294967296)
  obtain ⟨hleft, hright⟩ := h.beside hc
  have hin := Ctx.inorder_fill_leaf hc (Tree.leaf (K := K) a s)
  obtain ⟨hbushy, -, -⟩ := Ctx.bushy_of_fill h.bushy
  rw [← hview] at hrep
  have hcount : t₁.totalkeycount < 4294967296 := by
    rw [← BTree.count_view, hview]
    exact Nat.mod_lt _ (by decide)
  have hpos : 0 < s'.slotsinuse ∨ c = .top := by
    have hleast := h.least ⟨a, s⟩ (by rw [hin]; simp)
    rcases hleast with hleast | hone
    · change 2 ≤ s.slotsinuse at hleast
      exact .inl (by omega)
    · right
      cases c with
      | top => rfl
      | frame up b ksL csL ksR csR =>
        have hlen : ((tips ((Ctx.frame up b ksL csL ksR csR).fill (.leaf a s)).2.inorder).map
            Tip.addr).length = 1 := by
          rw [hone]
          rfl
        rw [tips_frame hc] at hlen
        obtain ⟨hL, hR, h0, -⟩ := hc
        simp only [List.length_append, List.length_cons, List.length_map] at hlen
        omega
  have hroot : c = .top → t₁.view.links.nxt a = none := by
    rintro rfl
    rw [hview]
    exact h.last a (by simp)
  obtain ⟨t', T', e, hR⟩ := balanceTree_spec hP hrep hc hguide hbushy hcount hpos hroot
    (by simpa only [hP.leafnodemax] using hleft) hright
    (fun h1 => hrec (by omega))
  exact ⟨t', T', e, hok, hsub, hless, hview ▸ hR⟩

omit [LinearOrder K] [DecidableEq D]

/-! ## Inserts behind everything -/

/-- The last leaf has grown. -/
theorem Stocked.grow_room (h : Stocked P t (c.fill (.leaf a s))) (hc : c.Paired)
    (hright : c.right = []) (hok : LeafOK P s') (hmore : s.slotsinuse ≤ s'.slotsinuse)
    (v' : t'.view = { t.view.setBody a (.leaf s') with count := t.upkeycount.totalkeycount }) :
    Stocked P t' (c.fill (.leaf a s')) := by
  have hin := Ctx.inorder_fill_leaf hc (Tree.leaf (K := K) a s)
  have hin' := Ctx.inorder_fill_leaf hc (Tree.leaf (K := K) a s')
  rw [hright] at hin hin'
  refine ⟨?_, ?_, fun l hl => ?_, fun l hl => ?_, ?_, ?_⟩
  · rw [v']
    exact h.lessened hc hok
  · obtain ⟨hbushy, -, -⟩ := Ctx.bushy_of_fill h.bushy
    exact Ctx.bushy_fill hbushy (Tree.bushy_leaf a s') fun _ => Tree.each_leaf a s'
  · rw [hin'] at hl ⊢
    simp only [tips_append, tips_inr, tips_nil, List.mem_append, List.mem_singleton] at hl
    rcases hl with hl | rfl
    · exact .inl ((h.beside hc).1 l hl).1
    · have hleast := h.least
      rw [hin] at hleast
      rcases hleast ⟨a, s⟩ (by simp) with h2 | hone
      · exact .inl (le_trans h2 hmore)
      · right
        have hlen := congrArg List.length hone
        have hL : c.left = [] := List.eq_nil_of_length_eq_zero (by simpa using hlen)
        rw [hL]
        rfl
  · have hmost := h.most
    rw [hin] at hmost
    rw [hin'] at hl
    simp only [tips_append, tips_inr, tips_nil, List.dropLast_concat] at hl hmost
    exact hmost l hl
  · have hlast := h.last
    rw [hin] at hlast
    rw [hin', v']
    simpa using hlast
  · rw [← BTree.count_view, v']
    exact Nat.mod_lt _ (by decide)

/-- The last leaf was full and has been split. -/
theorem Stocked.grow_split [LinearOrder K] {d : D} {e : K × D} {sln slp : LeafSlots K D}
    (hP : P.Four) (h : Stocked P t (c.fill (.leaf a s))) (hc : c.Paired) (hright : c.right = [])
    (hfull : s.slotsinuse = P.leafnodemax) (hp : Divided P t t' c a s sln slp k d e) :
    sln.slotsinuse = 2 ∧ Stocked P t' (c.pushUp P.innernodemax id (t.nodes.size + 2)
      (.leaf t.nodes.size sln) e.1 (.leaf (t.nodes.size + 1) slp)) := by
  have hlen : s.entries.length = 4 := by
    rw [← h.leaf.2.leafIs.inuse, hfull, hP.leafnodemax]
  have hlower : sln.slotsinuse = 2 := by
    rw [hp.lower.inuse, hP.leafnodemax]
    simp [hlen]
  have hupper : slp.slotsinuse = 3 := by
    rw [hp.upper.inuse, hP.leafnodemax]
    simp [hlen]
  have hcount : t'.totalkeycount = (t.totalkeycount + 1) % 4294967296 := hp.done.count
  have hseq := hp.seq
  refine ⟨hlower, hp.done.rep, ?_, fun l hl => ?_, fun l hl => ?_, fun x hx => ?_, ?_⟩
  · obtain ⟨hbushy, -, -⟩ := Ctx.bushy_of_fill h.bushy
    exact Ctx.bushy_pushUp (by rw [hP.innernodemax]; decide) (fun h1 h2 => le_trans h2 h1)
      (le_refl _) hc hbushy hp.atEnd _ trivial trivial
  · left
    rw [hseq] at hl
    simp only [tips_append, tips_inr, tips_inl, tips_nil, List.mem_append, List.mem_cons,
      List.not_mem_nil, or_false] at hl
    rcases hl with hl | rfl | rfl
    · exact ((h.beside hc).1 l hl).1
    · exact le_of_eq hlower.symm
    · exact hupper ▸ (by decide)
  · rw [hseq] at hl
    simp only [tips_append, tips_inr, tips_inl, tips_nil, List.dropLast_append_cons,
      List.dropLast_cons_cons, List.dropLast_singleton, List.mem_append, List.mem_singleton] at hl
    rcases hl with hl | rfl
    · exact ((h.beside hc).1 l hl).2
    · exact hlower ▸ (by decide)
  · rw [hseq] at hx
    obtain rfl : t.nodes.size + 1 = x := by simpa using hx
    exact hp.nxt_last hc h.rep hright
  · rw [hcount]
    exact Nat.mod_lt _ (by decide)

/-- The first insert. -/
theorem stocked_first [LinearOrder K] [DecidableEq D] (hcap : 0 < P.leafnodemax)
    (hroot : t.root = none) (hzero : t.totalkeycount = 0) (k : K) (d : D) :
    ∃ t' s, t.insert P k d = .ok (1, t') ∧ s.keys = [k] ∧
      Stocked P t' ⟨0, .leaf t.nodes.size s⟩ ∧ t'.view.links = t.view.links ∧
      t'.totalkeycount = 1 := by
  obtain ⟨t', s, e, hs, hrep, hlinks, hcount, -, -⟩ := insert_first (d := d) (k := k) hroot hcap
  rw [BTree.upkeycount, hzero] at hcount
  refine ⟨t', s, e, hs.keys_eq, ⟨hrep, trivial, fun l hl => .inr ?_, by simp, fun a ha => ?_, ?_⟩,
    hlinks, hcount⟩
  · obtain rfl : l = ⟨t.nodes.size, s⟩ := by simpa using hl
    rfl
  · obtain rfl : a = t.nodes.size := by simpa [eq_comm] using ha
    rw [hlinks]
    exact (BTree.links_new (t := t) (le_refl t.nodes.size)).1
  · rw [hcount]
    exact Nat.one_lt_two_pow (by decide : 32 ≠ 0)

end Stocked

end NwtBTree
