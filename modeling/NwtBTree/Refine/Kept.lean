import NwtBTree.Refine.Stocked

/-!
# Search trees under removals

`Kept` is what inserts in ascending order and removals keep: a search tree in the
heap with half full nodes, in which only the last leaf can be full. `Extension` is
what the insert of a key greater than all others does.
-/

namespace NwtBTree

variable {K D : Type} {P : Template K D}

variable [LinearOrder K]

/-- A search tree with half full nodes. -/
structure Kept (P : Template K D) (t : BTree K D) (T : (n : Nat) × MTree K D n) : Prop where
  rep : Rep P t.view T.2
  order : SearchOrder LeafSlots.keys T.2.inorder
  bushy : T.2.Bushy (P.innernodemax / 2 ≤ ·)
  least : ∀ l ∈ tips T.2.inorder, 2 ≤ l.body.slotsinuse ∨ T.2.inorder = [.inr l]
  most : ∀ l ∈ (tips T.2.inorder).dropLast, l.body.slotsinuse < 4
  last : ∀ a ∈ ((tips T.2.inorder).map Tip.addr).getLast?, t.view.links.nxt a = none
  count : t.totalkeycount < 4294967296

/-- The key `k` has been put behind all others. -/
structure Extension (P : Template K D) (t t' : BTree K D) (k : K) (T T' : (n : Nat) × MTree K D n) :
    Prop where
  kept : Kept P t' T'
  keys : allKeys LeafSlots.keys T'.2.inorder = allKeys LeafSlots.keys T.2.inorder ++ [k]
  seps : ∀ z ∈ seps T'.2.inorder, z ∈ seps T.2.inorder ∨ z ∈ allKeys LeafSlots.keys T'.2.inorder
  chain : Chained t.view.links ((tips T.2.inorder).map Tip.addr) →
    Chained t'.view.links ((tips T'.2.inorder).map Tip.addr)
  count : t'.totalkeycount = (t.totalkeycount + 1) % 4294967296

/-- A tree with the key `k` only, the chain and the count. -/
structure First (P : Template K D) (t' : BTree K D) (k : K) (T' : (n : Nat) × MTree K D n) : Prop
    where
  kept : Kept P t' T'
  keys : allKeys LeafSlots.keys T'.2.inorder = [k]
  seps : seps T'.2.inorder = []
  chain : Chained t'.view.links ((tips T'.2.inorder).map Tip.addr)
  count : t'.totalkeycount = 1

section Kept

variable {t t' : BTree K D} {T T' : (n : Nat) × MTree K D n} {c : MCtx K D 0} {a : Addr}
  {s s' : LeafSlots K D} {k : K}

theorem Kept.stocked (h : Kept P t T) : Stocked P t T :=
  ⟨h.rep, h.bushy, h.least, h.most, h.last, h.count⟩

theorem Kept.fullLast (hP : P.Four) (h : Kept P t T) : FullLast P t.view T.2.inorder :=
  h.stocked.fullLast hP

/-- The leaves beside the one in the hole. -/
theorem Kept.beside (h : Kept P t (c.fill (.leaf a s))) (hc : c.Paired) :
    (∀ l ∈ tips c.left, 2 ≤ l.body.slotsinuse ∧ l.body.slotsinuse < 4) ∧
      ∀ l ∈ tips c.right, 2 ≤ l.body.slotsinuse :=
  h.stocked.beside hc

theorem Kept.leaf (h : Kept P t (c.fill (.leaf a s))) :
    t.view.body a = some (.leaf s) ∧ LeafOK P s :=
  h.rep.leaf_hole

/-- The leaf with one pair less, before it is balanced. -/
theorem Kept.lessened (h : Kept P t (c.fill (.leaf a s))) (hc : c.Paired)
    (hsub : s'.keys.Sublist s.keys) :
    SearchOrder LeafSlots.keys (c.fill (.leaf a s')).2.inorder := by
  have ho := h.order
  rw [Ctx.inorder_fill_leaf hc] at ho ⊢
  exact ho.shrink hsub

/-- The search tree that a removal leaves behind. -/
theorem Kept.removal (hP : P.Four) (h : Kept P t (c.fill (.leaf a s))) (hc : c.Paired)
    (hr : Removal P t t' c a s s' T') : Kept P t' T' := by
  have ho := h.lessened hc hr.sub
  rw [Ctx.inorder_fill_leaf hc] at ho
  obtain ⟨hrep, hbushy, hleast, hmost, hlast, hcount⟩ := h.stocked.removal hP hc hr
  exact ⟨hrep, (h.stocked.evened hP hc hr).searchOrder (by decide) ho, hbushy, hleast, hmost, hlast,
    hcount⟩

/-- A removal that loses no key takes its own from the sequence. -/
theorem Kept.removal_keys (hP : P.Four) (h : Kept P t (c.fill (.leaf a s))) (hc : c.Paired)
    (hr : Removal P t t' c a s s' T') (hks : k ∈ s.keys) (hkeys : s'.keys = s.keys.erase k)
    (hlost : ¬c.Loses s') : allKeys LeafSlots.keys T'.2.inorder =
      (allKeys LeafSlots.keys (c.fill (.leaf a s)).2.inorder).erase k := by
  have hsort := h.order.keys_sorted
  rw [Ctx.inorder_fill_leaf hc] at hsort ⊢
  rw [(h.stocked.evened hP hc hr).allKeys_eq hlost]
  simp only [allKeys_append, allKeys_inr] at hsort ⊢
  change (_ ++ (s.keys ++ _)).Pairwise _ at hsort
  -- the keys in front are smaller
  have hnot : k ∉ allKeys LeafSlots.keys c.left := fun hm =>
    absurd ((List.pairwise_append.mp hsort).2.2 k hm k (List.mem_append_left _ hks)) (lt_irrefl k)
  rw [hkeys, List.erase_append_right _ hnot, List.erase_append_left _ hks]

variable [DecidableEq D]

omit [DecidableEq D] in
/-- A leaf that has lost a pair is guided to its place. -/
theorem Kept.guides (h : Kept P t (c.fill (.leaf a s))) (hc : c.Paired)
    (hsub : s'.keys.Sublist s.keys) (hbeyond : ∀ y ∈ s'.beyond, y ∈ s.keys) : c.Guides P s' := by
  have hin := Ctx.inorder_fill_leaf hc (Tree.leaf (K := K) a s)
  refine (h.lessened hc hsub).guides hc fun y hy z hz => ?_
  exact ((searchOrder_leaf.mp (hin ▸ h.order)).2.2 y (hbeyond y hy)).lt_seps z hz

/-- The balancing of a leaf that has lost a pair succeeds. -/
theorem Kept.balance (hP : P.Four) (h : Kept P t (c.fill (.leaf a s))) (hc : c.Paired)
    (hok : LeafOK P s') (hsub : s'.keys.Sublist s.keys) (hless : s'.slotsinuse + 1 = s.slotsinuse)
    (hbeyond : ∀ y ∈ s'.beyond, y ∈ s.keys) (hrec : s.slotsinuse = 2 → c.Recovers P)
    {t₁ : BTree K D} (hview : t₁.view = { t.view.setBody a (.leaf s') with
      count := (t.totalkeycount + 4294967295) % 4294967296 }) :
    ∃ t' T', t₁.balanceTree P a = .ok t' ∧ Removal P t t' c a s s' T' :=
  h.stocked.balance hP hc hok hsub hless (fun _ => h.guides hc hsub hbeyond) hrec hview

/-! ## Inserts behind all keys -/

omit [DecidableEq D] in
/-- A key greater than all keys and separators is routed to the last leaf. -/
theorem Kept.route (h : Kept P t T) (hkeys : ∀ x ∈ allKeys LeafSlots.keys T.2.inorder, x < k)
    (hseps : ∀ z ∈ seps T.2.inorder, z < k) :
    ∃ (c : MCtx K D 0) (a : Addr) (s : LeafSlots K D), T = c.fill (.leaf a s) ∧ c.Paired ∧
      c.Routes k ∧ c.right = [] ∧ t.view.links.nxt a = none ∧ ∀ x ∈ s.keys, x < k := by
  obtain ⟨c, ⟨a, s⟩, rfl, hc, hr⟩ := Ctx.exists_tip k T h.rep.paired
  have hin := Ctx.inorder_fill_leaf hc (Tree.leaf (K := K) a s)
  have ho := h.order
  change SearchOrder LeafSlots.keys (c.fill (.leaf a s)).2.inorder at ho
  rw [Ctx.inorder_fill hc] at ho
  have hright : c.right = [] := by
    rcases right_starts hc with hnil | ⟨z, J, hz⟩
    · exact hnil
    · -- the next separator is smaller
      have hlt : k < z := Ctx.Routes.lt_seps hc hr ho z (by simp [hz])
      exact absurd (hseps z (by rw [hin, hz]; simp)) (lt_asymm hlt)
  have hlast := h.last
  rw [hin, hright] at hlast
  rw [hin] at hkeys
  exact ⟨c, a, s, rfl, hc, hr, hright, hlast a (by simp), fun x hx => hkeys x (by simp [hx])⟩

theorem Kept.push_room (h : Kept P t (c.fill (.leaf a s))) (hc : c.Paired) (hr : c.Routes k)
    (hright : c.right = []) (hnext : t.view.links.nxt a = none) (hlt : ∀ x ∈ s.keys, x < k)
    (hroom : s.slotsinuse < P.leafnodemax) (d : D) :
    ∃ t' T', t.insert P k d = .ok (1, t') ∧ Extension P t t' k (c.fill (.leaf a s)) T' := by
  obtain ⟨t', s', r, e, hs', v'⟩ := insert_last_room (d := d) h.rep hc hr hnext hlt hroom
  have hin := Ctx.inorder_fill_leaf hc (Tree.leaf (K := K) a s)
  have hin' := Ctx.inorder_fill_leaf hc (Tree.leaf (K := K) a s')
  rw [hright] at hin hin'
  have hs := h.leaf.2.leafIs
  have hkeys : s'.keys = s.keys ++ [k] := by
    rw [hs'.keys_eq, hs.keys_eq]
    simp
  have hmore : s'.slotsinuse = s.slotsinuse + 1 := by
    rw [hs'.inuse, hs.inuse]
    simp
  have hcount : t'.totalkeycount = (t.totalkeycount + 1) % 4294967296 := by
    rw [← BTree.count_view, v']
    rfl
  have hgrow := h.stocked.grow_room hc hright hs'.ok (hmore ▸ Nat.le_succ _) v'
  refine ⟨t', c.fill (.leaf a s'), e, ⟨⟨hgrow.rep, ?_, hgrow.bushy, hgrow.least, hgrow.most,
    hgrow.last, hgrow.count⟩, ?_, fun z hz => ?_, fun hch => ?_, hcount⟩⟩
  · have ho := h.order
    have hfit' := Ctx.Routes.fits (t := .leaf a s) hc hr (by
      rw [← Ctx.inorder_fill hc]
      exact h.order)
    rw [hright] at hfit'
    rw [hin] at ho
    obtain ⟨hoI, hsort, hfit⟩ := searchOrder_leaf.mp ho
    rw [hin']
    refine searchOrder_leaf.mpr ⟨hoI, ?_, ?_⟩
    · exact hkeys ▸ pairwise_push hlt hsort
    · intro x hx
      replace hx : x ∈ s'.keys := hx
      rw [hkeys] at hx
      rcases List.mem_append.mp hx with hx | hx
      · exact hfit x hx
      · obtain rfl : x = k := by simpa using hx
        exact hfit'
  · rw [hin, hin']
    simp only [allKeys_append, allKeys_inr, allKeys_nil, hkeys, List.append_assoc, List.append_nil]
  · rw [hin'] at hz
    rw [hin]
    exact .inl (by simpa using hz)
  · rw [hin] at hch
    rw [hin', v']
    simpa using hch

theorem Kept.push_split (hP : P.Four) (h : Kept P t (c.fill (.leaf a s))) (hc : c.Paired)
    (hr : c.Routes k) (hright : c.right = []) (hnext : t.view.links.nxt a = none)
    (hlt : ∀ x ∈ s.keys, x < k) (hfull : s.slotsinuse = P.leafnodemax) (d : D) :
    ∃ t' T', t.insert P k d = .ok (1, t') ∧ Extension P t t' k (c.fill (.leaf a s)) T' := by
  obtain ⟨t', sln, slp, e, e1, hp⟩ := insert_last_split (d := d) (by rw [hP.innernodemax]; decide)
    (Ctx.growable_of_three (by rw [hP.innernodemax]; decide) c)
    (hP.leafnodemax.trans hP.innernodemax.symm) h.rep hc hr hright h.order hnext hlt hfull
  have hin := Ctx.inorder_fill_leaf hc (Tree.leaf (K := K) a s)
  rw [hright] at hin
  obtain ⟨-, hgrow⟩ := h.stocked.grow_split hP hc hright hfull hp.toDivided
  have hcount : t'.totalkeycount = (t.totalkeycount + 1) % 4294967296 := hp.done.count
  have hseq := hp.seq
  refine ⟨t', _, e1, ⟨⟨hgrow.rep, hseq ▸ hp.order, hgrow.bushy, hgrow.least, hgrow.most, hgrow.last,
    hgrow.count⟩, ?_, fun z hz => ?_, fun hch => ?_, hcount⟩⟩
  · rw [hseq, hin]
    simp only [allKeys_append, allKeys_inr, allKeys_inl, allKeys_nil, List.append_nil,
      hp.keys_eq h.leaf.2, List.append_assoc]
  · have hup : e.1 ∈ slp.keys := by
      rw [hp.upper.keys_eq]
      exact List.mem_map_of_mem (List.mem_of_mem_head? hp.up)
    rw [hseq] at hz ⊢
    rw [hin]
    simp only [seps_append, seps_inr, seps_inl, seps_nil, List.mem_append, List.mem_singleton] at hz
    rcases hz with hz | rfl
    · exact .inl (by simp [hz])
    · exact .inr (by simp [hup])
  · rw [hin] at hch
    rw [hseq]
    simpa using hp.chained hc h.rep hright (by simpa using hch)

/-- The insert of a key greater than all others. -/
theorem Kept.push (hP : P.Four) (h : Kept P t T)
    (hkeys : ∀ x ∈ allKeys LeafSlots.keys T.2.inorder, x < k)
    (hseps : ∀ z ∈ seps T.2.inorder, z < k)
    (d : D) : ∃ t' T', t.insert P k d = .ok (1, t') ∧ Extension P t t' k T T' := by
  obtain ⟨c, a, s, rfl, hc, hr, hright, hnext, hlt⟩ := h.route hkeys hseps
  rcases Nat.lt_or_ge s.slotsinuse P.leafnodemax with hroom | hfull
  · exact h.push_room hc hr hright hnext hlt hroom d
  · exact h.push_split hP hc hr hright hnext hlt (le_antisymm h.leaf.2.inuse hfull) d

/-- The first insert. -/
theorem kept_first (hcap : 0 < P.leafnodemax) (hroot : t.root = none) (hzero : t.totalkeycount = 0)
    (k : K) (d : D) : ∃ t' T', t.insert P k d = .ok (1, t') ∧ First P t' k T' := by
  obtain ⟨t', s, e, hkeys, hs, hlinks, hcount⟩ := stocked_first hcap hroot hzero k d
  have hchain : Chained t'.view.links [t.nodes.size] := by
    obtain ⟨hn, hp⟩ := BTree.links_new (t := t) (le_refl t.nodes.size)
    refine ⟨by simp, fun a ha => ?_, fun a ha => ?_⟩
    · obtain rfl : a = t.nodes.size := by simpa [eq_comm] using ha
      rw [hlinks, hp]
    · obtain rfl : a = t.nodes.size := by simpa [eq_comm] using ha
      rw [hlinks, hn]
  refine ⟨t', ⟨0, .leaf t.nodes.size s⟩, e, ⟨hs.rep, ?_, hs.bushy, hs.least, hs.most, hs.last,
    hs.count⟩, by simp [hkeys], rfl, hchain, hcount⟩
  refine (searchOrder_leaf (I := []) (J := [])).mpr ⟨⟨by simp, by simp⟩, ?_, fun x _ =>
    ⟨by simp, by simp, by simp, by simp⟩⟩
  show s.keys.Pairwise (· < ·)
  rw [hkeys]
  simp

end Kept

end NwtBTree
