import NwtBTree.Refine.Pop
import NwtBTree.Runs.Merging
import NwtBTree.Runs.Payloads

/-!
# Deleting a named pair

`delete_pair` looks at the key only, reads the slot `-1` of a leaf whose keys are all
smaller, and leaves the payload slots of the right sibling as they are when a pair is
merged in front of its pairs.
-/

namespace NwtBTree

variable {K D : Type} [LinearOrder K] {P : Template K D} {t : BTree K D}
  {T : (n : Nat) × MTree K D n}
  {I : List (Item Addr K (LeafSlots K D))} {l : Tip Addr (LeafSlots K D)} {c : MCtx K D 0}
  {a : Addr}
  {s : LeafSlots K D}

section Slots

variable {s' sq : LeafSlots K D} {e : K × D} {r rq : List K} {eq : List (K × D)}

omit [LinearOrder K] in
theorem LeafIs.zip_data {es : List (K × D)} (h : LeafIs P s es r) :
    (es.map Prod.fst).zip s.dataSlots = es := by
  obtain ⟨ds, hds⟩ := h.data
  calc (es.map Prod.fst).zip s.dataSlots
      = (es.map Prod.fst ++ []).zip (es.map Prod.snd ++ ds) := by rw [hds, List.append_nil]
    _ = (es.map Prod.fst).zip (es.map Prod.snd) ++ [].zip ds := List.zip_append (by simp)
    _ = es := by
      rw [List.zip_nil_left, List.append_nil]
      exact (List.zip_of_prod rfl rfl).symm

omit [LinearOrder K] in
/-- Putting a pair in front moves the keys but not the payloads. -/
theorem LeafIs.pushed {es' : List (K × D)} {r' : List K} {sq' : LeafSlots K D}
    (h : LeafIs P sq eq rq)
    (h' : LeafIs P sq' es' r') (hfst : es'.map Prod.fst = e.1 :: eq.map Prod.fst)
    (hds : sq'.dataSlots = sq.dataSlots.set 0 e.2) (hpos : 0 < P.leafnodemax) :
    es' = e :: sq.keys.zip sq.dataSlots.tail := by
  obtain ⟨z, zs, hz⟩ := List.exists_cons_of_length_pos (h.dataCap ▸ hpos)
  rw [← h'.zip_data, hfst, hds, hz, h.keys_eq]
  rfl

variable [DecidableEq D] {up : MCtx K D 1} {b q : Addr} {sep : K} {ksR : List K}
  {csR : List (MTree K D 0)} {t' : BTree K D}

theorem mergedNext_data (hP : P.Four)
    (h : Rep P t.view ((Ctx.frame up b [] [] (sep :: ksR) (.leaf q sq :: csR)).fill (.leaf a s)).2)
    (hc : (Ctx.frame up b [] [] (sep :: ksR) (.leaf q sq :: csR)).Paired)
    (ho : SearchOrder LeafSlots.keys
      ((Ctx.frame up b [] [] (sep :: ksR) (.leaf q sq :: csR)).fill (.leaf a s)).2.inorder)
    (hs : LeafIs P s [e] r) (hsq : LeafIs P sq eq rq) (hne : eq ≠ []) (hroom : eq.length < 3)
    (he : t.balanceTree P a = .ok t') :
    ∃ sq', t'.view.body q = some (.leaf sq') ∧ sq'.dataSlots = sq.dataSlots.set 0 e.2 := by
  have ha : t.view.body a = some (.leaf s) := h.leaf_hole.1
  have hq : t.view.body q = some (.leaf sq) := h.leaf_next.1
  have hr : (Ctx.frame up b [] [] (sep :: ksR) (.leaf q sq :: csR)).Routes e.1 :=
    ho.routes hc (by simp [hs.keys_eq])
  have hloc := (leaf_loc h hc hs.head_key hr.here).2.1
  have hjoin := h.joined_next
  obtain ⟨x, eq, rfl⟩ := List.exists_cons_of_ne_nil hne
  have hex : e.1 < x.1 := by
    have hkeys := ho.keys_next hc
    rw [hsq.keys_eq, hs.keys_eq] at hkeys
    exact (List.pairwise_append.mp hkeys).2.2 e.1 (by simp) x.1 (by simp)
  have hmax := hP.leafnodemax
  obtain ⟨t₁, sq', es', e₁, hsq', -, hds, v₁⟩ := insertLeafPair_first (d := e.2) hq hsq (by omega)
    (by simpa using hex.le) (by simpa [hsq.head_key] using hex.ne')
  have hin := hsq.inuse
  rw [balanceTree_next ha hloc (by rw [hs.inuse, hP.leafnodemin]; simp) hjoin.1 hq, hs.inuse, hmax,
    if_pos (by simp at hin hroom ⊢; omega)] at he
  exact ⟨sq', mergeLeafIntoNext_keeps h hc hs.head_key hr (ho.frame_seps hc)
    (hs.inuse ▸ moveAll_one ha hs e₁) v₁ hsq'.ok he, hds⟩

end Slots

variable [DecidableEq D]

/-- `delete_pair` fails only where it should, and a merge takes all pairs over as they are. -/
def BTree.deletesCleanly (P : Template K D) (t : BTree K D) (k : K) (d : D) : Except Fault
    Bool := do
  match ← t.find P k with
  | none => return true
  | some a =>
    let l ← t.leaf a
    if k ∉ l.keys then return decide (l.keys = [] ∨ ∃ x ∈ l.keys, k ≤ x)
    if (k, d) ∉ l.entries then return false
    match ← t.shortfall P k with
    | none => return true
    | some u =>
      if ← t.borrows P u then return true
      let q ← t.leaf u.sibling
      -- a pair that is put in front of the others moves their keys, not their payloads
      return (← t.residueDiffers k u) && decide (u.place = 0 →
        q.keys.zip q.dataSlots.tail = q.entries)

section Stored

variable {as bs : List (K × D)} {e : K × D} {r : List K}

theorem Loaded.deletePair_stored (hP : P.Four) (h : Loaded P t (c.fill (.leaf a s)) I l)
    (hc : c.Paired) (hfind : t.find P e.1 = .ok (some a)) (hs : LeafIs P s (as ++ e :: bs) r)
    (hlt : ∀ x ∈ as, x.1 < e.1) (herase : (as ++ bs).map Prod.fst = s.keys.erase e.1) :
    ∃ (i : Nat) (t' : BTree K D) (T' : (m : Nat) × MTree K D m),
      t.deletePair P e.1 e.2 = .ok ((i : Int), t') ∧ Kept P t' T' ∧
      (pairs T'.2.inorder = pairs c.left ++ (as ++ bs) ++ pairs c.right ↔
        t.deletesCleanly P e.1 e.2 = .ok true) := by
  have hkept := h.kept hP
  have ha : t.view.body a = some (.leaf s) := hkept.leaf.1
  obtain ⟨t₁, t', s', y, T', e₁, hs', hy, v₁, e₂, hr⟩ :=
    hkept.deletePair_key hP hc hfind hs hlt (fun _ => h.recovers hc) e.2
  refine ⟨as.length, t', T', e₁, hkept.removal hP hc hr, ?_⟩
  have hk : e.1 ∈ s.keys := by
    rw [hs.keys_eq]
    simp
  have he : e ∈ s.entries := by
    rw [hs.entries_eq]
    simp
  have hmin := hP.leafnodemin
  have hless := hr.less
  simp only [BTree.deletesCleanly, hfind, ok_bind, BTree.leaf_eq ha, not_true, hk, he, if_false]
  have heven := hr.even
  cases heven with
  | kept hsize hv hrep =>
    rw [shortfall_spared ha hfind]
    · refine iff_of_true ?_ rfl
      rw [Ctx.inorder_fill_leaf hc, pairs_append, pairs_inr, hs'.entries_eq]
      simp only [List.append_assoc]
    · rcases hsize with hsize | rfl
      · right
        omega
      · exact .inl (h.rep.flag_leaf.mpr rfl)
  | @mergedPrev up b p sp sp' sep kL ksR r rp rp' cL csR e' ep ep' T hs₁ hsp hroom hsp' hep'
    hT hrep =>
    have hone : as ++ bs = [e'] := hs'.entries_eq.symm.trans hs₁.entries_eq
    have hin := hs₁.inuse
    have hinp := hsp.inuse
    rw [List.length_singleton] at hin
    have hp := h.rep.leaf_prev.1
    have hfew : ¬P.leafnodemax ≤ sp.slotsinuse + (s.slotsinuse - 1) := by
      rw [hP.leafnodemax]
      omega
    rw [shortfall_left h.rep hfind (by omega), settled_prev hc hT, left_prev hc]
    simp only [BTree.borrows, BTree.residueDiffers, BTree.leaf_eq ha, BTree.leaf_eq hp, ok_bind,
      decide_eq_false hfew, ← herase, hone]
    simp only [pairs_append, pairs_inr, pairs_inl, pairs_nil, List.append_nil, hsp.entries_eq,
      hsp'.entries_eq]
    rcases hep' with ⟨hbeyond, rfl⟩ | ⟨hbeyond, rfl⟩
    · -- the pair has been taken for a duplicate of itself
      refine iff_of_false (fun heq => ?_) (by simp [hbeyond])
      have := congrArg List.length heq
      simp only [List.length_append, List.length_singleton] at this
      omega
    · refine iff_of_true ?_ (by simp [hbeyond])
      simp only [List.append_assoc]
  | @borrowedPrev up b p sp s' sp' sep kL ksR r r' rp rp' cL csR e' x es' ep hs₁ hsp hmany hs₂ hes'
    hsp' hrep =>
    have htwo := h.left_two hP hc ⟨p, sp⟩ (by rw [left_prev hc]; simp)
    change sp.slotsinuse = 2 at htwo
    have hin := hsp.inuse
    simp only [List.length_append, List.length_singleton] at hin htwo
    omega
  | @mergedNext up b q sq sq' sep ksR r rq rq' csR e' eq eq' T hs₁ hsq hroom hsq' heq' hT hrep =>
    have hone : as ++ bs = [e'] := hs'.entries_eq.symm.trans hs₁.entries_eq
    have hin := hs₁.inuse
    have hinq := hsq.inuse
    rw [List.length_singleton] at hin
    have hq := h.rep.leaf_next.1
    have hfew : ¬P.leafnodemax ≤ sq.slotsinuse + (s.slotsinuse - 1) := by
      rw [hP.leafnodemax]
      omega
    rw [shortfall_right h.rep hfind (by omega), settled_next hc hT]
    simp only [BTree.borrows, BTree.residueDiffers, BTree.leaf_eq ha, BTree.leaf_eq hq, ok_bind,
      decide_eq_false hfew, hone]
    -- the slots of the sibling after the merge
    have ho₁ := hkept.lessened hc hr.sub
    have hrep₁ := hkept.stocked.lessened hc hr.ok
      (n := (t.totalkeycount + 4294967295) % 4294967296)
    rw [← v₁] at hrep₁
    have hne : eq ≠ [] := by
      have hleast := (hkept.beside hc).2 ⟨q, sq⟩ (by simp [Tree.inorder])
      change 2 ≤ sq.slotsinuse at hleast
      rintro rfl
      rw [List.length_nil] at hinq
      omega
    obtain ⟨sq₂, hbody, hds⟩ := mergedNext_data hP hrep₁ hc ho₁ hs₁ hsq hne hroom e₂
    have hbody' : t'.view.body q = some (.leaf sq') := by
      refine (hrep.rep.holds.tip hrep.rep.paired (l := ⟨q, sq'⟩) ?_).1
      rw [settled_next hc hT]
      simp
    obtain rfl : sq' = sq₂ := by simpa [hbody'] using hbody
    have heq := hsq.pushed hsq' heq' hds (by rw [hP.leafnodemax]; decide)
    simp only [Ctx.left_frame, Ctx.right_frame, before_nil, List.append_nil, after_cons,
      pairs_append,
      pairs_inr, pairs_inl, hsq.entries_eq, hsq'.entries_eq, heq, Tree.inorder_leaf]
    simp
  | @borrowedNext up b q sq s' sq' ksR r r' rq rq' csR e' x z eq hs₁ hsq hmany hs₂ hsq' hrep =>
    have hone : as ++ bs = [e'] := hs'.entries_eq.symm.trans hs₁.entries_eq
    have hin := hs₁.inuse
    have hinq := hsq.inuse
    have hpos := List.length_pos_iff.mpr hmany
    simp only [List.length_cons, List.length_nil] at hin hinq
    have hq := h.rep.leaf_next.1
    have hc' : (Ctx.frame up b [] [] (z.1 :: ksR) (.leaf q sq' :: csR)).Paired := by
      obtain ⟨hL, hR, h0, hcL, -, hup⟩ := hc
      exact ⟨hL, hR, h0, hcL, fun c _ => trivial, hup⟩
    have hmuch : P.leafnodemax ≤ sq.slotsinuse + (s.slotsinuse - 1) := by
      rw [hP.leafnodemax]
      omega
    rw [shortfall_right h.rep hfind (by omega), Ctx.inorder_fill_leaf hc']
    simp only [BTree.borrows, BTree.leaf_eq ha, BTree.leaf_eq hq, ok_bind,
      decide_eq_true hmuch, hone]
    refine iff_of_true ?_ rfl
    simp only [Ctx.left_frame, Ctx.right_frame, before_nil, List.append_nil, after_cons,
      pairs_append,
      pairs_inr, pairs_inl, hs₂.entries_eq, hsq.entries_eq, hsq'.entries_eq, Tree.inorder_leaf]
    simp

end Stored

section Gets

variable {t' : BTree K D} {T' : (n : Nat) × MTree K D n} {e : K × D} {L R : List (K × D)}

omit [LinearOrder K] [DecidableEq D] in
theorem erase_between [BEq (K × D)] [LawfulBEq (K × D)] (hnd : ((L ++ e :: R).map Prod.fst).Nodup) :
    (L ++ e :: R).erase e = L ++ R := by
  have hnot : e ∉ L := by
    intro he
    rw [List.map_append, List.map_cons] at hnd
    exact (List.nodup_append'.mp hnd).2.2 (List.mem_map_of_mem he) List.mem_cons_self
  rw [List.erase_append_right _ hnot, List.erase_cons_head]

omit [DecidableEq D] in
/-- `get` once a pair has gone. -/
theorem Kept.get_removed (hP : P.Four) (h : Kept P t T) (h' : Kept P t' T')
    (hpairs : pairs T.2.inorder = L ++ e :: R) (hpairs' : pairs T'.2.inorder = L ++ R)
    (hnd : ((L ++ e :: R).map Prod.fst).Nodup) (x : K) :
    t'.get P x = if x = e.1 then .ok (P.emptyData, false) else t.get P x := by
  have hfull := h.fullLast hP
  have hfull' := h'.fullLast hP
  have hcons : ((e :: (L ++ R)).map Prod.fst).Nodup :=
    (List.perm_middle.map Prod.fst).nodup_iff.mp hnd
  have hnot : e.1 ∉ (L ++ R).map Prod.fst := (List.nodup_cons.mp hcons).1
  split
  · next hx =>
    rw [hx]
    exact get_not_mem h'.rep h'.order hfull' (hpairs' ▸ hnot)
  · next hx =>
    by_cases hmem : x ∈ (L ++ R).map Prod.fst
    · obtain ⟨p, hp, rfl⟩ := List.mem_map.mp hmem
      rw [get_mem h'.rep h'.order hfull' (hpairs' ▸ hp), get_mem h.rep h.order hfull]
      rw [hpairs, List.perm_middle.mem_iff]
      exact List.mem_cons_of_mem _ hp
    · rw [get_not_mem h'.rep h'.order hfull' (hpairs' ▸ hmem), get_not_mem h.rep h.order hfull]
      rw [hpairs, (List.perm_middle.map Prod.fst).mem_iff, List.map_cons, List.mem_cons, not_or]
      exact ⟨hx, hmem⟩

end Gets

/-- The pair `(k, d)` goes, and no other, if it is stored, and nothing happens if it is not. -/
def DeletesNamed (P : Template K D) (es : List (K × D)) (t : BTree K D) (k : K) (d : D) : Prop :=
  ((k, d) ∈ es → ∃ i t', t.deletePair P k d = .ok (i, t') ∧ 0 ≤ i ∧
    t'.content = .ok (es.erase (k, d)) ∧
    ∀ x, t'.get P x = if x = k then .ok (P.emptyData, false) else t.get P x) ∧
  ((k, d) ∉ es → t.deletePair P k d = .ok (-1, t))

/-- In a loaded tree, `delete_pair` deletes the named pair exactly if it is stored and what becomes
of its leaf is clean, or if its key is not stored and not greater than all keys of the leaf. -/
theorem deletes_named (hinner : P.nodeslots = 4) (hleaf : P.leafslots = 4) {es : List (K × D)}
    (hasc : es.Pairwise (fun a b => a.1 < b.1)) {rs : List Int} {t : BTree K D}
    (hrun : run (BTree.insertStep P) BTree.init es = .ok (rs, t)) (k : K) (d : D) :
    DeletesNamed P es t k d ↔ t.deletesCleanly P k d = .ok true := by
  have hP : P.Four := ⟨hinner, hleaf⟩
  by_cases hne : es = []
  · subst hne
    obtain ⟨rfl, rfl⟩ := Prod.mk.inj (Except.ok.inj hrun)
    exact iff_of_true ⟨by simp, fun _ => rfl⟩ rfl
  have hin4 := hP.innernodemax
  have hlf4 := hP.leafnodemax
  obtain ⟨t₀, T, I, l₀, e₀, h, rfl, -, -⟩ := load_spec (P := P) (by omega) (by omega) hne hasc
  obtain ⟨-, rfl⟩ := Prod.mk.inj (Except.ok.inj (e₀.symm.trans hrun))
  have hkept := h.kept hP
  obtain ⟨c, ⟨a, s⟩, rfl, hc, -, hfind, hmem⟩ := find_tip hkept.rep hkept.order
    (hkept.fullLast hP) k
  change Loaded P t₀ (c.fill (.leaf a s)) I l₀ at h
  change Kept P t₀ (c.fill (.leaf a s)) at hkept
  change t₀.find P k = .ok (some a) at hfind
  change DeletesNamed P (pairs (c.fill (.leaf a s)).2.inorder) t₀ k d ↔ _
  have ha := hkept.leaf.1
  have hin : pairs (c.fill (.leaf a s)).2.inorder = pairs c.left ++
    (s.entries ++ pairs c.right) := by
    rw [Ctx.inorder_fill_leaf hc, pairs_append, pairs_inr]
  by_cases hk : k ∈ s.keys
  · obtain ⟨as, e, bs, r, rfl, hs, hlt, herase⟩ := hkept.leaf.2.split_entries
      (hkept.keys_sorted hc) hk
    have hpairs : pairs (c.fill (.leaf a s)).2.inorder =
        (pairs c.left ++ as) ++ e :: (bs ++ pairs c.right) := by
      rw [hin, hs.entries_eq]
      simp only [List.append_assoc, List.cons_append]
    have he : e ∈ pairs (c.fill (.leaf a s)).2.inorder := by
      rw [hpairs]
      exact List.mem_append_right _ List.mem_cons_self
    have hnd : ((pairs (c.fill (.leaf a s)).2.inorder).map Prod.fst).Nodup := by
      rw [← hkept.rep.allKeys_eq]
      exact hkept.order.keys_sorted.imp fun h => ne_of_lt h
    by_cases hd : d = e.2
    · subst hd
      obtain ⟨i, t', T', e₁, hkept', hiff⟩ := h.deletePair_stored hP hc hfind hs hlt herase
      have hgone : (pairs (c.fill (.leaf a s)).2.inorder).erase e =
          pairs c.left ++ (as ++ bs) ++ pairs c.right := by
        rw [hpairs, erase_between (hpairs ▸ hnd)]
        simp only [List.append_assoc]
      rw [← hiff, ← hgone]
      constructor
      · rintro ⟨hstored, -⟩
        obtain ⟨j, t'', e₂, -, hcontent, -⟩ := hstored he
        obtain ⟨-, rfl⟩ := Prod.mk.inj (Except.ok.inj (e₁.symm.trans e₂))
        exact Except.ok.inj ((content_eq hkept'.rep).symm.trans hcontent)
      · intro hpairs'
        refine ⟨fun _ => ⟨i, t', e₁, Int.natCast_nonneg i, ?_, ?_⟩, fun hnot => absurd he hnot⟩
        · rw [content_eq hkept'.rep, hpairs']
        · rw [hpairs, erase_between (hpairs ▸ hnd)] at hpairs'
          exact hkept.get_removed hP hkept' hpairs hpairs' (hpairs ▸ hnd)
    · -- the payload is not looked at
      have hnot : (e.1, d) ∉ pairs (c.fill (.leaf a s)).2.inorder := fun hm =>
        hd (congrArg Prod.snd (pair_unique hkept.rep hkept.order hm he rfl))
      have hnot' : (e.1, d) ∉ s.entries := fun hm => hnot (by rw [hin]; simp [hm])
      obtain ⟨t₁, t', s', y, T', e₁, -⟩ :=
        hkept.deletePair_key hP hc hfind hs hlt (fun _ => h.recovers hc) d
      simp only [BTree.deletesCleanly, hfind, ok_bind, BTree.leaf_eq ha, hk, not_true,
        if_false, hnot',
        not_false_eq_true, if_true]
      refine iff_of_false (fun hnamed => ?_) (by simp)
      have := e₁.symm.trans (hnamed.2 hnot)
      simp at this
  · have hs := hkept.leaf.2.leafIs
    have hnot : (k, d) ∉ pairs (c.fill (.leaf a s)).2.inorder := fun hm =>
      hk (LeafSlots.mem_keys (hmem _ hm rfl))
    simp only [BTree.deletesCleanly, hfind, ok_bind, BTree.leaf_eq ha, hk, not_false_eq_true,
      if_true]
    by_cases hlower : s.keys = [] ∨ ∃ x ∈ s.keys, k ≤ x
    · exact iff_of_true ⟨fun hm => absurd hm hnot,
        fun _ => hkept.deletePair_miss hc hfind hk hlower d⟩
        (congrArg Except.ok (decide_eq_true hlower))
    · refine iff_of_false (fun hnamed => ?_) fun heq =>
        hlower (of_decide_eq_true (Except.ok.inj heq))
      obtain ⟨hnil, hbelow⟩ := not_or.mp hlower
      rw [hs.keys_eq, List.map_eq_nil_iff] at hnil
      have hfault := deleteLeafPair_above ha hs hnil (k := k) (fun x hx => by
        by_contra hle
        exact hbelow ⟨x.1, LeafSlots.mem_keys hx, not_lt.mp hle⟩) d
      have hmiss := hnamed.2 hnot
      simp only [BTree.deletePair, hfind, ok_bind, hfault] at hmiss
      cases hmiss

theorem deletes_named_seven : ∃ rs t, run (BTree.insertStep (Template.plain 4)) BTree.init
    [(1, 10), (2, 20), (3, 30), (4, 40), (5, 50), (6, 60), (7, 70)] = .ok (rs, t) ∧
      DeletesNamed (Template.plain 4)
        [(1, 10), (2, 20), (3, 30), (4, 40), (5, 50), (6, 60), (7, 70)] t 3 30 := by
  have h : (run (BTree.insertStep (Template.plain 4)) BTree.init
      [(1, 10), (2, 20), (3, 30), (4, 40), (5, 50), (6, 60), (7, 70)] >>= fun r =>
        r.2.deletesCleanly (Template.plain 4) 3 30) = .ok true := by
    decide +kernel
  obtain ⟨⟨rs, t⟩, hrun, h⟩ := bind_eq_ok.mp h
  exact ⟨rs, t, hrun, (deletes_named rfl rfl (by decide) hrun 3 30).mpr h⟩

/-- The pair `(1, 10)` goes where `(1, 99)` is named. -/
theorem not_deletes_named : ∃ rs t, run (BTree.insertStep (Template.plain 4)) BTree.init
    [(1, 10)] = .ok (rs, t) ∧ ¬DeletesNamed (Template.plain 4) [(1, 10)] t 1 99 := by
  have h : (run (BTree.insertStep (Template.plain 4)) BTree.init [(1, 10)] >>= fun r => do
      let r' ← r.2.deletePair (Template.plain 4) 1 99
      return r'.1) = .ok 0 := by
    decide +kernel
  obtain ⟨⟨rs, t⟩, hrun, h⟩ := bind_eq_ok.mp h
  obtain ⟨⟨i, t'⟩, hdel, h⟩ := bind_eq_ok.mp h
  refine ⟨rs, t, hrun, fun hnamed => ?_⟩
  have hmiss := hnamed.2 (by decide)
  rw [hmiss] at hdel
  cases hdel
  cases h

end NwtBTree
