import NwtBTree.Refine.Census
import NwtBTree.Refine.Content
import NwtBTree.Refine.Tidy
import NwtBTree.Runs.Mixed

/-!
# The leaves of the heap are those of the tree

A leaf is allocated by the first insert and by each split, and freed by the split that
replaces it and by the removal that joins it with a neighbour. In runs that keep the search
tree nothing is lost on the way: every leaf that was not freed is under the root, once.
-/

namespace NwtBTree

variable {K D : Type} {P : Template K D}

/-- The leaves that are not freed are the ones under the root, each of which is there once. -/
def BTree.OwnsLeaves (t : BTree K D) : Prop :=
  match t.root with
  | none => ∀ a l, t.leaf a ≠ .ok l
  | some r => ∃ ls, t.leavesUnder t.fuel r = .ok ls ∧ (ls.map Tip.addr).Nodup ∧
      ∀ a, (∃ l, t.leaf a = .ok l) ↔ a ∈ ls.map Tip.addr

/-- Every leaf is one of the tree. -/
def View.Owned (v : View K D) (T : (n : Nat) × MTree K D n) : Prop :=
  ∀ a, v.HasLeaf a → a ∈ (tips T.2.inorder).map Tip.addr

section Owns

variable {t t' : BTree K D} {T T' : (n : Nat) × MTree K D n} {a : Addr}

theorem hasLeaf_iff : t.view.HasLeaf a ↔ ∃ l, t.leaf a = .ok l :=
  ⟨fun ⟨_, hs⟩ => ⟨_, BTree.leaf_eq hs⟩, fun ⟨_, hl⟩ => ⟨_, (BTree.body_of_leaf hl).1⟩⟩

theorem Rep.hasLeaf (h : Rep P t.view T.2) (ha : a ∈ (tips T.2.inorder).map Tip.addr) :
    t.view.HasLeaf a := by
  obtain ⟨l, hl, rfl⟩ := List.mem_map.mp ha
  exact ⟨_, (h.holds.tip h.paired hl).1⟩

theorem Rep.ownsLeaves_iff (h : Rep P t.view T.2) : t.OwnsLeaves ↔ t.view.Owned T := by
  have hroot : t.root = some T.2.addr := h.root
  have hls := BTree.leavesUnder_eq h.holds h.paired h.height_lt
  rw [BTree.OwnsLeaves, hroot]
  constructor
  · rintro ⟨ls, hls', -, hown⟩ a ha
    cases hls.symm.trans hls'
    exact (hown a).mp (hasLeaf_iff.mp ha)
  · intro hown
    refine ⟨_, hls, (Tree.tips_sublist h.paired).nodup h.nodup, fun a => ?_⟩
    exact ⟨fun ha => hown a (hasLeaf_iff.mpr ha), fun ha => hasLeaf_iff.mp (h.hasLeaf ha)⟩

theorem ownsLeaves_none (hroot : t.root = none) : t.OwnsLeaves ↔ ∀ a, ¬t.view.HasLeaf a := by
  rw [BTree.OwnsLeaves, hroot]
  simp only [hasLeaf_iff, not_exists, ne_eq]

end Owns

/-! ## Inserts -/

section Insert

variable [LinearOrder K] {t t' : BTree K D} {T : (n : Nat) × MTree K D n} {a b : Addr} {k : K}
  {d : D} {i : Int}

omit [LinearOrder K] in
theorem hasLeaf_newLeaf (h : (t.newLeaf P).view.HasLeaf b) :
    t.view.HasLeaf b ∨ b = t.nodes.size := by
  obtain ⟨s, hs⟩ := h
  rw [BTree.newLeaf_view, View.body_alloc] at hs
  split_ifs at hs with hb
  · exact .inr hb
  · exact .inl ⟨s, hs⟩

variable [DecidableEq D]

omit [DecidableEq D] in
/-- A split frees the full leaf. -/
theorem gone_splitLeaf : Ensures (t.splitLeaf P a k d) fun t' => ¬t'.view.HasLeaf a := by
  refine .bind fun l _ => .bind fun m _ => .bind fun m' _ => .bind fun r _ => .bind fun u _ => ?_
  exact .bind fun v _ => .bind fun _ _ => .bind fun w _ => .bind fun x _ => gone_freeNode

omit [DecidableEq D] in
/-- And puts two new ones in its place. -/
theorem fewer_splitLeaf : Ensures (t.splitLeaf P a k d) (Fewer ((t.newLeaf P).newLeaf P)) := by
  refine .bind fun l _ => .bind fun m _ => .bind fun m' _ => .bind fun r _ => ?_
  refine .trans (writes_setLeaf.mono fun _ h => h.fewer) fun u => ?_
  refine .trans (writes_setLeaf.mono fun _ h => h.fewer) fun v => .bind fun _ _ => ?_
  have hup : Fewer v v.upkeycount := (Fewer.refl v).recount
  refine .step ?_ hup
  refine .mono (Q := Frame v.upkeycount) ?_ fun _ h => h.fewer
  exact .trans BTree.frame_linkLeaves fun _ => .trans BTree.frame_insertInParent fun _ =>
    BTree.frame_freeNode

/-- A full leaf is left as it is. -/
theorem insertLeafPair_refused (e : t.insertLeafPair P a k d = .ok (-1, t')) : t' = t := by
  obtain ⟨l, -, e⟩ := bind_eq_ok.mp e
  split_ifs at e
  · cases e
    rfl
  · obtain ⟨loc, -, e⟩ := bind_eq_ok.mp e
    obtain ⟨dup, -, e⟩ := bind_eq_ok.mp e
    split_ifs at e
    · cases e
    · obtain ⟨s, -, e⟩ := bind_eq_ok.mp e
      obtain ⟨u, -, e⟩ := bind_eq_ok.mp e
      cases e

/-- The leaves after an insert. -/
theorem leaves_insert (hroot : t.root ≠ none) : Ensures (t.insert P k d) fun r => Fewer t r.2 ∨
    ∃ n, t.find P k = .ok (some n) ∧ ¬r.2.view.HasLeaf n ∧
      Fewer ((t.newLeaf P).newLeaf P) r.2 := by
  refine .ite (fun hnone => absurd (Option.isNone_iff_eq_none.mp hnone) hroot) fun _ => ?_
  refine .bind fun n hn => ?_
  cases n with
  | none => exact absurd hn (find_ne_none hroot)
  | some n =>
    refine .bind fun r hr => ?_
    obtain ⟨j, u⟩ := r
    have hu : t.insertLeafPair P n k d = .ok (j, u) := hr
    have hfew : Fewer t u := (writes_insertLeafPair _ hu).fewer
    refine .ite (fun _ => .pure (.inl hfew)) fun _ => .ite (fun hfull => ?_) fun _ =>
      .pure (.inl hfew.recount)
    obtain rfl := insertLeafPair_refused (hfull ▸ hu)
    refine .bind fun l _ => .ite (fun _ => ?_) fun _ => .pure (.inl hfew.recount)
    refine .bind fun v hv => .pure (.inr ⟨n, hn, ?_⟩)
    exact ⟨gone_splitLeaf v hv, fewer_splitLeaf v hv⟩

theorem owns_first (hP : P.Four) (hroot : t.root = none) (hzero : t.totalkeycount = 0)
    (hown : t.OwnsLeaves) (e : t.insert P k d = .ok (i, t')) : t'.OwnsLeaves := by
  obtain ⟨u, s, e', -, hs, -⟩ := stocked_first (d := d) (k := k)
    (by rw [hP.leafnodemax]; decide) hroot hzero
  cases e.symm.trans e'
  refine hs.rep.ownsLeaves_iff.mpr fun a ha => ?_
  have hmake : Ensures (t.makeRoot P k d) (Fewer (t.newLeaf P)) := by
    refine .trans (BTree.frame_setIsRoot.mono fun _ h => h.fewer) fun v => ?_
    exact .seq writes_insertLeafPair fun r hr => .pure ⟨hr.fewer.hasLeaf⟩
  rw [BTree.insert, hroot] at e
  obtain ⟨v, hv, e⟩ := bind_eq_ok.mp e
  cases e
  obtain hold | rfl := hasLeaf_newLeaf ((hmake v hv).hasLeaf a ha)
  · exact absurd hold ((ownsLeaves_none hroot).mp hown a)
  · simp

section Push

variable {c : MCtx K D 0} {s : LeafSlots K D}

/-- The last leaf grows. -/
theorem Kept.owns_room (h : Kept P t (c.fill (.leaf a s))) (hc : c.Paired) (hr : c.Routes k)
    (hright : c.right = []) (hnext : t.view.links.nxt a = none) (hlt : ∀ x ∈ s.keys, x < k)
    (hroom : s.slotsinuse < P.leafnodemax) (hown : t.view.Owned (c.fill (.leaf a s)))
    (e : t.insert P k d = .ok (i, t')) : t'.OwnsLeaves := by
  obtain ⟨u, s', r, e', hs', v'⟩ := insert_last_room (d := d) h.rep hc hr hnext hlt hroom
  cases e.symm.trans e'
  have hmore : s.slotsinuse ≤ s'.slotsinuse := by
    rw [hs'.inuse, h.leaf.2.leafIs.inuse]
    simp
  refine (h.stocked.grow_room hc hright hs'.ok hmore v').rep.ownsLeaves_iff.mpr fun b hb => ?_
  have hold : t.view.HasLeaf b := by
    obtain ⟨x, hx⟩ := hb
    rw [v', View.body_setBody] at hx
    split_ifs at hx with hba
    · exact ⟨s, hba ▸ h.leaf.1⟩
    · exact ⟨x, hx⟩
  have hmem := hown b hold
  rw [Ctx.inorder_fill_leaf hc] at hmem ⊢
  simpa using hmem

/-- The last leaf is split. -/
theorem Kept.owns_split (hP : P.Four) (h : Kept P t (c.fill (.leaf a s))) (hc : c.Paired)
    (hr : c.Routes k) (hright : c.right = []) (hnext : t.view.links.nxt a = none)
    (hlt : ∀ x ∈ s.keys, x < k) (hfull : s.slotsinuse = P.leafnodemax)
    (hown : t.view.Owned (c.fill (.leaf a s))) (e : t.insert P k d = .ok (i, t')) :
    t'.OwnsLeaves := by
  obtain ⟨u, sln, slp, y, e', hp⟩ := insert_last_split (d := d) (by rw [hP.innernodemax]; decide)
    (Ctx.growable_of_three (by rw [hP.innernodemax]; decide) c)
    (hP.leafnodemax.trans hP.innernodemax.symm) h.rep hc hr hright h.order hnext hlt hfull
  cases e.symm.trans e'
  obtain ⟨-, hgrow⟩ := h.stocked.grow_split hP hc hright hfull hp.toDivided
  have hnew : t'.view.HasLeaf t.nodes.size := hgrow.rep.hasLeaf (by rw [hp.seq]; simp)
  refine hgrow.rep.ownsLeaves_iff.mpr fun b hb => ?_
  rw [hp.seq]
  obtain hfew | ⟨n, hn, hgone, hfew⟩ := leaves_insert h.rep.root_ne _ e
  · -- the new leaves were not there before
    obtain ⟨x, hx⟩ := hfew.hasLeaf _ hnew
    exact absurd (BTree.body_lt_size hx) (lt_irrefl _)
  · have hfind := BTree.find_stay h.rep.stands hc hr h.leaf.2.leafIs (.inr (.inr hnext))
    cases hfind.symm.trans hn
    obtain hold | rfl := hasLeaf_newLeaf (hfew.hasLeaf b hb)
    · obtain hold | rfl := hasLeaf_newLeaf hold
      · have hmem := hown b hold
        have hba : b ≠ a := fun hba => hgone (hba ▸ hb)
        rw [Ctx.inorder_fill_leaf hc, hright] at hmem
        simp only [tips_append, tips_inr, tips_nil, List.map_append, List.map_cons, List.map_nil,
          List.mem_append, List.mem_singleton, hba, or_false] at hmem
        simp [hmem]
      · simp
    · simp [BTree.newLeaf]

end Push

/-- The key goes behind all others. -/
theorem Kept.push_owns (hP : P.Four) (h : Kept P t T) (hown : t.OwnsLeaves)
    (hkeys : ∀ x ∈ allKeys LeafSlots.keys T.2.inorder, x < k)
    (hseps : ∀ z ∈ seps T.2.inorder, z < k) (e : t.insert P k d = .ok (i, t')) :
    t'.OwnsLeaves := by
  replace hown := h.rep.ownsLeaves_iff.mp hown
  obtain ⟨c, a, s, rfl, hc, hr, hright, hnext, hlt⟩ := h.route hkeys hseps
  rcases Nat.lt_or_ge s.slotsinuse P.leafnodemax with hroom | hfull
  · exact h.owns_room hc hr hright hnext hlt hroom hown e
  · exact h.owns_split hP hc hr hright hnext hlt (le_antisymm h.leaf.2.inuse hfull) hown e

end Insert

/-! ## Removals -/

section Removal

variable [LinearOrder K] [DecidableEq D] {t t' : BTree K D} {T T' : (n : Nat) × MTree K D n}
  {c : MCtx K D 0} {a : Addr} {s s' s₁ : LeafSlots K D} {k : K} {d : D} {i : Int}
  {q : Request K D} {r : Reply D}

/-- The leaf is freed if it is joined with a sibling. -/
theorem Kept.gone_balance (hP : P.Four) (h : Kept P t (c.fill (.leaf a s))) (hc : c.Paired)
    (hs₁ : TidyLeaf P s.keys s₁) (hjoin : c.Joins s₁) {u : BTree K D}
    (hu : u.view = t.view.setBody a (.leaf s₁)) :
    Ensures (u.downkeycount.balanceTree P a) fun t' => ¬t'.view.HasLeaf a := by
  have hrep : Rep P u.downkeycount.view (c.fill (.leaf a s₁)).2 := by
    rw [BTree.downkeycount, view_count, hu]
    exact h.stocked.lessened hc hs₁.ok
  exact gone_balanceTree hP hrep hc (fun x hx => h.order.routes hc (hs₁.mem x hx)) hjoin

omit [DecidableEq D] in
theorem Kept.tidyLeaf (h : Kept P t (c.fill (.leaf a s))) (hc : c.Paired) : TidyLeaf P s.keys s :=
  ⟨h.leaf.2, (h.keys_sorted hc).imp le_of_lt, fun _ => id⟩

omit [LinearOrder K] [DecidableEq D] in
theorem Ctx.Joins.congr (h : c.Joins s) (hs : s₁.slotsinuse = s.slotsinuse) : c.Joins s₁ := by
  cases c with
  | top => exact h
  | frame up b ksL csL ksR csR => exact ⟨hs.trans h.1, h.2⟩

theorem Kept.gone_erase (hP : P.Four) (h : Kept P t (c.fill (.leaf a s))) (hc : c.Paired)
    (hfind : t.find P k = .ok (some a)) (hless : s'.slotsinuse + 1 = s.slotsinuse)
    (hjoin : c.Joins s') : Ensures (t.erase P k) fun r => r.2 = t ∨ ¬r.2.view.HasLeaf a := by
  refine .bind fun n hn => ?_
  cases hfind.symm.trans hn
  refine .bind fun l hl => .bind fun loc hloc => .bind fun _ _ => .ite (fun _ => ?_) fun _ =>
    .pure (.inl rfl)
  cases (BTree.leaf_eq h.leaf.1).symm.trans hl
  refine .bind fun ks hks => .bind fun u hu => .ite (fun hflag => ?_) fun _ => ?_
  · -- the root has no sibling
    obtain rfl := h.rep.flag_leaf.mp hflag
    exact hjoin.elim
  · have hpos : 0 < s.slotsinuse := hless ▸ Nat.succ_pos _
    have hs₁ := (h.tidyLeaf hc).erase hpos hloc hks
    obtain ⟨w, hw, v⟩ := BTree.setLeaf_view h.leaf.1
      { s with keySlots := ks, slotsinuse := dec16 s.slotsinuse }
    cases hu.symm.trans hw
    have hcount : dec16 s.slotsinuse = s'.slotsinuse := by
      have hle := h.leaf.2.inuse
      have hlt := leafnodemax_lt P
      rw [dec16_of_pos hpos (by omega)]
      omega
    exact .seq (h.gone_balance hP hc hs₁ (hjoin.congr hcount) v) fun t' h => .pure (.inr h)

theorem Kept.gone_deletePair (hP : P.Four) (h : Kept P t (c.fill (.leaf a s))) (hc : c.Paired)
    (hfind : t.find P k = .ok (some a)) (hless : s'.slotsinuse + 1 = s.slotsinuse)
    (hjoin : c.Joins s') :
    Ensures (t.deletePair P k d) fun r => r.2 = t ∨ ¬r.2.view.HasLeaf a := by
  refine .bind fun n hn => ?_
  cases hfind.symm.trans hn
  refine .bind fun r hr => ?_
  obtain ⟨i, u⟩ := r
  obtain ⟨rfl, rfl, -⟩ | ⟨u, s₁, hi, rfl, v, hs₁, hless₁⟩ :=
    deleteLeafPair_leaf (h.tidyLeaf hc) h.leaf.1 hr
  · exact .pure (.inl rfl)
  · refine .ite (fun hneg => absurd hneg (not_lt.mpr hi)) fun _ => ?_
    have hjoin₁ : c.Joins s₁ := hjoin.congr (by omega)
    exact .seq (h.gone_balance hP hc hs₁ hjoin₁ v) fun t' h => .pure (.inr h)

omit [DecidableEq D] in
/-- A removal frees the leaf that leaves the tree, and no other one. -/
theorem Kept.removal_owns (h : Kept P t (c.fill (.leaf a s))) (hc : c.Paired)
    (hr : Removal P t t' c a s s' T') (hown : t.OwnsLeaves) (hfew : Fewer t t')
    (hgone : c.Joins s' → t' = t ∨ ¬t'.view.HasLeaf a) : t'.OwnsLeaves := by
  replace hown := h.rep.ownsLeaves_iff.mp hown
  refine hr.even.rep.ownsLeaves_iff.mpr fun b hb => ?_
  have hold := hown b (hfew.hasLeaf b hb)
  rcases hr.even.links hc with ⟨-, hL⟩ | ⟨up, g, ksL, csL, ksR, csR, cs, rfl, hjoin, -, -, hL⟩
  · rw [hL, Ctx.inorder_fill_leaf hc]
    rw [Ctx.inorder_fill_leaf hc] at hold
    simpa using hold
  · have hne : t' ≠ t := by
      rintro rfl
      -- a key less is counted
      have hcount : t'.totalkeycount = (t'.totalkeycount + 4294967295) % 4294967296 :=
        hr.even.count
      have := h.count
      omega
    have hba : b ≠ a := by
      rintro rfl
      exact ((hgone hjoin).resolve_left hne) hb
    rw [tips_frame hc] at hold
    rw [hL]
    simp only [List.mem_append, List.mem_cons, Tree.addr_leaf, hba, false_or] at hold ⊢
    exact hold

omit [DecidableEq D] in
/-- A removal takes its pair from the leaf that is found. -/
theorem find_of_target {ks : List K} (h : t.target P q = .ok (some (a, ks))) : ∃ k,
    t.find P k = .ok (some a) ∧ (q = .erase k ∨ ∃ d, q = .deletePair k d) := by
  cases q with
  | insert k d | existsKey k | get k => cases h
  | erase k =>
    obtain ⟨n, hn, h⟩ := bind_eq_ok.mp h
    cases n with
    | none => cases h
    | some b =>
      obtain ⟨l, -, h⟩ := bind_eq_ok.mp h
      refine ⟨k, ?_, .inl rfl⟩
      split_ifs at h <;> cases h
      · exact hn
      · exact hn
  | deletePair k d =>
    obtain ⟨n, hn, h⟩ := bind_eq_ok.mp h
    cases n with
    | none => cases h
    | some b =>
      obtain ⟨l, -, h⟩ := bind_eq_ok.mp h
      refine ⟨k, ?_, .inr ⟨d, rfl⟩⟩
      split_ifs at h <;> cases h
      exact hn

/-- A call loses no leaf and frees none that is needed. -/
theorem Kept.perform_owns (hP : P.Four) (h : Kept P t T) (hown : t.OwnsLeaves)
    (hnew : ∀ k ∈ q.newKey, (∀ x ∈ allKeys LeafSlots.keys T.2.inorder, x < k) ∧
      ∀ z ∈ seps T.2.inorder, z < k)
    (e : t.perform P q = .ok (r, t')) (hch : Change P t T q t' T') : t'.OwnsLeaves := by
  cases hch with
  | none => exact hown
  | @grown _ _ k hq hx =>
    obtain ⟨d, rfl⟩ : ∃ d, q = .insert k d := by
      cases q <;> simp_all [Request.newKey]
    obtain ⟨⟨i, u⟩, hi, e⟩ := bind_eq_ok.mp e
    cases e
    exact h.push_owns hP hown (hnew k rfl).1 (hnew k rfl).2 hi
  | shrunk hq hT hc htarget hr =>
    subst hT
    obtain ⟨k, hfind, rfl | ⟨d, rfl⟩⟩ := find_of_target htarget
    · obtain ⟨⟨i, u⟩, hi, e⟩ := bind_eq_ok.mp e
      cases e
      exact h.removal_owns hc hr hown (fewer_erase _ hi)
        fun hjoin => h.gone_erase hP hc hfind hr.less hjoin _ hi
    · obtain ⟨⟨i, u⟩, hi, e⟩ := bind_eq_ok.mp e
      cases e
      exact h.removal_owns hc hr hown (fewer_deletePair _ hi)
        fun hjoin => h.gone_deletePair hP hc hfind hr.less hjoin _ hi

end Removal

/-! ## Runs -/

section Run

variable [LinearOrder K] [DecidableEq D] {t : BTree K D} {g : List K} {q : Request K D}

omit [LinearOrder K] [DecidableEq D] in
theorem ownsLeaves_init : (BTree.init : BTree K D).OwnsLeaves := fun a l hl => by cases hl

theorem Tended.perform_owns (hP : P.Four) (h : Tended P (fun _ _ _ => True) t g)
    (hown : t.OwnsLeaves) (hasc : ∀ k ∈ q.newKey, ∀ x ∈ g, x < k)
    (hcan : t.canPerform P q = .ok true) : ∃ r t', t.perform P q = .ok (r, t') ∧
      Tended P (fun _ _ _ => True) t' (g ++ q.newKey.toList) ∧ t'.OwnsLeaves := by
  obtain ⟨r, t', e, -, h'⟩ := h.perform hP id (fun _ => trivial) (fun _ _ _ _ => trivial)
    ⟨hasc, hcan⟩
  refine ⟨r, t', e, h', ?_⟩
  cases h with
  | empty hroot hcount =>
    cases hq : q.newKey with
    | none =>
      obtain ⟨r', e'⟩ := perform_empty (P := P) hroot hq
      cases e.symm.trans e'
      exact hown
    | some k =>
      obtain ⟨d, rfl⟩ : ∃ d, q = .insert k d := by
        cases q <;> simp_all [Request.newKey]
      obtain ⟨⟨i, u⟩, hi, e⟩ := bind_eq_ok.mp e
      cases e
      exact owns_first hP hroot hcount hown hi
  | kept hkept hkeys hseps =>
    have hnew : ∀ k ∈ q.newKey, (∀ x ∈ allKeys LeafSlots.keys _, x < k) ∧ ∀ z ∈ seps _, z < k :=
      fun k hk => ⟨fun x hx => hasc k hk x (hkeys x hx), fun z hz => hasc k hk z (hseps z hz)⟩
    obtain ⟨r', u, T', e', hch⟩ := hkept.perform hP hnew hcan
    cases e.symm.trans e'
    exact hkept.perform_owns hP hown hnew e hch

/-- In runs of inserts with ascending keys, lookups and removals that go through, no leaf leaks and
none is freed that is still under the root. -/
theorem leaves_owned (hinner : P.nodeslots = 4) (hleaf : P.leafslots = 4) {qs : List (Request K D)}
    (hasc : AscendingKeys qs) (h : EachCall P (fun t q => t.canPerform P q = .ok true) qs) :
    ∃ rs t, run (BTree.perform P) BTree.init qs = .ok (rs, t) ∧ t.OwnsLeaves := by
  have hmeets := Meets.ascending (f := Request.newKey) (g := []) hasc h
  obtain ⟨rs, t, e, -, -, hown⟩ : ∃ rs t, run (BTree.perform P) BTree.init qs = .ok (rs, t) ∧
      Answers (fun g q => g ++ q.newKey.toList) (fun _ _ _ => True) ([] : List K) qs rs ∧
      Tended P (fun _ _ _ => True) t (qs.foldl (fun g q => g ++ q.newKey.toList) []) ∧
      t.OwnsLeaves := by
    refine run_sim (R := fun g t => Tended P (fun _ _ _ => True) t g ∧ t.OwnsLeaves) ?_
      ⟨.empty rfl rfl, ownsLeaves_init⟩ hmeets
    rintro g t q ⟨hR, hown⟩ ⟨hnew, hcan⟩
    obtain ⟨r, t', e, h', hown'⟩ := hR.perform_owns ⟨hinner, hleaf⟩ hown hnew hcan
    exact ⟨r, t', e, trivial, h', hown'⟩
  exact ⟨rs, t, e, hown⟩

end Run

/-- Leaves are split, and joined on either side. -/
def turnover : List (Request Nat Nat) :=
  [.insert 1 10, .insert 2 20, .insert 3 30, .insert 4 40, .insert 5 50, .insert 6 60, .insert 7 70,
    .erase 1, .insert 8 80, .deletePair 6 0, .get 7, .erase 8, .insert 9 90]

theorem leaves_owned_turnover : ∃ rs t,
    run (BTree.perform (Template.plain 4)) BTree.init turnover = .ok (rs, t) ∧ t.OwnsLeaves :=
  leaves_owned rfl rfl (by unfold AscendingKeys; decide) (show EachCall _ _ _ from by
    unfold EachCall; decide +kernel)

end NwtBTree
