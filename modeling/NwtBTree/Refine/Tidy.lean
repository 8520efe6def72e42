import NwtBTree.Refine.EraseLeaf
import NwtBTree.Refine.Frame
import NwtBTree.Refine.Scatter

/-!
# The inside of the leaves

Whatever becomes of the tree, the keys of each leaf stay in order, and no key appears that
was not inserted. Only an `erase` that finds its key in slot 0 of an empty leaf breaks
this: the counter of the leaf then wraps around.
-/

namespace NwtBTree

variable {K D : Type} [LinearOrder K] {P : Template K D} {g : List K} {s s' : LeafSlots K D}
  {as bs : List (K × D)} {r : List K} {k : K} {d : D}

/-- The keys of the leaf ascend, and they are among `g`. -/
structure TidyLeaf (P : Template K D) (g : List K) (s : LeafSlots K D) : Prop where
  ok : LeafOK P s
  sorted : s.keys.Pairwise (· ≤ ·)
  mem : ∀ x ∈ s.keys, x ∈ g

namespace TidyLeaf

theorem fresh (P : Template K D) (a : Addr) : TidyLeaf P g (LeafNode.fresh P a).toLeafSlots := by
  have h := LeafIs.fresh P a
  exact ⟨h.ok, by simp [h.keys_eq], by simp [h.keys_eq]⟩

theorem mono {g' : List K} (h : TidyLeaf P g s) (hg : g ⊆ g') : TidyLeaf P g' s :=
  ⟨h.ok, h.sorted, fun x hx => hg (h.mem x hx)⟩

theorem of_keys {es : List (K × D)} {ks : List K} (hs : LeafIs P s es r)
    (hfst : es.map Prod.fst = ks) (hsort : ks.Pairwise (· ≤ ·)) (hmem : ∀ x ∈ ks, x ∈ g) :
    TidyLeaf P g s := by
  rw [← hfst, ← hs.keys_eq] at hsort hmem
  exact ⟨hs.ok, hsort, hmem⟩

/-- Fewer keys. -/
theorem sublist {es : List (K × D)} (h : TidyLeaf P g s) (hs : LeafIs P s' es r)
    (hsub : (es.map Prod.fst).Sublist s.keys) : TidyLeaf P g s' :=
  of_keys hs rfl (h.sorted.sublist hsub) fun x hx => h.mem x (hsub.subset hx)

/-- A key more. -/
theorem insert (h : TidyLeaf P g s) (hk : k ∈ g) (hroom : s.slotsinuse < P.leafnodemax) {loc : Nat}
    (hloc : findKeyLoc s k = .ok loc) (e : insertLeafSlotsAt P s k d loc = .ok s') :
    TidyLeaf P g s' ∧ s'.slotsinuse = s.slotsinuse + 1 := by
  obtain ⟨as, bs, hcut, hlt, hge, -⟩ := h.ok.exists_cut k
  have hs := h.ok.leafIs
  have hkeys := hs.keys_eq
  rw [hcut] at hs hkeys
  rw [findKeyLoc_spec hs hlt hge] at hloc
  obtain rfl := Except.ok.inj hloc
  obtain ⟨s₁, es, e₁, hs₁, hfst, -⟩ := insertLeafSlotsAt_spec hs (hs.inuse ▸ hroom) k d
  obtain rfl : s₁ = s' := Except.ok.inj (e₁.symm.trans e)
  have hsort := h.sorted
  have hmem := h.mem
  rw [hkeys, List.map_append] at hsort hmem
  refine ⟨of_keys hs₁ hfst ?_ ?_, ?_⟩
  · refine pairwise_insert le_trans hsort (fun x hx => ?_) fun y hy => ?_
    · obtain ⟨e, he, rfl⟩ := List.mem_map.mp hx
      exact (hlt e he).le
    · rw [List.head?_map] at hy
      obtain ⟨e, he, rfl⟩ := Option.map_eq_some_iff.mp hy
      exact hge e he
  · grind
  · have := congrArg List.length hfst
    rw [hs₁.inuse, hs.inuse]
    simp only [List.length_append, List.length_map, List.length_cons] at this ⊢
    omega

/-- A split in two. -/
theorem split (hcap : P.leafnodemax = 4) (h : TidyLeaf P g s) (hk : k ∈ g)
    (hfull : s.slotsinuse = P.leafnodemax) {ln lp sln slp : LeafSlots K D} {rn rp : List K}
    (hln : LeafIs P ln [] rn) (hlp : LeafIs P lp [] rp)
    (e : leafSplit P s ln lp k d = .ok (sln, slp)) :
    TidyLeaf P g sln ∧ TidyLeaf P g slp := by
  obtain ⟨sln₁, slp₁, kp, e₁, hh⟩ := exists_halves hcap h.ok hfull h.sorted k d hln hlp
  obtain ⟨rfl, rfl⟩ := Prod.mk.inj (Except.ok.inj (e₁.symm.trans e))
  have hmem : ∀ x ∈ sln₁.keys ++ slp₁.keys, x = k ∨ x ∈ s.keys := by
    by_cases hfirst : ∀ x ∈ s.keys.head?, x ≤ k
    · exact fun x hx => List.mem_cons.mp ((hh.keys_perm h.ok hfirst).subset hx)
    · -- the new key takes the place of the first one
      have hs := h.ok.leafIs
      have hsort := h.sorted
      have hlen : s.entries.length = 4 := by rw [← hs.inuse, hfull, hcap]
      rw [hs.keys_eq] at hfirst hsort ⊢
      match hes : s.entries, hlen with
      | [e₀, e₁', e₂, e₃], _ =>
        rw [hes] at hs hfirst hsort
        have hk₀ : k < e₀.1 := by simpa using hfirst
        have hk₁ : k < e₁'.1 := hk₀.trans_le (by
          simp only [List.map_cons, List.pairwise_cons] at hsort
          exact hsort.1 _ (by simp))
        obtain ⟨sln₂, slp₂, e₂', h1, h2⟩ := leafSplit_front (d := d) hs hcap hk₀ hk₁ hln
          hlp
        obtain ⟨rfl, rfl⟩ := Prod.mk.inj (Except.ok.inj (e₂'.symm.trans e))
        rw [h1.keys_eq, h2.keys_eq]
        simp only [List.map_cons, List.map_nil]
        grind
  refine ⟨⟨hh.left, hh.sortedLeft, fun x hx => ?_⟩, ⟨hh.right, hh.sortedRight, fun x hx => ?_⟩⟩
  · exact (hmem x (List.mem_append_left _ hx)).elim (· ▸ hk) (h.mem x)
  · exact (hmem x (List.mem_append_right _ hx)).elim (· ▸ hk) (h.mem x)

/-- A key less, that is the last one where `erase` finds its key behind the live ones. -/
theorem erase (h : TidyLeaf P g s) (hpos : 0 < s.slotsinuse) {loc : Nat} {ks : List K}
    (hloc : findKeyEqual s k = .ok loc)
    (e : shiftDown s.keySlots loc (s.slotsinuse - 1 - loc) = .ok ks) :
    TidyLeaf P g { s with keySlots := ks, slotsinuse := dec16 s.slotsinuse } := by
  have hs := h.ok.leafIs
  have hkeys := hs.keys_eq
  by_cases hk : k ∈ s.keys
  · obtain ⟨xs, ys, hsplit, hnot⟩ := List.eq_append_cons_of_mem hk
    rw [hkeys] at hsplit
    obtain ⟨as, cs, hcut, rfl, hcs⟩ := List.map_eq_append_iff.mp hsplit
    obtain ⟨p, bs, rfl, hp, -⟩ := List.map_eq_cons_iff.mp hcs
    rw [hcut] at hs hkeys
    rw [findKeyEqual_live hs hp hnot] at hloc
    obtain rfl := Except.ok.inj hloc
    obtain ⟨ks₁, es, y, e₁, hs₁, hfst, -⟩ := hs.shiftKeys
    obtain rfl := Except.ok.inj (e₁.symm.trans e)
    refine h.sublist hs₁ ?_
    rw [hfst, hkeys, List.map_append, List.map_append]
    exact (List.Sublist.refl _).append (List.sublist_cons_self _ _)
  · rw [hkeys] at hk
    rw [findKeyEqual_absent hs hk] at hloc
    obtain rfl := Except.ok.inj hloc
    rw [hs.inuse, show s.entries.length - 1 - s.entries.length = 0 by omega] at e
    obtain rfl := Except.ok.inj e
    obtain hnil | ⟨es, p, hes⟩ := List.eq_nil_or_concat s.entries
    · rw [hs.inuse, hnil] at hpos
      exact absurd hpos (lt_irrefl 0)
    · rw [List.concat_eq_append] at hes
      rw [hes] at hs hkeys
      refine h.sublist hs.dropLast ?_
      rw [hkeys, List.map_append]
      exact List.sublist_append_left _ _

end TidyLeaf

/-- Every leaf of the heap is tidy. -/
structure Tidy (P : Template K D) (g : List K) (t : BTree K D) : Prop where
  leaf : ∀ {a s}, t.view.body a = some (.leaf s) → TidyLeaf P g s
  count : t.totalkeycount < 4294967296

/-- The leaves of `t'` are tidy, and as many keys are counted as in `t`. -/
structure Keeps (P : Template K D) (g : List K) (t t' : BTree K D) : Prop where
  tidy : Tidy P g t'
  root : t.root ≠ none → t'.root ≠ none
  count : t'.totalkeycount = t.totalkeycount
  head : t'.headleaf = t.headleaf
  tail : t'.tailleaf = t.tailleaf

instance : IsTrans (BTree K D) (Keeps P g) where
  trans _ _ _ h h' := ⟨h'.tidy, h'.root ∘ h.root, h'.count.trans h.count, h'.head.trans h.head,
    h'.tail.trans h.tail⟩

section Tree

variable {t t' : BTree K D} {a b : Addr} {i : Int}

theorem Tidy.refl (h : Tidy P g t) : Keeps P g t t := ⟨h, id, rfl, rfl, rfl⟩

theorem Tidy.frame (h : Tidy P g t) (hf : Frame t t') : Keeps P g t t' :=
  ⟨⟨fun hs => h.leaf (hf.slots _ _ hs), hf.count ▸ h.count⟩, hf.root, hf.count, hf.head, hf.tail⟩

theorem Tidy.mono {g' : List K} (h : Tidy P g t) (hg : g ⊆ g') : Tidy P g' t :=
  ⟨fun hs => (h.leaf hs).mono hg, h.count⟩

/-- The slots of one leaf are written. -/
theorem Tidy.setBody (h : Tidy P g t) (hs : TidyLeaf P g s)
    (hv : t'.view = t.view.setBody a (.leaf s)) : Keeps P g t t' where
  tidy := {
    leaf := fun {b u} hu => by
      rw [hv, View.body_setBody] at hu
      split_ifs at hu
      · cases hu
        exact hs
      · exact h.leaf hu
    count := by
      rw [← BTree.count_view, hv]
      exact h.count }
  root := by rw [← BTree.root_view t', hv]; exact id
  count := by rw [← BTree.count_view, hv]; rfl
  head := by rw [← BTree.headleaf_view, hv]; rfl
  tail := by rw [← BTree.tailleaf_view, hv]; rfl

theorem keeps_setLeaf (h : Tidy P g t) (hs : TidyLeaf P g s) :
    Ensures (t.setLeaf a s) (Keeps P g t) := by
  refine .bind fun l hl => ?_
  obtain ⟨u, e, v⟩ := BTree.setLeaf_view (BTree.body_of_leaf hl).1 s
  simp only [BTree.setLeaf, hl, ok_bind] at e
  rw [e]
  exact .ok (h.setBody hs v)

variable [DecidableEq D]

/-- A pair is refused or placed. -/
theorem insertLeafPair_cases (h : Tidy P g t) (hk : k ∈ g)
    (e : t.insertLeafPair P a k d = .ok (i, t')) :
    (i < 0 ∧ t' = t) ∨ ∃ s s', i = 1 ∧ t.view.body a = some (.leaf s) ∧ TidyLeaf P g s' ∧
      s'.slotsinuse = s.slotsinuse + 1 ∧ t'.view = t.view.setBody a (.leaf s') := by
  obtain ⟨l, hl, e⟩ := bind_eq_ok.mp e
  have hs := h.leaf (BTree.body_of_leaf hl).1
  split_ifs at e with hfull
  · cases e
    exact .inl ⟨by decide, rfl⟩
  · obtain ⟨loc, hloc, e⟩ := bind_eq_ok.mp e
    obtain ⟨dup, -, e⟩ := bind_eq_ok.mp e
    split_ifs at e
    · cases e
      exact .inl ⟨by decide, rfl⟩
    · obtain ⟨s', hs', e⟩ := bind_eq_ok.mp e
      obtain ⟨u, hu, e⟩ := bind_eq_ok.mp e
      cases e
      have hroom : l.slotsinuse < P.leafnodemax := by
        have hle := hs.ok.inuse
        have hne : l.slotsinuse ≠ P.leafnodemax := by simpa [LeafSlots.isfull] using hfull
        omega
      obtain ⟨hs'', hmore⟩ := hs.insert hk hroom hloc hs'
      obtain ⟨w, ew, v⟩ := BTree.setLeaf_view (BTree.body_of_leaf hl).1 s'
      obtain rfl := Except.ok.inj (hu.symm.trans ew)
      exact .inr ⟨_, s', rfl, (BTree.body_of_leaf hl).1, hs'', hmore, v⟩

theorem keeps_insertLeafPair (h : Tidy P g t) (hk : k ∈ g) :
    Ensures (t.insertLeafPair P a k d) fun r => Keeps P g t r.2 := by
  rintro ⟨i, t'⟩ e
  obtain ⟨-, rfl⟩ | ⟨s, s', -, -, hs, -, v⟩ := insertLeafPair_cases h hk e
  · exact h.refl
  · exact h.setBody hs v

/-- No leaf gets smaller. -/
theorem slotsinuse_insertLeafPair (h : Tidy P g t) (hk : k ∈ g)
    (e : t.insertLeafPair P a k d = .ok (i, t')) {s : LeafSlots K D}
    (hb : t.view.body b = some (.leaf s)) :
    ∃ s', t'.view.body b = some (.leaf s') ∧ s.slotsinuse ≤ s'.slotsinuse := by
  obtain ⟨-, rfl⟩ | ⟨s₁, s', -, ha, -, hmore, v⟩ := insertLeafPair_cases h hk e
  · exact ⟨s, hb, le_rfl⟩
  · rw [v, View.body_setBody]
    split_ifs with hba
    · rw [hba, ha] at hb
      cases hb
      exact ⟨s', rfl, by omega⟩
    · exact ⟨s, hb, le_rfl⟩

omit [DecidableEq D] in
theorem TidyLeaf.load_mem (h : TidyLeaf P g s) {i : Nat} (hi : i < s.slotsinuse)
    (e : load s.keySlots i = .ok k) : k ∈ s.keys := by
  have hs := h.ok.leafIs
  have hlen : i < s.entries.length := hs.inuse ▸ hi
  rw [hs.load_key hlen] at e
  rw [hs.keys_eq, ← Except.ok.inj e]
  exact List.mem_map_of_mem (List.getElem_mem hlen)

/-! ## Leaves that are merged or borrow -/

/-- A pair of the leaf at `b` is placed in another one. -/
theorem keeps_lend {j : Nat} {r : Int × BTree K D} (h : Tidy P g t)
    (hb : t.view.body b = some (.leaf s)) (hj : j < s.slotsinuse) (hk : load s.keySlots j = .ok k)
    (e : t.insertLeafPair P a k d = .ok r) : Keeps P g t r.2 ∧
      ∃ s', r.2.view.body b = some (.leaf s') ∧ s.slotsinuse ≤ s'.slotsinuse := by
  have hg : k ∈ g := (h.leaf hb).mem k ((h.leaf hb).load_mem hj hk)
  exact ⟨keeps_insertLeafPair h hg r e, slotsinuse_insertLeafPair h hg e hb⟩

theorem keeps_moveAll {j n : Nat} (h : Tidy P g t) (ha : t.view.body a = some (.leaf s))
    (hn : j + n ≤ s.slotsinuse) : Ensures (t.moveAll P a b j n) (Keeps P g t) := by
  induction n generalizing t j s with
  | zero => exact .ok h.refl
  | succ n ih =>
    refine .bind fun l hl => .bind fun x hx => .bind fun y _ => ?_
    have hbody := (BTree.body_of_leaf hl).1
    rw [ha] at hbody
    cases hbody
    refine .bind fun r hr => ?_
    obtain ⟨hkeep, s', hs', hle⟩ := keeps_lend h ha (by omega) hx hr
    exact (ih hkeep.tidy hs' (by omega)).step hkeep

theorem keeps_mergeLeafIntoPrev {loc : Int} (h : Tidy P g t) :
    Ensures (t.mergeLeafIntoPrev P a b loc) (Keeps P g t) := by
  refine .bind fun l hl => .bind fun _ _ => ?_
  have hmove := keeps_moveAll (b := b) (j := 0) h (BTree.body_of_leaf hl).1 (Nat.zero_add _).le
  refine .link hmove fun u hu => .ite (fun _ => .throw) fun _ => ?_
  refine .bind fun _ _ => .bind fun _ _ => ?_
  refine .ite (fun _ => .throw) fun _ => .bind fun _ _ => .bind fun r hr => .pure ?_
  exact hu.tidy.frame (BTree.frame_deleteInnerNode r hr)

theorem keeps_mergeLeafIntoNext (h : Tidy P g t) :
    Ensures (t.mergeLeafIntoNext P a b) (Keeps P g t) := by
  refine .bind fun l hl => ?_
  have hmove := keeps_moveAll (b := b) (j := 0) h (BTree.body_of_leaf hl).1 (Nat.zero_add _).le
  refine .link hmove fun u hu => .bind fun _ _ => .ite (fun _ => .throw) fun _ => ?_
  refine .bind fun _ _ => .bind fun _ _ => .bind fun _ _ => .bind fun r hr => .pure ?_
  exact hu.tidy.frame (BTree.frame_deleteInnerNode r hr)

omit [DecidableEq D] in
/-- A stored key is found, and one pair of the leaf goes. -/
theorem deleteLeafPair_leaf (hs : TidyLeaf P g s) (ha : t.view.body a = some (.leaf s))
    (e : t.deleteLeafPair a k d = .ok (i, t')) : (i = -1 ∧ t' = t ∧ k ∉ s.keys) ∨
      ∃ (u : BTree K D) (s' : LeafSlots K D), 0 ≤ i ∧ t' = u.downkeycount ∧
        u.view = t.view.setBody a (.leaf s') ∧ TidyLeaf P g s' ∧
        s'.slotsinuse + 1 = s.slotsinuse := by
  obtain ⟨l, hl, e⟩ := bind_eq_ok.mp e
  cases (BTree.leaf_eq ha).symm.trans hl
  have hsort := hs.sorted
  have hin := hs.ok.leafIs
  have hkeys := hin.keys_eq
  split_ifs at e with hless
  · cases e
    refine .inl ⟨rfl, rfl, ?_⟩
    rw [List.eq_nil_of_length_eq_zero (hs.ok.length_keys.trans (Nat.lt_one_iff.mp hless))]
    exact List.not_mem_nil
  · obtain ⟨loc, hloc, e⟩ := bind_eq_ok.mp e
    obtain ⟨x, hx, e⟩ := bind_eq_ok.mp e
    obtain ⟨as, bs, hcut, hlt, hge, -⟩ := hs.ok.exists_cut k
    rw [hcut] at hin hkeys
    cases bs with
    | nil =>
      have hne : as ++ [] ≠ [] := by
        rintro hnil
        rw [hnil] at hin
        exact hless (by rw [hin.inuse]; exact Nat.zero_lt_one)
      rw [findLowerKey_none hin hne (by simpa using hlt)] at hloc
      cases hloc
      cases hx
    | cons p bs =>
      rw [findLowerKey_some hin hlt (hge p rfl)] at hloc
      obtain rfl := Except.ok.inj hloc
      have hload := hin.load_key (i := as.length) (by simp)
      simp only [List.getElem_append_right le_rfl, Nat.sub_self, List.getElem_cons_zero] at hload
      rw [loadInt_natCast, hload] at hx
      obtain rfl := Except.ok.inj hx
      split_ifs at e with hk
      · obtain ⟨ks, ds, y, hks, hds, hs', -⟩ := hin.shiftPairs
        simp only [Int.toNat_natCast, hks, hds, ok_bind] at e
        obtain ⟨u, hu, e⟩ := bind_eq_ok.mp e
        cases e
        obtain ⟨w, hw, v⟩ := BTree.setLeaf_view ha
          { s with keySlots := ks, dataSlots := ds, slotsinuse := dec16 s.slotsinuse }
        cases hu.symm.trans hw
        refine .inr ⟨u, _, Int.natCast_nonneg _, rfl, v, hs.sublist hs' ?_, ?_⟩
        · rw [hkeys, List.map_append, List.map_append]
          exact (List.Sublist.refl _).append (List.sublist_cons_self _ _)
        · rw [hs'.inuse, hin.inuse]
          grind
      · cases e
        refine .inl ⟨rfl, rfl, fun hmem => ?_⟩
        -- the key at the lower bound is greater, and so are those behind it
        have hpk : k < p.1 := (hge p rfl).lt_of_ne fun heq => hk ((keyequal_iff _ _).mpr heq)
        rw [hkeys] at hsort hmem
        simp only [List.map_append, List.map_cons, List.pairwise_append, List.pairwise_cons,
          List.mem_append, List.mem_cons, List.mem_map] at hsort hmem
        obtain ⟨p', hp', rfl⟩ | rfl | ⟨p', hp', rfl⟩ := hmem
        · exact lt_irrefl _ (hlt p' hp')
        · exact lt_irrefl _ hpk
        · exact absurd (hsort.2.1.1 p'.1 ⟨p', hp', rfl⟩) (not_le.mpr hpk)

omit [DecidableEq D] in
theorem deleteLeafPair_cases (h : Tidy P g t) (e : t.deleteLeafPair a k d = .ok (i, t')) :
    (i = -1 ∧ t' = t ∧ ∀ s, t.view.body a = some (.leaf s) → k ∉ s.keys) ∨
      ∃ u, 0 ≤ i ∧ t' = u.downkeycount ∧ Keeps P g t u := by
  obtain ⟨l, hl, -⟩ := bind_eq_ok.mp e
  have ha := (BTree.body_of_leaf hl).1
  obtain ⟨rfl, rfl, hk⟩ | ⟨u, s', hi, rfl, v, hs', -⟩ := deleteLeafPair_leaf (h.leaf ha) ha e
  · refine .inl ⟨rfl, rfl, fun s hs => ?_⟩
    cases ha.symm.trans hs
    exact hk
  · exact .inr ⟨u, hi, rfl, h.setBody hs' v⟩

omit [LinearOrder K] [DecidableEq D] in
theorem loadInt_last {n : Nat} (hn : 0 < n) : loadInt s.keySlots ((n : Int) - 1) =
    load s.keySlots (n - 1) := by
  rw [show (n : Int) - 1 = ((n - 1 : Nat) : Int) by omega, loadInt_natCast]

omit [LinearOrder K] [DecidableEq D] in
/-- A key that was counted down is counted up again. -/
theorem upkeycount_downkeycount (h : t.totalkeycount < 4294967296) :
    t.downkeycount.upkeycount = t := by
  have hmod : ((t.totalkeycount + 4294967295) % 4294967296 + 1) % 4294967296 =
      t.totalkeycount := by omega
  unfold BTree.upkeycount BTree.downkeycount
  simp only [hmod]

omit [DecidableEq D] in
theorem keeps_taken (h : Tidy P g t) (e : t.deleteLeafPair a k d = .ok (i, t'))
    (ha : t.view.body a = some (.leaf s)) (hk : k ∈ s.keys) : Keeps P g t t'.upkeycount := by
  obtain ⟨-, -, hnot⟩ | ⟨u, -, rfl, hu⟩ := deleteLeafPair_cases h e
  · exact absurd hk (hnot s ha)
  · rwa [upkeycount_downkeycount hu.tidy.count]

theorem keeps_borrowFromPrev {loc : Int} (h : Tidy P g t) :
    Ensures (t.borrowFromPrev P a b loc) (Keeps P g t) := by
  refine .bind fun l hl => .bind fun q hq => .ite (fun _ => .throw) fun hless => ?_
  refine .bind fun x hx => .bind fun y _ => .bind fun r hr => ?_
  have hbq := (BTree.body_of_leaf hq).1
  have hpos : 0 < q.slotsinuse := by omega
  rw [loadInt_last hpos] at hx
  obtain ⟨i, u⟩ := r
  obtain ⟨hu, sq, hsq, hle⟩ := keeps_lend h hbq (by omega) hx hr
  refine .step ?_ hu
  refine .bind fun _ _ => .bind fun _ _ => .bind fun _ _ => .bind fun _ _ => .bind fun _ _ => ?_
  refine .bind fun r hr => ?_
  obtain ⟨j, w⟩ := r
  have hframe : Frame u w := BTree.frame_replaceKey _ hr
  have hw := hu.tidy.frame hframe
  refine .step ?_ hw
  refine .bind fun q' hq' => .bind fun z hz => .bind fun _ _ => .bind fun r hr => .pure ?_
  have hbq' := (BTree.body_of_leaf hq').1
  have hsame := (hframe.slots _ _ hbq').symm.trans hsq
  have hpos' : 0 < q'.slotsinuse := by
    cases hsame
    omega
  rw [loadInt_last hpos'] at hz
  exact keeps_taken hw.tidy hr hbq' ((hw.tidy.leaf hbq').load_mem (by omega) hz)

theorem keeps_borrowFromNext (h : Tidy P g t) :
    Ensures (t.borrowFromNext P a b) (Keeps P g t) := by
  refine .bind fun l hl => .bind fun q hq => .ite (fun _ => .throw) fun hless => ?_
  refine .bind fun x hx => .bind fun y _ => .bind fun r hr => ?_
  have hbq := (BTree.body_of_leaf hq).1
  obtain ⟨i, u⟩ := r
  obtain ⟨hu, sq, hsq, hle⟩ := keeps_lend h hbq (by omega) hx hr
  refine .step ?_ hu
  refine .bind fun _ _ => .bind fun _ _ => .bind fun _ _ => .bind fun r hr => ?_
  obtain ⟨j, w⟩ := r
  have hframe : Frame u w := BTree.frame_replaceKey _ hr
  have hw := hu.tidy.frame hframe
  refine .step ?_ hw
  refine .bind fun q' hq' => .bind fun z hz => .bind fun _ _ => .bind fun r hr => .pure ?_
  have hbq' := (BTree.body_of_leaf hq').1
  have hsame := (hframe.slots _ _ hbq').symm.trans hsq
  have hpos' : 0 < q'.slotsinuse := by
    cases hsame
    omega
  exact keeps_taken hw.tidy hr hbq' ((hw.tidy.leaf hbq').load_mem hpos' hz)

theorem keeps_balanceTree (h : Tidy P g t) : Ensures (t.balanceTree P a) (Keeps P g t) := by
  refine .bind fun l hl => .bind fun loc _ => .ite (fun _ => ?_) fun _ => .pure h.refl
  split
  · exact .bind fun q _ => .ite (fun _ => keeps_mergeLeafIntoPrev h) fun _ => keeps_borrowFromPrev h
  · exact .bind fun q _ => .ite (fun _ => keeps_mergeLeafIntoNext h) fun _ => keeps_borrowFromNext h
  · exact .pure h.refl

/-! ## Calls -/

/-- The leaves of `t'` are tidy, and `c` more keys are counted than in `t`. -/
structure Counted (P : Template K D) (g : List K) (c : Int) (t t' : BTree K D) : Prop where
  tidy : Tidy P g t'
  root : t.root ≠ none → t'.root ≠ none
  count : (t'.totalkeycount : Int) = ((t.totalkeycount : Int) + c) % 4294967296
  head : t'.headleaf = t.headleaf
  tail : t'.tailleaf = t.tailleaf

omit [DecidableEq D] in
theorem Keeps.counted (h : Keeps P g t t') : Counted P g 0 t t' :=
  ⟨h.tidy, h.root, by have := h.tidy.count; have := h.count; omega, h.head, h.tail⟩

omit [DecidableEq D] in
theorem Tidy.setCount (h : Tidy P g t) (c : Nat) :
    Tidy P g { t with totalkeycount := c % 4294967296 } where
  leaf hs := by
    rw [view_count] at hs
    exact h.leaf hs
  count := Nat.mod_lt c (by decide)

omit [DecidableEq D] in
theorem Tidy.downkeycount (h : Tidy P g t) : Tidy P g t.downkeycount :=
  h.setCount (t.totalkeycount + 4294967295)

omit [DecidableEq D] in
theorem Tidy.upkeycount (h : Tidy P g t) : Tidy P g t.upkeycount :=
  h.setCount (t.totalkeycount + 1)

omit [LinearOrder K] [DecidableEq D] in
/-- The counter is apart from the pointers of the tree. -/
theorem ends_downkeycount (t : BTree K D) : t.downkeycount.root = t.root ∧
    t.downkeycount.headleaf = t.headleaf ∧ t.downkeycount.tailleaf = t.tailleaf := by
  rw [BTree.downkeycount]
  exact ⟨rfl, rfl, rfl⟩

variable {u v : BTree K D}

omit [DecidableEq D] in
theorem Counted.down (h : Keeps P g t u) (h' : Keeps P g u.downkeycount v) :
    Counted P g (-1) t v := by
  obtain ⟨hroot, hhead, htail⟩ := ends_downkeycount u
  refine ⟨h'.tidy, fun hne => h'.root ?_, ?_, ?_, ?_⟩
  · rw [hroot]
    exact h.root hne
  · have hc := h'.count
    rw [BTree.downkeycount] at hc
    change v.totalkeycount = (u.totalkeycount + 4294967295) % 4294967296 at hc
    have hu := h.count
    omega
  · rw [h'.head, hhead, h.head]
  · rw [h'.tail, htail, h.tail]

omit [DecidableEq D] in
theorem Counted.up (h : Keeps P g t u) (h' : Keeps P g u.upkeycount v) : Counted P g 1 t v where
  tidy := h'.tidy
  root := h'.root ∘ h.root
  count := by
    have hc : v.totalkeycount = (u.totalkeycount + 1) % 4294967296 := h'.count
    have hu := h.count
    omega
  head := h'.head.trans h.head
  tail := h'.tail.trans h.tail

/-- `erase` reads its key in slot 0 of a leaf without keys. -/
def BTree.wraps (P : Template K D) (t : BTree K D) (k : K) : Except Fault Bool := do
  match ← t.find P k with
  | none => return false
  | some a =>
    let l ← t.leaf a
    return l.slotsinuse = 0 ∧ l.keySlots.head? = some k

theorem counted_erase (h : Tidy P g t) (hwrap : t.wraps P k ≠ .ok true) :
    Ensures (t.erase P k) fun r => Counted P g (if 0 ≤ r.1 then -1 else 0) t r.2 := by
  refine .bind fun n hn => ?_
  cases n with
  | none => exact .pure h.refl.counted
  | some a =>
    refine .bind fun l hl => .bind fun loc hloc => .bind fun x hx => .ite (fun hk => ?_) fun _ =>
      .pure h.refl.counted
    obtain rfl := (keyequal_iff k x).mp hk
    have hpos : 0 < l.slotsinuse := by
      refine Nat.pos_of_ne_zero fun hzero => ?_
      obtain rfl : 0 = loc := by simpa [findKeyEqual, hzero, scan] using hloc
      have hhead : l.keySlots.head? = some k := by
        unfold load at hx
        rw [List.head?_eq_getElem?]
        split at hx <;> simp_all
      exact hwrap (by simp [BTree.wraps, hn, hl, hzero, hhead])
    refine .bind fun ks hks => .seq (Q := Keeps P g t) ?_ fun u hu => ?_
    · have hs := h.leaf (BTree.body_of_leaf hl).1
      exact keeps_setLeaf h (hs.erase hpos hloc hks)
    · have hloc : (if (0 : Int) ≤ loc then -1 else 0 : Int) = -1 := if_pos (Int.natCast_nonneg loc)
      refine .ite (fun _ => .pure ?_) fun _ => ?_
      · rw [hloc]
        exact .down hu hu.tidy.downkeycount.refl
      · refine .seq (keeps_balanceTree hu.tidy.downkeycount) fun v hv => .pure ?_
        rw [hloc]
        exact .down hu hv

theorem counted_deletePair (h : Tidy P g t) :
    Ensures (t.deletePair P k d) fun r => Counted P g (if 0 ≤ r.1 then -1 else 0) t r.2 := by
  refine .bind fun n hn => ?_
  cases n with
  | none => exact .pure h.refl.counted
  | some a =>
    refine .bind fun r hr => ?_
    obtain ⟨i, u⟩ := r
    obtain ⟨rfl, rfl, -⟩ | ⟨u, hi, rfl, hu⟩ := deleteLeafPair_cases h hr
    · exact .pure h.refl.counted
    · refine .ite (fun hneg => absurd hneg (not_lt.mpr hi)) fun _ => ?_
      refine .seq (keeps_balanceTree hu.tidy.downkeycount) fun v hv => .pure ?_
      rw [if_pos hi]
      exact .down hu hv

omit [DecidableEq D] in
theorem keeps_newLeaf (h : Tidy P g t) : Keeps P g t (t.newLeaf P) where
  tidy := {
    leaf := fun {b s} hs => by
      simp only [BTree.view, BTree.newLeaf, Store.get_alloc] at hs
      split_ifs at hs
      · cases hs
        exact .fresh P _
      · exact h.leaf hs
    count := h.count }
  root := id
  count := rfl
  head := rfl
  tail := rfl

omit [LinearOrder K] [DecidableEq D] in
/-- The two new leaves of a split are empty. -/
theorem fresh_newLeaf {m m' : LeafNode K D}
    (hm : ((t.newLeaf P).newLeaf P).leaf t.nodes.size = .ok m)
    (hm' : ((t.newLeaf P).newLeaf P).leaf (t.nodes.size + 1) = .ok m') :
    (∃ r, LeafIs P m.toLeafSlots [] r) ∧ ∃ r, LeafIs P m'.toLeafSlots [] r := by
  have hb := (BTree.body_of_leaf hm).1
  have hb' := (BTree.body_of_leaf hm').1
  rw [BTree.newLeaf_view, BTree.newLeaf_view] at hb hb'
  simp only [View.body_alloc, View.size_alloc, BTree.size_view, BTree.newLeaf, Store.size_alloc,
    Nat.left_eq_add, Nat.one_ne_zero, if_false, if_true, Option.some.injEq, Body.leaf.injEq]
    at hb hb'
  exact ⟨⟨_, hb ▸ LeafIs.fresh P _⟩, ⟨_, hb' ▸ LeafIs.fresh P _⟩⟩

omit [DecidableEq D] in
theorem counted_splitLeaf (hleaf : P.leafnodemax = 4) (hinner : P.innernodemax = 4) (h : Tidy P g t)
    (hk : k ∈ g) {l : LeafNode K D} (hl : t.leaf a = .ok l)
    (hfull : l.slotsinuse = P.innernodemax) :
    Ensures (t.splitLeaf P a k d) (Counted P g 1 t) := by
  have hs := h.leaf (BTree.body_of_leaf hl).1
  rw [hinner, ← hleaf] at hfull
  have h₁ := keeps_newLeaf h
  have h₂ := keeps_newLeaf h₁.tidy
  refine .bind fun l' hl' => ?_
  obtain rfl := Except.ok.inj (hl.symm.trans hl')
  refine .bind fun m hm => .bind fun m' hm' => .bind fun r hsplit => ?_
  obtain ⟨⟨_, hm⟩, ⟨_, hm'⟩⟩ := fresh_newLeaf hm hm'
  obtain ⟨sln, slp⟩ := r
  obtain ⟨hln, hlp⟩ := hs.split hleaf hk hfull hm hm' hsplit
  refine .seq (keeps_setLeaf h₂.tidy hln) fun u hu => ?_
  refine .seq (keeps_setLeaf hu.tidy hlp) fun v hv => ?_
  refine .bind fun kp _ => ?_
  have hup := hv.tidy.upkeycount
  refine .mono (Q := Keeps P g v.upkeycount) ?_ fun w hw =>
    .up (IsTrans.trans _ _ _ h₁ (IsTrans.trans _ _ _ h₂ (IsTrans.trans _ _ _ hu hv))) hw
  refine .mono ?_ fun w hw => hup.frame hw
  exact .trans BTree.frame_linkLeaves fun _ => .trans BTree.frame_insertInParent fun _ =>
    BTree.frame_freeNode

omit [DecidableEq D] in
theorem find_ne_none (hroot : t.root ≠ none) : t.find P k ≠ .ok none := by
  intro h
  unfold BTree.find at h
  cases hr : t.root with
  | none => exact hroot hr
  | some r =>
    rw [hr] at h
    obtain ⟨l, -, h⟩ := bind_eq_ok.mp h
    obtain ⟨m, -, h⟩ := bind_eq_ok.mp h
    cases h

/-- `insert` into a tree with nodes. -/
theorem counted_insert (hleaf : P.leafnodemax = 4) (hinner : P.innernodemax = 4) (h : Tidy P g t)
    (hroot : t.root ≠ none) (hk : k ∈ g) :
    Ensures (t.insert P k d) fun r => Counted P g (if r.1 = 1 then 1 else 0) t r.2 := by
  refine .ite (fun hnone => absurd (Option.isNone_iff_eq_none.mp hnone) hroot) fun _ => ?_
  refine .bind fun n hn => ?_
  cases n with
  | none => exact absurd hn (find_ne_none hroot)
  | some n =>
    refine .bind fun r hr => ?_
    obtain ⟨i, u⟩ := r
    have hr : t.insertLeafPair P n k d = .ok (i, u) := hr
    have hu : Keeps P g t u := keeps_insertLeafPair h hk _ hr
    have hplaced : Ensures (pure (1, u.upkeycount) : Except Fault (Int × BTree K D))
        fun r => Counted P g (if r.1 = 1 then 1 else 0) t r.2 :=
      .pure (.up hu hu.tidy.upkeycount.refl)
    refine .ite (fun hi => .pure ?_) fun _ => .ite (fun _ => ?_) fun _ => hplaced
    · rw [if_neg (show ¬i = 1 by rw [hi]; decide)]
      exact hu.counted
    · refine .bind fun l hl => .ite (fun hfull => ?_) fun _ => hplaced
      refine .seq (counted_splitLeaf hleaf hinner hu.tidy hk hl hfull) fun v hv => .pure ?_
      exact ⟨hv.tidy, hv.root ∘ hu.root, hu.count ▸ hv.count, hv.head.trans hu.head,
        hv.tail.trans hu.tail⟩

/-- `makeroot`: the new leaf is the head of the chain. -/
theorem tidy_makeRoot (h : Tidy P g t) (hk : k ∈ g) :
    Ensures (t.makeRoot P k d) fun u => Tidy P g u ∧ u.root ≠ none ∧
      u.headleaf = some t.nodes.size ∧ u.tailleaf = t.tailleaf ∧
      u.totalkeycount = t.totalkeycount := by
  have h₁ := keeps_newLeaf h
  refine .bind fun u hu => .bind fun r hr => .pure ?_
  have h₂ := h₁.tidy.frame (BTree.frame_setIsRoot u hu)
  obtain ⟨htidy, -, hcount, -, htail⟩ : Keeps P g t r.2 := IsTrans.trans _ _ _ h₁
    (IsTrans.trans _ _ _ h₂ (keeps_insertLeafPair h₂.tidy hk r hr))
  exact ⟨⟨htidy.leaf, htidy.count⟩, nofun, rfl, htail, hcount⟩

end Tree

end NwtBTree
