import NwtBTree.Calls.SplitFull
import NwtBTree.Multiway.Shrink
import NwtBTree.Runs.Append

/-!
# Two capacities

`insertleafpair` tests a leaf against the leaf capacity and `insert` then tests it
against the capacity of inner nodes. Where the two differ the pair that does not
fit is dropped and counted.
-/

namespace NwtBTree

variable {K D : Type} [LinearOrder K] [DecidableEq D] {P : Template K D} {es as bs : List (K × D)}
  {e : K × D}

/-- Inserting `es` into an empty tree comes to an end, and `get` finds every pair whose
insert returned `1`. -/
def KeepsPairs (P : Template K D) (es : List (K × D)) : Prop :=
  ∃ rs t, run (BTree.insertStep P) BTree.init es = .ok (rs, t) ∧
    ∀ (i : Nat) (e : K × D), es[i]? = some e → rs[i]? = some 1 → t.get P e.1 = .ok (e.2, true)

/-- After each of the inserts. -/
def KeepsAll (P : Template K D) (es : List (K × D)) : Prop :=
  ∀ as, as <+: es → KeepsPairs P as

/-- The capacities for which the last of `s` ascending inserts is not lost. -/
def Fitting (P : Template K D) (s : Nat) : Prop :=
  s ≤ P.leafnodemax ∨ P.leafnodemax = P.innernodemax ∧
    (3 ≤ P.leafnodemax ∨ P.leafnodemax = 2 ∧ s ≤ 4)

omit [LinearOrder K] [DecidableEq D] in
theorem Fitting.mono {s s' : Nat} (h : Fitting P s) (hs : s' ≤ s) : Fitting P s' := by
  unfold Fitting at *
  omega

/-! ## Loads that fit -/

section Fits

variable {t : BTree K D} {T : (n : Nat) × MTree K D n} {I : List (Item Addr K (LeafSlots K D))}
  {l : Tip Addr (LeafSlots K D)}

omit [DecidableEq D] in
theorem Loaded.fullLast_single (h : Loaded P t T [] l) : FullLast P t.view T.2.inorder := by
  intro m hm
  obtain rfl : m = l := by simpa [h.seq] using hm
  exact .inr (h.chain.last m.addr (by simp [h.seq]))

theorem keepsPairs_of_loaded {rs : List Int}
    (hrun : run (BTree.insertStep P) BTree.init es = .ok (rs, t)) (h : Loaded P t T I l)
    (hfull : FullLast P t.view T.2.inorder) (hp : pairs T.2.inorder = es) : KeepsPairs P es := by
  refine ⟨rs, t, hrun, fun i e he _ => get_mem h.rep h.order hfull ?_⟩
  rw [hp]
  exact List.mem_of_getElem? he

/-- As long as the root leaf has room. -/
theorem load_room (hne : es ≠ []) (hasc : es.Pairwise (fun a b => a.1 < b.1))
    (hlen : es.length ≤ P.leafnodemax) :
    ∃ t T l, run (BTree.insertStep P) BTree.init es = .ok (List.replicate es.length 1, t) ∧
      Loaded P t T [] l ∧ pairs T.2.inorder = es := by
  induction es using List.reverseRecOn with
  | nil => exact absurd rfl hne
  | append_singleton es e ih =>
    obtain ⟨hes, -, hlast⟩ := List.pairwise_append.mp hasc
    rw [List.length_append, List.length_singleton] at hlen
    by_cases hnil : es = []
    · subst hnil
      obtain ⟨t, T, l, e1, hl, hp, -, -⟩ := loaded_first (P := P) (t := BTree.init) (k := e.1)
        (d := e.2) (by omega) rfl rfl
      exact ⟨t, T, l, run_cons e1 (run_nil t), hl, hp⟩
    · obtain ⟨t, T, l, e1, hl, hp⟩ := ih hnil hes (by omega)
      have hpos := List.length_pos_of_ne_nil hnil
      have hentries : l.body.entries = es := by
        rw [← hp, hl.seq]
        simp
      obtain ⟨-, hok⟩ := hl.rep.holds.tip hl.rep.paired (l := l) (by simp [hl.seq])
      obtain ⟨t', T', l', e2, hl', hentries', -, -⟩ := hl.push_room (d := e.2) (k := e.1)
        (by omega) (fun x hx => hlast x (hp ▸ hx) e (by simp))
        (by rw [hok.leafIs.inuse, hentries]; omega)
      refine ⟨t', T', l', ?_, hl', by rw [hl'.seq]; simp [hentries', hentries]⟩
      have := @run_concat _ _ _ _ _ _ _ _ e _ _ _ e1 e2
      rw [← List.replicate_succ'] at this
      simpa using this

/-! Capacity two: the root of height one takes two separators. -/

omit [LinearOrder K] [DecidableEq D] in
theorem Ctx.growable_of_seps {cap : Nat} {c : MCtx K D 0} (hc : c.Paired)
    (h : (seps c.left).length < cap) : c.Growable cap := by
  cases c with
  | top => exact Nat.zero_lt_of_lt h
  | frame up a ksL csL ksR csR =>
    right
    have := (Ctx.sublist_seps_before hc.1).length_le
    rw [left_frame, seps_append, List.length_append] at h
    omega

theorem Loaded.split_two (hl : P.leafnodemax = 2) (hn : P.innernodemax = 2)
    (h : Loaded P t T I l) (hk : ∀ x ∈ pairs T.2.inorder, x.1 < e.1) (hI : (seps I).length < 2)
    (hT : T.1 ≤ 1) (hfull : l.body.slotsinuse = 2) :
    ∃ t' T' I' l', t.insert P e.1 e.2 = .ok (1, t') ∧ Loaded P t' T' I' l' ∧
      pairs T'.2.inorder = pairs T.2.inorder ++ [e] ∧ (seps I').length = (seps I).length + 1 ∧
      T'.1 = 1 ∧ l'.body.slotsinuse = 2 := by
  obtain ⟨c, rfl, hc, hr, hleft, hright⟩ := h.route hk
  have hgrow : c.Growable P.innernodemax := by
    refine Ctx.growable_of_seps hc ?_
    rwa [hleft, hn]
  obtain ⟨a, s⟩ := l
  obtain ⟨-, hok⟩ := h.rep.holds.tip h.rep.paired (l := ⟨a, s⟩) (by simp [h.seq])
  obtain ⟨t', sln, slp, e', e1, hp, h', hpairs⟩ := h.split_last (d := e.2) (by omega) hgrow
    (by omega) hc hr hleft hright hk (by rw [hl]; exact hfull)
  refine ⟨t', _, _, _, e1, h', hpairs, by simp, ?_, ?_⟩
  · cases c with
    | top => rfl
    | frame up b ksL csL ksR csR =>
      rw [Ctx.height_fill, Ctx.depth] at hT
      have hroom : ksL.length < P.innernodemax := hgrow.resolve_left (by omega)
      rw [Ctx.pushUp_room _ _ _ _ _ _ _ _ _ hroom, Ctx.height_fill]
      omega
  · have hlen : s.entries.length = 2 := by
      rw [← hok.leafIs.inuse]
      exact hfull
    rw [hp.upper.inuse, List.length_drop, List.length_append, hlen, hl]
    rfl

theorem load_two (hl : P.leafnodemax = 2) (hn : P.innernodemax = 2)
    (hasc : es.Pairwise (fun a b => a.1 < b.1)) (hlen : es.length = 3 ∨ es.length = 4) :
    ∃ t T I l, run (BTree.insertStep P) BTree.init es = .ok (List.replicate es.length 1, t) ∧
      Loaded P t T I l ∧ pairs T.2.inorder = es ∧ (seps I).length + 2 = es.length ∧ T.1 = 1 ∧
      l.body.slotsinuse = 2 := by
  induction es using List.reverseRecOn with
  | nil => simp at hlen
  | append_singleton es e ih =>
    obtain ⟨hes, -, hlast⟩ := List.pairwise_append.mp hasc
    rw [List.length_append, List.length_singleton] at hlen
    obtain ⟨t, T, I, l, e1, h, hp, hI, hT, hfull⟩ : ∃ t T I l,
        run (BTree.insertStep P) BTree.init es = .ok (List.replicate es.length 1, t) ∧
        Loaded P t T I l ∧ pairs T.2.inorder = es ∧ (seps I).length + 2 = es.length ∧ T.1 ≤ 1 ∧
        l.body.slotsinuse = 2 := by
      by_cases htwo : es.length = 2
      · obtain ⟨t, T, l, e1, h, hp⟩ := load_room (P := P) (by rintro rfl; simp at htwo) hes
          (by omega)
        obtain ⟨-, hok⟩ := h.rep.holds.tip h.rep.paired (l := l) (by simp [h.seq])
        have hentries : l.body.entries = es := by
          rw [← hp, h.seq]
          simp
        refine ⟨t, T, [], l, e1, h, hp, by simp [htwo], ?_, ?_⟩
        · rw [Tree.height_eq_zero h.rep.paired h.seq]
          exact Nat.zero_le 1
        · rw [hok.leafIs.inuse, hentries, htwo]
      · obtain ⟨t, T, I, l, e1, h, hp, hI, hT, hfull⟩ := ih hes (by omega)
        exact ⟨t, T, I, l, e1, h, hp, hI, le_of_eq hT, hfull⟩
    obtain ⟨t', T', I', l', e2, h', hp', hI', hT', hfull'⟩ := h.split_two (e := e) hl hn
      (fun x hx => hlast x (hp ▸ hx) e (by simp)) (by omega) hT hfull
    refine ⟨t', T', I', l', ?_, h', by rw [hp', hp], ?_, hT', hfull'⟩
    · have := run_concat e1 (show BTree.insertStep P t e = _ from e2)
      rw [← List.replicate_succ'] at this
      simpa using this
    · rw [hI', List.length_append, List.length_singleton]
      omega

theorem keepsPairs_of_fitting (hasc : es.Pairwise (fun a b => a.1 < b.1))
    (h : Fitting P es.length) : KeepsPairs P es := by
  by_cases hne : es = []
  · subst hne
    exact ⟨[], BTree.init, rfl, by simp⟩
  have hpos := List.length_pos_of_ne_nil hne
  obtain hroom | ⟨hsame, hthree | ⟨htwo, hfour⟩⟩ := h
  · obtain ⟨t, T, l, e1, hl, hp⟩ := load_room hne hasc hroom
    exact keepsPairs_of_loaded e1 hl hl.fullLast_single hp
  · obtain ⟨t, T, I, l, e1, hl, hp, -, -⟩ := load_spec (P := P) (by omega) hsame hne hasc
    exact keepsPairs_of_loaded e1 hl (hl.fullLast (by omega)) hp
  · by_cases hroom : es.length ≤ 2
    · obtain ⟨t, T, l, e1, hl, hp⟩ := load_room hne hasc (hroom.trans (ge_of_eq htwo))
      exact keepsPairs_of_loaded e1 hl hl.fullLast_single hp
    · obtain ⟨t, T, I, l, e1, hl, hp, -⟩ := load_two (P := P) htwo (by omega) hasc (by omega)
      exact keepsPairs_of_loaded e1 hl (hl.fullLast (by omega)) hp

end Fits

/-! ## Loads that do not fit -/

section Lost

variable {t : BTree K D} {T : (n : Nat) × MTree K D n} {l : Tip Addr (LeafSlots K D)}

theorem not_keepsPairs
    (e1 : run (BTree.insertStep P) BTree.init as = .ok (List.replicate as.length 1, t))
    (h : ∃ t', t.insert P e.1 e.2 = .ok (1, t') ∧ t'.get P e.1 = .ok (P.emptyData, false)) :
    ¬KeepsPairs P (as ++ [e]) := by
  rintro ⟨rs, t', e2, hkeeps⟩
  obtain ⟨t'', e3, hget⟩ := h
  obtain ⟨out, e4, rfl⟩ := run_concat_inv e1 e2
  obtain ⟨rfl, rfl⟩ : 1 = out ∧ t'' = t' := by
    simpa [BTree.insertStep, e3] using e4
  have := hkeeps as.length e (by simp) (by simp)
  simp [hget] at this

/-- The counter goes up and the pair is nowhere. -/
theorem lost_of_differ (hne : P.leafnodemax ≠ P.innernodemax) (h : Loaded P t T [] l)
    (hk : ∀ x ∈ pairs T.2.inorder, x.1 < e.1) (hfull : l.body.slotsinuse = P.leafnodemax) :
    ∃ t', t.insert P e.1 e.2 = .ok (1, t') ∧ t'.get P e.1 = .ok (P.emptyData, false) := by
  obtain ⟨c, rfl, hc, hr, hleft, hright⟩ := h.route hk
  obtain ⟨a, s⟩ := l
  obtain ⟨hbody, hok⟩ := h.rep.holds.tip h.rep.paired (l := ⟨a, s⟩) (by simp [h.seq])
  have hs := hok.leafIs
  have hlen : s.entries.length = P.leafnodemax := hs.inuse ▸ hfull
  have hnext : t.view.links.nxt a = none := h.chain.last a (by simp [h.seq])
  have hfind := BTree.find_stay h.rep.stands hc hr hs (.inr (.inr hnext))
  refine ⟨t.upkeycount, ?_, ?_⟩
  · have hroot := isNone_root h.rep.root_ne
    have hnot : s.slotsinuse ≠ P.innernodemax := fun h => hne (hfull.symm.trans h)
    simp [BTree.insert, hroot, hfind, insertLeafPair_full hbody hs hlen, BTree.leaf_eq hbody, hnot]
  · have hrep : Rep P t.upkeycount.view (c.fill (.leaf a s)).2 :=
      h.rep.congr rfl (fun _ _ => rfl) (fun _ _ => rfl) (fun _ _ => rfl) fun _ _ => ⟨rfl, rfl⟩
    refine get_not_mem hrep h.order h.fullLast_single fun hm => ?_
    obtain ⟨x, hx, he⟩ := List.mem_map.mp hm
    exact absurd (hk x hx) (by simp [he])

omit [DecidableEq D] in
theorem get_empty {a : Addr} {s : LeafSlots K D} (hroot : t.root = some a)
    (hbody : t.view.body a = some (.leaf s)) (hs : s.slotsinuse = 0)
    (hnext : t.view.links.nxt a = none) (k : K) : t.get P k = .ok (P.emptyData, false) := by
  obtain ⟨f, hf⟩ := fuel_eq hbody
  have hfind : t.find P k = .ok (some a) := by
    simp [BTree.find, hroot, hf, BTree.descend, BTree.isleaf_leaf hbody, BTree.leafWalk,
      BTree.leaf_eq hbody, hs, scan, hnext]
  simp [BTree.get, hfind, BTree.leaf_eq hbody, hs, scan]

/-- A root leaf without slots. -/
theorem lost_of_zero (hl : P.leafnodemax = 0) (hroot : t.root = none) :
    ∃ t', t.insert P e.1 e.2 = .ok (1, t') ∧ t'.get P e.1 = .ok (P.emptyData, false) := by
  have hb0 : (t.newLeaf P).view.body t.nodes.size =
      some (.leaf (LeafNode.fresh P t.nodes.size).toLeafSlots) := by
    rw [BTree.newLeaf_view]
    simp
  obtain ⟨t1, e1, v1⟩ := BTree.setIsRoot_view hb0 true
  have hb1 : t1.view.body t.nodes.size =
      some (.leaf (LeafNode.fresh P t.nodes.size).toLeafSlots) := by
    rw [v1]
    exact hb0
  have hnext : t1.view.links.nxt t.nodes.size = none := by
    rw [v1, View.links_setFlag, BTree.newLeaf_view]
    exact (BTree.links_new (le_refl _)).1
  have e2 := insertLeafPair_full (k := e.1) (d := e.2) hb1 (LeafIs.fresh P t.nodes.size) hl.symm
  refine ⟨_, ?_, get_empty (t := BTree.upkeycount
    { t1 with headleaf := some t.nodes.size, root := some t.nodes.size }) rfl hb1 rfl hnext e.1⟩
  simp [BTree.insert, hroot, BTree.makeRoot, e1, e2]

omit [DecidableEq D] in
/-- A leaf of one slot is split into an empty leaf and itself. -/
theorem leafSplit_single (hl : P.leafnodemax = 1) {s ln lp : LeafSlots K D} {x : K × D}
    {r rp : List K} (hs : LeafIs P s [x] r) (hx : x.1 < e.1) (hlp : LeafIs P lp [] rp) :
    ∃ lp', leafSplit P s ln lp e.1 e.2 = .ok (ln, lp') ∧ LeafIs P lp' [x] rp.tail := by
  obtain ⟨lp', e1, hlp'⟩ := insertLeafSlotsAt_end hlp (by simp [hl]) x.1 x.2 rfl
  replace e1 : insertLeafSlotsAt P lp x.1 x.2 0 = .ok lp' := e1
  refine ⟨lp', ?_, hlp'⟩
  have hkey : load s.keySlots 0 = .ok x.1 := hs.load_key (i := 0) Nat.one_pos
  have hdata : load s.dataSlots 0 = .ok x.2 := hs.load_data (i := 0) Nat.one_pos
  have huse : s.slotsinuse = 1 := hs.inuse
  have hslots : lp'.slots = 1 := hlp'.slots.trans hl
  have hnot : ¬e.1 < x.1 := lt_asymm hx
  have hend : insertLeafSlotsAt P lp' e.1 e.2 1 = .ok lp' := by
    simp [insertLeafSlotsAt, insertLeafKeyAt, insertLeafDataAt, hslots, hl]
  simp [leafSplit, leafSplitLoop, leafSplitBody, huse, hkey, hdata, keygreater, hnot, e1, hend]

/-- A root leaf of one slot: the pair that is split off is dropped. -/
theorem lost_of_one (hl : P.leafnodemax = 1) (hn : P.innernodemax = 1) (h : Loaded P t T [] l)
    (hk : ∀ x ∈ pairs T.2.inorder, x.1 < e.1) (hfull : l.body.slotsinuse = 1) :
    ∃ t', t.insert P e.1 e.2 = .ok (1, t') ∧ t'.get P e.1 = .ok (P.emptyData, false) := by
  obtain ⟨n, T⟩ := T
  obtain rfl : n = 0 := Tree.height_eq_zero h.rep.paired h.seq
  obtain ⟨a, s⟩ := T
  obtain rfl : (⟨a, s⟩ : Tip Addr (LeafSlots K D)) = l := by simpa using h.seq
  have hpairs : pairs (Tree.leaf a s : MTree K D 0).inorder = s.entries := by simp
  obtain ⟨hbody, hok⟩ := h.rep.holds.tip h.rep.paired (l := ⟨a, s⟩) (by simp [h.seq])
  obtain ⟨x, hx⟩ : ∃ x, s.entries = [x] :=
    List.length_eq_one_iff.mp (hok.leafIs.inuse ▸ hfull)
  have hs := hok.leafIs
  rw [hx] at hs hpairs
  rw [hpairs] at hk
  have hlt : x.1 < e.1 := hk x (by simp)
  have hnext : t.view.links.nxt a = none := h.chain.last a (by simp)
  have hrep : Rep P t.view ((.top : MCtx K D 0).fill (.leaf a s)).2 := h.rep
  have hfind := BTree.find_stay (k := e.1) h.rep.stands (c := .top) trivial trivial hs
    (.inr (.inr hnext))
  obtain ⟨slp, e1, hslp⟩ := leafSplit_single hl hs hlt
    (LeafIs.fresh (D := D) P (t.nodes.size + 1))
  have hsln := LeafIs.fresh (D := D) P t.nodes.size
  have hkp : load slp.keySlots 0 = .ok x.1 := hslp.load_key (i := 0) Nat.one_pos
  obtain ⟨t', e2, hdone⟩ := splitLeaf_done (P := P) (c := .top) hn.ge hrep trivial e1 hsln.ok
    hslp.ok hkp trivial
  refine ⟨t', insert_split h.rep.root_ne (hl.trans hn.symm) hfind hbody hs (by simp [hl]) e2, ?_⟩
  have hkeys : slp.keys = [x.1] := hslp.keys_eq
  have hkeys' : (LeafNode.fresh (D := D) P t.nodes.size).keys = [] := hsln.keys_eq
  have hseq : ((.top : MCtx K D 0).pushUp P.innernodemax id (t.nodes.size + 2)
      (.leaf t.nodes.size (LeafNode.fresh P t.nodes.size).toLeafSlots) x.1
      (.leaf (t.nodes.size + 1) slp)).2.inorder =
      [.inr ⟨t.nodes.size, (LeafNode.fresh P t.nodes.size).toLeafSlots⟩, .inl x.1,
        .inr ⟨t.nodes.size + 1, slp⟩] := by
    rw [Ctx.pushUp_top, Tree.inorder_node]
    rfl
  have hlast : t'.view.links.nxt (t.nodes.size + 1) = none := by
    have hlt : a < t.nodes.size := BTree.body_lt_size hbody
    rw [hdone.nxt _ (Nat.ne_of_gt (Nat.lt_succ_of_lt hlt))]
    have hnd : ([] ++ [t.nodes.size, t.nodes.size + 1]).Nodup := by simp
    refine (Links.grow_nxt_last hnd).trans ?_
    exact (BTree.links_new (Nat.le_succ _)).1
  refine get_not_mem hdone.rep ?_ ?_ ?_
  · rw [hseq]
    exact ⟨by simp [hkeys, hkeys'], by simp [hkeys, hkeys']⟩
  · intro m hm
    rw [hseq] at hm
    obtain rfl | rfl : m = _ ∨ m = _ := by simpa using hm
    · exact .inl (by rw [hsln.inuse, hl]; exact Nat.one_pos)
    · exact .inr hlast
  · rw [hseq]
    simp [hsln.entries_eq, hslp.entries_eq, hlt.ne']

end Lost

/-! ## A full node of two keys

The key that moves up is taken when the loop reaches the key after the middle; in a node
of two keys there is none. -/

namespace BTree

variable {p pN ppN N N' : Addr} {k : K} {s₀ : InnerSlots K} {s s' : InnerSplit K D}

omit [DecidableEq D] in
theorem splitPushed_kp (h : splitPushed p pN N k N' s = .ok s')
    (hsource : s.t.view.body p = some (.inner s₀)) (hp : p ≠ pN) :
    s'.t.view.body p = some (.inner s₀) ∧ s'.kp = s.kp ∧ s'.i ≤ s.i := by
  have hinto : ∀ {i j l : Nat} {t₁ t₂ t₃ : BTree K D}, s.t.insertKeyAt pN k i = .ok t₁ →
      t₁.insertChildAt pN (some N) j = .ok t₂ → t₂.insertChildAt pN (some N') l = .ok t₃ →
      t₃.view.body p = some (.inner s₀) := by
    intro i j l t₁ t₂ t₃ h1 h2 h3
    rw [(body_of_insertChildAt h3).1 p hp, (body_of_insertChildAt h2).1 p hp,
      (body_of_insertKeyAt h1).1 p hp, hsource]
  simp only [splitPushed, inner_eq hsource, ok_bind] at h
  obtain ⟨y, -, h⟩ := bind_eq_ok.mp h
  split at h
  · split at h
    all_goals
      obtain ⟨t₁, h1, h⟩ := bind_eq_ok.mp h
      obtain ⟨t₂, h2, h⟩ := bind_eq_ok.mp h
      obtain ⟨t₃, h3, h⟩ := bind_eq_ok.mp h
      obtain rfl := Except.ok.inj h
      exact ⟨hinto h1 h2 h3, rfl, Nat.sub_le _ _⟩
  · obtain rfl := Except.ok.inj h
    exact ⟨hsource, rfl, le_rfl⟩

omit [LinearOrder K] [DecidableEq D] in
theorem splitFirst_kp (h : splitFirst p pN s = .ok s')
    (hsource : s.t.view.body p = some (.inner s₀)) (hp : p ≠ pN) :
    s'.t.view.body p = some (.inner s₀) ∧ s'.kp = s.kp ∧ s'.i = s.i := by
  simp only [splitFirst, inner_eq hsource, ok_bind] at h
  split at h
  · obtain ⟨y, -, h⟩ := bind_eq_ok.mp h
    obtain ⟨t₁, h1, h⟩ := bind_eq_ok.mp h
    obtain ⟨y', -, h⟩ := bind_eq_ok.mp h
    obtain ⟨t₂, h2, h⟩ := bind_eq_ok.mp h
    obtain rfl := Except.ok.inj h
    exact ⟨by rw [(body_of_insertChildAt h2).1 p hp, (body_of_insertKeyAt h1).1 p hp, hsource],
      rfl, rfl⟩
  · obtain rfl := Except.ok.inj h
    exact ⟨hsource, rfl, rfl⟩

omit [LinearOrder K] [DecidableEq D] in
theorem splitSecond_kp (h : splitSecond p ppN s = .ok s')
    (hsource : s.t.view.body p = some (.inner s₀)) (hp : p ≠ ppN) :
    s'.t.view.body p = some (.inner s₀) ∧ s'.kp = s.kp ∧ s'.i = s.i := by
  simp only [splitSecond, inner_eq hsource, ok_bind] at h
  split at h
  · obtain ⟨y, -, h⟩ := bind_eq_ok.mp h
    obtain ⟨t₁, h1, h⟩ := bind_eq_ok.mp h
    obtain ⟨y', -, h⟩ := bind_eq_ok.mp h
    obtain ⟨t₂, h2, h⟩ := bind_eq_ok.mp h
    obtain rfl := Except.ok.inj h
    exact ⟨by rw [(body_of_insertChildAt h2).1 p hp, (body_of_insertKeyAt h1).1 p hp, hsource],
      rfl, rfl⟩
  · obtain rfl := Except.ok.inj h
    exact ⟨hsource, rfl, rfl⟩

omit [DecidableEq D] in
theorem innerSplitLoop_two {fuel : Nat} (h : innerSplitLoop p pN ppN N k N' fuel s = .ok s')
    (hsource : s.t.view.body p = some (.inner s₀)) (htwo : s₀.slotsinuse = 2) (hkp : s.kp = none)
    (hp : p ≠ pN) (hp' : p ≠ ppN) : s'.kp = none := by
  induction fuel generalizing s with
  | zero => simp [innerSplitLoop] at h
  | succ fuel ih =>
    simp only [innerSplitLoop, inner_eq hsource, ok_bind, htwo] at h
    split at h
    · rename_i hi
      obtain ⟨s₁, h1, h⟩ := bind_eq_ok.mp h
      obtain ⟨s₂, h2, h⟩ := bind_eq_ok.mp h
      obtain ⟨s₃, h3, h⟩ := bind_eq_ok.mp h
      obtain ⟨s₄, h4, h⟩ := bind_eq_ok.mp h
      obtain ⟨hsource₁, hkp₁, hi₁⟩ := splitPushed_kp h1 hsource hp
      obtain ⟨hsource₂, hkp₂, hi₂⟩ := splitFirst_kp h2 hsource₁ hp
      obtain ⟨hsource₃, hkp₃, hi₃⟩ := splitSecond_kp h3 hsource₂ hp'
      -- the middle is at `2`
      have hnot : s₃.i ≠ s₀.slotsinuse / 2 + 1 := by omega
      simp only [splitMiddle, inner_eq hsource₃, ok_bind, if_neg hnot] at h4
      obtain rfl := Except.ok.inj h4
      exact ih h hsource₃ (by simp only [hkp₃, hkp₂, hkp₁, hkp])
    · obtain rfl := Except.ok.inj h
      exact hkp

omit [DecidableEq D] in
theorem splitInner_two {t : BTree K D} (hsource : t.view.body p = some (.inner s₀))
    (htwo : s₀.slotsinuse = 2) (r : K × BTree K D) : t.splitInner P p N k N' ≠ .ok r := by
  intro h
  obtain ⟨-, -, -, hbody⟩ := view_newInner_twice P t
  have hlt := body_lt_size hsource
  have hsource₁ : ((t.newInner P).newInner P).view.body p = some (.inner s₀) := by
    rw [hbody p hlt, hsource]
  simp only [splitInner, inner_eq hsource₁, ok_bind] at h
  obtain ⟨s, hloop, h⟩ := bind_eq_ok.mp h
  have hkp := innerSplitLoop_two hloop hsource₁ htwo rfl hlt.ne (Nat.lt_succ_of_lt hlt).ne
  obtain ⟨last, -, h⟩ := bind_eq_ok.mp h
  obtain ⟨t₁, -, h⟩ := bind_eq_ok.mp h
  obtain ⟨t₂, -, h⟩ := bind_eq_ok.mp h
  obtain ⟨q, -, h⟩ := bind_eq_ok.mp h
  obtain ⟨y, -, h⟩ := bind_eq_ok.mp h
  rw [hkp] at h
  cases h

omit [DecidableEq D] in
theorem splitLeaf_two {t : BTree K D} {a : Addr} {l : LeafSlots K D} {d : D}
    (hleaf : t.view.body a = some (.leaf l)) (hpar : t.view.par a = some p)
    (hsource : t.view.body p = some (.inner s₀)) (htwo : s₀.slotsinuse = 2)
    (hnum : s₀.numChildren = P.innernodemax + 1) (t' : BTree K D) :
    t.splitLeaf P a k d ≠ .ok t' := by
  intro h
  have hlt := body_lt_size hsource
  simp only [splitLeaf, leaf_eq hleaf, ok_bind] at h
  obtain ⟨u, -, h⟩ := bind_eq_ok.mp h
  obtain ⟨w, -, h⟩ := bind_eq_ok.mp h
  obtain ⟨⟨x, y⟩, -, h⟩ := bind_eq_ok.mp h
  obtain ⟨t₁, h1, h⟩ := bind_eq_ok.mp h
  obtain ⟨t₂, h2, h⟩ := bind_eq_ok.mp h
  obtain ⟨kp, -, h⟩ := bind_eq_ok.mp h
  obtain ⟨t₃, h3, h⟩ := bind_eq_ok.mp h
  obtain ⟨t₄, h4, -⟩ := bind_eq_ok.mp h
  have hsource₃ : t₃.view.body p = some (.inner s₀) := by
    have hupkey : t₂.upkeycount.view.body = t₂.view.body := rfl
    rw [body_of_linkLeaves h3, hupkey, body_of_setLeaf h2, body_of_setLeaf h1, newLeaf_view,
      newLeaf_view, Function.update_of_ne (Nat.lt_succ_of_lt hlt).ne, Function.update_of_ne hlt.ne]
    simp [hlt.ne, (Nat.lt_succ_of_lt hlt).ne, hsource]
  obtain ⟨f, hf⟩ : ∃ f, t₃.fuel = f + 1 := ⟨t₃.fuel - 1, by unfold fuel; omega⟩
  rw [hf, hpar] at h4
  simp only [insertInParent, inner_eq hsource₃, ok_bind, hnum, Nat.lt_irrefl, if_false] at h4
  obtain ⟨r, h5, -⟩ := bind_eq_ok.mp h4
  exact splitInner_two hsource₃ htwo r h5

end BTree

omit [LinearOrder K] [DecidableEq D] in
theorem seps_before_leaves {ks : List K} {cs : List (MTree K D 0)} (h : ks.length = cs.length) :
    seps (before .inl Tree.inorder ks cs) = ks := by
  induction ks generalizing cs with
  | nil => simp
  | cons k ks ih =>
    cases cs with
    | nil => simp at h
    | cons c cs =>
      obtain ⟨a, s⟩ := c
      have := ih (by simpa using h)
      simpa using this

theorem stuck_of_two {t : BTree K D} {T : (n : Nat) × MTree K D n}
    {I : List (Item Addr K (LeafSlots K D))} {l : Tip Addr (LeafSlots K D)}
    (hl : P.leafnodemax = 2) (hn : P.innernodemax = 2) (h : Loaded P t T I l)
    (hk : ∀ x ∈ pairs T.2.inorder, x.1 < e.1) (hI : (seps I).length = 2) (hT : T.1 = 1)
    (hfull : l.body.slotsinuse = 2) (r : Int × BTree K D) : t.insert P e.1 e.2 ≠ .ok r := by
  obtain ⟨c, rfl, hc, hr, hleft, hright⟩ := h.route hk
  rw [Ctx.height_fill] at hT
  obtain ⟨a, s⟩ := l
  obtain ⟨hbody, hok⟩ := h.rep.holds.tip h.rep.paired (l := ⟨a, s⟩) (by simp [h.seq])
  have hs := hok.leafIs
  have hlen : s.entries.length = P.leafnodemax := (hs.inuse ▸ hfull).trans hl.symm
  have hnext : t.view.links.nxt a = none := h.chain.last a (by simp [h.seq])
  have hfind := BTree.find_stay h.rep.stands hc hr hs (.inr (.inr hnext))
  have hpar : t.view.par a = c.parent := ((parOK_fill c (.leaf a s)).mp h.rep.par).2
  have hhole := h.rep.hole hc
  have h₀ := h.rep.root_ne
  cases c with
  | top => simp [Ctx.depth] at hT
  | frame up b ksL csL ksR csR =>
    cases up with
    | frame => simp [Ctx.depth] at hT
    | top =>
      obtain ⟨rfl, rfl, -⟩ := Ctx.right_eq_nil hc hright
      obtain ⟨s₀, hs₀, hin⟩ := hhole.holds.1
      have hks : ksL.length = 2 := by
        rw [← hleft, Ctx.left_frame, Ctx.left_top, List.nil_append, seps_before_leaves hc.1] at hI
        exact hI
      have hinuse : s₀.slotsinuse = 2 := by
        rw [hin.inuse, List.append_nil, hks]
      have hnum : s₀.numChildren = P.innernodemax + 1 := by
        rw [hin.num, hn]
        simp [← hc.1, hks]
      intro h
      have hlen' : s.slotsinuse = P.innernodemax := hfull.trans hn.symm
      simp only [BTree.insert, isNone_root h₀, Bool.false_eq_true, if_false, hfind, ok_bind,
        insertLeafPair_full hbody hs hlen, BTree.leaf_eq hbody, hlen', if_true] at h
      obtain ⟨t', hsplit, -⟩ := bind_eq_ok.mp h
      exact BTree.splitLeaf_two hbody hpar hs₀ hinuse hnum t' hsplit

/-! ## The condition -/

/-- The first insert that does not fit. -/
theorem not_keepsPairs_next (hasc : (as ++ [e]).Pairwise (fun a b => a.1 < b.1))
    (h : Fitting P as.length) (hnot : ¬Fitting P (as.length + 1)) : ¬KeepsPairs P (as ++ [e]) := by
  obtain ⟨has, -, hlast⟩ := List.pairwise_append.mp hasc
  unfold Fitting at h hnot
  by_cases hne : as = []
  · subst hne
    exact not_keepsPairs rfl (lost_of_zero (by simp at h hnot; omega) rfl)
  have hpos := List.length_pos_of_ne_nil hne
  by_cases hroom : as.length ≤ P.leafnodemax
  · -- the root leaf is full
    obtain ⟨t, T, l, e1, hl, rfl⟩ := load_room hne has hroom
    have hk := fun x hx => hlast x hx e (by simp)
    obtain ⟨-, hok⟩ := hl.rep.holds.tip hl.rep.paired (l := l) (by simp [hl.seq])
    have hfull : l.body.slotsinuse = P.leafnodemax := by
      have : (pairs T.2.inorder).length = l.body.entries.length := by simp [hl.seq]
      rw [hok.leafIs.inuse]
      omega
    by_cases hsame : P.leafnodemax = P.innernodemax
    · have hone : P.leafnodemax = 1 := by omega
      exact not_keepsPairs e1 (lost_of_one hone (hsame ▸ hone) hl hk (hfull.trans hone))
    · exact not_keepsPairs e1 (lost_of_differ hsame hl hk hfull)
  · obtain ⟨t, T, I, l, e1, hl, rfl, hI, hT, hfull⟩ := load_two (P := P) (by omega) (by omega) has
      (by omega)
    rintro ⟨rs, t', e2, -⟩
    obtain ⟨out, e3, -⟩ := run_concat_inv e1 e2
    exact stuck_of_two (by omega) (by omega) hl (fun x hx => hlast x hx e (by simp)) (by omega) hT
      hfull _ e3

theorem keepsAll_iff (hasc : es.Pairwise (fun a b => a.1 < b.1)) :
    KeepsAll P es ↔ Fitting P es.length := by
  constructor
  · intro h
    induction es using List.reverseRecOn with
    | nil => exact .inl (Nat.zero_le _)
    | append_singleton as e ih =>
      have hfit := ih (List.pairwise_append.mp hasc).1 fun bs hbs =>
        h bs (hbs.trans (List.prefix_append as [e]))
      rw [List.length_append, List.length_singleton]
      by_contra hnot
      exact not_keepsPairs_next hasc hfit hnot (h _ (List.prefix_refl _))
  · intro h as has
    exact keepsPairs_of_fitting (hasc.sublist has.sublist) (h.mono has.length_le)

/-- Four keys in an inner node, three in a leaf. -/
def Template.mixed : Template Nat Nat where
  nodeslots := 4
  leafslots := 3
  junkKey _ _ := 0
  newData := 0
  emptyData := 0

theorem keepsAll_mixed : KeepsAll Template.mixed [(1, 10), (2, 20), (3, 30)] :=
  (keepsAll_iff (by decide)).mpr (.inl (by decide))

/-- The fourth pair is counted and not stored. -/
theorem not_keepsAll_mixed : ¬KeepsAll Template.mixed [(1, 10), (2, 20), (3, 30), (4, 40)] := by
  intro h
  obtain ⟨rs, t, hrun, hkeeps⟩ := h _ (List.prefix_refl _)
  have hlost : (do
      let (rs, t) ← run (BTree.insertStep Template.mixed) BTree.init
        [(1, 10), (2, 20), (3, 30), (4, 40)]
      return (rs, ← t.get Template.mixed 4)) = .ok ([1, 1, 1, 1], (0, false)) := by
    decide +kernel
  rw [hrun, ok_bind] at hlost
  obtain ⟨r, hget, hr⟩ := bind_eq_ok.mp hlost
  obtain ⟨rfl, rfl⟩ := Prod.mk.inj (Except.ok.inj hr)
  have hfound := hkeeps 3 (4, 40) rfl rfl
  cases hget.symm.trans hfound

end NwtBTree
