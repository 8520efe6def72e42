import NwtBTree.Refine.Erase
import NwtBTree.Refine.Load
import NwtBTree.Refine.Seam
import NwtBTree.Refine.Valid

/-!
# Taking the greatest key away

A tree that grew at its right end keeps its shape when its greatest key is erased: the
last leaf stays half full, or joins the leaf in front of it, and so do the inner nodes
above it.
-/

namespace NwtBTree

variable {K D : Type} [LinearOrder K] {P : Template K D} {t : BTree K D}
  {T : (n : Nat) × MTree K D n}
  {I : List (Item Addr K (LeafSlots K D))} {l : Tip Addr (LeafSlots K D)} {c : MCtx K D 0}
  {a : Addr}
  {s : LeafSlots K D}

section Loaded

omit [LinearOrder K] in
theorem Settled.slotsinuse (hP : P.Four) (h : Settled P l) : l.body.slotsinuse = 2 := by
  obtain ⟨es, hlen, hs⟩ := h
  rw [hs.inuse, hlen, hP.leafnodemax]

omit [LinearOrder K] in
/-- The slot behind its pairs has never been written. -/
theorem Settled.beyond_fresh (h : Settled P l) {x : K} (hx : l.body.beyond = some x) :
    ∃ i < P.leafnodemax, x = P.junkKey l.addr i := by
  obtain ⟨es, -, hs⟩ := h
  rw [hs.beyond_eq] at hx
  have hmem := List.mem_of_mem_drop (List.mem_of_mem_head? hx)
  obtain ⟨i, hrange, hi⟩ := List.mem_map.mp hmem
  exact ⟨i, List.mem_range.mp hrange, hi.symm⟩

/-- A tree that grew at the right end is one that removals keep. -/
theorem Loaded.kept (hP : P.Four) (h : Loaded P t T I l) : Kept P t T where
  rep := h.rep
  order := h.order
  bushy := by
    apply h.slanted.bushy
    rintro m rfl
    exact le_refl _
  least := by
    intro m hm
    have hhalf := h.half
    rw [hP.leafnodemax] at hhalf
    rw [h.seq] at hm ⊢
    simp only [tips_append, tips_inr, tips_nil, List.mem_append, List.mem_singleton] at hm
    rcases hm with hm | rfl
    · exact .inl (Settled.slotsinuse hP (h.settled m hm)).ge
    · by_cases hI : I = []
      · exact .inr (by rw [hI]; rfl)
      · exact .inl (hhalf hI)
  most := by
    intro m hm
    rw [h.seq] at hm
    simp only [tips_append, tips_inr, tips_nil, List.dropLast_concat] at hm
    rw [Settled.slotsinuse hP (h.settled m hm)]
    decide
  last := h.chain.last
  count := by
    rw [h.count]
    exact Nat.mod_lt _ (by decide)

/-- Its leaves can be balanced. -/
theorem Loaded.recovers (h : Loaded P t (c.fill (.leaf a s)) I l) (hc : c.Paired) :
    c.Recovers P := by
  cases c with
  | top => trivial
  | frame up b ksL csL ksR csR =>
    obtain ⟨hL, hR, h0, -, -, hup⟩ := id hc
    have hslanted : (up.fill (.node b (ksL ++ ksR) (csL ++ .leaf a s :: csR))).2.Slanted
        (· = P.innernodemax / 2) (P.innernodemax / 2 ≤ ·) := h.slanted
    have hset := Ctx.settles_of_slanted hup hslanted
    rcases List.eq_nil_or_concat csL with rfl | ⟨cL, p, rfl⟩
    · rcases csR with _ | ⟨⟨q, sq⟩, csR⟩
      · trivial
      · obtain rfl := List.eq_nil_of_length_eq_zero hL
        obtain ⟨sep, ksR, rfl⟩ := List.exists_cons_of_length_eq_add_one hR
        change if sq.slotsinuse < 3 then _ else _
        split
        · exact hset _
        · -- the separator is the first key behind it
          have hleads := h.leads
          rw [Ctx.inorder_fill_leaf hc] at hleads
          obtain ⟨⟨q', J, hq, hsep⟩, -⟩ := hleads.of_append
          obtain rfl := Sum.inr.inj (List.cons.inj hq).1
          exact hsep.symm
    · rw [List.concat_eq_append]
      simp only [Ctx.Recovers, List.getLast?_append_cons, List.getLast?_singleton]
      exact fun _ => hset _

/-- Only the last leaf has more than two pairs. -/
theorem Loaded.left_two (hP : P.Four) (h : Loaded P t (c.fill (.leaf a s)) I l) (hc : c.Paired) :
    ∀ m ∈ tips c.left, m.body.slotsinuse = 2 := by
  intro m hm
  have hin := Ctx.inorder_fill_leaf hc (Tree.leaf (K := K) a s)
  rw [h.seq] at hin
  have htips := congrArg (fun J => (tips J).dropLast) hin
  simp only [tips_append, tips_inr, tips_nil, List.dropLast_concat] at htips
  apply Settled.slotsinuse hP
  apply h.settled
  rw [htips, List.dropLast_append_cons]
  exact List.mem_append_left _ hm

end Loaded

/-- The pairs of the tree are those in front of the last leaf and those in it. -/
theorem Loaded.pairs_eq (h : Loaded P t T I l) :
    pairs T.2.inorder = pairs I ++ l.body.entries := by
  rw [h.seq, pairs_append, pairs_inr, pairs_nil, List.append_nil]

theorem Loaded.sorted (h : Loaded P t T I l) :
    ((pairs T.2.inorder).map Prod.fst).Pairwise (· < ·) := by
  rw [← h.rep.allKeys_eq]
  exact h.order.keys_sorted

/-- The greatest key is the last one in the last leaf, where the search for it ends. -/
theorem Loaded.last_pair (hP : P.Four) (h : Loaded P t T I l) {es : List (K × D)} {e : K × D}
    (hpairs : pairs T.2.inorder = es ++ [e]) :
    ∃ (c : MCtx K D 0) (as : List (K × D)) (r : List K), T = c.fill l ∧ c.Paired ∧ c.left = I ∧
      c.right = [] ∧ t.find P e.1 = .ok (some l.addr) ∧ LeafIs P l.body (as ++ [e]) r ∧
      (∀ x ∈ as, x.1 < e.1) ∧ es = pairs I ++ as := by
  have hsort := h.sorted
  rw [hpairs, List.map_append] at hsort
  have hlt : ∀ x ∈ es, x.1 < e.1 := fun x hx =>
    (List.pairwise_append.mp hsort).2.2 x.1 (List.mem_map_of_mem hx) e.1 (by simp)
  have hle : ∀ x ∈ pairs T.2.inorder, x.1 ≤ e.1 := by
    intro x hx
    rw [hpairs, List.mem_append, List.mem_singleton] at hx
    rcases hx with hx | rfl
    · exact (hlt x hx).le
    · exact le_refl _
  obtain ⟨c, rfl, hc, hr, hleft, hright⟩ := h.route_le hle
  have hl := (h.rep.holds.tip h.rep.paired (l := l) (by rw [h.seq]; simp)).2.leafIs
  -- the last leaf is not empty
  have hne : l.body.entries ≠ [] := by
    intro hnil
    by_cases hI : I = []
    · have := h.pairs_eq
      rw [hpairs, hnil, hI] at this
      simp at this
    · have hhalf := h.half hI
      rw [hl.inuse, hnil, hP.leafnodemax] at hhalf
      simp at hhalf
  obtain ⟨as, e', has⟩ : ∃ as e', l.body.entries = as ++ [e'] := by
    rcases List.eq_nil_or_concat l.body.entries with hnil | ⟨as, e', hcut⟩
    · exact absurd hnil hne
    · exact ⟨as, e', by rw [hcut, List.concat_eq_append]⟩
  have hsplit : es ++ [e] = (pairs I ++ as) ++ [e'] := by
    rw [← hpairs, h.pairs_eq, has, List.append_assoc]
  obtain ⟨hes, hee⟩ := List.append_inj' hsplit rfl
  obtain rfl : e = e' := by simpa using hee
  rw [has] at hl
  refine ⟨c, as, _, rfl, hc, hleft, hright, ?_, hl, fun x hx => hlt x ?_, hes⟩
  · exact h.rep.stands.find_stored hc hr (by rw [hl.keys_eq]; simp)
  · rw [hes]
    exact List.mem_append_right _ hx

variable [DecidableEq D]

/-- `erase` of the greatest key; the last leaf has room afterwards. -/
theorem Loaded.pop_room (hP : P.Four) (h : Loaded P t T I l) {es : List (K × D)} {e : K × D}
    (hpairs : pairs T.2.inorder = es ++ [e])
    (hfresh : ∀ b, ∀ i < P.leafnodemax, ∀ x ∈ es, P.junkKey b i ≠ x.1) :
    ∃ (i : Nat) (t' : BTree K D) (T' : (m : Nat) × MTree K D m)
      (I' : List (Item Addr K (LeafSlots K D))) (l' : Tip Addr (LeafSlots K D)),
      t.erase P e.1 = .ok ((i : Int), t') ∧ Loaded P t' T' I' l' ∧ pairs T'.2.inorder = es ∧
        l'.body.slotsinuse < P.leafnodemax := by
  obtain ⟨c, as, r, rfl, hc, hleft, hright, hfind, hs, hlt, hes⟩ := h.last_pair hP hpairs
  obtain ⟨a, s⟩ := l
  change Loaded P t (c.fill (.leaf a s)) I ⟨a, s⟩ at h
  change LeafIs P s (as ++ [e]) r at hs
  have hkept := h.kept hP
  obtain ⟨t', s', es', y, T', e₁, hs', hfst, hsnd, hr⟩ :=
    hkept.erase_pairs hP hc hfind hs hlt fun _ => h.recovers hc
  obtain rfl : es' = as := by
    rw [List.append_nil] at hfst
    rw [List.map_append, List.map_singleton, List.dropLast_concat] at hsnd
    exact (List.zip_of_prod hfst hsnd).trans (List.zip_of_prod rfl rfl).symm
  have hkept' := hkept.removal hP hc hr
  have hrep := hkept.stocked.lessened hc hr.ok (n := (t.totalkeycount + 4294967295) % 4294967296)
  have hin := Ctx.inorder_fill_leaf hc (Tree.leaf (K := K) a s)
  have hin' := Ctx.inorder_fill_leaf hc (Tree.leaf (K := K) a s')
  have hmend : c.Joins s' → c.Mends P.innernodemax := by
    intro hj
    cases c with
    | top => exact hj.elim
    | frame up b ksL csL ksR csR =>
      obtain ⟨rfl, rfl, hup⟩ := Ctx.right_eq_nil hc hright
      obtain ⟨-, ⟨p, hp, -⟩ | ⟨-, q, hq, -⟩⟩ := hj
      · refine ⟨?_, fun _ => .inl (by rw [hup]; rfl)⟩
        rintro rfl
        cases hp
      · cases hq
  have hchain : Chained t'.view.links ((tips T'.2.inorder).map Tip.addr) := by
    refine hr.even.chained hc hrep hmend ?_
    have hch := h.chain
    rw [hin] at hch
    rw [hin']
    simpa using hch
  have hcount : t'.totalkeycount = es.length % 4294967296 := by
    have hlen := congrArg List.length hpairs
    rw [List.length_append, List.length_singleton] at hlen
    rw [← BTree.count_view, hr.even.count]
    change (t.totalkeycount + 4294967295) % 4294967296 = _
    rw [h.count, hlen]
    omega
  obtain ⟨hslanted, -, -⟩ := Ctx.slanted_of_fill hc hright h.slanted
  have heven := hr.even
  cases heven with
  | kept hsize hv hrep' =>
    have hpairs' : pairs (c.fill (.leaf a s')).2.inorder = es := by
      rw [hin', hright, pairs_append, pairs_inr, pairs_nil, List.append_nil, hs'.entries_eq,
        hleft, hes]
    have hseq : (c.fill (.leaf a s')).2.inorder = I ++ [.inr ⟨a, s'⟩] := by rw [hin', hleft, hright]
    have hroom : s'.slotsinuse < P.leafnodemax := by
      have hcap := (h.rep.holds.tip h.rep.paired (l := ⟨a, s⟩) (by rw [h.seq]; simp)).2.inuse
      change s.slotsinuse ≤ _ at hcap
      have hless := hr.less
      omega
    refine ⟨es'.length, t', _, I, ⟨a, s'⟩, e₁, ?_, hpairs', hroom⟩
    exact
      { rep := hkept'.rep
        seq := hseq
        order := hkept'.order
        leads := by
          rw [hseq]
          have hleads := h.leads
          rw [h.seq] at hleads
          cases es' with
          | nil =>
            -- a leaf with one pair is the root
            have hI : I = [] := by
              by_contra hI
              have hhalf := h.half hI
              rw [hP.leafnodemax] at hhalf
              change 2 ≤ s.slotsinuse at hhalf
              rw [hs.inuse] at hhalf
              simp at hhalf
            rw [hI]
            trivial
          | cons x xs =>
            refine hleads.replace ?_ trivial
            change s'.keys.head? = s.keys.head?
            rw [hs'.keys_eq, hs.keys_eq]
            rfl
        settled := h.settled
        half := by
          intro hI
          rw [hP.leafnodemax]
          rcases hsize with hsize | rfl
          · exact hsize
          · exact absurd hleft.symm hI
        slanted := Ctx.slanted_fill hslanted trivial fun _ => trivial
        chain := hchain
        count := by rw [hcount, hpairs'] }
  | @mergedPrev up b p sp sp' sep kL ksR r rp rp' cL csR e' ep ep' T hs₁ hsp hroom hsp' hep'
    hT hrep =>
    obtain rfl : es' = [e'] := hs'.entries_eq.symm.trans hs₁.entries_eq
    obtain ⟨hL, hR, -, -, -, hup⟩ := id hc
    obtain ⟨rfl, rfl, -⟩ := Ctx.right_eq_nil hc hright
    have hL' : kL.length = cL.length := by simpa using hL
    rw [left_prev hc] at hleft
    subst hleft
    have hmem : (⟨p, sp⟩ : Tip Addr (LeafSlots K D)) ∈ tips (up.left ++
        before .inl Tree.inorder kL cL ++ [.inr ⟨p, sp⟩, .inl sep]) := by simp
    have hset := h.settled _ hmem
    have htwo := Settled.slotsinuse hP hset
    change sp.slotsinuse = 2 at htwo
    rw [hsp.inuse] at htwo
    -- the slot behind the pairs has never been written
    have hbeyond : sp.beyond ≠ some e'.1 := by
      intro heq
      obtain ⟨i, hlt, hi⟩ := hset.beyond_fresh heq
      exact hfresh p i hlt e' (by rw [hes]; simp) hi.symm
    obtain rfl : ep' = ep ++ [e'] := by
      rcases hep' with ⟨heq, -⟩ | ⟨-, hep'⟩
      · exact absurd heq hbeyond
      · exact hep'
    have hseq : T'.2.inorder = (up.left ++ before .inl Tree.inorder kL cL) ++ [.inr ⟨p, sp'⟩] := by
      rw [settled_prev hc hT, hright]
    have hpairs' : pairs T'.2.inorder = es := by
      rw [hseq, hes]
      simp only [pairs_append, pairs_inr, pairs_inl, pairs_nil, List.append_nil, hsp.entries_eq,
        hsp'.entries_eq, List.append_assoc]
    have hthree : sp'.slotsinuse < P.leafnodemax := by
      rw [hsp'.inuse, List.length_append, htwo, List.length_singleton, hP.leafnodemax]
      decide
    refine ⟨1, t', T', up.left ++ before .inl Tree.inorder kL cL, ⟨p, sp'⟩, e₁, ?_, hpairs',
      hthree⟩
    exact
      { rep := hkept'.rep
        seq := hseq
        order := hkept'.order
        leads := by
          have hleads := h.leads
          rw [h.seq] at hleads
          rw [hseq]
          simp only [List.append_assoc, List.cons_append, List.nil_append] at hleads ⊢
          rw [← List.append_assoc] at hleads ⊢
          refine hleads.replace ?_ trivial
          change sp'.keys.head? = sp.keys.head?
          rw [hsp'.keys_eq, hsp.keys_eq, List.map_append, List.head?_append_of_ne_nil]
          rintro hnil
          rw [List.map_eq_nil_iff.mp hnil] at htwo
          cases htwo
        settled := by
          intro m hm
          apply h.settled
          rw [tips_append]
          exact List.mem_append_left _ hm
        half := by
          intro hI
          rw [hP.leafnodemax]
          change 2 ≤ sp'.slotsinuse
          rw [hsp'.inuse, List.length_append, htwo]
          exact Nat.le_add_right 2 _
        slanted := by
          obtain ⟨-, -, -, hslanted'⟩ := hslanted
          refine hT.slanted hup (by simpa using hL'.symm) hslanted' ?_
          exact (Tree.slanted_node ..).mpr ⟨fun _ _ => trivial, trivial, trivial⟩
        chain := hchain
        count := by rw [hcount, hpairs'] }
  | @borrowedPrev up b p sp s' sp' sep kL ksR r r' rp rp' cL csR e' x es' ep hs₁ hsp hmany hs₂ hes'
    hsp' hrep =>
    have htwo := h.left_two hP hc ⟨p, sp⟩ (by rw [left_prev hc]; simp)
    change sp.slotsinuse = 2 at htwo
    have hin := hsp.inuse
    simp only [List.length_append, List.length_singleton] at hin
    omega
  | mergedNext hs₁ hsq hroom hsq' heq' hT hrep => simp at hright
  | borrowedNext hs₁ hsq hmany hs₂ hsq' hrep => simp at hright

theorem Loaded.pop (hP : P.Four) (h : Loaded P t T I l) {es : List (K × D)} {e : K × D}
    (hpairs : pairs T.2.inorder = es ++ [e])
    (hfresh : ∀ b, ∀ i < P.leafnodemax, ∀ x ∈ es, P.junkKey b i ≠ x.1) :
    ∃ (i : Nat) (t' : BTree K D) (T' : (m : Nat) × MTree K D m)
      (I' : List (Item Addr K (LeafSlots K D))) (l' : Tip Addr (LeafSlots K D)),
      t.erase P e.1 = .ok ((i : Int), t') ∧ Loaded P t' T' I' l' ∧ pairs T'.2.inorder = es := by
  obtain ⟨i, t', T', I', l', e₁, h', hpairs', -⟩ := h.pop_room hP hpairs hfresh
  exact ⟨i, t', T', I', l', e₁, h', hpairs'⟩

end NwtBTree
