import NwtBTree.Refine.Seam
import NwtBTree.Runs.Cascade

/-!
# A child from a full neighbour

An inner node below the root that `deleteInnerNode` leaves with two children takes
a third one from its right neighbour, or from its left one if it is the last
child, when that is too full to be joined. The branch for the left neighbour asks
the `NULL` pointer `next` for the parent, so only the one for the right neighbour
ever ends.
-/

namespace NwtBTree

variable {A K L : Type}

namespace Ctx

/-- The neighbour gives its nearest child to the node in the hole; the separator between the two
goes down to the node, and the one beside the child comes up in its place. -/
inductive MovesOne : {n : Nat} → Ctx A K L (n + 1) → A → List K → List (Tree A K L n) →
    ((m : Nat) × Tree A K L m) → Prop
  | next {n : Nat} {up : Ctx A K L (n + 2)} {a b d : A} {ks kn ksL ksR : List K} {s z : K}
      {cs cn : List (Tree A K L n)} {c : Tree A K L n} {csL csR : List (Tree A K L (n + 1))} :
      MovesOne (frame up b ksL csL (s :: ksR) (.node d (z :: kn) (c :: cn) :: csR)) a ks cs
        (up.fill (.node b (ksL ++ z :: ksR)
          (csL ++ .node a (ks ++ [s]) (cs ++ [c]) :: .node d kn cn :: csR)))
  | prev {n : Nat} {up : Ctx A K L (n + 2)} {a b d : A} {ks kn ksL : List K} {s z : K}
      {cs cn : List (Tree A K L n)} {c : Tree A K L n} {csL : List (Tree A K L (n + 1))} :
      MovesOne (frame up b (ksL ++ [s]) (csL ++ [.node d (kn ++ [z]) (cn ++ [c])]) [] []) a ks cs
        (up.fill (.node b (ksL ++ [z]) (csL ++ [.node d kn cn, .node a (s :: ks) (c :: cs)])))

/-- The neighbour of the node in the hole, the right one if there is one, has too many children to
be joined with `m` others. -/
def TooFull (cap m : Nat) : {n : Nat} → Ctx A K L (n + 1) → Prop
  | _, top => False
  | _, frame _ _ _ csL _ csR =>
    match csR, csL.getLast? with
    | next :: _, _ => cap + 1 < next.children.length + m
    | [], some prev => cap + 1 < prev.children.length + m
    | [], none => False

end Ctx

variable {K D : Type} {P : Template K D} {t : BTree K D} {n : Nat} {c : MCtx K D (n + 1)}
  {a x : Addr} {k : K} {ksL ksR : List K} {csL csR : List (MTree K D n)}

theorem Template.inner_four (hinner : P.nodeslots = 4) :
    P.innernodemax = 4 ∧ P.innernodemin = P.innernodemax / 2 := by
  simp [Template.innernodemax, Template.innernodemin, hinner]

theorem BTree.redistributeFromPrev_fault [LinearOrder K] {sep : K} {d : Addr} {t' : BTree K D} :
    t.redistributeFromPrev sep a d none ≠ .ok t' := by
  intro h
  obtain ⟨c, -, h⟩ := bind_eq_ok.mp h
  obtain ⟨q, -, h⟩ := bind_eq_ok.mp h
  obtain ⟨t₁, -, h⟩ := bind_eq_ok.mp h
  obtain ⟨y, -, h⟩ := bind_eq_ok.mp h
  obtain ⟨t₂, -, h⟩ := bind_eq_ok.mp h
  simp [deref] at h

variable [LinearOrder K]

/-- A call of `deleteInnerNode` that leaves the node at `a` with two children: the tree is in order
but for the child at `x`, which is to go with the separator `k`. -/
structure LeavesTwo (P : Template K D) (t : BTree K D) (c : MCtx K D (n + 1)) (a : Addr)
    (ksL : List K) (k : K) (ksR : List K) (csL : List (MTree K D n)) (x : Addr)
    (csR : List (MTree K D n)) : Prop where
  doomed : Doomed P t.view c a ksL k ksR csL x csR
  place : t.view.Places (ksL ++ k :: ksR) csL.length x
  strict : k ∉ ksL
  sorted : (seps (c.left ++ interleave .inl Tree.inorder (ksL ++ ksR) (csL ++ csR) ++
    c.right)).Pairwise (· < ·)
  two : (csL ++ csR).length = 2

/-- The call ends, one child has moved, and the sequence of leaves and separators is what it was but
for the child and the separator that were to go. -/
def BTree.Redistributes (P : Template K D) (t : BTree K D) (fuel : Nat) (c : MCtx K D (n + 1))
    (a : Addr) (ksL : List K) (k : K) (ksR : List K) (csL : List (MTree K D n)) (x : Addr)
    (csR : List (MTree K D n)) : Prop :=
  ∃ (r : Int) (t' : BTree K D) (T : (m : Nat) × MTree K D m),
    t.deleteInnerNode P fuel a k x = .ok (r, t') ∧ Rep P t'.view T.2 ∧
    c.MovesOne a (ksL ++ ksR) (csL ++ csR) T ∧
    T.2.inorder =
      c.left ++ interleave .inl Tree.inorder (ksL ++ ksR) (csL ++ csR) ++ c.right

/-- Without a right neighbour the call dereferences `NULL`. -/
theorem LeavesTwo.fault (hinner : P.nodeslots = 4) (h : LeavesTwo P t c a ksL k ksR csL x csR)
    (hfull : c.TooFull 4 2) (hlast : ¬c.HasNext) {fuel : Nat} {r : Int} {t' : BTree K D} :
    t.deleteInnerNode P (fuel + 1) a k x ≠ .ok (r, t') := by
  intro e
  obtain ⟨hcap, hmin⟩ := Template.inner_four hinner
  have hlen := h.doomed.len
  have htwo := h.two
  cases c with
  | top => exact hfull
  | frame up b kL cL kR cR =>
    obtain rfl : cR = [] := not_not.mp hlast
    obtain ⟨t₁, e₁, h₁, -⟩ := BTree.deleteInnerNode_removed h.doomed h.strict h.place fuel
    obtain ⟨hL, hR, h0, -⟩ := h₁.hole.paired
    obtain rfl : kR = [] := List.eq_nil_of_length_eq_zero hR
    obtain ⟨s, hs, hin⟩ := h₁.body
    obtain ⟨⟨sb, hsb, hinb⟩, hholds, -⟩ := h₁.hole.holds
    have hsort := Ctx.frame_sorted h₁.hole.paired h₁.len h.sorted
    obtain ⟨z, hz, hzL, -⟩ := h₁.firstKey_between (hsort.imp le_of_lt) (by omega) (by simp)
    -- the left neighbour
    obtain rfl | ⟨cL, q, rfl⟩ := List.eq_nil_or_concat cL
    · simp at hL
      simp [hL] at h0
    · obtain rfl | ⟨kL, sep, rfl⟩ := List.eq_nil_or_concat kL
      · simp at hL
      · obtain ⟨d, kn, cn⟩ := q
        simp only [List.concat_eq_append] at *
        obtain ⟨⟨sd, (hsd : t₁.view.body d = _), hind⟩, -⟩ := hholds (.node d kn cn) (by simp)
        have hroom : 4 + 1 < cn.length + 2 := by
          simpa [Ctx.TooFull] using hfull
        obtain ⟨r', e₂⟩ := BTree.repair_prev (P := P) (f := BTree.deleteInnerNode P fuel)
          (i := csL.length) (d := d) hs hin h₁.flag_frame
          (by rw [List.length_map, hmin, hcap, htwo]) h₁.par hsb (by simpa using hinb) hsd hind
          (by simpa using hL) ⟨z, hz, hzL⟩
        rw [e₁, e₂, if_neg (by simp only [List.length_map, hcap]; omega)] at e
        obtain ⟨t₂, e₃, -⟩ := bind_eq_ok.mp e
        exact BTree.redistributeFromPrev_fault e₃

/-- A child moves from the full neighbour exactly if that is the right one. -/
theorem redistributes_next (hinner : P.nodeslots = 4) (h : LeavesTwo P t c a ksL k ksR csL x csR)
    (hfull : c.TooFull 4 2) {fuel : Nat} (hfuel : 0 < fuel) :
    t.Redistributes P fuel c a ksL k ksR csL x csR ↔ c.HasNext := by
  obtain ⟨fuel, rfl⟩ := Nat.exists_eq_succ_of_ne_zero hfuel.ne'
  obtain ⟨hcap, hmin⟩ := Template.inner_four hinner
  constructor
  · rintro ⟨r, t', T, e, -⟩
    by_contra hlast
    exact h.fault hinner hfull hlast e
  · intro hnext
    have hlen := h.doomed.len
    have htwo := h.two
    cases c with
    | top => exact hnext.elim
    | frame up b kL cL kR cR =>
      obtain ⟨hL, hR, -, -, hpcR, -⟩ := h.doomed.hole.paired
      cases cR with
      | nil => exact absurd rfl hnext
      | cons q cR =>
        obtain ⟨sep, kR, rfl⟩ := List.exists_cons_of_length_eq_add_one hR
        obtain ⟨d, kn, cn⟩ := q
        obtain ⟨-, hlenn, -⟩ := hpcR _ List.mem_cons_self
        have hlenn' : cn.length = kn.length + 1 := hlenn
        have hroom : 4 + 1 < cn.length + 2 := hfull
        obtain ⟨z, kn, rfl⟩ := List.exists_cons_of_length_pos (show 0 < kn.length by omega)
        obtain ⟨c, cn, rfl⟩ := List.exists_cons_of_length_eq_add_one hlenn'
        have hsmall : (csL ++ csR).length ≤ P.innernodemax / 2 := by rw [htwo, hcap]
        have hroom' : P.innernodemax + 1 < (csL ++ csR).length + (c :: cn).length := by
          rw [hcap, htwo]
          omega
        have hsort := Ctx.frame_sorted h.doomed.hole.paired hlen h.sorted
        obtain ⟨r, t', e, hshrunk⟩ := BTree.deleteInnerNode_borrowNext (by rw [hcap]) hmin h.doomed
          h.strict h.place (hsort.imp le_of_lt) (by omega) (fun y hy =>
            (List.pairwise_append.mp hsort).2.2 y
              (List.mem_append_right _ (List.mem_of_mem_head? hy)) sep (by simp))
          hsmall hroom' fuel
        exact ⟨r, t', _, e, hshrunk.rep, .next,
          (Ctx.Settled.borrowNext hsmall hroom').inorder h.doomed.hole.paired hlen⟩

/-! ## At a leaf of a tree in order -/

omit [LinearOrder K] in
/-- The neighbour of an inner node, read off the child array of the node above. -/
theorem Rep.neighbour {ks : List K} {cs : List (MTree K D n)} {g : Addr} {sg : InnerSlots K}
    (h : Rep P t.view (c.fill (.node a ks cs)).2) (hc : c.Paired) (hpar : t.view.par a = some g)
    (hg : t.view.body g = some (.inner sg)) {d : Addr} {sd : InnerSlots K} {i : Nat}
    (hi : sg.firstChild.idxOf (some a) = i)
    (hload : load sg.firstChild (if i + 1 < sg.numChildren then i + 1 else i - 1) = .ok (some d))
    (hd : t.view.body d = some (.inner sd)) :
    (c.HasNext ↔ i + 1 < sg.numChildren) ∧
      ∀ {cap m : Nat}, cap + 1 < sd.numChildren + m → c.TooFull cap m := by
  have hpar' : t.view.par a = c.parent := ((parOK_fill c (.node a ks cs)).mp h.par).2.1
  cases c with
  | top => simp [hpar] at hpar'
  | frame up g' kL cL kR cR =>
    obtain rfl : g = g' := by simpa [hpar] using hpar'
    obtain ⟨sg', hg', hing, -, -, hidx⟩ := h.above
    obtain rfl : sg = sg' := by simpa [hg] using hg'
    obtain rfl : cL.length = i := hidx.symm.trans hi
    obtain ⟨hL, hR, h0, -⟩ := hc
    have hnum : sg.numChildren = cL.length + (cR.length + 1) := by simpa using hing.num
    have hholds := ((holds_fill _ (.node a ks cs)).mp h.holds).1
    obtain ⟨-, hholdsL, hholdsR, -⟩ := hholds
    have hnode : ∀ q : MTree K D (n + 1), Holds P t.view.body q → q.addr = d →
        sd.numChildren = q.children.length := by
      rintro ⟨d', kn, cn⟩ hq rfl
      obtain ⟨⟨sq, hsq, hinq⟩, -⟩ := (holds_node d' kn cn).mp hq
      obtain rfl : sq = sd := by simpa [hsq] using hd
      simpa using hinq.num
    simp only [Tree.addr_node] at hing
    cases cR with
    | cons q cR =>
      have hlt : cL.length + 1 < sg.numChildren := by
        rw [hnum, List.length_cons]
        omega
      have haddr : q.addr = d := by
        have hin : InnerHas P sg (kL ++ kR)
            (cL.map Tree.addr ++ [a] ++ q.addr :: cR.map Tree.addr) := by simpa using hing
        rw [if_pos hlt, hin.load_childAt (by simp)] at hload
        simpa using hload
      refine ⟨iff_of_true (List.cons_ne_nil q cR) hlt, fun hfull => ?_⟩
      rwa [hnode q (hholdsR q List.mem_cons_self) haddr] at hfull
    | nil =>
      have hge : ¬cL.length + 1 < sg.numChildren := by
        rw [hnum]
        exact Nat.lt_irrefl _
      obtain ⟨cL, q, rfl⟩ := List.eq_nil_or_concat cL |>.resolve_left (by
        rintro rfl
        simp at hL hR
        simp [hL, hR] at h0)
      rw [List.concat_eq_append] at *
      have haddr : q.addr = d := by
        have hin : InnerHas P sg (kL ++ kR) (cL.map Tree.addr ++ q.addr :: [a]) := by
          simpa using hing
        rw [if_neg hge, hin.load_childAt (by simp)] at hload
        simpa using hload
      refine ⟨iff_of_false (fun hne => hne rfl) hge, fun hfull => ?_⟩
      rw [hnode q (hholdsL q (by simp)) haddr] at hfull
      simpa [Ctx.TooFull] using hfull

/-- Taking a leaf out of a node with three children. -/
theorem InOrder.leavesTwo {T : (n : Nat) × MTree K D n} (h : InOrder P t T)
    {l : Tip Addr (LeafSlots K D)} (hl : l ∈ tips T.2.inorder) (hne : l.body.keys ≠ []) {b : Addr}
    {s : InnerNode K} (hpar : t.view.par l.addr = some b) (hb : t.inner b = .ok s)
    (h3 : s.numChildren = 3) (hk : k ∈ s.keySlots.take s.slotsinuse) :
    ∃ (c : MCtx K D 1) (ksL ksR : List K) (csL csR : List (MTree K D 0)),
      LeavesTwo P t c b ksL k ksR csL l.addr csR ∧ c.Paired ∧
      T = c.fill (.node b (ksL ++ k :: ksR) (csL ++ l :: csR)) := by
  obtain ⟨up, kL, kR, csL, csR, s', rfl, hc, hs', hin, -⟩ := h.exists_frame hl hpar
  obtain rfl : s.toInnerSlots = s' := by simpa [BTree.body_of_inner hb] using hs'
  have hmem : k ∈ kL ++ kR := by
    obtain ⟨r, hr⟩ := hin.keys
    rw [hr, hin.inuse, List.take_left] at hk
    exact hk
  obtain ⟨ksL, ksR, hks⟩ := List.append_of_mem hmem
  obtain ⟨a, sl⟩ := l
  have hdoom := h.rep.doomed hc hks
  have hseps := h.order.frame_seps hc
  rw [hks] at hseps
  obtain ⟨-, -, -, -, -, hup⟩ := id hc
  obtain ⟨z, zs, hzs⟩ := List.exists_cons_of_ne_nil hne
  have hz : sl.keySlots.head? = some z := by
    rw [← List.take_append_drop sl.slotsinuse sl.keySlots]
    change (sl.keys ++ _).head? = some z
    rw [hzs]
    rfl
  have hzl : z ∈ sl.keys := by rw [hzs]; exact List.mem_cons_self
  obtain ⟨-, -, hplace⟩ := leaf_loc h.rep hc hz (h.order.routes hc hzl).here
  rw [hks] at hplace
  refine ⟨up, ksL, ksR, csL, csR, ⟨hdoom, hplace, ?_, ?_, ?_⟩, hup, by rw [← hks]; rfl⟩
  · have := (List.pairwise_append.mp (List.pairwise_append.mp hseps).1).2.1
    exact fun hm => lt_irrefl k ((List.pairwise_append.mp this).2.2 k hm k (by simp))
  · rw [seps_append, seps_append, seps_interleave_leaves hdoom.len]
    refine hseps.sublist (.append_right (.append_left ?_ _) _)
    exact List.Sublist.append_left (List.sublist_cons_self ..) _
  · have hnum := hin.num
    simp only [List.length_append, List.length_map, List.length_cons] at hnum ⊢
    omega

/-- The same for the leaf of a stored key, with the neighbour of the inner node above it. -/
theorem Kept.leavesTwo {T : (n : Nat) × MTree K D n} (h : Kept P t T) {x : K}
    (hx : x ∈ allKeys LeafSlots.keys T.2.inorder) {a b g d : Addr} {l : LeafNode K D}
    {s sg sd : InnerNode K} (hfind : t.find P x = .ok (some a)) (hl : t.leaf a = .ok l)
    (hpar : l.parent = some b) (hb : t.inner b = .ok s) (h3 : s.numChildren = 3)
    (hk : k ∈ s.keySlots.take s.slotsinuse) (hpar' : s.parent = some g) (hg : t.inner g = .ok sg)
    {i : Nat} (hi : sg.firstChild.idxOf (some b) = i)
    (hload : load sg.firstChild (if i + 1 < sg.numChildren then i + 1 else i - 1) = .ok (some d))
    (hd : t.inner d = .ok sd) :
    ∃ (c : MCtx K D 1) (ksL ksR : List K) (csL csR : List (MTree K D 0)),
      LeavesTwo P t c b ksL k ksR csL a csR ∧ (c.HasNext ↔ i + 1 < sg.numChildren) ∧
      ∀ {cap m : Nat}, cap + 1 < sd.numChildren + m → c.TooFull cap m := by
  obtain ⟨c₀, a', sl, rfl, hc₀, hfind', hxl⟩ := h.rep.find_leaf h.order hx
  obtain rfl : a = a' := by simpa [hfind] using hfind'
  have ha : t.view.body a = some (.leaf sl) :=
    ((holds_fill c₀ (.leaf a sl)).mp h.rep.holds).2.1
  obtain rfl := Except.ok.inj ((BTree.leaf_eq ha).symm.trans hl)
  have hl' : (⟨a, sl⟩ : Tip Addr (LeafSlots K D)) ∈ tips (c₀.fill (.leaf a sl)).2.inorder := by
    rw [Ctx.inorder_fill_leaf hc₀]
    simp
  obtain ⟨c, ksL, ksR, csL, csR, htwo, hc, hfill⟩ :=
    h.inOrder.leavesTwo hl' (List.ne_nil_of_mem hxl) hpar hb h3 hk
  have hrep := h.rep
  rw [hfill] at hrep
  have hparb : t.view.par b = some g := by
    have := Except.ok.inj ((BTree.inner_eq (BTree.body_of_inner hb)).symm.trans hb)
    rw [← hpar', ← this]
  exact ⟨c, ksL, ksR, csL, csR, htwo, hrep.neighbour hc hparb (BTree.body_of_inner hg) hi hload
    (BTree.body_of_inner hd)⟩

/-- Seven leaves: the first inner node has three children, the second one four. -/
theorem redistributes_next_fifteen : ∃ rs t, run (BTree.perform (Template.plain 4)) BTree.init
    ((List.range 15).map fun i => .insert i i) = .ok (rs, t) ∧
      ∃ (c : MCtx Nat Nat 1) (ksL ksR : List Nat) (csL csR : List (MTree Nat Nat 0)),
        LeavesTwo (Template.plain 4) t c 12 ksL 2 ksR csL 1 csR ∧ c.TooFull 4 2 ∧
        t.Redistributes (Template.plain 4) t.fuel c 12 ksL 2 ksR csL 1 csR := by
  obtain ⟨rs, t, e, -, hstores⟩ := stores_load (P := Template.plain 4) ⟨rfl, rfl⟩
    ((List.range 15).map fun i => (i, i)) (by decide)
  have h : (run (BTree.perform (Template.plain 4)) BTree.init
      ((List.range 15).map fun i => .insert i i) >>= fun r => do
        let f ← r.2.find (Template.plain 4) 0
        let l ← r.2.leaf 1
        let n ← r.2.inner 12
        let g ← r.2.inner 14
        let d ← r.2.inner 13
        return (f :: l.parent :: n.parent :: g.firstChild,
          n.numChildren :: n.slotsinuse :: g.numChildren :: d.numChildren :: n.keySlots)) =
      .ok ([some 1, some 12, some 14, some 12, some 13, none, none, none],
        [3, 2, 2, 4, 2, 4, 6, 0]) := by
    decide +kernel
  obtain ⟨⟨rs', t'⟩, hrun, h⟩ := bind_eq_ok.mp h
  obtain ⟨rfl, rfl⟩ := Prod.mk.inj (Except.ok.inj (e.symm.trans hrun))
  obtain ⟨f, hf, h⟩ := bind_eq_ok.mp h
  obtain ⟨l, hl, h⟩ := bind_eq_ok.mp h
  obtain ⟨n, hn, h⟩ := bind_eq_ok.mp h
  obtain ⟨g, hg, h⟩ := bind_eq_ok.mp h
  obtain ⟨d, hd, h⟩ := bind_eq_ok.mp h
  simp only [pure_eq_ok, Except.ok.injEq, Prod.mk.injEq, List.cons.injEq] at h
  obtain ⟨⟨rfl, hpar, hparn, hchildren⟩, h3, hinuse, hnumg, hnumd, hslots⟩ := h
  rcases hstores with ⟨-, hnil⟩ | ⟨T, hkept, hkeys⟩
  · cases hnil
  · obtain ⟨c, ksL, ksR, csL, csR, htwo, hnext, hfull⟩ := hkept.leavesTwo (k := 2) (x := 0) (i := 0)
      (hkeys ▸ by decide) hf hl hpar hn h3 (by rw [hslots, hinuse]; decide) hparn hg
      (by rw [hchildren]; decide) (by rw [hchildren, hnumg]; rfl) hd
    have hfull' : c.TooFull 4 2 := hfull (by rw [hnumd]; decide)
    exact ⟨rs, t, hrun, c, ksL, ksR, csL, csR, htwo, hfull',
      (redistributes_next rfl htwo hfull' (Nat.succ_pos _)).mpr (hnext.mpr (by rw [hnumg]; decide))⟩

/-- The erase joins the first two inner nodes. The last one has three children then, and only a
left neighbour, with five. -/
theorem not_redistributes : ∃ rs t, run (BTree.perform (Template.plain 4)) BTree.init
    (((List.range 19).map fun i => .insert i i) ++ [.erase 0]) = .ok (rs, t) ∧
      ∃ (c : MCtx Nat Nat 1) (ksL ksR : List Nat) (csL csR : List (MTree Nat Nat 0)),
        LeavesTwo (Template.plain 4) t c 22 ksL 14 ksR csL 17 csR ∧ c.TooFull 4 2 ∧
        ¬t.Redistributes (Template.plain 4) t.fuel c 22 ksL 14 ksR csL 17 csR := by
  obtain ⟨rs, t, e, -, hstores⟩ := stores_load (P := Template.plain 4) ⟨rfl, rfl⟩
    ((List.range 19).map fun i => (i, i)) (by decide)
  have h : (run (BTree.perform (Template.plain 4)) BTree.init
      ((List.range 19).map fun i => .insert i i) >>= fun r => do
        let can ← r.2.canErase (Template.plain 4) 0
        let lost ← r.2.losesNone (Template.plain 4) (.erase 0)
        let r ← r.2.perform (Template.plain 4) (.erase 0)
        let f ← r.2.find (Template.plain 4) 12
        let l ← r.2.leaf 17
        let n ← r.2.inner 22
        let g ← r.2.inner 14
        let d ← r.2.inner 21
        return ([can, lost], f :: l.parent :: n.parent :: g.firstChild,
          n.numChildren :: n.slotsinuse :: g.numChildren :: d.numChildren :: n.keySlots)) =
      .ok ([true, true], [some 17, some 22, some 14, some 21, some 22, none, none, none],
        [3, 2, 2, 5, 14, 16, 0, 0]) := by
    decide +kernel
  obtain ⟨⟨rs', t'⟩, hrun, h⟩ := bind_eq_ok.mp h
  obtain ⟨rfl, rfl⟩ := Prod.mk.inj (Except.ok.inj (e.symm.trans hrun))
  obtain ⟨can, hcan, h⟩ := bind_eq_ok.mp h
  obtain ⟨lost, hlost, h⟩ := bind_eq_ok.mp h
  obtain ⟨⟨r, u⟩, hperform, h⟩ := bind_eq_ok.mp h
  obtain ⟨f, hf, h⟩ := bind_eq_ok.mp h
  obtain ⟨l, hl, h⟩ := bind_eq_ok.mp h
  obtain ⟨n, hn, h⟩ := bind_eq_ok.mp h
  obtain ⟨g, hg, h⟩ := bind_eq_ok.mp h
  obtain ⟨d, hd, h⟩ := bind_eq_ok.mp h
  simp only [pure_eq_ok, Except.ok.injEq, Prod.mk.injEq, List.cons.injEq, and_true] at h
  obtain ⟨⟨rfl, rfl⟩, ⟨rfl, hpar, hparn, hchildren⟩, h3, hinuse, hnumg, hnumd, hslots⟩ := h
  obtain ⟨r', u', e', -, hstores'⟩ := hstores.erase (k := 0) ⟨rfl, rfl⟩ ⟨by decide, hcan, hlost⟩
  obtain ⟨rfl, rfl⟩ := Prod.mk.inj (Except.ok.inj (e'.symm.trans hperform))
  rcases hstores' with ⟨-, hnil⟩ | ⟨T, hkept, hkeys⟩
  · exact absurd hnil (by decide)
  · obtain ⟨c, ksL, ksR, csL, csR, htwo, hnext, hfull⟩ := hkept.leavesTwo (k := 14) (x := 12)
      (i := 1) (hkeys ▸ by decide) hf hl hpar hn h3 (by rw [hslots, hinuse]; decide) hparn hg
      (by rw [hchildren]; decide) (by rw [hchildren, hnumg]; rfl) hd
    have hfull' : c.TooFull 4 2 := hfull (by rw [hnumd]; decide)
    have hlast : ¬c.HasNext := fun hn => absurd (hnext.mp hn) (by rw [hnumg]; decide)
    refine ⟨rs ++ [r'], u', run_append hrun (run_cons e' rfl), c, ksL, ksR, csL, csR, htwo,
      hfull', ?_⟩
    rintro ⟨i, v, T', ev, -⟩
    exact htwo.fault rfl hfull' hlast ev

end NwtBTree
