import NwtBTree.Runs.Borrowing

/-!
# A leaf removed with merges up to the root

`deleteInnerNode` takes a leaf and a separator beside it out of their parent. An
inner node that is left with two children joins a neighbour with room, which takes
a child and a separator out of the node above, and so on to the root. Read from
left to right, the tree afterwards is the old one without the leaf and the separator.
-/

namespace NwtBTree

variable {K D : Type} {P : Template K D} {t : BTree K D}

namespace BTree

/-- Taking a child out of the node at `a` sets off merges only: up to the first node that is still
large enough, every node on the way to the root has a neighbour that can be joined with it. -/
def mergesChild (P : Template K D) (t : BTree K D) : Nat → Addr → Except Fault Bool
  | 0, _ => .ok false
  | fuel + 1, a => do
    let n ← t.inner a
    if n.isrootnode || P.innernodemax / 2 < n.numChildren - 1 then return true
    let g ← deref n.parent
    let parent ← t.inner g
    let i := parent.firstChild.idxOf (some a)
    let j := if i + 1 < parent.numChildren then i + 1 else i - 1
    let q ← t.inner (← deref (← load parent.firstChild j))
    if q.numChildren + (n.numChildren - 1) ≤ P.innernodemax + 1 then t.mergesChild P fuel g
    else return false

theorem sparesChild_of_mergesChild {fuel : Nat} {a : Addr}
    (h : t.mergesChild P fuel a = .ok true) : t.sparesChild P fuel a = .ok true := by
  induction fuel generalizing a with
  | zero => simp [mergesChild] at h
  | succ fuel ih =>
    obtain ⟨n, hn, h⟩ := bind_eq_ok.mp h
    simp only [sparesChild, hn, ok_bind]
    split at h
    · next hbig => rw [if_pos hbig]; rfl
    · next hbig =>
      rw [if_neg hbig]
      obtain ⟨g, hg, h⟩ := bind_eq_ok.mp h
      obtain ⟨parent, hparent, h⟩ := bind_eq_ok.mp h
      obtain ⟨x, hx, h⟩ := bind_eq_ok.mp h
      obtain ⟨y, hy, h⟩ := bind_eq_ok.mp h
      obtain ⟨q, hq, h⟩ := bind_eq_ok.mp h
      simp only [hg, hparent, hx, hy, hq, ok_bind]
      split at h
      · next hroom =>
        rw [if_pos hroom]
        exact ih h
      · simp at h

end BTree

/-- The counters of the inner nodes of a tree. -/
theorem Holds.counters {body : Addr → Option (Body K D)} : {n : Nat} → {T : MTree K D n} →
    Holds P body T → T.Paired → ∀ b ∈ T.addrs, ∀ s, body b = some (.inner s) →
      2 ≤ s.numChildren ∧ s.numChildren = s.slotsinuse + 1 ∧ s.numChildren ≤ P.innernodemax + 1
  | 0, ⟨a, l⟩, h, _, b, hb, s, hs => by
    obtain rfl : b = a := by simpa [Tree.addrs] using hb
    have hl : body b = some (.leaf l) := h.1
    rw [hl] at hs
    simp at hs
  | n + 1, ⟨a, ks, cs⟩, h, hpair, b, hb, s, hs => by
    obtain ⟨⟨s', hs', hin⟩, hcs⟩ := (holds_node a ks cs).mp h
    obtain ⟨hpos, hlen, hpairs⟩ := (Tree.paired_node a ks cs).mp hpair
    rcases List.mem_cons.mp hb with rfl | hb
    · obtain rfl : s' = s := by simpa [hs'] using hs
      obtain ⟨r, hr⟩ := hin.children
      have hcap := hin.childCap
      rw [hr] at hcap
      simp only [List.length_append, List.length_map] at hcap
      rw [hin.num, hin.inuse, List.length_map]
      exact ⟨by omega, hlen, by omega⟩
    · obtain ⟨c, hc, hb⟩ := List.mem_flatMap.mp hb
      exact (hcs c hc).counters (hpairs c hc) b hb s hs

variable [LinearOrder K] {T : (n : Nat) × MTree K D n} {k : K} {l : Tip Addr (LeafSlots K D)}
  {I J : List (Item Addr K (LeafSlots K D))}

/-- A leaf with a key stands once in the sequence. -/
theorem SearchOrder.leaf_unique (h : SearchOrder LeafSlots.keys (I ++ .inr l :: J))
    (hl : l.body.keys ≠ []) : .inr l ∉ I ∧ .inr l ∉ J := by
  obtain ⟨x, hx⟩ := List.exists_mem_of_ne_nil _ hl
  obtain ⟨-, hJ, hcross⟩ := List.pairwise_append.mp h.below
  refine ⟨fun hm => ?_, fun hm => ?_⟩
  · exact lt_irrefl x (hcross _ hm _ List.mem_cons_self x hx x hx)
  · exact lt_irrefl x ((List.pairwise_cons.mp hJ).1 _ hm x hx x hx)

/-- A leaf below an inner node: the separators of that node are those next to the leaf. -/
theorem InOrder.exists_frame (h : InOrder P t T) {b : Addr} (hl : l ∈ tips T.2.inorder)
    (hpar : t.view.par l.addr = some b) :
    ∃ (up : MCtx K D 1) (ksL ksR : List K) (csL csR : List (MTree K D 0)) (s : InnerSlots K),
      T = (Ctx.frame up b ksL csL ksR csR).fill l ∧ (Ctx.frame up b ksL csL ksR csR).Paired ∧
      t.view.body b = some (.inner s) ∧
      InnerHas P s (ksL ++ ksR) (csL.map Tree.addr ++ l.addr :: csR.map Tree.addr) ∧
      s.firstChild.idxOf (some l.addr) = csL.length := by
  obtain ⟨c, hfill, hc⟩ := Ctx.exists_hole .top T.2 trivial h.rep.paired hl
  obtain rfl : T = c.fill l := by simpa using hfill
  have hpar' : t.view.par l.addr = c.parent := ((parOK_fill c l).mp h.rep.par).2
  cases c with
  | top => simp [hpar] at hpar'
  | frame up g ksL csL ksR csR =>
    obtain rfl : b = g := by simpa [hpar] using hpar'
    obtain ⟨s, hs, hin, -, -, hidx⟩ := h.rep.above
    exact ⟨up, ksL, ksR, csL, csR, s, rfl, hc, hs, hin, hidx⟩

/-- Behind a leaf that is not the last child comes the separator at its place. -/
theorem InOrder.followed (h : InOrder P t T) {b : Addr} {s : InnerSlots K}
    (hl : l ∈ tips T.2.inorder) (hpar : t.view.par l.addr = some b)
    (hb : t.view.body b = some (.inner s))
    (hk : load s.keySlots (s.firstChild.idxOf (some l.addr)) = .ok k)
    (hlast : s.firstChild.idxOf (some l.addr) < s.slotsinuse) :
    ∃ I J, T.2.inorder = I ++ .inr l :: .inl k :: J := by
  obtain ⟨up, ksL, ksR, csL, csR, s', rfl, hc, hs', hin, hidx⟩ := h.exists_frame hl hpar
  obtain rfl : s = s' := by simpa [hb] using hs'
  obtain ⟨hL, hR, -⟩ := id hc
  rw [hidx, ← hL] at hk hlast
  rw [hin.inuse, List.length_append] at hlast
  cases ksR with
  | nil => simp at hlast
  | cons z zs =>
    obtain ⟨y, ys, rfl⟩ := List.exists_cons_of_length_eq_add_one hR.symm
    obtain rfl : k = z := by
      rw [hin.load_key (by simp)] at hk
      simpa using (Except.ok.inj hk).symm
    rw [Ctx.inorder_fill_leaf hc, Ctx.right_frame, after_cons]
    exact ⟨_, _, rfl⟩

/-- Taking out a leaf and the separator in front of it or behind it. -/
theorem InOrder.exists_cut (h : InOrder P t T) {b : Addr} {s : InnerSlots K}
    (hseq : T.2.inorder = I ++ .inr l :: .inl k :: J ∨ T.2.inorder = I ++ .inl k :: .inr l :: J)
    (hl : l.body.keys ≠ []) (hpar : t.view.par l.addr = some b)
    (hb : t.view.body b = some (.inner s)) (hk : k ∈ s.keySlots.take s.slotsinuse) :
    ∃ (up : MCtx K D 1) (ksL ksR kL kR : List K) (csL csR : List (MTree K D 0)),
      T = (Ctx.frame up b ksL csL ksR csR).fill l ∧ (Ctx.frame up b ksL csL ksR csR).Paired ∧
      ksL ++ ksR = kL ++ k :: kR ∧
      up.left ++ interleave .inl Tree.inorder (kL ++ kR) (csL ++ csR) ++ up.right = I ++ J := by
  have hmem : l ∈ tips T.2.inorder := by rcases hseq with e | e <;> simp [e]
  obtain ⟨up, ksL, ksR, csL, csR, s', rfl, hc, hs', hin, -⟩ := h.exists_frame hmem hpar
  obtain rfl : s = s' := by simpa [hb] using hs'
  have ho := h.order
  have hseps := ho.frame_seps hc
  rw [List.append_assoc, List.append_assoc] at hseps
  obtain ⟨-, hseps, hbefore⟩ := List.pairwise_append.mp hseps
  obtain ⟨-, hafter, hcross⟩ := List.pairwise_append.mp hseps
  -- the separator stands in the node
  have hmemk : k ∈ ksL ++ ksR := by
    obtain ⟨r, hr⟩ := hin.keys
    rw [hr, hin.inuse, List.take_left] at hk
    exact hk
  have hfill := Ctx.inorder_fill_leaf hc l
  obtain ⟨hL, hR, -⟩ := id hc
  rcases hseq with hseq | hseq
  · rw [hseq] at ho hfill
    obtain ⟨hI, hJ⟩ := ho.leaf_unique hl
    obtain ⟨rfl, -, hright⟩ := (List.append_cons_inj_of_notMem hI hJ).mp hfill
    cases ksR with
    | nil =>
      obtain rfl : csR = [] := List.eq_nil_of_length_eq_zero hR.symm
      rw [Ctx.right_frame, after_nil, List.nil_append] at hright
      have hlt := hcross k (by simpa using hmemk) k (by rw [← hright]; simp)
      exact absurd hlt (lt_irrefl k)
    | cons z zs =>
      obtain ⟨y, ys, rfl⟩ := List.exists_cons_of_length_eq_add_one hR.symm
      rw [Ctx.right_frame, after_cons, List.cons_append] at hright
      obtain ⟨hz, rfl⟩ := List.cons.inj hright
      obtain rfl := Sum.inl.inj hz
      refine ⟨up, ksL, k :: zs, ksL, zs, csL, y :: ys, rfl, hc, rfl, ?_⟩
      rw [interleave_split _ _ hL]
      simp
  · rw [← List.singleton_append, ← List.append_assoc] at hseq
    rw [hseq] at ho hfill
    obtain ⟨hI, hJ⟩ := ho.leaf_unique hl
    obtain ⟨hleft, -, rfl⟩ := (List.append_cons_inj_of_notMem hI hJ).mp hfill
    obtain rfl | ⟨ksL, z, rfl⟩ := List.eq_nil_or_concat ksL
    · obtain rfl : csL = [] := List.eq_nil_of_length_eq_zero hL.symm
      rw [Ctx.left_frame, before_nil, List.append_nil] at hleft
      have hlt := hbefore k (by rw [← hleft]; simp) k
        (List.mem_append_right _ (List.mem_append_left _ (by simpa using hmemk)))
      exact absurd hlt (lt_irrefl k)
    · obtain rfl | ⟨csL, w, rfl⟩ := List.eq_nil_or_concat csL
      · simp at hL
      · simp only [List.concat_eq_append, List.length_append, List.length_cons, List.length_nil,
          Nat.add_right_cancel_iff] at *
        rw [Ctx.left_frame, before_append _ _ hL, before_cons, before_nil, ← List.append_assoc,
          ← List.append_assoc] at hleft
        obtain ⟨rfl, hz⟩ := List.append_inj' hleft rfl
        obtain rfl : k = z := by simpa using hz
        refine ⟨up, ksL ++ [k], ksR, ksL, ksR, csL ++ [w], csR, rfl, hc, by simp, ?_⟩
        rw [Ctx.right_frame, List.append_assoc csL, List.singleton_append, interleave_split _ _ hL]
        simp

/-- With merges only on the way to the root, `deleteInnerNode` takes the leaf and the separator out
of the sequence of leaves and separators. What is left is the tree of the new state: `Rep` says that
its child arrays, parent pointers and root are those of the state. -/
theorem merges_cascade (hinner : P.nodeslots = 4) (hleaf : P.leafslots = 4) (h : InOrder P t T)
    (hbushy : T.2.Bushy (2 ≤ ·)) (hne : ∀ m ∈ tips T.2.inorder, m.body.keys ≠ [])
    (hseq : T.2.inorder = I ++ .inr l :: .inl k :: J ∨ T.2.inorder = I ++ .inl k :: .inr l :: J)
    {b : Addr} {s : InnerNode K} (hpar : t.view.par l.addr = some b) (hb : t.inner b = .ok s)
    (hk : k ∈ s.keySlots.take s.slotsinuse) (hmerges : t.mergesChild P t.fuel b = .ok true) :
    ∃ (r : Int) (t' : BTree K D) (T' : (m : Nat) × MTree K D m),
      t.deleteInnerNode P t.fuel b k l.addr = .ok (r, t') ∧ Rep P t'.view T'.2 ∧
      T'.2.inorder = I ++ J ∧
      ∀ a ∈ T'.2.addrs, ∀ n, t'.inner a = .ok n →
        2 ≤ n.numChildren ∧ n.numChildren = n.slotsinuse + 1 ∧ n.numChildren ≤ 5 := by
  have hP : P.Four := ⟨hinner, hleaf⟩
  have hl : l ∈ tips T.2.inorder := by rcases hseq with e | e <;> simp [e]
  obtain ⟨up, ksL, ksR, kL, kR, csL, csR, rfl, hc, hks, hout⟩ :=
    h.exists_cut hseq (hne l hl) hpar (BTree.body_of_inner hb) hk
  obtain ⟨a, sl⟩ := l
  obtain ⟨-, -, hok⟩ := (holds_fill _ (.leaf a sl)).mp h.rep.holds
  have hs := hok.leafIs
  have hkeys := hs.keys_eq
  cases hes : sl.entries with
  | nil => exact absurd (by rw [hkeys, hes]; rfl) (hne _ hl)
  | cons e es =>
    rw [hes] at hs hkeys
    have hroute := h.order.routes hc (x := e.1) (by simp [hkeys])
    have hbushy' : (Ctx.frame up b ksL csL ksR csR).Bushy (P.innernodemax / 2 ≤ ·) := by
      rw [hP.innernodemax]
      exact (Ctx.bushy_of_fill hbushy).1
    obtain ⟨hL, hR, -, hcL, hcR, hup⟩ := id hc
    have hlen : (csL ++ csR).length = (kL ++ kR).length + 1 := by
      have := congrArg List.length hks
      simp only [List.length_append, List.length_cons] at this ⊢
      omega
    have hnode : Rep P t.view (up.fill (.node b (ksL ++ ksR) (csL ++ .leaf a sl :: csR))).2 := h.rep
    have hsettles := settles_of_sparesChild hnode hup (BTree.sparesChild_of_mergesChild hmerges)
    obtain ⟨T', hT⟩ : ∃ T', up.Settled P.innernodemax b (kL ++ kR) (csL ++ csR) T' :=
      Ctx.exists_settled hsettles hup (by simp)
    have hseps := h.order.frame_seps hc
    have hsort := (List.pairwise_append.mp (List.pairwise_append.mp hseps).1).2.1
    have htold : up.Told P.innernodemax (kL ++ kR) := by
      rw [hks] at hseps
      exact Ctx.told_of_sorted hup (hseps.sublist
        ((((List.sublist_cons_self ..).append_left kL).append_left _).append_right _))
    obtain ⟨r, t', e', hshrunk⟩ := deleteInnerNode_leaf (by rw [hP.innernodemax])
      hP.innernodemin h.rep hc hs hroute.here hks (hsort.imp le_of_lt) htold hbushy' hT
    refine ⟨r, t', T', e', hshrunk.rep, ?_, fun x hx n hn => ?_⟩
    · rw [hT.inorder hup hlen, hout]
    · have hcount := hshrunk.rep.holds.counters hshrunk.rep.paired x hx n.toInnerSlots
        (BTree.body_of_inner hn)
      rw [hP.innernodemax] at hcount
      exact hcount

/-- Six leaves under two inner nodes: without the leaf `[1, 2]` and the separator `3` the two inner
nodes join, and the root goes. -/
theorem merges_cascade_thirteen : ∃ rs t, run (BTree.perform (Template.plain 4)) BTree.init
    ((List.range 13).map fun i => .insert i i) = .ok (rs, t) ∧
      ∃ (T T' : (n : Nat) × MTree Nat Nat n) (l : Tip Addr (LeafSlots Nat Nat))
        (I J : List (Item Addr Nat (LeafSlots Nat Nat))) (r : Int) (t' : BTree Nat Nat),
        InOrder (Template.plain 4) t T ∧ T.2.inorder = I ++ .inr l :: .inl 2 :: J ∧
        t.deleteInnerNode (Template.plain 4) t.fuel 12 2 1 = .ok (r, t') ∧
        Rep (Template.plain 4) t'.view T'.2 ∧ T'.2.inorder = I ++ J := by
  obtain ⟨rs, t, e, -, hstores⟩ := stores_load (P := Template.plain 4) ⟨rfl, rfl⟩
    ((List.range 13).map fun i => (i, i)) (by decide)
  have h : (run (BTree.perform (Template.plain 4)) BTree.init
      ((List.range 13).map fun i => .insert i i) >>= fun r => do
        let n ← r.2.inner 12
        return (← r.2.find (Template.plain 4) 0,
          ((← r.2.leaf 1).parent, n.firstChild.idxOf (some 1)),
          (n.slotsinuse, n.keySlots), ← r.2.mergesChild (Template.plain 4) r.2.fuel 12)) =
      .ok (some 1, (some 12, 0), (2, [2, 4, 6, 0]), true) := by
    decide +kernel
  obtain ⟨⟨rs', t'⟩, hrun, h⟩ := bind_eq_ok.mp h
  obtain ⟨rfl, rfl⟩ := Prod.mk.inj (Except.ok.inj (e.symm.trans hrun))
  obtain ⟨n, hn, h⟩ := bind_eq_ok.mp h
  obtain ⟨f, hf, h⟩ := bind_eq_ok.mp h
  obtain ⟨lf, hlf, h⟩ := bind_eq_ok.mp h
  obtain ⟨m, hm, h⟩ := bind_eq_ok.mp h
  simp only [pure_eq_ok, Except.ok.injEq, Prod.mk.injEq] at h
  obtain ⟨rfl, ⟨hparent, hidx⟩, ⟨hinuse, hslots⟩, rfl⟩ := h
  rcases hstores with ⟨-, hnil⟩ | ⟨T, hkept, hkeys⟩
  · cases hnil
  · obtain ⟨c, a, s, rfl, hc, hfind, -⟩ := hkept.rep.find_leaf hkept.order (k := 0)
      (hkeys ▸ by decide)
    obtain rfl : a = 1 := by simpa [hf] using hfind.symm
    have hl : (⟨1, s⟩ : Tip Addr (LeafSlots Nat Nat)) ∈ tips (c.fill (.leaf 1 s)).2.inorder := by
      rw [Ctx.inorder_fill_leaf hc]
      simp
    have ha : t.view.body 1 = some (.leaf s) :=
      ((holds_fill c (.leaf 1 s)).mp hkept.rep.holds).2.1
    have hpar : t.view.par 1 = some 12 := by
      obtain rfl := Except.ok.inj ((BTree.leaf_eq ha).symm.trans hlf)
      exact hparent
    obtain ⟨I, J, hseq⟩ := hkept.inOrder.followed (k := 2) hl hpar (BTree.body_of_inner hn)
      (by rw [hidx, hslots]; rfl) (by rw [hidx, hinuse]; decide)
    have hne : ∀ l ∈ tips (c.fill (.leaf 1 s)).2.inorder, l.body.keys ≠ [] := by
      intro l hl hnil
      have hlen := (hkept.rep.holds.tip hkept.rep.paired hl).2.length_keys
      rw [hnil] at hlen
      rcases hkept.least l hl with htwo | hone
      · rw [← hlen] at htwo
        simp at htwo
      · have hsize := congrArg List.length (hseq.symm.trans hone)
        simp only [List.length_append, List.length_cons, List.length_nil] at hsize
        omega
    obtain ⟨r, u, T', e', hrep, hout, -⟩ := merges_cascade rfl rfl hkept.inOrder hkept.bushy hne
      (.inl hseq) hpar hn (by rw [hslots, hinuse]; decide) hm
    exact ⟨rs, t, hrun, _, T', _, I, J, r, u, hkept.inOrder, hseq, e', hrep, hout⟩

end NwtBTree
