import NwtBTree.Refine.Erase

/-!
# What a removal will meet

Whether `balancetree` can make up for a lost pair and `deleteInnerNode` for a lost
child, read off the nodes before the call. A child with a left sibling turns to it
first if it is a leaf and last if it is an inner node, and an inner node without
right sibling can only be joined with its left one.
-/

namespace NwtBTree

variable {K D : Type}

namespace BTree

/-- The inner node at `a` can do without one of its children. -/
def sparesChild (P : Template K D) (t : BTree K D) : Nat → Addr → Except Fault Bool
  | 0, _ => .ok false
  | fuel + 1, a => do
    let n ← t.inner a
    if n.isrootnode || P.innernodemax / 2 < n.numChildren - 1 then return true
    let g ← deref n.parent
    let parent ← t.inner g
    let i := parent.firstChild.idxOf (some a)
    let j := if i + 1 < parent.numChildren then i + 1 else i - 1
    let q ← t.inner (← deref (← load parent.firstChild j))
    -- a neighbour with room takes the children over, and the parent loses a child
    if q.numChildren + (n.numChildren - 1) ≤ P.innernodemax + 1 then t.sparesChild P fuel g
    else return decide (i + 1 < parent.numChildren)

/-- The leaf at `a` can do without one of its pairs. -/
def sparesPair [DecidableEq K] (P : Template K D) (t : BTree K D) (a : Addr) : Except Fault
    Bool := do
  let l ← t.leaf a
  if l.isrootnode || P.leafnodemax / 2 < l.slotsinuse then return true
  let g ← deref l.parent
  let parent ← t.inner g
  let i := parent.firstChild.idxOf (some a)
  let q ← t.leaf (← deref (← load parent.firstChild (if 0 < i then i - 1 else 1)))
  if q.slotsinuse + (l.slotsinuse - 1) < P.leafnodemax then t.sparesChild P t.fuel g
  -- the separator in front of the right sibling is looked up by its first key
  else return decide (0 < i ∨ q.keySlots.head? = parent.keySlots.head?)

/-- The leaf at `a`, left with the keys `ks`, loses none of them to its left sibling: a key that
the first unused slot there already holds is refused as a duplicate. -/
def joinsAll [DecidableEq K] (P : Template K D) (t : BTree K D) (a : Addr) (ks : List K) :
    Except Fault Bool := do
  let l ← t.leaf a
  if l.isrootnode || P.leafnodemax / 2 < l.slotsinuse then return true
  let g ← deref l.parent
  let parent ← t.inner g
  let i := parent.firstChild.idxOf (some a)
  if i = 0 then return true
  let p ← t.leaf (← deref (← load parent.firstChild (i - 1)))
  return decide (p.slotsinuse + (l.slotsinuse - 1) < P.leafnodemax → p.beyond ≠ ks.head?)

variable [LinearOrder K] (P : Template K D) (t : BTree K D) (k : K)

/-- The leaf that `erase` takes a pair from, with the keys that stay there. -/
def eraseTarget : Except Fault (Option (Addr × List K)) := do
  match ← t.find P k with
  | none => return none
  | some a =>
    let l ← t.leaf a
    if k ∈ l.keys then return some (a, l.keys.erase k)
    else if l.beyond = some k then return some (a, l.keys.dropLast)
    else return none

/-- `erase` reads no slot behind the last one, takes no pair from an empty leaf, and the leaf can
do without the pair. -/
def canErase : Except Fault Bool := do
  match ← t.find P k with
  | none => return true
  | some a =>
    let l ← t.leaf a
    if k ∈ l.keys ∨ 0 < l.slotsinuse ∧ l.beyond = some k then t.sparesPair P a
    else return decide (l.slotsinuse < P.leafnodemax ∧ l.beyond ≠ some k)

/-- The leaf that `delete_pair` takes a pair from, with the keys that stay there. -/
def deleteTarget : Except Fault (Option (Addr × List K)) := do
  match ← t.find P k with
  | none => return none
  | some a =>
    let l ← t.leaf a
    if k ∈ l.keys then return some (a, l.keys.erase k) else return none

/-- `delete_pair` finds a lower bound in a leaf that is not empty, and the leaf can do without the
pair. -/
def canDelete : Except Fault Bool := do
  match ← t.find P k with
  | none => return true
  | some a =>
    let l ← t.leaf a
    if k ∈ l.keys then t.sparesPair P a
    else return decide (l.keys = [] ∨ ∃ x ∈ l.keys, k ≤ x)

end BTree

section Spare

variable {P : Template K D} {t : BTree K D}

theorem ParOK.addr {par : Addr → Option Addr} {p : Option Addr} {n : Nat} {T : MTree K D n}
    (h : ParOK par p T) : par T.addr = p := by
  cases n with
  | zero => exact h
  | succ n => exact h.1

theorem InnerHas.idxOf {s : InnerSlots K} {ks : List K} {as bs : List Addr} {x : Addr}
    (h : InnerHas P s ks (as ++ x :: bs)) (hx : x ∉ as) : s.firstChild.idxOf
    (some x) = as.length := by
  obtain ⟨r, hr⟩ := h.children
  have hnot : some x ∉ as.map some := by simpa using hx
  rw [hr, List.map_append, List.append_assoc, List.idxOf_append_of_notMem hnot]
  simp

/-- The parent of the node in a hole. -/
theorem Rep.above {v : View K D} {n : Nat} {up : MCtx K D (n + 1)} {g : Addr} {ksL ksR : List K}
    {csL csR : List (MTree K D n)} {x : MTree K D n}
    (h : Rep P v ((Ctx.frame up g ksL csL ksR csR).fill x).2) :
    ∃ s, v.body g = some (.inner s) ∧
      InnerHas P s (ksL ++ ksR) (csL.map Tree.addr ++ x.addr :: csR.map Tree.addr) ∧
      v.par x.addr = some g ∧ v.flag x.addr = false ∧
      s.firstChild.idxOf (some x.addr) = csL.length := by
  obtain ⟨⟨⟨s, hs, hin⟩, -⟩, -⟩ := (holds_fill _ x).mp h.holds
  have hx : x.addr ∉ (Ctx.frame up g ksL csL ksR csR).addrs := fun hm =>
    (List.nodup_append'.mp h.nodup_fill).2.2 hm (Tree.addr_mem_addrs x)
  refine ⟨s, hs, hin, ((parOK_fill _ x).mp h.par).2.addr, ?_, ?_⟩
  · rw [h.flag x.addr ((mem_addrs_fill _ x).mpr (.inr (Tree.addr_mem_addrs x))), Ctx.addr_fill,
      decide_eq_false_iff_not]
    intro heq
    have hmem := Ctx.rootAddr_mem (c := Ctx.frame up g ksL csL ksR csR) (x := x.addr) rfl
    exact hx (heq ▸ hmem)
  · rw [hin.idxOf (fun hm => hx ?_), List.length_map]
    obtain ⟨y, hy, hyx⟩ := List.mem_map.mp hm
    rw [← hyx, Ctx.addrs_frame]
    simp only [List.mem_cons, List.mem_append, List.mem_flatMap]
    exact .inr (.inl (.inl ⟨y, hy, Tree.addr_mem_addrs y⟩))

/-- The child after the one in a hole, as the parent has it. -/
theorem InnerHas.load_after {n : Nat} {sg : InnerSlots K} {ks : List K}
    {csL csR : List (MTree K D n)} {x y : MTree K D n}
    (h : InnerHas P sg ks (csL.map Tree.addr ++ x.addr :: (y :: csR).map Tree.addr)) :
    load sg.firstChild (csL.length + 1) = .ok (some y.addr) := by
  have : InnerHas P sg ks (csL.map Tree.addr ++ [x.addr] ++ y.addr :: csR.map Tree.addr) := by
    simpa using h
  exact this.load_childAt (by simp)

/-- The child before it. -/
theorem InnerHas.load_before {n : Nat} {sg : InnerSlots K} {ks : List K}
    {csL csR : List (MTree K D n)} {x y : MTree K D n}
    (h : InnerHas P sg ks ((csL ++ [y]).map Tree.addr ++ x.addr :: csR.map Tree.addr)) :
    load sg.firstChild csL.length = .ok (some y.addr) := by
  have : InnerHas P sg ks (csL.map Tree.addr ++ y.addr :: x.addr :: csR.map Tree.addr) := by
    simpa using h
  exact this.load_childAt (by simp)

/-- The siblings of the node in a hole, if they are inner nodes. -/
theorem HoldsCtx.sibling {body : Addr → Option (Body K D)} {n : Nat} {up : MCtx K D (n + 2)}
    {g x d : Addr} {ksL ksR kn : List K} {csL csR : List (MTree K D (n + 1))}
    {cn : List (MTree K D n)} (h : HoldsCtx P body (Ctx.frame up g ksL csL ksR csR) x)
    (hd : Tree.node d kn cn ∈ csL ∨ Tree.node d kn cn ∈ csR) :
    ∃ sq, body d = some (.inner sq) ∧ sq.numChildren = cn.length := by
  obtain ⟨-, hL, hR, -⟩ := h
  obtain ⟨⟨sq, hq, hinq⟩, -⟩ := (holds_node d kn cn).mp (hd.elim (hL _) (hR _))
  exact ⟨sq, hq, by simpa using hinq.num⟩

section Bridge

variable {n : Nat} {up : MCtx K D (n + 1)} {b : Addr} {ks : List K} {cs : List (MTree K D n)}

/-- The node a child is taken from can be repaired. -/
theorem settles_of_sparesChild (h : Rep P t.view (up.fill (.node b ks cs)).2) (hup : up.Paired)
    {fuel : Nat} (hspare : t.sparesChild P fuel b = .ok true) :
    up.Settles P.innernodemax (cs.length - 1) := by
  induction fuel generalizing n b ks with
  | zero => simp [BTree.sparesChild] at hspare
  | succ fuel ih =>
    obtain ⟨-, ⟨sb, hb, hin⟩, -⟩ := (holds_fill up (.node b ks cs)).mp h.holds
    have hnum : sb.numChildren = cs.length := by simpa using hin.num
    cases up with
    | top => exact .top
    | frame up g ksL csL ksR csR =>
      obtain ⟨sg, hg, hing, hpar, hflag, hidx⟩ := h.above
      simp only [Tree.addr_node] at hing hpar hflag hidx
      have hnumg : sg.numChildren = csL.length + (csR.length + 1) := by simpa using hing.num
      simp only [BTree.sparesChild, BTree.inner_eq hb, ok_bind, hflag, Bool.false_or, hnum,
        decide_eq_true_eq, hpar, deref, BTree.inner_eq hg, hidx, hnumg] at hspare
      obtain ⟨hL, hR, h0, hcL, hcR, hup⟩ := hup
      have hholds := ((holds_fill _ (.node b ks cs)).mp h.holds).1
      split at hspare
      · next hbig => exact .stay hbig
      · cases csR with
        | cons q csR =>
          obtain ⟨d, kn, cn⟩ := q
          obtain ⟨sq, hq, hnumq⟩ := hholds.sibling (.inr List.mem_cons_self)
          have hload : load sg.firstChild (csL.length + 1) = .ok (some d) :=
            InnerHas.load_after (x := .node b ks cs) hing
          have hnext : csL.length + 1 < csL.length + ((Tree.node d kn cn :: csR).length + 1) := by
            simp
          simp only [hnext, if_true, hload, ok_bind, BTree.inner_eq hq, hnumq] at hspare
          split at hspare
          · next hroom =>
            rw [Nat.add_comm] at hroom
            refine .joinNext hroom ?_
            have habove : Rep P t.view (up.fill (.node g (ksL ++ ksR)
              (csL ++ .node b ks cs :: .node d kn cn :: csR))).2 := h
            simpa using ih habove hup hspare
          · next hroom =>
            rw [Nat.add_comm cn.length] at hroom
            exact .borrowNext (Nat.not_le.mp hroom)
        | nil =>
          obtain ⟨csL, q, rfl⟩ := List.eq_nil_or_concat csL |>.resolve_left (by
            rintro rfl
            simp at hL hR h0
            simp [hL, hR] at h0)
          obtain ⟨d, kn, cn⟩ := q
          rw [List.concat_eq_append] at *
          obtain ⟨sq, hq, hnumq⟩ := hholds.sibling
            (show Tree.node d kn cn ∈ csL ++ [Tree.node d kn cn] ∨ _ from .inl (by simp))
          have hload : load sg.firstChild csL.length = .ok (some d) :=
            InnerHas.load_before (x := .node b ks cs) hing
          simp only [List.length_append, List.length_cons, List.length_nil, Nat.lt_irrefl, if_false,
            Nat.add_sub_cancel, hload, ok_bind, BTree.inner_eq hq, hnumq] at hspare
          split at hspare
          · next hroom =>
            refine .joinPrev hroom ?_
            have habove : Rep P t.view (up.fill (.node g (ksL ++ ksR)
              (csL ++ [.node d kn cn] ++ [.node b ks cs]))).2 := h
            simpa using ih habove hup hspare
          · simp [pure, Except.pure] at hspare

/-- A leaf with two pairs can do without one. -/
theorem recovers_of_sparesPair [DecidableEq K] (hP : P.Four) {c : MCtx K D 0} {a : Addr}
    {s : LeafSlots K D} (h : Rep P t.view (c.fill (.leaf a s)).2) (hc : c.Paired)
    (hspare : t.sparesPair P a = .ok true) (h2 : s.slotsinuse = 2) : c.Recovers P := by
  obtain ⟨hctx, ha, -⟩ := (holds_fill c (.leaf a s)).mp h.holds
  cases c with
  | top => trivial
  | frame up g ksL csL ksR csR =>
    obtain ⟨sg, hg, hing, hpar, hflag, hidx⟩ := h.above
    simp only [Tree.addr_leaf] at hing hpar hflag hidx
    obtain ⟨-, hholdsL, hholdsR, -⟩ := hctx
    have hbig : ¬2 < s.slotsinuse := by omega
    simp only [BTree.sparesPair, BTree.leaf_eq ha, ok_bind, hflag, Bool.false_or,
      hP.leafnodemax, hbig,
      decide_false, Bool.false_eq_true, if_false, hpar, deref, BTree.inner_eq hg, hidx] at hspare
    obtain ⟨hL, hR, h0, hcL, hcR, hup⟩ := hc
    rcases List.eq_nil_or_concat csL with rfl | ⟨csL, p, rfl⟩
    · cases csR with
      | nil => trivial
      | cons q csR =>
        -- the first child turns to its right sibling
        obtain rfl := List.eq_nil_of_length_eq_zero hL
        obtain ⟨sep, ksR, rfl⟩ := List.exists_cons_of_length_eq_add_one hR
        obtain ⟨q, sq⟩ := q
        obtain ⟨hq, hokq⟩ := hholdsR ⟨q, sq⟩ List.mem_cons_self
        have hload : load sg.firstChild 1 = .ok (some q) := hing.load_second
        have hsep : sg.keySlots.head? = some sep := by
          obtain ⟨r, hr⟩ := hing.keys
          rw [hr]
          rfl
        simp only [List.length_nil, Nat.lt_irrefl, if_false, hload, ok_bind, false_or, hsep, h2,
          BTree.leaf_eq (show t.view.body q = some (.leaf sq) from hq)] at hspare
        change if sq.slotsinuse < 3 then _ else _
        by_cases hsmall : sq.slotsinuse < 3
        · rw [if_pos (show sq.slotsinuse + (2 - 1) < 4 by omega)] at hspare
          rw [if_pos hsmall]
          have : up.Settles P.innernodemax ((Tree.leaf a s :: Tree.leaf q sq :: csR).length - 1) :=
            settles_of_sparesChild h hup hspare
          simpa using this
        · rw [if_neg (show ¬sq.slotsinuse + (2 - 1) < 4 by omega)] at hspare
          rw [if_neg hsmall]
          have hhead := of_decide_eq_true (Except.ok.inj hspare)
          have hokq' : LeafOK P sq := hokq
          change some sep = sq.keys.head?
          rw [← hhead, LeafSlots.keys, List.head?_take, if_neg (by omega)]
    · obtain ⟨p, sp⟩ := p
      rw [List.concat_eq_append] at *
      obtain ⟨hp, hokp⟩ := hholdsL ⟨p, sp⟩ (by simp)
      have hload : load sg.firstChild csL.length = .ok (some p) :=
        InnerHas.load_before (x := .leaf a s) (y := .leaf p sp) hing
      simp only [List.length_append, List.length_cons, List.length_nil, Nat.succ_pos, if_true,
        Nat.add_sub_cancel, hload, ok_bind, h2,
        BTree.leaf_eq (show t.view.body p = some (.leaf sp) from hp)] at hspare
      simp only [Ctx.Recovers, List.getLast?_append_cons, List.getLast?_singleton]
      intro hsmall
      replace hsmall : sp.slotsinuse < 3 := hsmall
      rw [if_pos (show sp.slotsinuse + (2 - 1) < 4 by omega)] at hspare
      have : up.Settles P.innernodemax
        ((csL ++ [Tree.leaf p sp] ++ Tree.leaf a s :: csR).length - 1) :=
        settles_of_sparesChild h hup hspare
      rw [List.length_append, List.length_cons] at this
      exact this

/-- No key is lost to the left sibling. -/
theorem not_loses_of_joinsAll [DecidableEq K] (hP : P.Four) {c : MCtx K D 0} {a : Addr}
    {s s' : LeafSlots K D} (h : Rep P t.view (c.fill (.leaf a s)).2)
    (hless : s'.slotsinuse + 1 = s.slotsinuse) (hjoins : t.joinsAll P a s'.keys = .ok true) :
    ¬c.Loses s' := by
  obtain ⟨hctx, ha, -⟩ := (holds_fill c (.leaf a s)).mp h.holds
  cases c with
  | top => exact id
  | frame up g ksL csL ksR csR =>
    rintro ⟨p, hmem, hsmall, hone, hbeyond⟩
    obtain ⟨csL, rfl⟩ := List.getLast?_eq_some_iff.mp hmem
    obtain ⟨sg, hg, hing, hpar, hflag, hidx⟩ := h.above
    simp only [Tree.addr_leaf] at hing hpar hflag hidx
    obtain ⟨-, hholdsL, -, -⟩ := hctx
    obtain ⟨p, sp⟩ := p
    obtain ⟨hp, -⟩ := hholdsL ⟨p, sp⟩ (by simp)
    change sp.slotsinuse < 3 at hsmall
    change sp.beyond = s'.keys.head? at hbeyond
    have hload : load sg.firstChild csL.length = .ok (some p) :=
      InnerHas.load_before (x := .leaf a s) (y := .leaf p sp) hing
    have hbig : ¬2 < s.slotsinuse := by omega
    have h1 : s.slotsinuse - 1 = 1 := by omega
    simp only [BTree.joinsAll, BTree.leaf_eq ha, ok_bind, hflag, Bool.false_or,
      hP.leafnodemax, hbig,
      decide_false, Bool.false_eq_true, if_false, hpar, deref, BTree.inner_eq hg, hidx,
      List.length_append, List.length_cons, List.length_nil, Nat.succ_ne_zero,
      Nat.add_sub_cancel, hload, h1,
      BTree.leaf_eq (show t.view.body p = some (.leaf sp) from hp)] at hjoins
    exact of_decide_eq_true (Except.ok.inj hjoins) (by omega) hbeyond

end Bridge

end Spare

/-! ## Removals that succeed -/

section Removal

variable {P : Template K D} [LinearOrder K] [DecidableEq D] {t : BTree K D}
  {T : (n : Nat) × MTree K D n} {k : K}

omit [DecidableEq D] in
/-- `find` ends at the leaf the key is routed to. -/
theorem Kept.find (hP : P.Four) (h : Kept P t T) (k : K) :
    ∃ (c : MCtx K D 0) (a : Addr) (s : LeafSlots K D), T = c.fill (.leaf a s) ∧ c.Paired ∧
      t.find P k = .ok (some a) ∧ (k ∈ allKeys LeafSlots.keys T.2.inorder → k ∈ s.keys) := by
  obtain ⟨c, ⟨a, s⟩, hT, hc, -, hfind, hmem⟩ := find_tip h.rep h.order (h.fullLast hP) k
  refine ⟨c, a, s, hT, hc, hfind, fun hk => ?_⟩
  obtain ⟨-, hok⟩ := h.rep.holds.tip h.rep.paired (l := ⟨a, s⟩) (by
    rw [hT, Ctx.inorder_fill_leaf hc]
    simp)
  rw [h.rep.allKeys_eq] at hk
  obtain ⟨e, he, rfl⟩ := List.mem_map.mp hk
  rw [hok.leafIs.keys_eq]
  exact List.mem_map_of_mem (hmem e he rfl)

theorem Kept.erase (hP : P.Four) (h : Kept P t T) (hcan : t.canErase P k = .ok true) :
    (t.erase P k = .ok (-1, t) ∧ t.eraseTarget P k = .ok none ∧
      k ∉ allKeys LeafSlots.keys T.2.inorder) ∨
    ∃ (c : MCtx K D 0) (a : Addr) (s s' : LeafSlots K D) (i : Nat) (t' : BTree K D)
      (T' : (m : Nat) × MTree K D m), T = c.fill (.leaf a s) ∧ c.Paired ∧
      t.erase P k = .ok ((i : Int), t') ∧ t.eraseTarget P k = .ok (some (a, s'.keys)) ∧
      (k ∈ allKeys LeafSlots.keys T.2.inorder → k ∈ s.keys ∧ s'.keys = s.keys.erase k) ∧
      Removal P t t' c a s s' T' := by
  obtain ⟨c, a, s, rfl, hc, hfind, hmem⟩ := h.find hP k
  have hleaf := BTree.leaf_eq h.leaf.1
  simp only [BTree.canErase, hfind, ok_bind, hleaf] at hcan
  simp only [BTree.eraseTarget, hfind, ok_bind, hleaf]
  by_cases hk : k ∈ s.keys
  · rw [if_pos (.inl hk)] at hcan
    obtain ⟨i, t', s', T', e, hkeys, hr⟩ := h.erase_live hP hc hfind hk
      (recovers_of_sparesPair hP h.rep hc hcan)
    exact .inr ⟨c, a, s, s', i, t', T', rfl, hc, e, by rw [if_pos hk, hkeys]; rfl,
      fun _ => ⟨hk, hkeys⟩, hr⟩
  · have hnot : k ∉ allKeys LeafSlots.keys (c.fill (.leaf a s)).2.inorder := mt hmem hk
    by_cases hbeyond : 0 < s.slotsinuse ∧ s.beyond = some k
    · rw [if_pos (.inr hbeyond)] at hcan
      obtain ⟨i, t', s', T', e, hkeys, hr⟩ := h.erase_stale hP hc hfind hk hbeyond.2 hbeyond.1
        (recovers_of_sparesPair hP h.rep hc hcan)
      exact .inr ⟨c, a, s, s', i, t', T', rfl, hc, e,
        by rw [if_neg hk, if_pos hbeyond.2, hkeys]; rfl, fun hk' => absurd hk' hnot, hr⟩
    · rw [if_neg (not_or.mpr ⟨hk, hbeyond⟩)] at hcan
      obtain ⟨hroom, hother⟩ := of_decide_eq_true (Except.ok.inj hcan)
      exact .inl ⟨h.stocked.erase_miss hfind hk hroom hother,
        by rw [if_neg hk, if_neg hother]; rfl, hnot⟩

theorem Kept.deletePair (hP : P.Four) (h : Kept P t T) (hcan : t.canDelete P k = .ok true) (d : D) :
    (t.deletePair P k d = .ok (-1, t) ∧ t.deleteTarget P k = .ok none) ∨
    ∃ (c : MCtx K D 0) (a : Addr) (s s' : LeafSlots K D) (i : Nat) (t' : BTree K D)
      (T' : (m : Nat) × MTree K D m), T = c.fill (.leaf a s) ∧ c.Paired ∧
      t.deletePair P k d = .ok ((i : Int), t') ∧ t.deleteTarget P k = .ok (some (a, s'.keys)) ∧
      Removal P t t' c a s s' T' := by
  obtain ⟨c, a, s, rfl, hc, hfind, -⟩ := h.find hP k
  have hleaf := BTree.leaf_eq h.leaf.1
  simp only [BTree.canDelete, hfind, ok_bind, hleaf] at hcan
  simp only [BTree.deleteTarget, hfind, ok_bind, hleaf]
  by_cases hk : k ∈ s.keys
  · rw [if_pos hk] at hcan
    obtain ⟨i, t', s', T', e, hkeys, hr⟩ := h.deletePair_live hP hc hfind hk
      (recovers_of_sparesPair hP h.rep hc hcan) d
    exact .inr ⟨c, a, s, s', i, t', T', rfl, hc, e, by rw [if_pos hk, hkeys]; rfl, hr⟩
  · rw [if_neg hk] at hcan
    refine .inl ⟨h.deletePair_miss hc hfind hk (of_decide_eq_true (Except.ok.inj hcan)) d, ?_⟩
    rw [if_neg hk]
    rfl

end Removal

end NwtBTree
