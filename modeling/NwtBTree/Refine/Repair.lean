import NwtBTree.Refine.DeleteInner
import NwtBTree.Multiway.Lead
import NwtBTree.Multiway.Tell

/-!
# `deleteInnerNode`, branch by branch
-/

namespace NwtBTree

variable {K D : Type} [LinearOrder K] {P : Template K D}

/-- Where a search by value finds the child at `x`: after `i` of the separators `ks`. -/
def View.Places (v : View K D) (ks : List K) (i : Nat) (x : Addr) : Prop :=
  ∃ ksA ksB z, ksA ++ ksB = ks ∧ ksA.length = i ∧ v.firstKey x = some z ∧ (∀ y ∈ ksA, y ≤ z) ∧
    ∀ y ∈ ksB.head?, z < y

namespace BTree

/-- The part of `deleteInnerNode` after the removal; `del` is the call on the parent. -/
def repair (P : Template K D) (del : BTree K D → Addr → K → Addr → Except Fault (Int × BTree K D))
    (t : BTree K D) (N : Addr) (loc : Int) : Except Fault (Int × BTree K D) := do
  let s ← t.inner N
  if s.isrootnode then
    if s.numChildren = 1 then
      let c ← deref (← load s.firstChild 0)
      let t ← t.setParent c none
      let t ← t.setIsRoot c true
      let t ← BTree.freeNode { t with root := some c } N
      return (1, t)
    return (loc, t)
  else if s.isunderflow P then
    let loc ← t.findInnerNodeLoc s.parent (some N)
    let g ← deref s.parent
    let parent ← t.inner g
    let prev ← (if 0 ≤ loc - 1 then loadInt parent.firstChild (loc - 1) else .ok none)
    let next ← (if loc + 1 < parent.numChildren then loadInt parent.firstChild (loc + 1)
      else .ok none)
    let loc := if loc = (parent.numChildren : Int) - 1 then loc - 1 else loc
    match next, prev with
    | some next, _ =>
      let q ← t.inner next
      let sep ← loadInt parent.keySlots loc
      if q.numChildren + s.numChildren ≤ P.innernodemax + 1 then
        let t ← t.mergeIntoNext sep N next
        let (_, t) ← del t g sep N
        return (loc, t)
      else
        let t ← t.redistributeFromNext sep N next
        return (loc, t)
    | none, some prev =>
      let q ← t.inner prev
      let sep ← loadInt parent.keySlots loc
      if q.numChildren + s.numChildren ≤ P.innernodemax + 1 then
        let t ← t.mergeIntoPrev sep N prev
        let (_, t) ← del t g sep N
        return (loc, t)
      else
        let t ← t.redistributeFromPrev sep N prev none
        return (loc, t)
    | none, none => return (loc, t)
  else
    return (loc, t)

theorem deleteInnerNode_eq (P : Template K D) (fuel : Nat) (t : BTree K D) (N : Addr) (kP : K)
    (child : Addr) : deleteInnerNode P (fuel + 1) t N kP child = (do
      let loc ← t.findInnerNodeLoc (some N) (some child)
      let s ← t.inner N
      let keyloc ← findInnerNodeKey s.toInnerSlots kP
      if loc < 0 then
        return (loc, t)
      let _ ← loadInt s.keySlots keyloc
      let t ← (if loc < s.numChildren then t.removeChild N loc.toNat keyloc.toNat else .ok t)
      t.repair P (deleteInnerNode P fuel) N loc) := rfl

variable {t : BTree K D} {n : Nat} {up : MCtx K D (n + 1)} {a x : Addr} {k : K} {ksL ksR : List K}
  {csL csR : List (MTree K D n)}

/-- With the place of `x` and of `k` found, `deleteInnerNode` takes both out and repairs the
node. -/
theorem deleteInnerNode_repair (h : Doomed P t.view up a ksL k ksR csL x csR) (hk : k ∉ ksL)
    (hx : t.view.Places (ksL ++ k :: ksR) csL.length x) {t' : BTree K D}
    (e : t.removeChild a csL.length ksL.length = .ok t') (fuel : Nat) :
    t.deleteInnerNode P (fuel + 1) a k x =
      t'.repair P (BTree.deleteInnerNode P fuel) a csL.length := by
  obtain ⟨s, hs, hin⟩ := h.body
  obtain ⟨ksA, ksB, z, hks, hlen, hz, hA, hB⟩ := hx
  have hlenK := congrArg List.length hks
  have hlenC := h.len
  simp only [List.length_append, List.length_cons] at hlenK hlenC
  have hloc := findInnerNodeLoc_spec hs (hks ▸ hin)
    (by rw [hlen, List.length_map]) (by rw [List.length_map]; omega) hz hA hB
  have hkey := findInnerNodeKey_spec hin hk
  have hload : load s.keySlots ksL.length = .ok k := hin.load_keyAt rfl
  have hlt : ((csL.map Tree.addr).length : Int) < s.numChildren := by
    rw [hin.num]
    grind
  rw [deleteInnerNode_eq, hloc, ok_bind, inner_eq hs, ok_bind, hkey, ok_bind,
    if_neg (by omega), loadInt_natCast, hload, ok_bind, if_pos hlt]
  simp only [List.length_map, Int.toNat_natCast, e, ok_bind]

/-- What `repair` starts with. -/
theorem deleteInnerNode_removed (h : Doomed P t.view up a ksL k ksR csL x csR) (hk : k ∉ ksL)
    (hx : t.view.Places (ksL ++ k :: ksR) csL.length x) (fuel : Nat) :
    ∃ t' : BTree K D, t.deleteInnerNode P (fuel + 1) a k x =
        t'.repair P (BTree.deleteInnerNode P fuel) a csL.length ∧
      Stripped P t'.view up a (ksL ++ ksR) (csL ++ csR) ∧
      t'.view.links = removalLinks (n == 0) t.view.links (csL.map Tree.addr) x (csR.map Tree.addr) ∧
      (∀ b, b ≠ a → b ≠ x → t'.view.body b = t.view.body b) ∧ t'.view.size = t.view.size ∧
      t'.view.count = t.view.count ∧ t'.view.tailleaf = t.view.tailleaf ∧
      t'.view.headleaf = t.view.headleaf := by
  obtain ⟨t', e, hrest⟩ := h.removed
  exact ⟨t', deleteInnerNode_repair h hk hx e fuel, hrest⟩

section Branches

variable {f : BTree K D → Addr → K → Addr → Except Fault (Int × BTree K D)} {s : InnerSlots K}
  {i : Int}

/-- A root with one child gives way to it. -/
theorem repair_collapse {c : Addr} {b : Body K D} {ks : List K}
    (ha : t.view.body a = some (.inner s)) (hs : InnerHas P s ks [c])
    (hflag : t.view.flag a = true) (hc : t.view.body c = some b) :
    ∃ t', t.repair P f a i = .ok (1, t') ∧
      t'.view = ({ (t.view.setPar c none).setFlag c true with root := some c } : View K D).free
        a := by
  have hload : load s.firstChild 0 = .ok (some c) := hs.load_firstChild
  obtain ⟨t1, e1, v1⟩ := setParent_view hc none
  have hc1 : t1.view.body c = some b := by rw [v1]; exact hc
  obtain ⟨t2, e2, v2⟩ := setIsRoot_view hc1 true
  have ha2 : ({ t2 with root := some c } : BTree K D).view.body a = some (.inner s) := by
    change t2.view.body a = _
    rw [v2, v1]
    exact ha
  obtain ⟨t3, e3, v3⟩ := freeNode_view ha2
  refine ⟨t3, ?_, ?_⟩
  · have hnum : s.numChildren = 1 := hs.num
    simp only [repair, inner_eq ha, ok_bind, hflag, if_true, hnum, hload, deref, e1, e2]
    rw [e3]
    rfl
  · rw [v3]
    change ({ t2.view with root := some c } : View K D).free a = _
    rw [v2, v1]

theorem repair_root {ks : List K} {cs : List Addr} (ha : t.view.body a = some (.inner s))
    (hs : InnerHas P s ks cs) (hflag : t.view.flag a = true) (h1 : cs.length ≠ 1) :
    t.repair P f a i = .ok (i, t) := by
  have hnum : s.numChildren ≠ 1 := by rw [hs.num]; exact h1
  simp only [repair, inner_eq ha, ok_bind, hflag, if_true, if_neg hnum]
  rfl

theorem repair_stay {ks : List K} {cs : List Addr} (ha : t.view.body a = some (.inner s))
    (hs : InnerHas P s ks cs) (hflag : t.view.flag a = false) (h : P.innernodemin < cs.length) :
    t.repair P f a i = .ok (i, t) := by
  have hover : s.isunderflow P = false := by
    rw [InnerSlots.isunderflow, hs.num, decide_eq_false_iff_not]
    omega
  simp only [repair, inner_eq ha, ok_bind, hflag, hover, Bool.false_eq_true, if_false]
  rfl

/-- An underfull node below the root looks at its right sibling. -/
theorem repair_next {b d : Addr} {sb sd : InnerSlots K} {ks kn : List K} {cs cn asL asR : List Addr}
    {sep : K} (ha : t.view.body a = some (.inner s)) (hs : InnerHas P s ks cs)
    (hflag : t.view.flag a = false) (h : cs.length ≤ P.innernodemin) (hpar : t.view.par a = some b)
    (hb : t.view.body b = some (.inner sb))
    (hsb : InnerHas P sb (ksL ++ sep :: ksR) (asL ++ a :: d :: asR))
    (hd : t.view.body d = some (.inner sd)) (hsd : InnerHas P sd kn cn)
    (hlenL : ksL.length = asL.length) (hlenR : ksR.length = asR.length)
    (hplace : ∃ z, t.view.firstKey a = some z ∧ (∀ y ∈ ksL, y ≤ z) ∧ z < sep) :
    ∃ r : Int, t.repair P f a i = (if cn.length + cs.length ≤ P.innernodemax + 1 then (do
        let t ← t.mergeIntoNext sep a d
        let (_, t) ← f t b sep a
        return (r, t))
      else (do
        let t ← t.redistributeFromNext sep a d
        return (r, t)) : Except Fault _) := by
  obtain ⟨z, hz, hzL, hzR⟩ := hplace
  have hunder : s.isunderflow P = true := by
    rw [InnerSlots.isunderflow, hs.num]
    simp
    omega
  have hloc := findInnerNodeLoc_spec hb hsb hlenL
    (by simp [hlenR]) hz hzL (by simpa using hzR)
  have hnum : sb.numChildren = asL.length + asR.length + 2 := by
    rw [hsb.num]
    simp
    omega
  have hnext : loadInt sb.firstChild ((asL.length : Int) + 1) = .ok (some d) := by
    have : InnerHas P sb (ksL ++ sep :: ksR) ((asL ++ [a]) ++ d :: asR) := by simpa using hsb
    rw [← Int.natCast_succ, loadInt_natCast]
    exact this.load_childAt (by simp)
  have hsep : loadInt sb.keySlots (asL.length : Int) = .ok sep := by
    rw [loadInt_natCast]
    exact hsb.load_keyAt hlenL.symm
  obtain ⟨prev, hprev⟩ : ∃ prev, (if 0 ≤ (asL.length : Int) - 1 then
      loadInt sb.firstChild ((asL.length : Int) - 1) else .ok none) = .ok prev := by
    rcases List.eq_nil_or_concat asL with rfl | ⟨asL, p, rfl⟩
    · exact ⟨none, rfl⟩
    · refine ⟨some p, ?_⟩
      rw [if_pos (by simp)]
      have hi : ((asL.concat p).length : Int) - 1 = (asL.length : Nat) := by simp
      rw [hi, loadInt_natCast]
      have : InnerHas P sb (ksL ++ sep :: ksR) (asL ++ p :: a :: d :: asR) := by simpa using hsb
      exact this.load_childAt rfl
  refine ⟨asL.length, ?_⟩
  simp only [repair, inner_eq ha, ok_bind, hflag, Bool.false_eq_true, if_false, hunder,
    if_true, hpar,
    hloc, deref, inner_eq hb, hprev]
  rw [if_pos (by rw [hnum]; push_cast; omega), hnext, ok_bind]
  simp only [if_neg
    (show ¬(asL.length : Int) = (sb.numChildren : Int) - 1 by rw [hnum]; push_cast; omega),
    inner_eq hd, ok_bind, hsep, hsd.num, hs.num]

/-- Where there is none, it looks at its left one. -/
theorem repair_prev {b d : Addr} {sb sd : InnerSlots K} {ks kn : List K} {cs cn asL : List Addr}
    {sep : K} (ha : t.view.body a = some (.inner s)) (hs : InnerHas P s ks cs)
    (hflag : t.view.flag a = false) (h : cs.length ≤ P.innernodemin) (hpar : t.view.par a = some b)
    (hb : t.view.body b = some (.inner sb))
    (hsb : InnerHas P sb (ksL ++ [sep]) (asL ++ [d, a]))
    (hd : t.view.body d = some (.inner sd)) (hsd : InnerHas P sd kn cn)
    (hlenL : ksL.length = asL.length)
    (hplace : ∃ z, t.view.firstKey a = some z ∧ ∀ y ∈ ksL ++ [sep], y ≤ z) :
    ∃ r : Int, t.repair P f a i = (if cn.length + cs.length ≤ P.innernodemax + 1 then (do
        let t ← t.mergeIntoPrev sep a d
        let (_, t) ← f t b sep a
        return (r, t))
      else (do
        let t ← t.redistributeFromPrev sep a d none
        return (r, t)) : Except Fault _) := by
  obtain ⟨z, hz, hzL⟩ := hplace
  have hunder : s.isunderflow P = true := by
    rw [InnerSlots.isunderflow, hs.num]
    simp
    omega
  have hsb' : InnerHas P sb ((ksL ++ [sep]) ++ []) ((asL ++ [d]) ++ a :: []) := by simpa using hsb
  have hloc := findInnerNodeLoc_spec hb hsb' (by simp [hlenL]) rfl hz hzL (by simp)
  have hlen : ((asL ++ [d]).length : Int) = (asL.length : Int) + 1 := by simp
  rw [hlen] at hloc
  have hnum : (sb.numChildren : Int) = asL.length + 2 := by
    rw [hsb.num]
    simp
  have hprev : loadInt sb.firstChild ((asL.length : Int) + 1 - 1) = .ok (some d) := by
    rw [Int.add_sub_cancel, loadInt_natCast]
    exact hsb.load_childAt rfl
  have hsep : loadInt sb.keySlots ((asL.length : Int) + 1 - 1) = .ok sep := by
    rw [Int.add_sub_cancel, loadInt_natCast]
    exact hsb.load_keyAt hlenL.symm
  refine ⟨(asL.length : Int) + 1 - 1, ?_⟩
  simp only [repair, inner_eq ha, ok_bind, hflag, Bool.false_eq_true, if_false, hunder,
    if_true, hpar,
    hloc, deref, inner_eq hb]
  rw [if_pos (by omega), hprev, ok_bind, if_neg (by rw [hnum]; omega), ok_bind]
  simp only [if_pos (show (asL.length : Int) + 1 = (sb.numChildren : Int) - 1 by rw [hnum]; omega),
    inner_eq hd, ok_bind, hsep, hsd.num, hs.num]

end Branches

end BTree

/-- The links after the repair of a node that is left with the children `cs`. -/
def mendLinks (cap : Nat) : {n : Nat} → MCtx K D (n + 1) → List (MTree K D n) → Links → Links
  | n, .frame _ _ _ csL _ csR, cs, l =>
    if cs.length ≤ cap / 2 then
      match csR, csL.getLast? with
      | next :: _, _ => l.bridge (n == 0) (cs.map Tree.addr) (next.children.map Tree.addr)
      | [], some prev => l.bridge (n == 0) (prev.children.map Tree.addr) (cs.map Tree.addr)
      | [], none => l
    else l
  | _, .top, _, l => l

omit [LinearOrder K] in
theorem mendLinks_frame {cap n : Nat} (up : MCtx K D (n + 2)) (b : Addr) (ksL ksR : List K)
    (csL csR : List (MTree K D (n + 1))) (cs : List (MTree K D n)) (l : Links) :
    mendLinks cap (.frame up b ksL csL ksR csR) cs l = if cs.length ≤ cap / 2 then
      match csR, csL.getLast? with
      | next :: _, _ => l.bridge (n == 0) (cs.map Tree.addr) (next.children.map Tree.addr)
      | [], some prev => l.bridge (n == 0) (prev.children.map Tree.addr) (cs.map Tree.addr)
      | [], none => l
    else l := rfl

omit [LinearOrder K] in
/-- Above the parents of the leaves there are no links. -/
@[simp] theorem mendLinks_succ {cap n : Nat} (up : MCtx K D (n + 2)) (cs : List (MTree K D (n + 1)))
    (l : Links) : mendLinks cap up cs l = l := by
  cases up with
  | top => rfl
  | frame up b ksL csL ksR csR =>
    rw [mendLinks_frame]
    split
    · split <;> rfl
    · rfl

/-- The state `v` has become `v'`, which holds the tree `T` and has the links `l`. -/
structure Shrunk (P : Template K D) (v v' : View K D) (l : Links) (T : (m : Nat) × MTree K D m) :
    Prop where
  rep : Rep P v' T.2
  links : v'.links = l
  size : v'.size = v.size
  count : v'.count = v.count
  tailleaf : v'.tailleaf = v.tailleaf
  headleaf : v'.headleaf = v.headleaf

section Collapse

variable {v : View K D} {n : Nat} {a : Addr} {ks : List K} {c : MTree K D n}

omit [LinearOrder K] in
theorem Stripped.collapse (h : Stripped P v .top a ks [c]) :
    Rep P (({ (v.setPar c.addr none).setFlag c.addr true with root := some c.addr } :
      View K D).free a) c := by
  have hnd : a ∉ c.addrs ∧ c.addrs.Nodup := by simpa using h.nodup
  have hne : ∀ b ∈ c.addrs, b ≠ a := fun b hb => ne_of_mem_of_not_mem hb hnd.1
  obtain ⟨hp, -⟩ := h.kids c (by simp)
  have hp' : Plug P ((v.setPar c.addr none).free a) c := by
    refine hp.congr ?_ ?_ ?_ ?_ hnd.2
    · intro b hb
      simp [hne b hb]
    · intro b hb hbc
      simp [hne b hb, hbc]
    · intro b hb
      simp [hne b hb]
    · intro _ b hb
      simp [hne b hb]
  refine ⟨rfl, hp'.holds, ?_, hp'.sibs, ?_, hnd.2, hp.paired⟩
  · have hpar := hp'.par
    rw [View.par_free, if_neg (hne _ c.addr_mem_addrs), View.par_setPar, if_pos rfl] at hpar
    exact hpar
  · intro b hb
    have hf := hp.flag b hb
    by_cases hbc : b = c.addr
    · simp [View.free, View.setFlag, hbc, hne _ c.addr_mem_addrs]
    · simp [View.free, View.setFlag, hbc, hne b hb, hf]

end Collapse

section Sorted

variable {v : View K D} {cap n : Nat} {up : MCtx K D (n + 2)} {a b : Addr} {ks ksL ksR : List K}
  {cs : List (MTree K D n)} {csL csR : List (MTree K D (n + 1))} {T : (m : Nat) × MTree K D m}

/-- The first separator of a node lies between the separators around the node. -/
theorem Stripped.firstKey_between (h : Stripped P v (.frame up b ksL csL ksR csR) a ks cs)
    (hall : (ksL ++ ks ++ ksR).Pairwise (· ≤ ·)) (hpos : 0 < ks.length)
    (hnext : ∀ z ∈ ks.head?, ∀ y ∈ ksR.head?, z < y) :
    ∃ z, v.firstKey a = some z ∧ (∀ y ∈ ksL, y ≤ z) ∧ ∀ y ∈ ksR.head?, z < y := by
  obtain ⟨z, ks, rfl⟩ := List.exists_cons_of_length_pos hpos
  obtain ⟨s, hs, hin⟩ := h.body
  rw [List.append_assoc, List.cons_append, List.pairwise_append] at hall
  exact ⟨z, hin.firstKey hs, fun y hy => hall.2.2 y hy z (by simp), hnext z rfl⟩

end Sorted

namespace BTree

section Moves

variable {t : BTree K D} {n : Nat} {a b d : Addr} {ks kn kL kR : List K} {sep z : K}
  {up : MCtx K D (n + 2)}
  {cs cn : List (MTree K D n)} {c : MTree K D n} {cL cR : List (MTree K D (n + 1))}

omit [LinearOrder K] in
/-- The merge with the right sibling: then the node itself is to go. -/
theorem mergeIntoNext_doomed
    (h : Stripped P t.view (.frame up b kL cL (sep :: kR) (.node d kn cn :: cR)) a ks cs)
    (hroom : cs.length + cn.length ≤ P.innernodemax + 1) :
    ∃ t', t.mergeIntoNext sep a d = .ok t' ∧
      Doomed P t'.view up b kL sep kR cL a (.node d (ks ++ sep :: kn) (cs ++ cn) :: cR) ∧
      t'.view.body a = t.view.body a ∧
      t'.view.links = t.view.links.bridge (n == 0) (cs.map Tree.addr) (cn.map Tree.addr) ∧
      t'.view.size = t.view.size ∧ t'.view.count = t.view.count ∧
      t'.view.tailleaf = t.view.tailleaf ∧ t'.view.headleaf = t.view.headleaf := by
  obtain ⟨s, hs, hin⟩ := h.body
  obtain ⟨⟨sd, hsd, hind⟩, -⟩ := h.hole.holds.2.2.1 _ List.mem_cons_self
  obtain ⟨-, hlenn, -⟩ := h.hole.paired.2.2.2.2.1 _ List.mem_cons_self
  have hlen := h.len
  have hO : (cL ++ Tree.node d kn cn :: cR).Perm (Tree.node d kn cn :: (cL ++ cR)) :=
    List.perm_middle
  obtain ⟨hab, hnd, hroots⟩ := h.roots hO
  rw [List.map_append] at hnd hroots
  obtain ⟨s', t', e, hs', v'⟩ := mergeIntoNext_spec hs hin
    (by simpa using hlen) hsd hind (by simpa using hlenn) hab.2.1 (by simpa using hroom)
    (fun e he => (hroots e (List.mem_append_left _ he)).2.1) (fun e he => (hroots e he).2.2) hnd
    (fun hn => h.chain (by simpa using hn))
  refine ⟨t', e, ?_, by rw [v']; simp [hab.2.1], by rw [v']; rfl, by rw [v']; rfl, by rw [v']; rfl,
    by rw [v']; rfl, by rw [v']; rfl⟩
  refine h.joined hO (X := ks ++ sep :: kn) (Y := cs ++ cn) List.perm_middle rfl (by simp) (.refl _)
    ?_ (by grind) rfl (by simpa using hs') (List.map_append ..).symm h.chain
    (fun hn => (h.hole.sibs.2.2.1 _ List.mem_cons_self).1 hn) v'
  simp at hlenn hlen ⊢
  omega

omit [LinearOrder K] in
/-- The merge with the left sibling. -/
theorem mergeIntoPrev_doomed
    (h : Stripped P t.view (.frame up b (kL ++ [sep]) (cL ++ [.node d kn cn]) [] []) a ks cs)
    (hroom : cn.length + cs.length ≤ P.innernodemax + 1) :
    ∃ t', t.mergeIntoPrev sep a d = .ok t' ∧
      Doomed P t'.view up b kL sep [] (cL ++ [.node d (kn ++ sep :: ks) (cn ++ cs)]) a [] ∧
      t'.view.body a = t.view.body a ∧
      t'.view.links = t.view.links.bridge (n == 0) (cn.map Tree.addr) (cs.map Tree.addr) ∧
      t'.view.size = t.view.size ∧ t'.view.count = t.view.count ∧
      t'.view.tailleaf = t.view.tailleaf ∧ t'.view.headleaf = t.view.headleaf := by
  obtain ⟨s, hs, hin⟩ := h.body
  have hmem : Tree.node d kn cn ∈ cL ++ [Tree.node d kn cn] := by simp
  obtain ⟨⟨sd, hsd, hind⟩, -⟩ := h.hole.holds.2.1 _ hmem
  obtain ⟨-, hlenn, -⟩ := h.hole.paired.2.2.2.1 _ hmem
  have hlen := h.len
  have hO : ((cL ++ [Tree.node d kn cn]) ++ []).Perm (Tree.node d kn cn :: cL) := by
    rw [List.append_nil]
    exact List.perm_append_singleton _ _
  obtain ⟨hab, hnd, hroots⟩ := h.roots hO
  have hswap : ((cs ++ cn).map Tree.addr).Perm (cn.map Tree.addr ++ cs.map Tree.addr) := by
    rw [List.map_append]
    exact List.perm_append_comm
  have hroots' := fun e he => hroots e (hswap.mem_iff.mpr he)
  obtain ⟨s', t', e, hs', v'⟩ := mergeIntoPrev_spec hs hin
    (by simpa using hlen) hsd hind (by simpa using hlenn) hab.2.1 (by simpa using hroom)
    (fun e he => (hroots' e (List.mem_append_right _ he)).2.1) (fun e he => (hroots' e he).2.2)
    (hswap.nodup_iff.mp hnd) (fun hn => h.chain (by simpa using hn))
  refine ⟨t', e, ?_, by rw [v']; simp [hab.2.1], by rw [v']; rfl, by rw [v']; rfl, by rw [v']; rfl,
    by rw [v']; rfl, by rw [v']; rfl⟩
  refine h.joined hO (X := kn ++ sep :: ks) (Y := cn ++ cs) ?_ (by simp) rfl List.perm_append_comm
    ?_ (by grind) (by simp) (by simpa using hs') (List.map_append ..).symm
    (fun hn => (h.hole.sibs.2.1 _ hmem).1 hn) h.chain v'
  · rw [List.append_nil]
    exact List.perm_append_singleton _ _
  · simp at hlenn hlen ⊢
    omega

/-- The first child of the right sibling moves over. -/
theorem redistributeFromNext_rep
    (h : Stripped P t.view (.frame up b kL cL (sep :: kR) (.node d (z :: kn) (c :: cn) :: cR))
      a ks cs)
    (hsmall : cs.length ≤ P.innernodemax) (hkn : 0 < kn.length) (hsep : sep ∉ kL) :
    ∃ t', t.redistributeFromNext sep a d = .ok t' ∧
      Rep P t'.view (up.fill (.node b (kL ++ z :: kR)
        (cL ++ .node a (ks ++ [sep]) (cs ++ [c]) :: .node d kn cn :: cR))).2 ∧
      t'.view.links =
        t.view.links.bridge (n == 0) (cs.map Tree.addr) (c.addr :: cn.map Tree.addr) ∧
      t'.view.size = t.view.size ∧ t'.view.count = t.view.count ∧
      t'.view.tailleaf = t.view.tailleaf ∧ t'.view.headleaf = t.view.headleaf := by
  obtain ⟨s, hs, hin⟩ := h.body
  obtain ⟨⟨sb, hsb, hinb⟩, -⟩ := h.hole.holds
  obtain ⟨⟨sd, hsd, hind⟩, -⟩ := h.hole.holds.2.2.1 _ List.mem_cons_self
  obtain ⟨-, hlenn, -⟩ := h.hole.paired.2.2.2.2.1 _ List.mem_cons_self
  have hlen := h.len
  have hO : (cL ++ Tree.node d (z :: kn) (c :: cn) :: cR).Perm
      (Tree.node d (z :: kn) (c :: cn) :: (cL ++ cR)) := List.perm_middle
  obtain ⟨hab, hnd, hroots⟩ := h.roots hO
  obtain ⟨-, hcd, -⟩ := hroots c.addr (by simp)
  have hpard : t.view.par d = some b := (h.hole.par.2.2.1 _ List.mem_cons_self).1
  obtain ⟨s1, s2, s3, t', e, hs1, hs2, hs3, v'⟩ := redistributeFromNext_spec
    hs hin (by simpa using hsmall) (by omega) hsd hind (by simpa using hlenn) hsb hinb
    hsep hpard hab.2.1 hab.1 hab.2.2.symm hcd
    (fun e he => (hroots e (by
      simp only [List.map_append, List.map_cons, List.mem_append, List.mem_cons] at he ⊢
      tauto)).2.2)
  exact ⟨t', e, h.lent hkn hs1 (by simpa using hs2) hs3 v', by rw [v']; rfl, by rw [v']; rfl,
    by rw [v']; rfl, by rw [v']; rfl, by rw [v']; rfl⟩

end Moves

/-- A node that is left too small beside a full right neighbour gets a child from it. -/
theorem deleteInnerNode_borrowNext (hcap : 4 ≤ P.innernodemax)
    (hmin : P.innernodemin = P.innernodemax / 2) {t : BTree K D}
    {n : Nat} {up : MCtx K D (n + 2)} {a b d x : Addr} {kn ksL ksR kL kR : List K} {k sep z : K}
    {cn csL csR : List (MTree K D n)} {c : MTree K D n} {cL cR : List (MTree K D (n + 1))}
    (h : Doomed P t.view (.frame up b kL cL (sep :: kR) (.node d (z :: kn) (c :: cn) :: cR)) a ksL k
      ksR csL x csR)
    (hk : k ∉ ksL) (hx : t.view.Places (ksL ++ k :: ksR) csL.length x)
    (hsort : (kL ++ (ksL ++ ksR) ++ sep :: kR).Pairwise (· ≤ ·)) (hpos : 0 < (ksL ++ ksR).length)
    (hnext : ∀ z ∈ (ksL ++ ksR).head?, z < sep)
    (hsmall : (csL ++ csR).length ≤ P.innernodemax / 2)
    (hroom : P.innernodemax + 1 < (csL ++ csR).length + (c :: cn).length) (fuel : Nat) :
    ∃ r t', t.deleteInnerNode P (fuel + 1) a k x = .ok (r, t') ∧
      Shrunk P t.view t'.view
        (mendLinks P.innernodemax (.frame up b kL cL (sep :: kR)
          (.node d (z :: kn) (c :: cn) :: cR))
          (csL ++ csR) (removalLinks (n == 0) t.view.links (csL.map Tree.addr) x
            (csR.map Tree.addr)))
        (up.fill
          (.node b (kL ++ z :: kR) (cL ++ .node a (ksL ++ ksR ++ [sep]) (csL ++ csR ++ [c]) ::
          .node d kn cn :: cR))) := by
  obtain ⟨t1, e1, h1, hl, -, hsize, hcount, htail, hhead⟩ := deleteInnerNode_removed h hk hx fuel
  obtain ⟨s, hs, hin⟩ := h1.body
  obtain ⟨⟨sb, hsb, hinb⟩, -, hholds, -⟩ := h1.hole.holds
  obtain ⟨⟨sd, (hsd : t1.view.body d = _), hind⟩, -⟩ := hholds _ List.mem_cons_self
  obtain ⟨hpL, hpR, -, -, hpcR, -⟩ := h1.hole.paired
  obtain ⟨-, hlenn, -⟩ := hpcR _ List.mem_cons_self
  have hlenn' : cn.length = kn.length + 1 := by simpa using hlenn
  obtain ⟨y, hy, hyL, hyR⟩ := h1.firstKey_between hsort hpos (by simpa using hnext)
  have hysep := hyR sep rfl
  obtain ⟨r, e2⟩ := repair_next (P := P) (f := BTree.deleteInnerNode P fuel) (i := csL.length)
    (d := d) hs hin h1.flag_frame (by rwa [List.length_map, hmin]) h1.par hsb hinb hsd hind
    (by simpa using hpL) (by simpa using hpR) ⟨y, hy, hyL, hysep⟩
  obtain ⟨t2, e3, hrep, hl2, hsize2, hcount2, htail2, hhead2⟩ := redistributeFromNext_rep h1
    (hsmall.trans (Nat.div_le_self _ _)) (by simp only [List.length_cons] at hroom; omega)
    (fun hm => (hyL sep hm).not_gt hysep)
  refine ⟨r, t2, ?_, hrep, ?_, hsize2.trans hsize, hcount2.trans hcount, htail2.trans htail,
    hhead2.trans hhead⟩
  · rw [e1, e2, if_neg (by simp; simp at hroom; omega), e3]
    rfl
  · rw [hl2, hl, mendLinks_frame, if_pos hsmall]
    rfl

/-- As long as it needs no child from a left sibling, `deleteInnerNode` ends, and what it leaves is
`Settled`. -/
theorem deleteInnerNode_spec (hcap : 4 ≤ P.innernodemax)
    (hmin : P.innernodemin = P.innernodemax / 2)
    {n : Nat} {up : MCtx K D (n + 1)} {a : Addr} {ks : List K} {cs : List (MTree K D n)}
    {T : (m : Nat) × MTree K D m} (hT : up.Settled P.innernodemax a ks cs T) :
    ∀ {t : BTree K D} {fuel : Nat} {ksL ksR : List K} {k : K} {csL csR : List (MTree K D n)}
      {x : Addr}, ksL ++ ksR = ks → csL ++ csR = cs → Doomed P t.view up a ksL k ksR csL x csR →
      k ∉ ksL → t.view.Places (ksL ++ k :: ksR) csL.length x →
      up.Told P.innernodemax ks → up.Bushy (P.innernodemax / 2 ≤ ·) →
      (up.parent.isSome → P.innernodemax / 2 ≤ ks.length + 1) → up.depth < fuel →
      ∃ r t', t.deleteInnerNode P fuel a k x = .ok (r, t') ∧
        Shrunk P t.view t'.view (mendLinks P.innernodemax up cs (removalLinks (n == 0) t.view.links
          (csL.map Tree.addr) x (csR.map Tree.addr))) T := by
  induction hT with
  | @collapse n a ks c =>
    rintro t fuel ksL ksR k csL csR x rfl hcs h hk hx - - - hfuel
    obtain ⟨fuel, rfl⟩ := Nat.exists_eq_succ_of_ne_zero (Nat.ne_of_gt hfuel)
    obtain ⟨t1, e1, h1, hl, hbody, hsize, hcount, htail, hhead⟩ :=
      deleteInnerNode_removed h hk hx fuel
    rw [hcs] at h1
    obtain ⟨s, hs, hin⟩ := h1.body
    obtain ⟨b, hb⟩ := (h1.kids c (by simp)).1.holds.isSome c.addr_mem_addrs
    obtain ⟨t2, e2, v2⟩ := repair_collapse (P := P) (f := BTree.deleteInnerNode P fuel)
      (i := csL.length) hs hin (by simpa using h1.flag) hb
    refine ⟨1, t2, e1.trans e2, ?_, ?_, ?_, ?_, ?_, ?_⟩
    · rw [v2]
      exact h1.collapse
    · rw [v2]
      exact (Links.forget_inner hs).trans hl
    · rw [v2]
      exact hsize
    · rw [v2]
      exact hcount
    · rw [v2]
      exact htail
    · rw [v2]
      exact hhead
  | @root n a ks cs hne =>
    rintro t fuel ksL ksR k csL csR x rfl rfl h hk hx - - - hfuel
    obtain ⟨fuel, rfl⟩ := Nat.exists_eq_succ_of_ne_zero (Nat.ne_of_gt hfuel)
    obtain ⟨t1, e1, h1, hl, hbody, hsize, hcount, htail, hhead⟩ :=
      deleteInnerNode_removed h hk hx fuel
    obtain ⟨s, hs, hin⟩ := h1.body
    have e2 := repair_root (P := P) (f := BTree.deleteInnerNode P fuel) (i := csL.length) hs hin
      (by simpa using h1.flag) (by rwa [List.length_map])
    have hlen := h1.len
    exact ⟨_, t1, e1.trans e2, h1.rep (by omega), hl, hsize, hcount, htail, hhead⟩
  | @stay n up a b ks kL kR cs cL cR hbig =>
    rintro t fuel ksL ksR k csL csR x rfl rfl h hk hx - - - hfuel
    obtain ⟨fuel, rfl⟩ := Nat.exists_eq_succ_of_ne_zero (Nat.ne_of_gt (Nat.zero_lt_of_lt hfuel))
    obtain ⟨t1, e1, h1, hl, hbody, hsize, hcount, htail, hhead⟩ :=
      deleteInnerNode_removed h hk hx fuel
    obtain ⟨s, hs, hin⟩ := h1.body
    have e2 := repair_stay (P := P) (f := BTree.deleteInnerNode P fuel) (i := csL.length) hs hin
      h1.flag_frame (by rwa [List.length_map, hmin])
    have hlen := h1.len
    refine ⟨_, t1, e1.trans e2, h1.rep (by omega), ?_, hsize, hcount, htail, hhead⟩
    rw [mendLinks_frame, if_neg (Nat.not_le.mpr hbig), hl]
  | @joinNext n up a b d ks kn kL kR sep cs cn cL cR T hsmall hroom ht ih =>
    rintro t fuel ksL ksR k csL csR x rfl rfl h hk hx htold hbushy hks hfuel
    obtain ⟨fuel, rfl⟩ := Nat.exists_eq_succ_of_ne_zero (Nat.ne_of_gt (Nat.zero_lt_of_lt hfuel))
    obtain ⟨t1, e1, h1, hl, -, hsize, hcount, htail, hhead⟩ := deleteInnerNode_removed h hk hx fuel
    obtain ⟨s, hs, hin⟩ := h1.body
    obtain ⟨hsort, hfew⟩ := Ctx.told_frame.mp htold
    have hlen := h1.len
    obtain ⟨hnext, hup, -⟩ := hfew (by omega)
    obtain ⟨⟨sb, hsb, hinb⟩, -, hholds, -⟩ := h1.hole.holds
    obtain ⟨⟨sd, (hsd : t1.view.body d = _), hind⟩, -⟩ := hholds _ List.mem_cons_self
    obtain ⟨hpL, hpR, -⟩ := h1.hole.paired
    have hpos : 0 < (ksL ++ ksR).length := by
      have := hks rfl
      omega
    obtain ⟨z, hz, hzL, hzR⟩ := h1.firstKey_between hsort hpos hnext
    have hzsep := hzR sep rfl
    obtain ⟨r, e2⟩ := repair_next (P := P) (f := BTree.deleteInnerNode P fuel) (i := csL.length)
      (d := d) hs hin h1.flag_frame (by rwa [List.length_map, hmin]) h1.par hsb hinb hsd hind
      (by simpa using hpL) (by simpa using hpR) ⟨z, hz, hzL, hzsep⟩
    obtain ⟨t2, e3, h2, hb2, hl2, hsize2, hcount2, htail2, hhead2⟩ := mergeIntoNext_doomed h1 hroom
    -- the climb goes on with the separator and the node that was emptied
    obtain ⟨r', t3, e4, hrep, hl3, hsize3, hcount3, htail3, hhead3⟩ := ih rfl rfl h2
      (fun hm => (hzL sep hm).not_gt hzsep)
      ⟨kL, sep :: kR, z, rfl, hpL, (View.firstKey_congr hb2).trans hz, hzL, by simpa using hzsep⟩
      (hup (.node d kn cn) rfl (by simpa [hlen] using hroom)) hbushy.2.2.2 (fun hup => by
        have := hbushy.1 hup
        simp at this ⊢
        omega) (Nat.lt_of_succ_lt_succ hfuel)
    refine ⟨r, t3, ?_, hrep, ?_, ?_, ?_, ?_, ?_⟩
    · rw [e1, e2, if_pos (by simp; simp at hroom; omega), e3, ok_bind, e4]
      rfl
    · rw [hl3, mendLinks_succ, mendLinks_frame, if_pos hsmall, ← hl]
      exact (Links.forget_inner (hb2.trans hs)).trans hl2
    · rw [hsize3, hsize2, hsize]
    · rw [hcount3, hcount2, hcount]
    · rw [htail3, htail2, htail]
    · rw [hhead3, hhead2, hhead]
  | @borrowNext n up a b d ks kn kL kR sep z' cs cn c cL cR hsmall hroom =>
    rintro t fuel ksL ksR k csL csR x rfl rfl h hk hx htold hbushy hks hfuel
    obtain ⟨fuel, rfl⟩ := Nat.exists_eq_succ_of_ne_zero (Nat.ne_of_gt (Nat.zero_lt_of_lt hfuel))
    have hlen := h.len
    have hpos := hks rfl
    obtain ⟨hsort, hfew⟩ := Ctx.told_frame.mp htold
    exact deleteInnerNode_borrowNext hcap hmin h hk hx hsort (by omega)
      (fun z hz => (hfew (by omega)).1 z hz sep rfl) hsmall hroom fuel
  | @joinPrev n up a b d ks kn kL sep cs cn cL T hsmall hroom ht ih =>
    rintro t fuel ksL ksR k csL csR x rfl rfl h hk hx htold hbushy hks hfuel
    obtain ⟨fuel, rfl⟩ := Nat.exists_eq_succ_of_ne_zero (Nat.ne_of_gt (Nat.zero_lt_of_lt hfuel))
    obtain ⟨t1, e1, h1, hl, -, hsize, hcount, htail, hhead⟩ := deleteInnerNode_removed h hk hx fuel
    obtain ⟨s, hs, hin⟩ := h1.body
    obtain ⟨hsort, hfew⟩ := Ctx.told_frame.mp htold
    have hlen := h1.len
    obtain ⟨hnext, -, hup⟩ := hfew (by omega)
    replace hup : up.Told P.innernodemax kL := by
      simpa using hup rfl (.node d kn cn) (by simp) (by simpa [hlen] using hroom)
    obtain ⟨⟨sb, hsb, hinb⟩, hholds, -⟩ := h1.hole.holds
    have hinb' : InnerHas P sb (kL ++ [sep]) (cL.map Tree.addr ++ [d, a]) := by simpa using hinb
    obtain ⟨⟨sd, (hsd : t1.view.body d = _), hind⟩, -⟩ := hholds (.node d kn cn) (by simp)
    obtain ⟨hpL, -⟩ := h1.hole.paired
    have hpos : 0 < (ksL ++ ksR).length := by
      have := hks rfl
      omega
    obtain ⟨z, hz, hzL, -⟩ := h1.firstKey_between hsort hpos hnext
    obtain ⟨r, e2⟩ := repair_prev (P := P) (f := BTree.deleteInnerNode P fuel) (i := csL.length)
      (d := d) hs hin h1.flag_frame
      (by rwa [List.length_map, hmin]) h1.par hsb hinb' hsd hind (by simpa using hpL)
      ⟨z, hz, hzL⟩
    obtain ⟨t2, e3, h2, hb2, hl2, hsize2, hcount2, htail2, hhead2⟩ := mergeIntoPrev_doomed h1 hroom
    -- an equal separator further left is found first
    have hsortL : (kL ++ [sep]).Pairwise (· ≤ ·) :=
      hsort.sublist ((List.sublist_append_left _ _).trans (List.sublist_append_left _ _))
    obtain ⟨kA, kB, hcut, hrest, hsep⟩ := exists_first_cut hsortL
    rw [List.append_nil] at hrest
    obtain ⟨r', t3, e4, hrep, hl3, hsize3, hcount3, htail3, hhead3⟩ := ih hrest
      (List.append_nil _) (h2.recut hcut) hsep
      ⟨kL ++ [sep], [], z, by rw [List.append_nil, hcut], by simpa using hpL,
        (View.firstKey_congr hb2).trans hz, hzL, by simp⟩
      hup hbushy.2.2.2 (fun hup => by
        have := hbushy.1 hup
        simpa using this) (Nat.lt_of_succ_lt_succ hfuel)
    refine ⟨r, t3, ?_, hrep, ?_, ?_, ?_, ?_, ?_⟩
    · rw [e1, e2, if_pos (by simp; simp at hroom; omega), e3, ok_bind, e4]
      rfl
    · rw [hl3, mendLinks_succ, mendLinks_frame, if_pos hsmall, ← hl]
      simp only [List.getLast?_concat]
      exact (Links.forget_inner (hb2.trans hs)).trans hl2
    · rw [hsize3, hsize2, hsize]
    · rw [hcount3, hcount2, hcount]
    · rw [htail3, htail2, htail]
    · rw [hhead3, hhead2, hhead]

end BTree

end NwtBTree
