import NwtBTree.Calls.Lookup
import NwtBTree.Refine.Balance
import NwtBTree.Refine.Written

/-!
# A child and its separator

`findInnerNodeLoc` finds the place of a child by the first key of the child, and
`findInnerNodeKey` that of a separator. When `balancetree` joins two leaves the
two places fit together: the separator between the leaves is what
`deleteInnerNode` gets.
-/

namespace NwtBTree

variable {K D : Type} [LinearOrder K] {P : Template K D} {t : BTree K D} {n : Addr} {ks : List K}
  {cs : List Addr}

/-- The keys of the node at `n` are in order, and the first key of child `i` is not below key
`i - 1` and below key `i`. -/
structure Ranged (P : Template K D) (t : BTree K D) (n : Addr) (ks : List K) (cs : List Addr) :
    Prop where
  slots : ∃ s, t.view.body n = some (.inner s) ∧ InnerHas P s ks cs
  pos : 1 ≤ ks.length
  sorted : ks.Pairwise (· < ·)
  children : cs.length = ks.length + 1
  first : ∀ i c, cs[i]? = some c → ∃ z, t.view.firstKey c = some z ∧
    (∀ y, 0 < i → ks[i - 1]? = some y → y ≤ z) ∧ ∀ y, ks[i]? = some y → z < y

/-- The children are leaves of that node, chained in order. -/
structure LeavesUnder (t : BTree K D) (n : Addr) (cs : List Addr) : Prop where
  leaf : ∀ c ∈ cs, t.view.IsKind true c
  parent : ∀ c ∈ cs, t.view.par c = some n
  joined : cs.IsChain t.view.links.Joined

namespace BTree

/-- The node at `n` has the key `k` at index `j`, as `findInnerNodeKey` sees it. -/
def FindsKey (t : BTree K D) (n : Addr) (k : K) (j : Nat) : Prop :=
  ∃ s, t.inner n = .ok s ∧ findInnerNodeKey s.toInnerSlots k = .ok j

variable [DecidableEq D]

/-- The pairs of `leaf` move to `dest`, and `deleteInnerNode` gets the key `k`. -/
def mergeThrough (P : Template K D) (t : BTree K D) (leaf dest n : Addr) (k : K) (num : Nat) :
    Except Fault (BTree K D) := do
  let t ← t.moveAll P leaf dest 0 num
  let (_, t) ← deleteInnerNode P t.fuel t n k leaf
  return t

/-- What `balancetree` does with the leaf `a` that is child `i` of `n` and holds too few pairs. -/
structure MergesAtSeparator (P : Template K D) (t : BTree K D) (n : Addr) (ks : List K)
    (cs : List Addr) (i : Nat) (a : Addr) (l : LeafSlots K D) : Prop where
  prev : 0 < i → ∃ p lp k, cs[i - 1]? = some p ∧ t.view.body p = some (.leaf lp) ∧
    ks[i - 1]? = some k ∧ t.balanceTree P a = (if lp.slotsinuse + l.slotsinuse < P.leafnodemax then
      t.mergeThrough P a p n k l.slotsinuse else t.borrowFromPrev P a p i) ∧
    ∀ t₁, t.moveAll P a p 0 l.slotsinuse = .ok t₁ → t₁.FindsKey n k (i - 1)
  next : i = 0 → ∃ q lq k, cs[1]? = some q ∧ t.view.body q = some (.leaf lq) ∧
    ks[0]? = some k ∧ t.balanceTree P a = (if lq.slotsinuse + l.slotsinuse < P.leafnodemax then
      t.mergeThrough P a q n k l.slotsinuse else t.borrowFromNext P a q) ∧
    ∀ t₁, t.moveAll P a q 0 l.slotsinuse = .ok t₁ → t₁.FindsKey n k 0

end BTree

section Places

variable {i : Nat} {c p q : Addr}

/-- All keys in front of child `i` are at most its first key. -/
theorem Ranged.le_first (h : Ranged P t n ks cs) (hc : cs[i]? = some c) {z : K}
    (hz : t.view.firstKey c = some z) : ∀ y ∈ ks.take i, y ≤ z := by
  intro y hy
  obtain ⟨z', hz', hlow, -⟩ := h.first i c hc
  obtain rfl : z' = z := Option.some.inj (hz'.symm.trans hz)
  obtain ⟨j, hj, rfl⟩ := List.mem_iff_getElem.mp hy
  have hji : j < i := by grind
  have hi : i < cs.length := (List.getElem?_eq_some_iff.mp hc).1
  have hlen := h.children
  have hlt : i - 1 < ks.length := by omega
  refine le_trans ?_ (hlow ks[i - 1] (by omega) (List.getElem?_eq_getElem hlt))
  rw [List.getElem_take]
  rcases (Nat.le_sub_one_of_lt hji).lt_or_eq with hlt' | heq
  · exact le_of_lt (List.pairwise_iff_getElem.mp h.sorted j (i - 1) (by omega) hlt hlt')
  · exact le_of_eq (getElem_congr_idx heq)

/-- A child is found where it is, in every state that leaves the node and the child's first key as
they were. -/
theorem Ranged.loc (h : Ranged P t n ks cs) (hc : cs[i]? = some c) {t₁ : BTree K D}
    (hn : t₁.view.body n = t.view.body n) (hfirst : t₁.view.firstKey c = t.view.firstKey c) :
    t₁.findInnerNodeLoc (some n) (some c) = .ok i := by
  obtain ⟨s, hb, hs⟩ := h.slots
  obtain ⟨z, hz, -, hhigh⟩ := h.first i c hc
  have hi : i < cs.length := (List.getElem?_eq_some_iff.mp hc).1
  have hlen := h.children
  have hcs : cs = cs.take i ++ c :: cs.drop (i + 1) := by
    obtain ⟨_, rfl⟩ := List.getElem?_eq_some_iff.mp hc
    rw [List.cons_getElem_drop_succ, List.take_append_drop]
  rw [hcs, ← List.take_append_drop i ks] at hs
  have hspec := findInnerNodeLoc_spec (hn.trans hb) hs (by simp; omega) (by simp; omega)
    (hfirst.trans hz)
    (h.le_first hc hz) fun y hy => hhigh y (by simpa [List.head?_drop] using hy)
  simpa [Nat.min_eq_left (Nat.le_of_lt hi)] using hspec

/-- A key is found where it is, in every state that leaves the node as it was. -/
theorem Ranged.findsKey (h : Ranged P t n ks cs) {k : K} {j : Nat} (hk : ks[j]? = some k)
    {t₁ : BTree K D} (hn : t₁.view.body n = t.view.body n) : t₁.FindsKey n k j := by
  obtain ⟨s, hs, hin⟩ := h.slots
  obtain ⟨hj, rfl⟩ := List.getElem?_eq_some_iff.mp hk
  have hnd : ks.Nodup := h.sorted.imp ne_of_lt
  have hsplit : ks = ks.take j ++ ks[j] :: ks.drop (j + 1) := by
    rw [List.cons_getElem_drop_succ, List.take_append_drop]
  have hnot : ks[j] ∉ ks.take j := by
    rw [hsplit] at hnd
    exact fun hmem => (List.nodup_append'.mp hnd).2.2 hmem List.mem_cons_self
  rw [hsplit] at hin
  refine ⟨_, BTree.inner_eq (hn.trans hs), ?_⟩
  have hspec := findInnerNodeKey_spec hin hnot
  simpa [Nat.min_eq_left (Nat.le_of_lt hj)] using hspec

/-- The first keys of neighbours are on different sides of a key. -/
theorem Ranged.apart (h : Ranged P t n ks cs) (hp : cs[i]? = some p) (hq : cs[i + 1]? = some q) :
    p ≠ q := by
  rintro rfl
  obtain ⟨z, hz, -, hhigh⟩ := h.first i p hp
  obtain ⟨z', hz', hlow, -⟩ := h.first (i + 1) p hq
  obtain rfl : z = z' := Option.some.inj (hz.symm.trans hz')
  have hi : i + 1 < cs.length := (List.getElem?_eq_some_iff.mp hq).1
  have hlen := h.children
  have hk : ks[i]? = some ks[i] := List.getElem?_eq_getElem (by omega)
  exact absurd (hlow _ (by omega) hk) (not_le.mpr (hhigh _ hk))

omit [LinearOrder K] in
theorem LeavesUnder.joined_next (h : LeavesUnder t n cs) (hp : cs[i]? = some p)
    (hq : cs[i + 1]? = some q) : t.view.links.Joined p q := by
  obtain ⟨hi, rfl⟩ := List.getElem?_eq_some_iff.mp hp
  obtain ⟨hi', rfl⟩ := List.getElem?_eq_some_iff.mp hq
  exact List.isChain_iff_getElem.mp h.joined i hi'

end Places

section Merges

variable [DecidableEq D] {i : Nat} {a p q : Addr} {l lp lq : LeafSlots K D} {k : K}

/-- The leaf goes to its left neighbour; its place was found before the pairs moved. -/
theorem Ranged.merge_prev (h : Ranged P t n ks cs) (hi : 0 < i) (ha : cs[i]? = some a)
    (hl : t.view.body a = some (.leaf l)) (hpar : t.view.par a = some n)
    (hp : t.view.body p = some (.leaf lp)) (hk : ks[i - 1]? = some k) :
    t.mergeLeafIntoPrev P a p i = t.mergeThrough P a p n k l.slotsinuse := by
  obtain ⟨s, hn, hs⟩ := h.slots
  have hloc := h.loc ha rfl rfl
  have hlt : i < cs.length := (List.getElem?_eq_some_iff.mp ha).1
  unfold BTree.mergeLeafIntoPrev BTree.mergeThrough
  simp only [BTree.leaf_eq hl, ok_bind, hpar, hloc]
  cases hmove : t.moveAll P a p 0 l.slotsinuse with
  | error e => rfl
  | ok t₁ =>
    have hnp : n ≠ p := by
      rintro rfl
      simp [hn] at hp
    have hn₁ : t₁.view.body n = some (.inner s) := (BTree.body_of_moveAll hmove hnp).trans hn
    have hkey : loadInt s.keySlots ((i : Int) - 1) = .ok k := by
      obtain ⟨r, hr⟩ := hs.keys
      obtain ⟨hj, -⟩ := List.getElem?_eq_some_iff.mp hk
      have hcast : (i : Int) - 1 = ((i - 1 : Nat) : Int) := by omega
      rw [hcast, loadInt_natCast, hr]
      exact load_of_getElem? (by rw [List.getElem?_append_left hj, hk])
    simp only [ok_bind, deref, BTree.inner_eq hn₁]
    rw [if_neg (by omega), if_neg (by rw [hs.num]; omega), hkey]
    rfl

/-- The leaf goes to its right neighbour; its place is looked up after the pairs have moved. -/
theorem Ranged.merge_next (h : Ranged P t n ks cs) (ha : cs[0]? = some a)
    (hl : t.view.body a = some (.leaf l)) (hpar : t.view.par a = some n)
    (hq : t.view.body q = some (.leaf lq)) (haq : a ≠ q) (hk : ks[0]? = some k) :
    t.mergeLeafIntoNext P a q = t.mergeThrough P a q n k l.slotsinuse := by
  obtain ⟨s, hn, hs⟩ := h.slots
  unfold BTree.mergeLeafIntoNext BTree.mergeThrough
  simp only [BTree.leaf_eq hl, ok_bind, hpar]
  cases hmove : t.moveAll P a q 0 l.slotsinuse with
  | error e => rfl
  | ok t₁ =>
    have hnq : n ≠ q := by
      rintro rfl
      simp [hn] at hq
    have hn₁ : t₁.view.body n = some (.inner s) := (BTree.body_of_moveAll hmove hnq).trans hn
    have ha₁ : t₁.view.body a = t.view.body a := BTree.body_of_moveAll hmove haq
    have hloc : t₁.findInnerNodeLoc (some n) (some a) = .ok (0 : Nat) :=
      h.loc ha (hn₁.trans hn.symm) (View.firstKey_congr ha₁)
    have hkey : loadInt s.keySlots ((0 : Nat) : Int) = .ok k := by
      obtain ⟨r, hr⟩ := hs.keys
      obtain ⟨hj, -⟩ := List.getElem?_eq_some_iff.mp hk
      rw [loadInt_natCast, hr]
      exact load_of_getElem? (by rw [List.getElem?_append_left hj, hk])
    have hnum := h.children
    simp only [ok_bind, deref, BTree.inner_eq hn₁, hloc]
    rw [if_neg (by omega), if_pos (by rw [hs.num]; omega), hkey]
    rfl

theorem Ranged.mergesAtSeparator (h : Ranged P t n ks cs) (hleaves : LeavesUnder t n cs)
    (ha : cs[i]? = some a) (hl : t.view.body a = some (.leaf l))
    (hunder : l.slotsinuse < P.leafnodemin) : t.MergesAtSeparator P n ks cs i a l := by
  have hlen := h.children
  have hpos := h.pos
  have hi : i < cs.length := (List.getElem?_eq_some_iff.mp ha).1
  have hpar : t.view.par a = some n := hleaves.parent a (List.mem_of_getElem? ha)
  have hloc : t.findInnerNodeLoc (t.view.par a) (some a) = .ok i := by
    rw [hpar]
    exact h.loc ha rfl rfl
  constructor
  case prev =>
    intro hi0
    obtain ⟨i, rfl⟩ : ∃ j, i = j + 1 := ⟨i - 1, by omega⟩
    have hp : cs[i]? = some cs[i] := List.getElem?_eq_getElem (by omega)
    have hk : ks[i]? = some ks[i] := List.getElem?_eq_getElem (by omega)
    obtain ⟨lp, hlp⟩ := hleaves.leaf cs[i] (List.getElem_mem _)
    have hjoined := hleaves.joined_next hp ha
    refine ⟨cs[i], lp, ks[i], hp, hlp, hk, ?_, fun t₁ hmove => h.findsKey hk ?_⟩
    · rw [balanceTree_prev hl hloc (by omega) hunder hjoined.2 hlp,
        h.merge_prev (by omega) ha hl hpar hlp hk]
    · obtain ⟨s, hn, -⟩ := h.slots
      apply BTree.body_of_moveAll hmove
      intro hnp
      rw [hnp, hlp] at hn
      cases hn
  case next =>
    rintro rfl
    have hq : cs[1]? = some cs[1] := List.getElem?_eq_getElem (by omega)
    have hk : ks[0]? = some ks[0] := List.getElem?_eq_getElem (by omega)
    obtain ⟨lq, hlq⟩ := hleaves.leaf cs[1] (List.getElem_mem _)
    have hjoined := hleaves.joined_next ha hq
    refine ⟨cs[1], lq, ks[0], hq, hlq, hk, ?_, fun t₁ hmove => h.findsKey hk ?_⟩
    · rw [balanceTree_next hl hloc hunder hjoined.1 hlq,
        h.merge_next ha hl hpar hlq (h.apart ha hq) hk]
    · obtain ⟨s, hn, -⟩ := h.slots
      apply BTree.body_of_moveAll hmove
      intro hnq
      rw [hnq, hlq] at hn
      cases hn

end Merges

/-- Every child is found at its place, and a leaf with too few pairs is joined with its neighbour
through the key between them. -/
theorem locates_children [DecidableEq D] (h : Ranged P t n ks cs) :
    (∀ (i : Nat) c, cs[i]? = some c → t.findInnerNodeLoc (some n) (some c) = .ok i) ∧
    (LeavesUnder t n cs → ∀ (i : Nat) a l, cs[i]? = some a → t.view.body a = some (.leaf l) →
      l.slotsinuse < P.leafnodemin → t.MergesAtSeparator P n ks cs i a l) :=
  ⟨fun _ _ hc => h.loc hc rfl rfl,
    fun hleaves _ _ _ ha hl hunder => h.mergesAtSeparator hleaves ha hl hunder⟩

/-- The sample tree after two pairs of the first leaf and one of the second are gone. -/
def sampleShort : BTree Nat String :=
  (sampleTree.put 1 (.leaf ⟨⟨4, 2, [1, 2, 3, 4], ["a", "b", "c", "d"]⟩, false, some 0, some 2,
    none⟩)).put 2 (.leaf ⟨⟨4, 1, [10, 20, 0, 0], ["j", "t", "", ""]⟩, false, some 0, none, some 1⟩)

theorem sampleShort_ranged : Ranged Template.strings sampleShort 0 [10] [1, 2] where
  slots := ⟨_, rfl, rfl, rfl, rfl, ⟨_, rfl⟩, ⟨_, rfl⟩, rfl, rfl⟩
  pos := by decide
  sorted := by decide
  children := rfl
  first i c hc := by
    rcases i with _ | _ | i
    · obtain rfl : 1 = c := by simpa using hc
      exact ⟨1, rfl, by simp, by simp⟩
    · obtain rfl : 2 = c := by simpa using hc
      exact ⟨10, rfl, by simp, by simp⟩
    · simp at hc

theorem sampleShort_leaves : LeavesUnder sampleShort 0 [1, 2] where
  leaf c hc := by
    obtain rfl | rfl : c = 1 ∨ c = 2 := by simpa using hc
    all_goals exact ⟨_, rfl⟩
  parent := by decide
  joined := .cons_cons ⟨rfl, rfl⟩ (.singleton 2)

theorem locates_children_short : sampleShort.findInnerNodeLoc (some 0) (some 1) = .ok 0 ∧
    sampleShort.MergesAtSeparator Template.strings 0 [10] [1, 2] 1 2
      ⟨4, 1, [10, 20, 0, 0], ["j", "t", "", ""]⟩ :=
  have h := locates_children sampleShort_ranged
  ⟨h.1 0 1 rfl, h.2 sampleShort_leaves 1 2 _ rfl rfl (by decide)⟩

end NwtBTree
