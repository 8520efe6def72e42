import NwtBTree.Calls.ReplaceChild
import NwtBTree.Multiway.Walk
import NwtBTree.Refine.Locate

/-!
# Keys and children of an inner node

The two positional helpers insert into the key list and the child list. The search
of `insertinnernodepair` runs on after the first greater key, and the loop of
`deleteinnerpair` that moves the keys down has no end.
-/

namespace NwtBTree

section Lists

variable {α : Type}

theorem insertIdx_append (as bs : List α) (x : α) :
    (as ++ bs).insertIdx as.length x = as ++ x :: bs := by
  induction as with
  | nil => simp
  | cons a as ih => simpa using ih

/-- A list cut at an index. -/
theorem exists_cut_at {xs : List α} {i : Nat} (hi : i ≤ xs.length) :
    ∃ as bs, xs = as ++ bs ∧ as.length = i :=
  ⟨xs.take i, xs.drop i, (List.take_append_drop i xs).symm, List.length_take_of_le hi⟩

/-- The first greater element cuts a sorted list. -/
theorem exists_cut_findIdx [LinearOrder α] {xs : List α} {k : α} (hsort : xs.Pairwise (· < ·))
    (hk : k ∉ xs) : ∃ as bs, xs = as ++ bs ∧ xs.findIdx (decide <| k < ·) = as.length ∧
      (∀ y ∈ as, y < k) ∧ ∀ y ∈ bs, k < y := by
  induction xs with
  | nil => exact ⟨[], [], rfl, rfl, by simp, by simp⟩
  | cons x xs ih =>
    obtain ⟨hx, hsort⟩ := List.pairwise_cons.mp hsort
    rcases lt_trichotomy k x with hlt | rfl | hgt
    · refine ⟨[], x :: xs, rfl, by simp [List.findIdx_cons, hlt], by simp, ?_⟩
      intro y hy
      rcases List.mem_cons.mp hy with rfl | hy
      · exact hlt
      · exact hlt.trans (hx y hy)
    · exact absurd (by simp) hk
    · obtain ⟨as, bs, rfl, hidx, has, hbs⟩ := ih hsort fun h => hk (List.mem_cons_of_mem x h)
      refine ⟨x :: as, bs, rfl, by simp [List.findIdx_cons, not_lt_of_gt hgt, hidx], ?_, hbs⟩
      intro y hy
      rcases List.mem_cons.mp hy with rfl | hy
      · exact hgt
      · exact has y hy

end Lists

variable {K D : Type} {P : Template K D} {t : BTree K D} {s : InnerSlots K} {ks : List K}
  {cs : List Addr}

/-! ## Insertion at an index -/

/-- The key list of `s` with `k` at index `i`. -/
def KeyInserted (P : Template K D) (s : InnerSlots K) (ks : List K) (cs : List Addr) (k : K)
    (i : Nat) : Prop :=
  ∃ s', insertInnerNodeKeyAt s k i = .ok (1, s') ∧ InnerHas P s' (ks.insertIdx i k) cs

/-- A leaf goes into a node only beside other leaves. -/
def View.Fits (v : View K D) (x : Addr) (cs : List Addr) : Prop :=
  v.IsKind false x ∨ ∀ a ∈ x :: cs, v.IsKind true a

/-- The node `x` has become child `i` of `p`; the links of a leaf follow. -/
structure ChildInserted (P : Template K D) (t t' : BTree K D) (p : Addr) (ks : List K)
    (cs : List Addr) (x : Addr) (i : Nat) : Prop where
  slots : ∃ s', t'.view.body p = some (.inner s') ∧ InnerHas P s' ks (cs.insertIdx i x)
  parent : t'.view.par x = some p
  others : ∀ b, (b ≠ p → t'.view.body b = t.view.body b) ∧
    (b ≠ x → t'.view.par b = t.view.par b)
  chained : t.view.IsKind true x → (cs.insertIdx i x).Nodup → cs.IsChain t.view.links.Joined →
    (cs.insertIdx i x).IsChain t'.view.links.Joined
  nxt : ∀ a, t'.view.links.nxt a ≠ t.view.links.nxt a →
    a = x ∧ i < cs.length ∨ 0 < i ∧ cs[i - 1]? = some a
  prv : ∀ a, t'.view.links.prv a ≠ t.view.links.prv a → a = x ∧ 0 < i ∨ cs[i]? = some a

theorem keyInserted (hs : InnerHas P s ks cs) (hroom : ks.length < P.innernodemax) (k : K) {i : Nat}
    (hi : i ≤ ks.length) : KeyInserted P s ks cs k i := by
  obtain ⟨as, bs, rfl, rfl⟩ := exists_cut_at hi
  obtain ⟨s', e, hs'⟩ := insertInnerNodeKeyAt_spec hs hroom k
  exact ⟨s', e, by rwa [insertIdx_append]⟩

theorem childInserted {p x : Addr} (hp : t.view.body p = some (.inner s)) (hs : InnerHas P s ks cs)
    (hroom : cs.length ≤ P.innernodemax) (hx : t.view.Fits x cs) {i : Nat} (hi : i ≤ cs.length) :
    ∃ t', t.insertInnerNodeChildAt p (some x) i = .ok (0, t') ∧
      ChildInserted P t t' p ks cs x i := by
  obtain ⟨as, bs, rfl, rfl⟩ := exists_cut_at hi
  have hkind : ∃ lf, t.view.IsKind lf x ∧ (lf = true → ∀ a ∈ as ++ x :: bs, t.view.IsKind true a) ∧
      (lf = false → ¬t.view.IsKind true x) := by
    rcases hx with hx | hx
    · refine ⟨false, hx, nofun, ?_⟩
      rintro - ⟨s₁, hs₁⟩
      obtain ⟨s₂, hs₂⟩ := hx
      simp [hs₁] at hs₂
    · exact ⟨true, hx x (by simp), fun _ a ha => hx a (by grind), nofun⟩
  obtain ⟨lf, hxk, hkind, hnot⟩ := hkind
  obtain ⟨s', t', e, hs', v⟩ := BTree.insertInnerNodeChildAt_at hp hs hroom hxk hkind
  refine ⟨t', e, ?_⟩
  have hlinks : t'.view.links = t.view.links.around lf as x bs := by simp [v]
  constructor
  case slots => exact ⟨s', by simp [v], by rwa [insertIdx_append]⟩
  case parent => simp [v]
  case others => exact fun b => ⟨fun hb => by simp [v, hb], fun hb => by simp [v, hb]⟩
  case chained =>
    intro hleaf hnd hchain
    cases lf with
    | false => exact absurd hleaf (hnot rfl)
    | true =>
      rw [insertIdx_append] at hnd ⊢
      rw [hlinks]
      exact Links.isChain_around hnd hchain.left_of_append hchain.right_of_append
  case nxt =>
    intro a ha
    rw [hlinks] at ha
    cases lf with
    | false => exact absurd rfl ha
    | true =>
      rcases Links.nxt_around ha with ⟨rfl, hbs⟩ | hd
      · exact .inl ⟨rfl, by simp [List.length_pos_iff.mpr hbs]⟩
      · obtain ⟨as, rfl⟩ := List.getLast?_eq_some_iff.mp hd
        exact .inr ⟨by simp, by simp⟩
  case prv =>
    intro a ha
    rw [hlinks] at ha
    cases lf with
    | false => exact absurd rfl ha
    | true =>
      rcases Links.prv_around ha with ⟨rfl, has⟩ | hb
      · exact .inl ⟨rfl, List.length_pos_iff.mpr has⟩
      · obtain ⟨bs, rfl⟩ := List.head?_eq_some_iff.mp hb
        exact .inr (by simp)

/-- Both helpers insert at every index of every node that has room. -/
theorem inserts_at_index (hs : InnerHas P s ks cs) :
    (ks.length < P.innernodemax → ∀ k, ∀ i ≤ ks.length, KeyInserted P s ks cs k i) ∧
    (cs.length ≤ P.innernodemax → ∀ (t : BTree K D) (p x : Addr),
      t.view.body p = some (.inner s) → t.view.Fits x cs → ∀ i ≤ cs.length,
        ∃ t', t.insertInnerNodeChildAt p (some x) i = .ok (0, t') ∧
          ChildInserted P t t' p ks cs x i) :=
  ⟨fun hroom k _ hi => keyInserted hs hroom k hi,
    fun hroom _ _ _ hp hx _ hi => childInserted hp hs hroom hx hi⟩

/-- The root of the sample tree. -/
def sampleRoot : InnerSlots Nat := ⟨4, 1, [10, 0, 0, 0], [some 1, some 2, none, none, none], 2⟩

theorem sampleRoot_has : InnerHas Template.strings sampleRoot [10] [1, 2] :=
  ⟨rfl, rfl, rfl, ⟨_, rfl⟩, ⟨_, rfl⟩, rfl, rfl⟩

theorem sampleSplit_fits : sampleSplit.view.Fits 3 [1, 2] :=
  .inr fun a ha => sampleSplit_kind a (by grind)

theorem inserts_at_index_sample :
    KeyInserted Template.strings sampleRoot [10] [1, 2] 5 0 ∧
    ∃ t', sampleSplit.insertInnerNodeChildAt 0 (some 3) 1 = .ok (0, t') ∧
      ChildInserted Template.strings sampleSplit t' 0 [10] [1, 2] 3 1 :=
  have h := inserts_at_index sampleRoot_has
  ⟨h.1 (by decide) 5 0 (by decide),
    h.2 (by decide) sampleSplit 0 3 rfl sampleSplit_fits 1 (by decide)⟩

/-! ## Insertion of a pair -/

section Pair

variable [LinearOrder K] {p x : Addr} {k : K}

/-- The search loop ends on the last key that is greater. -/
theorem InnerHas.scanLast_greater {as bs : List K} (hs : InnerHas P s (as ++ bs) cs)
    (has : ∀ y ∈ as, y < k) (hbs : ∀ y ∈ bs, k < y) :
    scanLast (keygreater · k) s.keySlots s.slotsinuse 0 none =
      .ok (if bs = [] then none else some (as.length + bs.length - 1)) := by
  obtain ⟨r, hr⟩ := hs.keys
  have hin := hs.inuse
  rcases List.eq_nil_or_concat bs with rfl | ⟨bs, z, rfl⟩
  · rw [if_pos rfl, hr, hin, List.append_nil]
    refine scanLast_none as r [] none fun y hy => ?_
    simpa [keygreater] using le_of_lt (has y hy)
  · have hz : keygreater z k = true := (keygreater_iff _ _).mpr (hbs z (by simp))
    have hscan := scanLast_last (p := (keygreater · k)) (as ++ bs) r [] none hz
    simp only [List.concat_eq_append, List.length_append, List.length_cons, List.length_nil] at *
    rw [if_neg (by simp), hr, hin]
    simpa [Nat.add_assoc] using hscan

/-- The key `k` and the child `x` stand where the first greater key was, and the keys are in
order. -/
structure PairInserted (P : Template K D) (t' : BTree K D) (p : Addr) (ks : List K)
    (cs : List Addr) (k : K) (x : Addr) : Prop where
  slots : ∃ s', t'.view.body p = some (.inner s') ∧
    InnerHas P s' (ks.insertIdx (ks.findIdx (decide <| k < ·)) k)
      (cs.insertIdx (ks.findIdx (decide <| k < ·)) x)
  sorted : (ks.insertIdx (ks.findIdx (decide <| k < ·)) k).Pairwise (· < ·)

/-- `insertinnernodepair` inserts in front of the last key that is greater. -/
theorem insertInnerNodePair_insertIdx {as bs : List K} (hp : t.view.body p = some (.inner s))
    (hs : InnerHas P s (as ++ bs) cs) (has : ∀ y ∈ as, y < k) (hbs : ∀ y ∈ bs, k < y)
    (hroom : (as ++ bs).length < P.innernodemax) (hlen : (as ++ bs).length ≤ cs.length)
    (hroom' : cs.length ≤ P.innernodemax) (hx : t.view.Fits x cs) :
    ∃ (j : Nat) (t' : BTree K D), j = as.length + (bs.length - 1) ∧
      t.insertInnerNodePair p k x = .ok (j, t') ∧
      ∃ s', t'.view.body p = some (.inner s') ∧
        InnerHas P s' ((as ++ bs).insertIdx j k) (cs.insertIdx j x) := by
  have hscan := hs.scanLast_greater has hbs
  have hloc : (if bs = [] then none else some (as.length + bs.length - 1)).getD s.slotsinuse =
      as.length + (bs.length - 1) := by
    rw [hs.inuse]
    cases bs with
    | nil => simp
    | cons b bs => simp
  have hj : as.length + (bs.length - 1) ≤ (as ++ bs).length := by
    rw [List.length_append]
    omega
  generalize as.length + (bs.length - 1) = j at hloc hj ⊢
  generalize as ++ bs = ks at *
  obtain ⟨ksL, ksR, rfl, rfl⟩ := exists_cut_at hj
  obtain ⟨csL, csR, rfl, hcs⟩ := exists_cut_at (hj.trans hlen)
  have hkind : ∃ lf, t.view.IsKind lf x ∧
      (lf = true → ∀ a ∈ csL ++ x :: csR, t.view.IsKind true a) := by
    rcases hx with hx | hx
    · exact ⟨false, hx, nofun⟩
    · exact ⟨true, hx x (by simp), fun _ a ha => hx a (by grind)⟩
  obtain ⟨lf, hxk, hkind⟩ := hkind
  obtain ⟨t', s', e, hs', v⟩ := BTree.insertInnerNodePair_at hp hs hcs hroom hroom' hscan hloc hxk
    hkind
  refine ⟨_, t', rfl, e, s', by simp [v], ?_⟩
  have hcs' := insertIdx_append csL csR x
  rw [hcs] at hcs'
  rwa [insertIdx_append, hcs']

/-- `insertinnernodepair` finds the place exactly if at most one key is greater. -/
theorem inserts_pair_in_order (hp : t.view.body p = some (.inner s)) (hs : InnerHas P s ks cs)
    (hsort : ks.Pairwise (· < ·)) (hk : k ∉ ks) (hroom : ks.length < P.innernodemax)
    (hlen : ks.length ≤ cs.length) (hroom' : cs.length ≤ P.innernodemax) (hx : t.view.Fits x cs) :
    (∃ r t', t.insertInnerNodePair p k x = .ok (r, t') ∧ PairInserted P t' p ks cs k x) ↔
      (ks.filter (decide <| k < ·)).length ≤ 1 := by
  obtain ⟨as, bs, rfl, hidx, has, hbs⟩ := exists_cut_findIdx hsort hk
  obtain ⟨j, t', hj, e, s', hp', hs'⟩ :=
    insertInnerNodePair_insertIdx hp hs has hbs hroom hlen hroom' hx
  have hfilter : (as ++ bs).filter (decide <| k < ·) = bs := by
    rw [List.filter_append,
      List.filter_eq_nil_iff.mpr fun y hy => by simpa using le_of_lt (has y hy),
      List.filter_eq_self.mpr fun y hy => by simpa using hbs y hy, List.nil_append]
  rw [hfilter]
  constructor
  · rintro ⟨r, t₁, e₁, ⟨s₁, hp₁, hs₁⟩, -⟩
    obtain ⟨-, rfl⟩ : (j : Int) = r ∧ t' = t₁ := by simpa [e] using e₁
    obtain rfl : s' = s₁ := by simpa [hp'] using hp₁
    -- at the first greater key the two lists differ
    have hkeys := congrArg (·[as.length]?) (hs'.unique hs₁).1
    by_contra hlt
    have hlt' : as.length < j := by omega
    have hle : as.length < (as ++ bs).length := by simp; omega
    simp only [hidx] at hkeys
    rw [List.getElem?_insertIdx_of_lt hlt', List.getElem?_insertIdx_self,
      if_pos (Nat.le_of_lt hle)] at hkeys
    cases bs with
    | nil => simp at hlt
    | cons b bs =>
      obtain rfl : b = k := by simpa using hkeys
      exact lt_irrefl b (hbs b (by simp))
  · intro hle
    obtain rfl : j = as.length := by omega
    refine ⟨_, t', e, ⟨s', hp', by rwa [hidx]⟩, ?_⟩
    rw [hidx, insertIdx_append]
    exact pairwise_mid.mpr ⟨hsort, has, hbs⟩

end Pair

theorem inserts_pair_in_order_last : ∃ r t', sampleSplit.insertInnerNodePair 0 15 3 = .ok (r, t') ∧
    PairInserted Template.strings t' 0 [10] [1, 2] 15 3 :=
  (inserts_pair_in_order rfl sampleRoot_has (by decide) (by decide) (by decide) (by decide)
    (by decide) sampleSplit_fits).mpr (by decide)

/-- A root with the keys 10 and 20 over the first three of the sample leaves. -/
def wideRoot : InnerSlots Nat :=
  ⟨4, 2, [10, 20, 0, 0], [some 1, some 2, some 3, none, none], 3⟩

def sampleWide : BTree Nat String := sampleSplit.put 0 (.inner ⟨wideRoot, true, none⟩)

/-- The key 5 goes between 10 and 20. -/
theorem not_inserts_pair_in_order :
    ¬∃ r t', sampleWide.insertInnerNodePair 0 5 4 = .ok (r, t') ∧
      PairInserted Template.strings t' 0 [10, 20] [1, 2, 3] 5 4 := by
  rintro ⟨r, t', e, ⟨s', hp', hs'⟩, -⟩
  have hslots : (do
      let (_, t) ← sampleWide.insertInnerNodePair 0 5 4
      let s ← t.inner 0
      return s.keySlots.take s.slotsinuse) = .ok [10, 5, 20] := by decide +kernel
  obtain ⟨r', hr'⟩ := hs'.keys
  simp [e, BTree.inner_eq hp', hr', hs'.inuse, List.findIdx_cons] at hslots

/-! ## Deletion of a pair -/

section Deletion

variable [LinearOrder K] {k : K}

omit [LinearOrder K] in
/-- Once entered, the loop runs out of the array. -/
theorem deleteInnerLoop_fault {i : Nat} {fuel j : Nat} (hi : i + 1 < s.slotsinuse)
    (hj : j < s.keySlots.length) (hfuel : s.keySlots.length ≤ j + fuel) :
    deleteInnerLoop i fuel j s = .error .outOfRange := by
  induction fuel generalizing j s with
  | zero => omega
  | succ fuel ih =>
    rw [deleteInnerLoop, if_pos hi]
    cases hc : load s.firstChild (j + 1) with
    | error e =>
      obtain rfl : e = .outOfRange := by grind [load]
      rfl
    | ok c =>
      cases hst : store s.firstChild j c with
      | error e =>
        obtain rfl : e = .outOfRange := by grind [store]
        simp [hst]
      | ok children =>
        by_cases hlt : j + 1 < s.keySlots.length
        · have hload : load s.keySlots (j + 1) = .ok s.keySlots[j + 1] :=
            load_of_getElem? (List.getElem?_eq_getElem hlt)
          have hkeys : store s.keySlots j s.keySlots[j + 1] =
              .ok (s.keySlots.set j s.keySlots[j + 1]) := if_pos hj
          simp only [ok_bind, hst, hload, hkeys]
          apply ih
          · exact hi
          · simpa using hlt
          · simp only [List.length_set]
            omega
        · have hload : load s.keySlots (j + 1) = .error .outOfRange := by
            rw [load, List.getElem?_eq_none (Nat.le_of_not_lt hlt)]
          simp [hst, hload]

theorem InnerHas.scan_key {as bs : List K} (hs : InnerHas P s (as ++ k :: bs) cs) (hk : k ∉ as) :
    scan (keyequal k ·) s.keySlots s.slotsinuse 0 = .ok (some as.length) := by
  have hcomm : (keyequal k ·) = (keyequal · k) := by
    funext y
    rw [Bool.eq_iff_iff, keyequal_iff, keyequal_iff]
    exact eq_comm
  rw [hcomm]
  exact hs.scan_equal hk

/-- What the source promises of `deleteinnerpair`: the key goes with one child, a key that is not
there changes nothing. -/
structure DeletesPair (P : Template K D) (s : InnerSlots K) (ks : List K) (cs : List Addr) (k : K) :
    Prop where
  stored : ∀ i : Nat, ks[i]? = some k → ∃ s' cs', deleteInnerPair s k = .ok (i, s') ∧
    InnerHas P s' (ks.eraseIdx i) cs' ∧ cs'.Sublist cs ∧ cs'.length + 1 = cs.length
  absent : k ∉ ks → deleteInnerPair s k = .ok (-1, s)

theorem deleteInnerPair_absent (hs : InnerHas P s ks cs) (hk : k ∉ ks) :
    deleteInnerPair s k = .ok (-1, s) := by
  have hscan : scan (keyequal k ·) s.keySlots s.slotsinuse 0 = .ok none := by
    obtain ⟨r, hr⟩ := hs.keys
    rw [hr, hs.inuse]
    refine scan_none r fun y hy => ?_
    rw [Bool.eq_false_iff, ne_eq, keyequal_iff]
    rintro rfl
    exact hk hy
  unfold deleteInnerPair
  split_ifs
  · rfl
  · rw [hscan]
    rfl

/-- A key with others behind it: the loop does not end. -/
theorem deleteInnerPair_inside {as bs : List K} {z : K} (hs : InnerHas P s (as ++ k :: z :: bs) cs)
    (hk : k ∉ as) : deleteInnerPair s k = .error .outOfRange := by
  have hin : s.slotsinuse = as.length + (bs.length + 2) := by simpa using hs.inuse
  have hcap : as.length < s.keySlots.length := by
    obtain ⟨r, hr⟩ := hs.keys
    simp [hr]
  have hloop : deleteInnerLoop as.length (s.keySlots.length + 1) as.length s =
      .error .outOfRange :=
    deleteInnerLoop_fault (by omega) hcap (by omega)
  rw [deleteInnerPair, if_neg (by omega), hs.scan_key hk]
  simp only [ok_bind, hloop]
  rfl

/-- For the last key the loop is not entered, and the pointer behind the last child is read. -/
theorem deleteInnerPair_last {as : List K} (hs : InnerHas P s (as ++ [k]) cs) (hk : k ∉ as)
    (hlen : cs.length = as.length + 2) : deleteInnerPair s k = (do
      let children ← store s.firstChild (as.length + 1) (← load s.firstChild (as.length + 2))
      return ((as.length : Int), { s with
        firstChild := children, slotsinuse := dec16 s.slotsinuse,
        numChildren := s.numChildren - 1 })) := by
  have hin : s.slotsinuse = as.length + 1 := by simpa using hs.inuse
  have hloop : deleteInnerLoop as.length (s.keySlots.length + 1) as.length s =
      .ok (as.length, s) := by
    rw [deleteInnerLoop, if_neg (by omega)]
  rw [deleteInnerPair, if_neg (by omega), hs.scan_key hk]
  simp only [ok_bind, hloop, hs.num, hlen, if_true, bind_assoc]

theorem deleteInnerPair_room {as : List K} (hs : InnerHas P s (as ++ [k]) cs) (hk : k ∉ as)
    (hlen : cs.length = as.length + 2) (hroom : as.length + 1 < P.innernodemax) :
    ∃ s', deleteInnerPair s k = .ok ((as.length : Int), s') ∧ InnerHas P s' as cs.dropLast := by
  have hcall := deleteInnerPair_last hs hk hlen
  obtain ⟨cs, x, rfl⟩ := (List.eq_nil_or_concat cs).resolve_left (by rintro rfl; simp at hlen)
  rw [List.concat_eq_append] at *
  have hlen' : cs.length = as.length + 1 := by simpa using hlen
  obtain ⟨q, hq⟩ := hs.children
  have hcap := hs.childCap
  obtain ⟨c, q, rfl⟩ : ∃ c q', q = c :: q' := List.exists_cons_of_ne_nil (by
    rintro rfl
    simp [hq, hlen'] at hcap
    omega)
  have hload : load s.firstChild (as.length + 2) = .ok c := by
    rw [hq]
    exact load_append (by simp [hlen'])
  have hstore : store s.firstChild (as.length + 1) c = .ok (cs.map some ++ c :: c :: q) := by
    rw [hq, List.map_append, List.append_assoc]
    exact store_append c (by simp [hlen'])
  have hs' := hs.dropKey.dropChild
  rw [hload, ok_bind, hstore, ok_bind] at hcall
  refine ⟨_, hcall, ?_⟩
  rw [List.dropLast_concat]
  refine ⟨hs'.slots, hs'.inuse, hs'.num, hs'.keys, ⟨c :: c :: q, rfl⟩, hs'.keyCap, ?_⟩
  have := hs.childCap
  simp only [hq, List.length_append, List.length_map, List.length_cons, List.length_nil] at this ⊢
  omega

/-- There is no such pointer in a full node. -/
theorem deleteInnerPair_full {as : List K} (hs : InnerHas P s (as ++ [k]) cs) (hk : k ∉ as)
    (hlen : cs.length = as.length + 2) (hfull : P.innernodemax ≤ as.length + 1) :
    deleteInnerPair s k = .error .outOfRange := by
  have hload : load s.firstChild (as.length + 2) = .error .outOfRange := by
    have hcap := hs.childCap
    rw [load, List.getElem?_eq_none (by omega)]
  rw [deleteInnerPair_last hs hk hlen, hload]
  rfl

/-- `deleteinnerpair` does so exactly if the key is the last one of a node that is not full. -/
theorem deletes_pair_iff (hs : InnerHas P s ks cs) (hsort : ks.Pairwise (· < ·))
    (hlen : cs.length = ks.length + 1) :
    DeletesPair P s ks cs k ↔ (k ∈ ks → ks.getLast? = some k ∧ ks.length < P.innernodemax) := by
  have hnd : ks.Nodup := hsort.imp ne_of_lt
  constructor
  · intro h hk
    obtain ⟨as, bs, rfl⟩ := List.append_of_mem hk
    have hka : k ∉ as := fun hka => (List.nodup_append'.mp hnd).2.2 hka (by simp)
    obtain ⟨s', -, e, -⟩ := h.stored as.length (by simp)
    cases bs with
    | nil =>
      refine ⟨by simp, ?_⟩
      by_contra hfull
      rw [deleteInnerPair_full hs hka (by simpa using hlen) (by simpa using hfull)] at e
      cases e
    | cons z bs =>
      rw [deleteInnerPair_inside hs hka] at e
      cases e
  · intro hcond
    refine ⟨fun i hi => ?_, deleteInnerPair_absent hs⟩
    obtain ⟨hlast, hroom⟩ := hcond (List.mem_of_getElem? hi)
    obtain ⟨as, rfl⟩ := List.getLast?_eq_some_iff.mp hlast
    have hka : k ∉ as := fun hka => (List.nodup_append'.mp hnd).2.2 hka (by simp)
    obtain rfl : as.length = i := (List.getElem?_inj (by simp) hnd).mp (by rw [hi]; simp)
    obtain ⟨s', e, hs'⟩ := deleteInnerPair_room hs hka (by simpa using hlen) (by simpa using hroom)
    refine ⟨s', cs.dropLast, e, ?_, cs.dropLast_sublist, ?_⟩
    · rwa [List.eraseIdx_append_of_length_le (Nat.le_refl _), Nat.sub_self, List.eraseIdx_cons_zero,
        List.append_nil]
    · rw [List.length_dropLast]
      omega

end Deletion

theorem wideRoot_has : InnerHas Template.strings wideRoot [10, 20] [1, 2, 3] :=
  ⟨rfl, rfl, rfl, ⟨_, rfl⟩, ⟨_, rfl⟩, rfl, rfl⟩

theorem deletes_pair_iff_last : DeletesPair Template.strings wideRoot [10, 20] [1, 2, 3] 20 :=
  (deletes_pair_iff wideRoot_has (by decide) rfl).mpr (by decide)

theorem not_deletes_pair : ¬DeletesPair Template.strings wideRoot [10, 20] [1, 2, 3] 10 := by
  intro h
  obtain ⟨s', -, e, -⟩ := h.stored 0 rfl
  have hfault : deleteInnerPair wideRoot 10 = .error .outOfRange := by decide
  rw [hfault] at e
  cases e

end NwtBTree
