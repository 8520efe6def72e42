import NwtBTree.Runs.Printing
import NwtBTree.Runs.Stack

/-!
# The program of `test.cc`

Inserts in ascending order, erases from the greatest key down, and then inserts from
the first key on. The stored keys are refused, because no leaf that the erases leave is
full; the others are appended. So the keys that are printed and found are as many as the
longer of the two bounds says.
-/

namespace NwtBTree

variable {K D : Type}

/-- The pairs of the first `m` keys. -/
def filled (f : Nat → K) (d : D) (m : Nat) : List (K × D) := (List.range m).map fun i => (f i, d)

theorem filled_succ (f : Nat → K) (d : D) (m : Nat) :
    filled f d (m + 1) = filled f d m ++ [(f m, d)] := by
  simp [filled, List.range_succ]

theorem map_fst_filled (f : Nat → K) (d : D) (m : Nat) :
    (filled f d m).map Prod.fst = (List.range m).map f := by
  simp [filled]

variable [LinearOrder K] {P : Template K D} {t : BTree K D} {T : (n : Nat) × MTree K D n}
  {I : List (Item Addr K (LeafSlots K D))} {l : Tip Addr (LeafSlots K D)} {f : Nat → K} {d : D}
  {m c n : Nat}

/-- The keys ascend as long as they are below the bound. -/
def Rises (f : Nat → K) (n : Nat) : Prop := ∀ i j, i < j → j < n → f i < f j

theorem Rises.lt_filled (hf : Rises f n) (hm : m < n) : ∀ e ∈ filled f d m, e.1 < f m := by
  intro e he
  obtain ⟨i, hi, rfl⟩ := List.mem_map.mp he
  exact hf i m (List.mem_range.mp hi) hm

theorem Rises.injOn (hf : Rises f n) {i j : Nat} (hi : i < n) (hj : j < n) (h : f i = f j) :
    i = j := by
  obtain hlt | rfl | hlt := Nat.lt_trichotomy i j
  · exact absurd h (hf i j hlt hj).ne
  · rfl
  · exact absurd h (hf j i hlt hi).ne'

variable [DecidableEq D]

/-- `while (i < n)`. -/
theorem run_pushes (hP : P.Four) (h : Stacked P t (filled f d m)) (hf : Rises f n)
    (hle : m + c ≤ n) : ∃ t', run (fun t i => t.insert P (f i) d) t (List.range' m c) =
      .ok (List.replicate c 1, t') ∧ Stacked P t' (filled f d (m + c)) := by
  induction c generalizing t m with
  | zero => exact ⟨t, rfl, h⟩
  | succ c ih =>
    have hlt := hf.lt_filled (d := d) (show m < n by omega)
    obtain ⟨t₁, e, h₁⟩ : ∃ t₁, t.insert P (f m) d = .ok (1, t₁) ∧
        Stacked P t₁ (filled f d (m + 1)) := by
      have hlf := hP.leafnodemax
      have hin := hP.innernodemax
      rw [filled_succ]
      generalize filled f d m = st at h hlt
      cases h with
      | new hroot hcount =>
        obtain ⟨t₁, T₁, l₁, e, h₁, hpairs, -, -⟩ :=
          loaded_first (P := P) (k := f m) (d := d) (by omega) hroot hcount
        exact ⟨t₁, e, by rw [List.nil_append, ← hpairs]; exact .loaded h₁⟩
      | loaded h =>
        obtain ⟨t₁, T₁, I₁, l₁, e, h₁, hpairs, -, -⟩ :=
          h.push (d := d) (by omega) (by omega) hlt
        exact ⟨t₁, e, by rw [← hpairs]; exact .loaded h₁⟩
    obtain ⟨t', hrun, h'⟩ := ih h₁ (by omega)
    refine ⟨t', ?_, by rwa [Nat.add_assoc, Nat.add_comm 1] at h'⟩
    rw [List.range'_succ, List.replicate_succ]
    exact run_cons e hrun

/-- `for (int j = n - 1; j >= m; j--)`. -/
theorem run_pops (hP : P.Four) (h : Loaded P t T I l)
    (hpairs : pairs T.2.inorder = filled f d (m + c))
    (hfresh : ∀ i < m + c, Unwritten P (f i)) :
    ∃ (is : List Int) (t' : BTree K D) (T' : (n : Nat) × MTree K D n)
      (I' : List (Item Addr K (LeafSlots K D))) (l' : Tip Addr (LeafSlots K D)),
      run (fun t j => t.erase P (f j)) t (List.range' m c).reverse = .ok (is, t') ∧
      (∀ i ∈ is, 0 ≤ i) ∧ Loaded P t' T' I' l' ∧ pairs T'.2.inorder = filled f d m ∧
      (0 < c ∨ l.body.slotsinuse < P.leafnodemax → l'.body.slotsinuse < P.leafnodemax) := by
  induction c generalizing t T I l with
  | zero => exact ⟨[], t, T, I, l, rfl, nofun, h, hpairs, by simp⟩
  | succ c ih =>
    rw [← Nat.add_assoc, filled_succ] at hpairs
    obtain ⟨i, t₁, T₁, I₁, l₁, e, h₁, hpairs₁, hroom⟩ := h.pop_room hP hpairs fun b j hj x hx => by
      obtain ⟨y, hy, rfl⟩ := List.mem_map.mp hx
      exact hfresh y (by have := List.mem_range.mp hy; omega) b j hj
    obtain ⟨is, t', T', I', l', hrun, hpos, h', hpairs', hroom'⟩ :=
      ih h₁ hpairs₁ fun i hi => hfresh i (by omega)
    refine ⟨i :: is, t', T', I', l', ?_, ?_, h', hpairs', fun _ => hroom' (.inr hroom)⟩
    · rw [List.range'_concat, List.reverse_append]
      exact run_cons (by simpa using e) hrun
    · intro j hj
      obtain rfl | hj := List.mem_cons.mp hj
      · exact Int.natCast_nonneg i
      · exact hpos j hj

/-- A stored pair is refused, unless its leaf is full. -/
theorem Loaded.insert_again (hP : P.Four) (h : Loaded P t T I l)
    (hroom : l.body.slotsinuse < P.leafnodemax) {k : K} (hmem : (k, d) ∈ pairs T.2.inorder) :
    t.insert P k d = .ok (-2, t) := by
  obtain ⟨c, m, rfl, hc, hr, hfind, hstored⟩ :=
    find_tip h.rep h.order ((h.kept hP).fullLast hP) k
  have hm : m ∈ tips (c.fill m).2.inorder := by simp [Ctx.inorder_fill hc, Tree.inorder]
  obtain ⟨hbody, hok⟩ := h.rep.holds.tip h.rep.paired hm
  have hs := hok.leafIs
  have hless : m.body.slotsinuse < P.leafnodemax := by
    rw [h.seq, tips_append, List.mem_append] at hm
    obtain hm | hm := hm
    · rw [(h.settled m hm).slotsinuse hP, hP.leafnodemax]
      decide
    · obtain rfl : m = l := by simpa using hm
      exact hroom
  have hsorted : (m.body.entries.map Prod.fst).Pairwise (· < ·) := by
    have ho := h.order
    rw [Ctx.inorder_fill_leaf hc] at ho
    rw [← hs.keys_eq]
    exact (searchOrder_leaf.mp ho).2.1
  obtain ⟨as, bs, hes⟩ := List.append_of_mem (hstored _ hmem rfl)
  rw [hes] at hs hsorted
  have hcap : (as ++ (k, d) :: bs).length < P.leafnodemax := hs.inuse ▸ hless
  have hlt : ∀ e ∈ as, e.1 < k := by
    rw [List.map_append, List.pairwise_append] at hsorted
    exact fun e he => hsorted.2.2 e.1 (List.mem_map_of_mem he) k (by simp)
  refine insert_duplicate h.rep.root_ne hfind hbody hs hcap hlt (by simp) ?_
  -- the scan ends in the slot it starts at
  have hat : as.length < (as ++ (k, d) :: bs).length := by simp
  have hkey := hs.load_key hat
  have hin := duplicateIn_eq (k := k) (d := d) hs (j := as.length) rfl
  simp only [List.getElem_append_right le_rfl, Nat.sub_self, List.getElem_cons_zero] at hkey
  simp only [BTree.fuel, BTree.duplicateScan, BTree.leaf_eq hbody, ok_bind, hkey, keyequal_iff,
    if_true, hs.inuse, hin]
  simp

/-- `while (i < r)`, where the keys below `m` are stored. -/
theorem run_again (hP : P.Four) (h : Loaded P t T I l) (hroom : l.body.slotsinuse < P.leafnodemax)
    (hpairs : pairs T.2.inorder = filled f d m) (hf : Rises f n) {r : Nat} (hr : r ≤ n) :
    ∃ t', run (fun t i => t.insert P (f i) d) t (List.range r) =
        .ok (List.replicate (min m r) (-2) ++ List.replicate (r - m) 1, t') ∧
      Stacked P t' (filled f d (max m r)) := by
  have hstored : ∀ i ∈ List.range (min m r), t.insert P (f i) d = .ok (-2, t) := by
    intro i hi
    refine h.insert_again hP hroom (hpairs ▸ List.mem_map_of_mem ?_)
    rw [List.mem_range] at hi ⊢
    omega
  have hst : Stacked P t (filled f d m) := hpairs ▸ .loaded h
  have hfirst : run (fun t i => t.insert P (f i) d) t (List.range (min m r)) =
      .ok (List.replicate (List.range (min m r)).length (-2), t) :=
    run_fixed hstored
  rw [List.length_range] at hfirst
  obtain hle | hlt := Nat.le_total r m
  · rw [Nat.sub_eq_zero_of_le hle, List.replicate_zero, List.append_nil, max_eq_left hle]
    rw [min_eq_right hle] at hfirst ⊢
    exact ⟨t, hfirst, hst⟩
  · obtain ⟨t', hrun, h'⟩ := run_pushes hP hst hf (show m + (r - m) ≤ n by omega)
    rw [Nat.add_sub_cancel' hlt] at h'
    rw [min_eq_left hlt] at hfirst ⊢
    have hrange : List.range r = List.range m ++ List.range' m (r - m) := by
      conv_lhs => rw [← Nat.add_sub_cancel' hlt, List.range_eq_range']
      rw [List.range_eq_range', ← List.range'_append, Nat.zero_add, Nat.one_mul]
    rw [max_eq_right hlt]
    exact ⟨t', hrange ▸ run_append hfirst hrun, h'⟩

omit [DecidableEq D] in
theorem Stacked.prints (hP : P.Four) {st : List (K × D)} (h : Stacked P t st) (zero : K) :
    Prints P zero t (st.map Prod.fst) := by
  cases h with
  | new hroot _ => exact prints_new hroot zero
  | loaded h => exact prints_of_rep h.rep h.order ((h.kept hP).fullLast hP) h.chain zero

omit [DecidableEq D] in
/-- All keys are printed, if none is below 0. -/
theorem Stacked.printed (hP : P.Four) (h : Stacked P t (filled f d m)) (hf : Rises f n) (hm : m ≤ n)
    {zero : K} (hzero : ∀ i < m, zero ≤ f i) :
    t.printLeaves P zero = .ok ((List.range m).map f) := by
  have hprints := h.prints hP zero
  rw [map_fst_filled] at hprints
  refine hprints.all ?_ fun k hk => ?_
  · refine List.Nodup.map_on (fun i hi j hj hij => ?_) List.nodup_range
    rw [List.mem_range] at hi hj
    exact hf.injOn (hi.trans_le hm) (hj.trans_le hm) hij
  · obtain ⟨i, hi, rfl⟩ := List.mem_map.mp hk
    exact hzero i (List.mem_range.mp hi)

omit [DecidableEq D] in
theorem Stacked.found (hP : P.Four) (h : Stacked P t (filled f d m)) (hf : Rises f n) (hm : m ≤ n)
    {j : Nat} (hj : j < n) :
    t.get P (f j) = .ok (if j < m then (d, true) else (P.emptyData, false)) := by
  split_ifs with hlt
  · exact (h.holds hP).get (f j, d) (List.mem_map.mpr ⟨j, List.mem_range.mpr hlt, rfl⟩)
  · refine (h.holds hP).absent (f j) fun hmem => hlt ?_
    rw [map_fst_filled] at hmem
    obtain ⟨i, hi, hij⟩ := List.mem_map.mp hmem
    rw [List.mem_range] at hi
    exact hf.injOn (hi.trans_le hm) hj hij ▸ hi

omit [DecidableEq D] in
theorem Stacked.exists_loaded {st : List (K × D)} (h : Stacked P t st) (hne : st ≠ []) :
    ∃ (T : (n : Nat) × MTree K D n) (I : List (Item Addr K (LeafSlots K D)))
      (l : Tip Addr (LeafSlots K D)), Loaded P t T I l ∧ pairs T.2.inorder = st := by
  cases h with
  | new => exact absurd rfl hne
  | loaded h => exact ⟨_, _, _, h, rfl⟩

theorem rises_int {n : Nat} (hn : n ≤ 2 ^ 31) : Rises Int32.ofNat n :=
  fun _ _ hlt hj => (Int32.ofNat_lt_iff_lt (by omega) (by omega)).mpr hlt

/-- What the program returns and prints, where no slot of a new leaf holds a key that it inserts. -/
theorem testMain_eq {P : Template Int32 (List UInt8)} (hinner : P.nodeslots = 4)
    (hleaf : P.leafslots = 4) {n m r g : Nat} (hm : m < n) (hn : n ≤ 2 ^ 31) (hr : r ≤ 2 ^ 31)
    (hg : g ≤ 2 ^ 31) (hfresh : ∀ i < n, Unwritten P (.ofNat i)) :
    ∃ out, testMain P n m r g = .ok out ∧ out.inserted = List.replicate n 1 ∧
      out.erased.length = n - m ∧ (∀ i ∈ out.erased, 0 ≤ i) ∧
      out.again = List.replicate (min m r) (-2) ++ List.replicate (r - m) 1 ∧
      out.printed = (List.range (max m r)).map .ofNat ∧
      out.found = (List.range g).map fun j =>
        if j < max m r then (we, true) else (P.emptyData, false) := by
  have hP : P.Four := ⟨hinner, hleaf⟩
  have hf := rises_int le_rfl
  have hadd : m + (n - m) = n := by omega
  -- the three loops that change the tree
  obtain ⟨t₁, hrun₁, h₁⟩ := run_pushes hP (show Stacked P BTree.init (filled .ofNat we 0) from
    .new rfl rfl) hf (show 0 + n ≤ 2 ^ 31 by omega)
  rw [Nat.zero_add] at h₁
  obtain ⟨T, I, l, hload, hpairs⟩ := h₁.exists_loaded (by simp [filled]; omega)
  obtain ⟨is, t₂, T₂, I₂, l₂, hrun₂, hpos, h₂, hpairs₂, hroom⟩ :=
    run_pops hP hload (hadd.symm ▸ hpairs) (hadd.symm ▸ hfresh)
  obtain ⟨t₃, hrun₃, h₃⟩ := run_again hP h₂ (hroom (.inl (by omega))) hpairs₂ hf hr
  have hbound : max m r ≤ 2 ^ 31 := by omega
  have hprint : t₃.printLeaves P 0 = .ok ((List.range (max m r)).map .ofNat) :=
    h₃.printed hP hf hbound fun i hi =>
      (Int32.ofNat_le_iff_le (by decide) (by omega)).mpr (Nat.zero_le i)
  have hget : ∀ j ∈ List.range g, t₃.get P (.ofNat j) =
      .ok (if j < max m r then (we, true) else (P.emptyData, false)) := fun j hj =>
    h₃.found hP hf hbound ((List.mem_range.mp hj).trans_le hg)
  refine ⟨⟨_, _, _, _, _⟩, ?_, rfl, ?_, hpos, rfl, rfl, rfl⟩
  · rw [testMain, List.range_eq_range', hrun₁, ok_bind]
    simp only [hrun₂, ok_bind, hrun₃, hprint, BTree.mapM_ok hget]
    rfl
  · rw [run_length hrun₂]
    simp

/-- The slots of new leaves hold -1, and a new string is empty. -/
def Template.unset : Template Int32 (List UInt8) where
  nodeslots := 4
  leafslots := 4
  junkKey _ _ := -1
  newData := []
  emptyData := []

/-- With the bounds that the program has, the keys below 1000 are printed. -/
theorem testMain_eq_2000 : ∃ out, testMain .unset 2000 5 1000 100 = .ok out ∧
    out.inserted = List.replicate 2000 1 ∧ out.erased.length = 2000 - 5 ∧
    (∀ i ∈ out.erased, 0 ≤ i) ∧
    out.again = List.replicate (min 5 1000) (-2) ++ List.replicate (1000 - 5) 1 ∧
    out.printed = (List.range (max 5 1000)).map .ofNat ∧
    out.found = (List.range 100).map fun j => if j < max 5 1000 then (we, true) else ([], false) :=
  testMain_eq rfl rfl (by decide) (by decide) (by decide) (by decide) fun i hi b j _ h => by
    have hle : (0 : Int32) ≤ .ofNat i :=
      (Int32.ofNat_le_iff_le (by decide) (by omega)).mpr (Nat.zero_le i)
    rw [← h] at hle
    exact absurd (show (0 : Int32) ≤ -1 from hle) (by decide)

end NwtBTree
