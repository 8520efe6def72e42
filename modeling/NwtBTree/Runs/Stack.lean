import NwtBTree.Refine.Content
import NwtBTree.Refine.Pop
import NwtBTree.Runs.Mixed

/-!
# The tree as a stack

Runs that insert a key greater than all stored ones or erase the greatest one. All leaves
but the last then have two pairs and slots behind them that were never written, so a leaf
that gets too small is merged into the one in front of it, and no pair is lost.
-/

namespace NwtBTree

variable {K D : Type}

/-- The reference stack after a call. -/
def stackNext (st : List (K × D)) : Request K D → List (K × D)
  | .insert k d => st ++ [(k, d)]
  | .erase _ => st.dropLast
  | _ => st

/-- What the tree returns for a push and for a pop. -/
def StackReply (_ : List (K × D)) : Request K D → Reply D → Prop
  | .insert _ _, r => r = .code 1
  | _, r => ∃ i, 0 ≤ i ∧ r = .code i

variable [LinearOrder K]

/-- The insert of a key greater than all stored ones, or the erasing of the greatest one. -/
def StackCall (st : List (K × D)) : Request K D → Prop
  | .insert k _ => ∀ e ∈ st, e.1 < k
  | .erase k => st.getLast?.map Prod.fst = some k
  | _ => False

def StackCalls : List (K × D) → List (Request K D) → Prop
  | _, [] => True
  | st, q :: qs => StackCall st q ∧ StackCalls (stackNext st q) qs

/-- The tree holds the pairs of the stack. -/
structure StackHolds (P : Template K D) (t : BTree K D) (st : List (K × D)) : Prop where
  content : t.content = .ok st
  size : st.length < 2147483648 → t.size = st.length
  get : ∀ e ∈ st, t.get P e.1 = .ok (e.2, true)
  absent : ∀ k, k ∉ st.map Prod.fst → t.get P k = .ok (P.emptyData, false)
  depth : ∃ h, ∀ d a, t.Reachable d a → t.isleaf a = .ok true → d = h

/-- No slot of a new leaf holds the key `k`. -/
def Unwritten (P : Template K D) (k : K) : Prop :=
  ∀ b, ∀ i < P.leafnodemax, P.junkKey b i ≠ k

variable {P : Template K D} {t : BTree K D} {st : List (K × D)} {q : Request K D}

theorem StackCalls.of_append {qs qs' : List (Request K D)} (h : StackCalls st (qs ++ qs')) :
    StackCalls st qs := by
  induction qs generalizing st with
  | nil => trivial
  | cons q qs ih => exact ⟨h.1, ih h.2⟩

/-- The state while the stack is `st`. -/
inductive Stacked (P : Template K D) (t : BTree K D) : List (K × D) → Prop
  | new (hroot : t.root = none) (hcount : t.totalkeycount = 0) : Stacked P t []
  | loaded {T : (n : Nat) × MTree K D n} {I : List (Item Addr K (LeafSlots K D))}
      {l : Tip Addr (LeafSlots K D)} (h : Loaded P t T I l) : Stacked P t (pairs T.2.inorder)

theorem Stacked.count (h : Stacked P t st) : t.totalkeycount = st.length % 4294967296 := by
  cases h with
  | new hroot hcount => exact hcount
  | loaded h => exact h.count

omit [LinearOrder K] in
theorem not_reachable (hroot : t.root = none) {d : Nat} {a : Addr} : ¬t.Reachable d a := by
  intro h
  induction h with
  | root h => simp [hroot] at h
  | child h hi hb ih => exact ih

theorem Stacked.holds (hP : P.Four) (h : Stacked P t st) : StackHolds P t st where
  content := by
    cases h with
    | new hroot hcount => rw [BTree.content, hroot]
    | loaded h => exact content_eq h.rep
  size := by
    intro hlen
    rw [BTree.size, h.count, Nat.mod_eq_of_lt (by omega), if_pos hlen]
  get := by
    intro e he
    cases h with
    | new hroot hcount => cases he
    | loaded h => exact get_mem h.rep h.order ((h.kept hP).fullLast hP) he
  absent := by
    intro k hk
    cases h with
    | new hroot hcount => simp [BTree.get, BTree.find, hroot]
    | loaded h => exact get_not_mem h.rep h.order ((h.kept hP).fullLast hP) hk
  depth := by
    cases h with
    | new hroot hcount =>
      exact ⟨0, fun d a hr => absurd hr (not_reachable hroot)⟩
    | loaded h => exact ⟨_, fun d a hr ha => h.rep.leaf_depth hr ha⟩

variable [DecidableEq D]

theorem Stacked.perform (hP : P.Four) (h : Stacked P t st) (hcall : StackCall st q)
    (hfresh : ∀ x ∈ st, Unwritten P x.1) :
    ∃ r t', t.perform P q = .ok (r, t') ∧ StackReply st q r ∧ Stacked P t' (stackNext st q) := by
  have hin := hP.innernodemax
  have hlf := hP.leafnodemax
  cases q with
  | insert k d =>
    cases h with
    | new hroot hcount =>
      obtain ⟨t', T', l', e, h', hpairs, -, -⟩ :=
        loaded_first (P := P) (k := k) (d := d) (by omega) hroot hcount
      refine ⟨.code 1, t', by simp only [BTree.perform, e, ok_bind]; rfl, rfl, ?_⟩
      rw [stackNext, List.nil_append, ← hpairs]
      exact .loaded h'
    | loaded h =>
      obtain ⟨t', T', I', l', e, h', hpairs, -, -⟩ :=
        h.push (d := d) (by omega) (by omega) hcall
      refine ⟨.code 1, t', by simp only [BTree.perform, e, ok_bind]; rfl, rfl, ?_⟩
      rw [stackNext, ← hpairs]
      exact .loaded h'
  | erase k =>
    obtain ⟨es, e, rfl, rfl⟩ : ∃ es e, st = es ++ [e] ∧ e.1 = k := by
      rcases List.eq_nil_or_concat st with rfl | ⟨es, e, rfl⟩
      · cases hcall
      · rw [List.concat_eq_append] at hcall ⊢
        refine ⟨es, e, rfl, ?_⟩
        simpa [StackCall] using hcall
    generalize hst : es ++ [e] = st at h
    cases h with
    | new hroot hcount => simp at hst
    | loaded h =>
      obtain ⟨i, t', T', I', l', e₁, h', hpairs⟩ := h.pop hP hst.symm fun b i hi x hx =>
        hfresh x (List.mem_append_left _ hx) b i hi
      refine ⟨.code i, t', by simp only [BTree.perform, e₁, ok_bind]; rfl,
        ⟨i, Int.natCast_nonneg i, rfl⟩, ?_⟩
      rw [stackNext, ← hst, List.dropLast_concat, ← hpairs]
      exact .loaded h'
  | existsKey k => exact hcall.elim
  | get k => exact hcall.elim
  | deletePair k d => exact hcall.elim

theorem StackCalls.meets {qs : List (Request K D)} (h : StackCalls st qs)
    (hfresh : ∀ q ∈ qs, ∀ k ∈ q.newKey, Unwritten P k) (t : BTree K D) :
    Meets (BTree.perform P) stackNext
      (fun st _ q => StackCall st q ∧ ∀ k ∈ q.newKey, Unwritten P k) st t qs := by
  induction qs generalizing st t with
  | nil => trivial
  | cons q qs ih =>
    exact ⟨⟨h.1, hfresh q List.mem_cons_self⟩, fun _ t' _ =>
      ih h.2 (fun q' hq => hfresh q' (List.mem_cons_of_mem q hq)) t'⟩

/-- Every run of pushes and pops. -/
theorem stacked_run (hP : P.Four) {qs : List (Request K D)} (hcalls : StackCalls [] qs)
    (hfresh : ∀ q ∈ qs, ∀ k ∈ q.newKey, Unwritten P k) :
    ∃ rs t, run (BTree.perform P) BTree.init qs = .ok (rs, t) ∧
      Answers stackNext StackReply [] qs rs ∧ Stacked P t (qs.foldl stackNext []) := by
  have hsim : ∃ rs t, run (BTree.perform P) BTree.init qs = .ok (rs, t) ∧
      Answers stackNext StackReply [] qs rs ∧ Stacked P t (qs.foldl stackNext []) ∧
        ∀ x ∈ qs.foldl stackNext [], Unwritten P x.1 :=
    run_sim (R := fun st t => Stacked P t st ∧ ∀ x ∈ st, Unwritten P x.1)
      (fun {st t q} hR hcond => by
      obtain ⟨r, t', e, hr, h'⟩ := hR.1.perform hP hcond.1 hR.2
      refine ⟨r, t', e, hr, h', fun x hx => ?_⟩
      cases q with
      | insert k d =>
        rcases List.mem_append.mp hx with hx | hx
        · exact hR.2 x hx
        · rw [List.mem_singleton.mp hx]
          exact hcond.2 k rfl
      | erase k => exact hR.2 x (List.dropLast_subset st hx)
      | _ => exact hR.2 x hx)
      ⟨.new rfl rfl, by simp⟩ (hcalls.meets hfresh BTree.init)
  obtain ⟨rs, t, e, hans, ht, -⟩ := hsim
  exact ⟨rs, t, e, hans, ht⟩

/-- After every call of a run of pushes and pops, the tree holds the pairs of the stack. -/
theorem stack_discipline (hinner : P.nodeslots = 4) (hleaf : P.leafslots = 4)
    {qs : List (Request K D)} (hcalls : StackCalls [] qs)
    (hfresh : ∀ q ∈ qs, ∀ k ∈ q.newKey, Unwritten P k) :
    ∀ pre, pre <+: qs → ∃ rs t, run (BTree.perform P) BTree.init pre = .ok (rs, t) ∧
      Answers stackNext StackReply [] pre rs ∧ StackHolds P t (pre.foldl stackNext []) := by
  rintro pre ⟨post, rfl⟩
  obtain ⟨rs, t, e, hans, ht⟩ := stacked_run (P := P) ⟨hinner, hleaf⟩ hcalls.of_append fun q hq =>
    hfresh q (List.mem_append_left _ hq)
  exact ⟨rs, t, e, hans, ht.holds ⟨hinner, hleaf⟩⟩

theorem stack_discipline_nine : ∃ rs t, run (BTree.perform (Template.plain 4)) BTree.init
    [.insert 1 10, .insert 2 20, .insert 3 30, .insert 4 40, .insert 5 50, .erase 5, .erase 4,
      .insert 9 90, .erase 9] = .ok (rs, t) ∧
    Answers stackNext StackReply [] [.insert 1 10, .insert 2 20, .insert 3 30, .insert 4 40,
      .insert 5 50, .erase 5, .erase 4, .insert 9 90, .erase 9] rs ∧
    StackHolds (Template.plain 4) t [(1, 10), (2, 20), (3, 30)] := by
  refine stack_discipline rfl rfl ?_ ?_ _ (List.prefix_refl _)
  · simp [StackCalls, StackCall, stackNext]
  · simp [Unwritten, Request.newKey, Template.plain]

omit [DecidableEq D] in
theorem stackCalls_pushes {es : List (K × D)} (h : (st ++ es).Pairwise fun a b => a.1 < b.1) :
    StackCalls st (es.map fun e => .insert e.1 e.2) ∧
      (es.map fun e => Request.insert e.1 e.2).foldl stackNext st = st ++ es := by
  induction es generalizing st with
  | nil => exact ⟨trivial, by simp⟩
  | cons e es ih =>
    rw [← List.singleton_append, ← List.append_assoc] at h
    obtain ⟨hcalls, hfold⟩ := ih h
    refine ⟨⟨fun x hx => ?_, hcalls⟩, ?_⟩
    · have hst := (List.pairwise_append.mp h).1
      exact (List.pairwise_append.mp hst).2.2 x hx e List.mem_cons_self
    · rw [List.map_cons, List.foldl_cons, stackNext, hfold, List.append_assoc,
        List.singleton_append]

/-- The counter is returned as an `int`, which is negative from `2147483648` pairs on. -/
theorem not_stack_discipline : ∃ qs, StackCalls [] qs ∧
    (∀ q ∈ qs, ∀ k ∈ q.newKey, Unwritten (Template.plain 4) k) ∧
    ∃ rs t, run (BTree.perform (Template.plain 4)) BTree.init qs = .ok (rs, t) ∧
      t.size ≠ (qs.foldl stackNext []).length := by
  obtain ⟨n, hn⟩ : ∃ n, n = 2147483648 := ⟨_, rfl⟩
  let es : List (Nat × Nat) := (List.range n).map fun i => (i + 1, 0)
  have hasc : ([] ++ es : List (Nat × Nat)).Pairwise fun a b => a.1 < b.1 := by
    apply List.pairwise_map.mpr
    exact List.pairwise_lt_range.imp fun h => Nat.succ_lt_succ h
  obtain ⟨hcalls, hfold⟩ := stackCalls_pushes hasc
  have hfresh : ∀ q ∈ es.map (fun e => Request.insert e.1 e.2), ∀ k ∈ q.newKey,
      Unwritten (Template.plain 4) k := by
    intro q hq k hk b i _
    obtain ⟨e, he, rfl⟩ := List.mem_map.mp hq
    obtain ⟨j, -, rfl⟩ := List.mem_map.mp he
    obtain rfl := Option.some.inj hk
    exact (Nat.succ_ne_zero j).symm
  obtain ⟨rs, t, e, -, ht⟩ := stacked_run (P := Template.plain 4) ⟨rfl, rfl⟩ hcalls hfresh
  refine ⟨_, hcalls, hfresh, rs, t, e, ?_⟩
  have hlen : es.length = 2147483648 := by rw [List.length_map, List.length_range, hn]
  have hcount := ht.count
  rw [hfold, List.nil_append, hlen] at hcount ⊢
  rw [BTree.size, hcount]
  decide

end NwtBTree
