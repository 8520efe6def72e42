import NwtBTree.Machine.Run
import NwtBTree.Refine.Spare
import NwtBTree.Runs.Append

/-!
# Inserts in ascending order, lookups and removals

One machine for the calls on a tree. `Change` says what a call does to the tree
that the state holds; everything about runs follows from it.
-/

namespace NwtBTree

variable {K D : Type}

/-- A call on the tree. -/
inductive Request (K D : Type) where
  | insert (k : K) (d : D)
  | existsKey (k : K)
  | get (k : K)
  | erase (k : K)
  | deletePair (k : K) (d : D)

/-- What a call returns. -/
inductive Reply (D : Type) where
  | code (i : Int)
  | found (b : Bool)
  | data (d : D) (b : Bool)

/-- The key that a call adds. -/
def Request.newKey : Request K D → Option K
  | .insert k _ => some k
  | _ => none

variable [LinearOrder K] {P : Template K D}

namespace BTree

/-- The leaf that a call takes a pair from, with the keys that stay there. -/
def target (P : Template K D) (t : BTree K D) :
    Request K D → Except Fault (Option (Addr × List K))
  | .erase k => t.eraseTarget P k
  | .deletePair k _ => t.deleteTarget P k
  | _ => .ok none

/-- A removal reads no slot out of range, and the tree can do without the pair. -/
def canPerform (P : Template K D) (t : BTree K D) : Request K D → Except Fault Bool
  | .erase k => t.canErase P k
  | .deletePair k _ => t.canDelete P k
  | _ => .ok true

variable [DecidableEq D]

def perform (P : Template K D) (t : BTree K D) : Request K D → Except Fault (Reply D × BTree K D)
  | .insert k d => do
    let (i, t) ← t.insert P k d
    return (.code i, t)
  | .existsKey k => do return (.found (← t.existsKey P k), t)
  | .get k => do
    let (d, b) ← t.get P k
    return (.data d b, t)
  | .erase k => do
    let (i, t) ← t.erase P k
    return (.code i, t)
  | .deletePair k d => do
    let (i, t) ← t.deletePair P k d
    return (.code i, t)

end BTree

/-- What a call does to the tree `T`. -/
inductive Change (P : Template K D) (t : BTree K D) (T : (n : Nat) × MTree K D n)
    (q : Request K D) :
    BTree K D → ((n : Nat) × MTree K D n) → Prop
  | none (h : t.target P q = .ok none) (hnew : q.newKey = none) : Change P t T q t T
  | grown {t' : BTree K D} {T' : (n : Nat) × MTree K D n} {k : K} (hnew : q.newKey = some k)
      (h : Extension P t t' k T T') : Change P t T q t' T'
  | shrunk {t' : BTree K D} {T' : (n : Nat) × MTree K D n} {c : MCtx K D 0} {a : Addr}
      {s s' : LeafSlots K D} (hnew : q.newKey = none) (hT : T = c.fill (.leaf a s)) (hc : c.Paired)
      (htarget : t.target P q = .ok (some (a, s'.keys))) (h : Removal P t t' c a s s' T') :
      Change P t T q t' T'

variable {t t' : BTree K D} {T T' : (n : Nat) × MTree K D n} {q : Request K D}

/-- Separators are keys that were separators before or are keys. -/
theorem Removal.seps_cases (hP : P.Four) {c : MCtx K D 0} {a : Addr} {s s' : LeafSlots K D}
    (h : Kept P t (c.fill (.leaf a s))) (hc : c.Paired) (hr : Removal P t t' c a s s' T') {z : K}
    (hz : z ∈ seps T'.2.inorder) : z ∈ seps (c.fill (.leaf a s)).2.inorder ∨
      z ∈ allKeys LeafSlots.keys (c.fill (.leaf a s)).2.inorder := by
  obtain ⟨hleft, hright⟩ := h.beside hc
  have heven := hr.even.evened hc hr.ok hP (fun l hl => (hleft l hl).1) hright
  rw [Ctx.inorder_fill_leaf hc]
  rcases heven.seps_cases hz with hz | hz
  · exact .inl (by simpa using hz)
  · have := heven.keys_sublist.subset hz
    have hsub := hr.sub.subset
    simp only [allKeys_append, allKeys_inr, List.mem_append] at this ⊢
    grind

/-- Keys only go. -/
theorem Removal.keys_subset (hP : P.Four) {c : MCtx K D 0} {a : Addr} {s s' : LeafSlots K D}
    (h : Kept P t (c.fill (.leaf a s))) (hc : c.Paired) (hr : Removal P t t' c a s s' T') :
    allKeys LeafSlots.keys T'.2.inorder ⊆ allKeys LeafSlots.keys
      (c.fill (.leaf a s)).2.inorder := by
  obtain ⟨hleft, hright⟩ := h.beside hc
  have heven := hr.even.evened hc hr.ok hP (fun l hl => (hleft l hl).1) hright
  intro x hx
  have := heven.keys_sublist.subset hx
  have hsub := hr.sub.subset
  rw [Ctx.inorder_fill_leaf hc]
  simp only [allKeys_append, allKeys_inr, List.mem_append] at this ⊢
  grind

theorem Change.kept (hP : P.Four) (h : Kept P t T) (hch : Change P t T q t' T') : Kept P t' T' := by
  cases hch with
  | none => exact h
  | grown hnew hx => exact hx.kept
  | shrunk hnew hT hc htarget hr =>
    subst hT
    exact h.removal hP hc hr

variable [DecidableEq D]

/-- A call on a search tree returns. -/
theorem Kept.perform (hP : P.Four) (h : Kept P t T)
    (hnew : ∀ k ∈ q.newKey, (∀ x ∈ allKeys LeafSlots.keys T.2.inorder, x < k) ∧
      ∀ z ∈ seps T.2.inorder, z < k) (hcan : t.canPerform P q = .ok true) :
    ∃ r t' T', t.perform P q = .ok (r, t') ∧ Change P t T q t' T' := by
  have hfull := h.fullLast hP
  cases q with
  | insert k d =>
    obtain ⟨hkeys, hseps⟩ := hnew k rfl
    obtain ⟨t', T', e, hx⟩ := h.push hP hkeys hseps d
    exact ⟨.code 1, t', T', by rw [BTree.perform, e]; rfl, .grown rfl hx⟩
  | existsKey k =>
    have e := existsKey_iff h.rep h.order hfull k
    exact ⟨_, t, T, by rw [BTree.perform, e]; rfl, .none rfl rfl⟩
  | get k =>
    obtain ⟨⟨d, b⟩, e⟩ : ∃ p, t.get P k = .ok p := by
      by_cases hk : k ∈ (pairs T.2.inorder).map Prod.fst
      · obtain ⟨e, he, rfl⟩ := List.mem_map.mp hk
        exact ⟨_, get_mem h.rep h.order hfull he⟩
      · exact ⟨_, get_not_mem h.rep h.order hfull hk⟩
    exact ⟨.data d b, t, T, by rw [BTree.perform, e]; rfl, .none rfl rfl⟩
  | erase k =>
    rcases h.erase hP hcan with ⟨e, htarget, -⟩ | ⟨c, a, s, s', i, t', T', hT, hc, e,
      htarget, -, hr⟩
    · exact ⟨.code (-1), t, T, by rw [BTree.perform, e]; rfl, .none htarget rfl⟩
    · exact ⟨.code i, t', T', by rw [BTree.perform, e]; rfl, .shrunk rfl hT hc htarget hr⟩
  | deletePair k d =>
    rcases h.deletePair hP hcan d with ⟨e, htarget⟩ | ⟨c, a, s, s', i, t', T', hT, hc, e,
      htarget, hr⟩
    · exact ⟨.code (-1), t, T, by rw [BTree.perform, e]; rfl, .none htarget rfl⟩
    · exact ⟨.code i, t', T', by rw [BTree.perform, e]; rfl, .shrunk rfl hT hc htarget hr⟩

/-- On a tree without nodes only an insert does anything. -/
theorem perform_empty (hroot : t.root = none) (hnew : q.newKey = none) :
    ∃ r, t.perform P q = .ok (r, t) := by
  have hfind (k : K) : t.find P k = .ok none := BTree.find_none hroot
  cases q with
  | insert k d => simp [Request.newKey] at hnew
  | existsKey k => exact ⟨.found false, by simp [BTree.perform, BTree.existsKey, hfind]⟩
  | get k => exact ⟨.data P.emptyData false, by simp [BTree.perform, BTree.get, hfind]⟩
  | erase k => exact ⟨.code (-1), by simp [BTree.perform, BTree.erase, hfind]⟩
  | deletePair k d => exact ⟨.code (-1), by simp [BTree.perform, BTree.deletePair, hfind]⟩

/-! ## Runs -/

/-- The state after inserts of the keys `g` and any other calls; `R` is what else is known of the
tree. -/
inductive Tended (P : Template K D) (R : List K → BTree K D → (n : Nat) × MTree K D n → Prop)
    (t : BTree K D) : List K → Prop
  | empty (hroot : t.root = none) (hcount : t.totalkeycount = 0) : Tended P R t []
  | kept {g : List K} {T : (n : Nat) × MTree K D n} (h : Kept P t T)
      (hkeys : ∀ x ∈ allKeys LeafSlots.keys T.2.inorder, x ∈ g)
      (hseps : ∀ z ∈ seps T.2.inorder, z ∈ g) (hR : R g t T) : Tended P R t g

omit [DecidableEq D] in
theorem Change.subset (hP : P.Four) (h : Kept P t T) (hch : Change P t T q t' T') {g : List K}
    (hkeys : ∀ x ∈ allKeys LeafSlots.keys T.2.inorder, x ∈ g)
    (hseps : ∀ z ∈ seps T.2.inorder, z ∈ g) :
    (∀ x ∈ allKeys LeafSlots.keys T'.2.inorder, x ∈ g ++ q.newKey.toList) ∧
      ∀ z ∈ seps T'.2.inorder, z ∈ g ++ q.newKey.toList := by
  cases hch with
  | none _ hnew => grind
  | @grown _ _ k hnew hx =>
    have hk := hx.keys
    have hz := hx.seps
    grind
  | shrunk hnew hT hc htarget hr =>
    subst hT
    have hk := hr.keys_subset hP h hc
    refine ⟨fun x hx => List.mem_append_left _ (hkeys x (hk hx)), fun z hz => ?_⟩
    exact List.mem_append_left _ ((hr.seps_cases hP h hc hz).elim (hseps z) (hkeys z))

section Run

variable {R : List K → BTree K D → (n : Nat) × MTree K D n → Prop}
  {cond : BTree K D → Request K D → Prop}

/-- A call keeps the state tended. -/
theorem Tended.perform (hP : P.Four) (hcan : ∀ {t q}, cond t q → t.canPerform P q = .ok true)
    (hfirst : ∀ {k t' T'}, First P t' k T' → R [k] t' T')
    (hstep : ∀ {g t T q t' T'}, Kept P t T → R g t T → cond t q → Change P t T q t' T' →
      R (g ++ q.newKey.toList) t' T')
    {g : List K} (h : Tended P R t g) (hcond : (∀ k ∈ q.newKey, ∀ x ∈ g, x < k) ∧ cond t q) :
    ∃ r t', t.perform P q = .ok (r, t') ∧ True ∧ Tended P R t' (g ++ q.newKey.toList) := by
  obtain ⟨hasc, hc⟩ := hcond
  cases h with
  | empty hroot hcount =>
    cases hnew : q.newKey with
    | none =>
      obtain ⟨r, e⟩ := perform_empty (P := P) hroot hnew
      exact ⟨r, t, e, trivial, .empty hroot hcount⟩
    | some k =>
      obtain ⟨d, rfl⟩ : ∃ d, q = .insert k d := by
        cases q <;> simp_all [Request.newKey]
      obtain ⟨t', T', e, hx⟩ := kept_first (P := P) (by rw [hP.leafnodemax]; decide) hroot
        hcount k d
      exact ⟨.code 1, t', by rw [BTree.perform, e]; rfl, trivial,
        .kept hx.kept (by simp [hx.keys]) (by simp [hx.seps]) (hfirst hx)⟩
  | kept hkept hkeys hseps hR =>
    obtain ⟨r, t', T', e, hch⟩ := hkept.perform hP (fun k hk =>
      ⟨fun x hx => hasc k hk x (hkeys x hx), fun z hz => hasc k hk z (hseps z hz)⟩) (hcan hc)
    obtain ⟨hkeys', hseps'⟩ := hch.subset hP hkept hkeys hseps
    exact ⟨r, t', e, trivial, .kept (hch.kept hP hkept) hkeys' hseps' (hstep hkept hR hc hch)⟩

/-- The inserts of a run have ascending keys. -/
def AscendingKeys (qs : List (Request K D)) : Prop :=
  (qs.filterMap Request.newKey).Pairwise (· < ·)

/-- Every call of the run meets the condition `cond`. -/
def EachCall (P : Template K D) (cond : BTree K D → Request K D → Prop) (qs : List (Request K D)) :
    Prop :=
  Meets (BTree.perform P) (fun (_ : Unit) _ => ()) (fun _ t q => cond t q) () BTree.init qs

/-- A run whose calls meet the condition goes through. -/
theorem tended_run (hP : P.Four) (hcan : ∀ {t q}, cond t q → t.canPerform P q = .ok true)
    (hfirst : ∀ {k t' T'}, First P t' k T' → R [k] t' T')
    (hstep : ∀ {g t T q t' T'}, Kept P t T → R g t T → cond t q → Change P t T q t' T' →
      R (g ++ q.newKey.toList) t' T')
    {qs : List (Request K D)} (hasc : AscendingKeys qs) (h : EachCall P cond qs) :
    ∃ rs t, run (BTree.perform P) BTree.init qs = .ok (rs, t) ∧
      Tended P R t (qs.filterMap Request.newKey) := by
  have hmeets : Meets (BTree.perform P) (fun g q => g ++ q.newKey.toList)
      (fun g t q => (∀ k ∈ q.newKey, ∀ x ∈ g, x < k) ∧ cond t q) []
      BTree.init qs := Meets.ascending (f := Request.newKey) (g := []) hasc h
  obtain ⟨rs, t, e, -, hR⟩ : ∃ rs t, run (BTree.perform P) BTree.init qs = .ok (rs, t) ∧
      Answers (fun g q => g ++ q.newKey.toList) (fun _ _ _ => True) ([] : List K) qs rs ∧
      Tended P R t (qs.foldl (fun g q => g ++ q.newKey.toList) []) := by
    refine run_sim (R := fun g t => Tended P R t g) ?_ (.empty rfl rfl) hmeets
    intro g t q hR hcond
    exact hR.perform hP hcan hfirst hstep hcond
  rw [foldl_option, List.nil_append] at hR
  exact ⟨rs, t, e, hR⟩

end Run

/-! ## No fault -/

/-- The run neither leaves an array nor dereferences `NULL` nor fails an assertion. -/
def Faultless (P : Template K D) (qs : List (Request K D)) : Prop :=
  ∃ rs t, run (BTree.perform P) BTree.init qs = .ok (rs, t)

theorem faultless (hinner : P.nodeslots = 4) (hleaf : P.leafslots = 4) {qs : List (Request K D)}
    (hasc : AscendingKeys qs) (h : EachCall P (fun t q => t.canPerform P q = .ok true) qs) :
    Faultless P qs := by
  obtain ⟨rs, t, e, -⟩ := tended_run (R := fun _ _ _ => True) ⟨hinner, hleaf⟩ id (fun _ => trivial)
    (fun _ _ _ _ => trivial) hasc h
  exact ⟨rs, t, e⟩

theorem faultless_nine : Faultless (Template.plain 4) [.insert 1 10, .insert 2 20, .insert 3 30,
    .insert 4 40, .insert 5 50, .get 7, .erase 4, .deletePair 1 10, .existsKey 2, .erase 6] :=
  faultless rfl rfl (by unfold AscendingKeys; decide) (show EachCall _ _ _ from by
    unfold EachCall; decide +kernel)

/-- `findKeyEqual` answers `4` for a full leaf without the key, and `erase` reads the slot there. -/
theorem not_faultless : ¬Faultless (Template.plain 4) [.insert 1 10, .insert 2 20, .insert 3 30,
    .insert 4 40, .erase 5] := by
  rintro ⟨rs, t, e⟩
  have h : (run (BTree.perform (Template.plain 4)) BTree.init [.insert 1 10, .insert 2 20,
      .insert 3 30, .insert 4 40, .erase 5]).map (fun _ => ()) = .error .outOfRange := by
    decide +kernel
  rw [e] at h
  cases h

end NwtBTree
