import Mathlib.Data.Finset.Sort
import NwtBTree.Machine.Tracks
import NwtBTree.Refine.Content
import NwtBTree.Runs.Absent
import NwtBTree.Runs.Drain

/-!
# The tree as a set of keys

What a set of keys answers to the calls, and when the tree is that set. A removal goes wrong in two
ways: it joins two leaves and loses a second key, or `erase` finds a key that was removed before in
the slot behind the used ones.
-/

namespace NwtBTree

variable {K D : Type} [LinearOrder K] {P : Template K D}

/-! ## The set -/

/-- The set of keys after a call. -/
def Request.effect (S : Finset K) : Request K D → Finset K
  | .insert k _ => S ∪ {k}
  | .existsKey _ | .get _ => S
  | .erase k | .deletePair k _ => S.erase k

/-- What a call returns on the set of keys `S`. Which position a removal answers and which payload
a lookup gives, the set does not say. -/
def Request.Returns (P : Template K D) (S : Finset K) : Request K D → Reply D → Prop
  | .insert k _, r => r = .code (if k ∈ S then -2 else 1)
  | .existsKey k, r => r = .found (decide (k ∈ S))
  | .get k, r => if k ∈ S then ∃ d, r = .data d true else r = .data P.emptyData false
  | .erase k, r | .deletePair k _, r => if k ∈ S then ∃ i : Nat, r = .code i else r = .code (-1)

/-- The pairs of the tree have the keys `S`, in ascending order. -/
def BTree.HasKeys (S : Finset K) (t : BTree K D) : Prop :=
  ∃ es, t.content = .ok es ∧ es.map Prod.fst = S.sort (· ≤ ·)

/-- `erase` does not take a key for stored that is not. -/
def BTree.tellsApart (P : Template K D) (t : BTree K D) : Request K D → Except Fault Bool
  | .erase k => do if ← t.existsKey P k then return true else t.tellsAbsent P k
  | _ => .ok true

/-! ## The keys after a removal -/

section Removal

variable {t t' : BTree K D} {T T' : (n : Nat) × MTree K D n} {k : K} {c : MCtx K D 0} {a : Addr}
  {s s' : LeafSlots K D} {S : Finset K}

omit [LinearOrder K] in
/-- A leaf that loses its last pair to the left sibling leaves one key less. -/
theorem Rebalanced.length_lost {v v' : View K D} (h : Rebalanced P v v' a s c T) (hc : c.Paired)
    (hlost : c.Loses s) : (allKeys LeafSlots.keys T.2.inorder).length + 1 =
      (allKeys LeafSlots.keys (c.left ++ .inr ⟨a, s⟩ :: c.right)).length := by
  cases h with
  | kept hs =>
    cases c with
    | top => exact hlost.elim
    | frame up b ksL csL ksR csR =>
      obtain ⟨_, -, -, hone, -⟩ := hlost
      rcases hs with hs | hs
      · omega
      · cases hs
  | @mergedPrev up b p sp sp' sep kL ksR r rp rp' cL csR e ep ep' T hs hsp hroom hsp' hep' hT =>
    obtain ⟨p', hp', -, -, hbeyond⟩ := hlost
    obtain rfl : Tree.leaf p sp = p' := by simpa using hp'
    rw [hs.keys_eq] at hbeyond
    rcases hep' with ⟨-, rfl⟩ | ⟨hne, -⟩
    · rw [settled_prev hc hT, left_prev hc]
      simp only [allKeys_append, allKeys_inr, allKeys_inl, hsp'.keys_eq, hsp.keys_eq, hs.keys_eq,
        allKeys_nil, List.length_append, List.length_map, List.length_singleton, List.length_nil]
      omega
    · exact absurd hbeyond hne
  | @borrowedPrev up b p sp s' sp' sep kL ksR r r' rp rp' cL csR e x es' ep hs hsp hmany =>
    obtain ⟨p', hp', hsmall, -, -⟩ := hlost
    obtain rfl : Tree.leaf p sp = p' := by simpa using hp'
    have hlen := hsp.inuse
    rw [List.length_append, List.length_singleton] at hlen
    change sp.slotsinuse < 3 at hsmall
    omega
  | mergedNext =>
    obtain ⟨_, hp', -⟩ := hlost
    cases hp'
  | borrowedNext =>
    obtain ⟨_, hp', -⟩ := hlost
    cases hp'

omit [LinearOrder K] in
/-- A leaf that is balanced is not empty. -/
theorem Rebalanced.pos {v v' : View K D} (h : Rebalanced P v v' a s c T) :
    c = .top ∨ 0 < s.slotsinuse := by
  cases h with
  | kept hs => exact hs.symm.imp id fun h => Nat.lt_of_lt_of_le Nat.two_pos h
  | mergedPrev hs | borrowedPrev hs | mergedNext hs | borrowedNext hs =>
    exact .inr (by rw [hs.inuse]; exact Nat.one_pos)

/-- `joinsAll` is false only where a key is lost. -/
theorem joinsAll_of_not_loses (hP : P.Four) (h : Rep P t.view (c.fill (.leaf a s)).2)
    (hr : Removal P t t' c a s s' T') (hnot : ¬c.Loses s') : t.joinsAll P a s'.keys = .ok true := by
  have hless := hr.less
  have hpos := hr.even.pos
  obtain ⟨hctx, ha, -⟩ := (holds_fill c (.leaf a s)).mp h.holds
  cases c with
  | top =>
    have hflag : t.view.flag a = true := by
      rw [h.flag a (by simp)]
      simp
    simp [BTree.joinsAll, BTree.leaf_eq ha, hflag]
  | frame up g ksL csL ksR csR =>
    obtain ⟨sg, hg, hing, hpar, hflag, hidx⟩ := h.above
    simp only [Tree.addr_leaf] at hing hpar hflag hidx
    obtain ⟨-, hholdsL, -, -⟩ := hctx
    replace hpos : 0 < s'.slotsinuse := hpos.resolve_left (by simp)
    simp only [BTree.joinsAll, BTree.leaf_eq ha, ok_bind, hflag, Bool.false_or,
      hP.leafnodemax, decide_eq_true_eq, hpar, deref, BTree.inner_eq hg, hidx]
    by_cases hbig : 2 < s.slotsinuse
    · rw [if_pos hbig]
      rfl
    rw [if_neg hbig]
    rcases List.eq_nil_or_concat csL with rfl | ⟨csL, p, rfl⟩
    · rfl
    rw [List.concat_eq_append] at *
    obtain ⟨p, sp⟩ := p
    obtain ⟨hp, -⟩ := hholdsL ⟨p, sp⟩ (by simp)
    have hload : load sg.firstChild csL.length = .ok (some p) :=
      InnerHas.load_before (x := .leaf a s) (y := .leaf p sp) hing
    have hother : sp.slotsinuse + (s.slotsinuse - 1) < 4 → sp.beyond ≠ s'.keys.head? :=
      fun hroom hbeyond => hnot ⟨⟨p, sp⟩, by simp, show sp.slotsinuse < 3 by omega, by omega,
        hbeyond⟩
    simp only [List.length_append, List.length_cons, List.length_nil, Nat.succ_ne_zero, if_false,
      Nat.add_sub_cancel, hload, ok_bind,
      BTree.leaf_eq (show t.view.body p = some (.leaf sp) from hp)]
    exact congrArg Except.ok (decide_eq_true hother)

theorem Kept.toFinset_erase (h : Kept P t T) (k : K) :
    ((allKeys LeafSlots.keys T.2.inorder).erase k).toFinset =
      (allKeys LeafSlots.keys T.2.inorder).toFinset.erase k := by
  have hnd := h.order.keys_sorted.imp ne_of_lt
  ext x
  rw [List.mem_toFinset, List.Nodup.mem_erase_iff hnd, Finset.mem_erase, List.mem_toFinset]

/-- A removal takes the key `k` only exactly where no key is lost to the left sibling. -/
theorem Kept.removal_iff (hP : P.Four) (h : Kept P t (c.fill (.leaf a s))) (hc : c.Paired)
    (hr : Removal P t t' c a s s' T') (hk : k ∈ s.keys) (hkeys : s'.keys = s.keys.erase k) :
    (allKeys LeafSlots.keys T'.2.inorder).toFinset =
      (allKeys LeafSlots.keys (c.fill (.leaf a s)).2.inorder).toFinset.erase k ↔
      t.joinsAll P a s'.keys = .ok true := by
  have hnd := h.order.keys_sorted.imp ne_of_lt
  constructor
  · intro heq
    refine joinsAll_of_not_loses hP h.rep hr fun hlost => ?_
    -- two keys have gone
    have hlen := hr.even.length_lost hc hlost
    have hless : s'.keys.length + 1 = s.keys.length := by
      rw [hkeys, List.length_erase_add_one hk]
    have hnd' := (h.removal hP hc hr).order.keys_sorted.imp ne_of_lt
    have hmem : k ∈ allKeys LeafSlots.keys (c.fill (.leaf a s)).2.inorder := by
      rw [Ctx.inorder_fill_leaf hc]
      simp [hk]
    have hcard := congrArg Finset.card heq
    rw [List.toFinset_card_of_nodup hnd', Finset.card_erase_of_mem (List.mem_toFinset.mpr hmem),
      List.toFinset_card_of_nodup hnd] at hcard
    have hpos := List.length_pos_of_mem hmem
    rw [Ctx.inorder_fill_leaf hc] at hcard hpos
    simp only [allKeys_append, allKeys_inr, List.length_append] at hlen hcard hpos
    omega
  · intro hjoins
    rw [h.removal_keys hP hc hr hk hkeys (not_loses_of_joinsAll hP h.rep hr.less hjoins),
      h.toFinset_erase]

/-- The set that a tree is. -/
theorem Kept.hasKeys_iff (h : Kept P t T) :
    t.HasKeys S ↔ (allKeys LeafSlots.keys T.2.inorder).toFinset = S := by
  have hsort := h.order.keys_sorted
  rw [h.rep.allKeys_eq] at hsort ⊢
  constructor
  · rintro ⟨es, hes, hkeys⟩
    cases (content_eq h.rep).symm.trans hes
    rw [hkeys, Finset.sort_toFinset]
  · rintro rfl
    have hnd := hsort.imp ne_of_lt
    exact ⟨_, content_eq h.rep, ((List.toFinset_sort (· ≤ ·) hnd).mpr (hsort.imp le_of_lt)).symm⟩

theorem Kept.existsKey (hP : P.Four) (h : Kept P t T) (k : K) : t.existsKey P k =
    .ok (decide (k ∈ allKeys LeafSlots.keys T.2.inorder)) := by
  rw [existsKey_iff h.rep h.order (h.fullLast hP), ← h.rep.allKeys_eq]

/-- The slot behind the used ones tells that a key is not there exactly where `erase` finds nothing
to take. -/
theorem Kept.tellsAbsent_iff (hP : P.Four) (h : Kept P t T) (hcan : t.canErase P k = .ok true)
    (hk : k ∉ allKeys LeafSlots.keys T.2.inorder) :
    t.tellsAbsent P k = .ok true ↔ t.eraseTarget P k = .ok none := by
  obtain ⟨c, a, s, rfl, hc, hfind, -⟩ := h.find hP k
  have hleaf := BTree.leaf_eq h.leaf.1
  have hks : k ∉ s.keys := fun hks => hk (by rw [Ctx.inorder_fill_leaf hc]; simp [hks])
  simp only [BTree.canErase, hfind, ok_bind, hleaf] at hcan
  simp only [BTree.tellsAbsent, BTree.eraseTarget, hfind, ok_bind, hleaf, if_neg hks]
  change Except.ok (s.beyond.any (· ≠ k)) = _ ↔ (if s.beyond = some k then _ else _) = _
  by_cases hbeyond : s.beyond = some k
  · rw [if_pos hbeyond, hbeyond]
    exact ⟨fun h => by simp at h, fun h => by cases h⟩
  · rw [if_neg (not_or.mpr ⟨hks, fun h => hbeyond h.2⟩)] at hcan
    obtain ⟨hroom, -⟩ := of_decide_eq_true (Except.ok.inj hcan)
    obtain ⟨y, hy⟩ : ∃ y, s.beyond = some y :=
      ⟨_, List.getElem?_eq_getElem (by rw [h.leaf.2.keyCap]; exact hroom)⟩
    rw [if_neg hbeyond, hy]
    have hne : y ≠ k := fun hyk => hbeyond (hyk ▸ hy)
    exact ⟨fun _ => rfl, fun _ => by simp [hne]⟩

theorem deleteTarget_some {ks : List K} (h : t.deleteTarget P k = .ok (some (a, ks))) :
    ∃ l, t.leaf a = .ok l ∧ k ∈ l.keys ∧ ks = l.keys.erase k := by
  obtain ⟨p, hfind, h⟩ := bind_eq_ok.mp h
  cases p with
  | none => cases h
  | some b =>
    obtain ⟨l, hl, h⟩ := bind_eq_ok.mp h
    split at h
    · next hk =>
      cases h
      exact ⟨l, hl, hk, rfl⟩
    · cases h

/-- `delete_pair` passes by no stored key. -/
theorem Kept.deleteTarget_none (hP : P.Four) (h : Kept P t T)
    (htarget : t.deleteTarget P k = .ok none) : k ∉ allKeys LeafSlots.keys T.2.inorder := by
  obtain ⟨c, a, s, rfl, hc, hfind, hmem⟩ := h.find hP k
  intro hk
  have hks : k ∈ s.keys := hmem hk
  simp only [BTree.deleteTarget, hfind, ok_bind, BTree.leaf_eq h.leaf.1] at htarget
  rw [if_pos hks] at htarget
  cases htarget

end Removal

/-! ## One call -/

section Step

variable [DecidableEq D] {t t' : BTree K D} {T T' : (n : Nat) × MTree K D n} {k : K}
  {c : MCtx K D 0} {a : Addr} {s s' : LeafSlots K D} {S : Finset K} {q : Request K D} {r : Reply D}

omit [DecidableEq D] in
/-- A removal that takes a stored key. -/
theorem Kept.taken_iff (hP : P.Four) (h : Kept P t (c.fill (.leaf a s))) (hc : c.Paired)
    (hr : Removal P t t' c a s s' T') (hk : k ∈ s.keys) (hkeys : s'.keys = s.keys.erase k)
    (htarget : t.target P q = .ok (some (a, s'.keys))) (hS : t.HasKeys S) :
    t'.HasKeys (S.erase k) ↔ t.losesNone P q = .ok true := by
  obtain rfl := h.hasKeys_iff.mp hS
  rw [(h.removal hP hc hr).hasKeys_iff, h.removal_iff hP hc hr hk hkeys]
  simp only [BTree.losesNone, htarget, ok_bind]

theorem Kept.erase_follows (hP : P.Four) (h : Kept P t T) (hS : t.HasKeys S)
    (hcan : t.canErase P k = .ok true) (e : t.perform P (.erase k) = .ok (r, t')) :
    (Request.erase k : Request K D).Returns P S r ∧ t'.HasKeys (S.erase k) ↔
      t.losesNone P (.erase k) = .ok true ∧ t.tellsApart P (.erase k) = .ok true := by
  obtain rfl := h.hasKeys_iff.mp hS
  simp only [Request.Returns, List.mem_toFinset, BTree.tellsApart, h.existsKey hP, ok_bind,
    decide_eq_true_eq]
  rcases h.erase hP hcan with ⟨e₀, htarget, hnot⟩ | ⟨c, a, s, s', i, t₁, T₁, rfl, hc, e₀,
    htarget, hlive, hr⟩
  · rw [BTree.perform, e₀] at e
    cases e
    have hsame := Finset.erase_eq_of_notMem (mt List.mem_toFinset.mp hnot)
    have hnone : t.losesNone P (.erase k) = .ok true := by
      simp [BTree.losesNone, BTree.target, htarget]
    rw [if_neg hnot, if_neg hnot, hsame, h.tellsAbsent_iff hP hcan hnot]
    exact ⟨fun _ => ⟨hnone, htarget⟩, fun _ => ⟨rfl, hS⟩⟩
  · rw [BTree.perform, e₀] at e
    cases e
    by_cases hk : k ∈ allKeys LeafSlots.keys (c.fill (.leaf a s)).2.inorder
    · obtain ⟨hks, hkeys⟩ := hlive hk
      rw [if_pos hk, if_pos hk, h.taken_iff (q := .erase k) hP hc hr hks hkeys htarget hS]
      exact ⟨fun h => ⟨h.2, rfl⟩, fun h => ⟨⟨i, rfl⟩, h.1⟩⟩
    · -- a key that was removed before is taken for a stored one
      rw [if_neg hk, if_neg hk, h.tellsAbsent_iff hP hcan hk, htarget]
      exact ⟨fun h => absurd h.1 (by simp), fun h => by cases h.2⟩

theorem Kept.deletePair_follows (hP : P.Four) (h : Kept P t T) (hS : t.HasKeys S) {d : D}
    (hcan : t.canDelete P k = .ok true) (e : t.perform P (.deletePair k d) = .ok (r, t')) :
    (Request.deletePair k d).Returns P S r ∧ t'.HasKeys (S.erase k) ↔
      t.losesNone P (.deletePair k d) = .ok true ∧
        t.tellsApart P (.deletePair k d) = .ok true := by
  obtain rfl := h.hasKeys_iff.mp hS
  simp only [Request.Returns, List.mem_toFinset, BTree.tellsApart, and_true]
  rcases h.deletePair hP hcan d with ⟨e₀, htarget⟩ | ⟨c, a, s, s', i, t₁, T₁, rfl, hc, e₀,
    htarget, hr⟩
  · rw [BTree.perform, e₀] at e
    cases e
    have hnot := h.deleteTarget_none hP htarget
    have hsame := Finset.erase_eq_of_notMem (mt List.mem_toFinset.mp hnot)
    have hnone : t.losesNone P (.deletePair k d) = .ok true := by
      simp [BTree.losesNone, BTree.target, htarget]
    rw [if_neg hnot, hsame]
    exact ⟨fun _ => hnone, fun _ => ⟨rfl, hS⟩⟩
  · rw [BTree.perform, e₀] at e
    cases e
    obtain ⟨l, hl, hks, hkeys⟩ := deleteTarget_some htarget
    cases (BTree.leaf_eq h.leaf.1).symm.trans hl
    have hk : k ∈ allKeys LeafSlots.keys (c.fill (.leaf a s)).2.inorder := by
      rw [Ctx.inorder_fill_leaf hc]
      simp [show k ∈ s.keys from hks]
    rw [if_pos hk, h.taken_iff (q := .deletePair k d) hP hc hr hks hkeys htarget hS]
    exact ⟨And.right, fun h => ⟨⟨i, rfl⟩, h⟩⟩

/-- A call that adds and takes nothing. -/
theorem Kept.lookup (hP : P.Four) (h : Kept P t T) (hS : t.HasKeys S)
    (hq : (∃ k, q = .existsKey k) ∨ ∃ k, q = .get k) :
    ∃ r, t.perform P q = .ok (r, t) ∧ q.Returns P S r ∧ q.effect S = S := by
  obtain rfl := h.hasKeys_iff.mp hS
  rcases hq with ⟨k, rfl⟩ | ⟨k, rfl⟩
  · refine ⟨.found (decide (k ∈ allKeys LeafSlots.keys T.2.inorder)), ?_, ?_, rfl⟩
    · rw [BTree.perform, h.existsKey hP]
      rfl
    · simp [Request.Returns]
  · have hfull := h.fullLast hP
    simp only [Request.Returns, List.mem_toFinset, h.rep.allKeys_eq]
    by_cases hk : k ∈ (pairs T.2.inorder).map Prod.fst
    · obtain ⟨x, hx, rfl⟩ := List.mem_map.mp hk
      refine ⟨.data x.2 true, ?_, ?_, rfl⟩
      · rw [BTree.perform, get_mem h.rep h.order hfull hx]
        rfl
      · rw [if_pos hk]
        exact ⟨x.2, rfl⟩
    · refine ⟨.data P.emptyData false, ?_, ?_, rfl⟩
      · rw [BTree.perform, get_not_mem h.rep h.order hfull hk]
        rfl
      · rw [if_neg hk]

theorem Kept.lookup_follows (hP : P.Four) (h : Kept P t T) (hS : t.HasKeys S)
    (hq : (∃ k, q = .existsKey k) ∨ ∃ k, q = .get k) (e : t.perform P q = .ok (r, t')) :
    q.Returns P S r ∧ t'.HasKeys (q.effect S) := by
  obtain ⟨r₀, e₀, hr, heffect⟩ := h.lookup hP hS hq
  cases e₀.symm.trans e
  exact ⟨hr, by rwa [heffect]⟩

theorem Kept.insert_follows (hP : P.Four) (h : Kept P t T) (hS : t.HasKeys S) {d : D}
    (hlt : ∀ x ∈ allKeys LeafSlots.keys T.2.inorder, x < k) (hseps : ∀ z ∈ seps T.2.inorder, z < k)
    (e : t.perform P (.insert k d) = .ok (r, t')) :
    (Request.insert k d).Returns P S r ∧ t'.HasKeys (S ∪ {k}) := by
  obtain rfl := h.hasKeys_iff.mp hS
  obtain ⟨t₁, T₁, e₀, hx⟩ := h.push hP hlt hseps d
  rw [BTree.perform, e₀] at e
  cases e
  have hnot : k ∉ allKeys LeafSlots.keys T.2.inorder := fun hk => lt_irrefl k (hlt k hk)
  refine ⟨by simp [Request.Returns, hnot], hx.kept.hasKeys_iff.mpr ?_⟩
  rw [hx.keys, List.toFinset_append]
  rfl

omit [DecidableEq D] in
/-- A call that removes nothing cannot go wrong. -/
theorem harmless (htarget : t.target P q = .ok none) (htells : t.tellsApart P q = .ok true) :
    t.losesNone P q = .ok true ∧ t.tellsApart P q = .ok true :=
  ⟨by rw [BTree.losesNone, htarget]; rfl, htells⟩

/-- A tree without nodes is the empty set. -/
theorem empty_follows (hP : P.Four) (hroot : t.root = none) (hcount : t.totalkeycount = 0)
    (hS : t.HasKeys S) (e : t.perform P q = .ok (r, t')) :
    (q.Returns P S r ∧ t'.HasKeys (q.effect S)) ∧ t.losesNone P q = .ok true ∧
      t.tellsApart P q = .ok true := by
  have hfind (k : K) : t.find P k = .ok none := BTree.find_none hroot
  obtain rfl : S = ∅ := by
    obtain ⟨es, hes, hkeys⟩ := hS
    rw [BTree.content, hroot] at hes
    cases hes
    rw [← Finset.sort_toFinset S (· ≤ ·), ← hkeys]
    rfl
  cases q with
  | insert k d =>
    obtain ⟨t₁, T₁, e₀, hx⟩ := kept_first (P := P) (by rw [hP.leafnodemax]; decide) hroot hcount k d
    rw [BTree.perform, e₀] at e
    cases e
    refine ⟨⟨by simp [Request.Returns], hx.kept.hasKeys_iff.mpr ?_⟩, harmless rfl rfl⟩
    rw [hx.keys]
    rfl
  | existsKey k =>
    simp only [BTree.perform, BTree.existsKey, hfind, ok_bind] at e
    cases e
    exact ⟨⟨by simp [Request.Returns], hS⟩, harmless rfl rfl⟩
  | get k =>
    simp only [BTree.perform, BTree.get, hfind, ok_bind] at e
    cases e
    exact ⟨⟨by simp [Request.Returns], hS⟩, harmless rfl rfl⟩
  | erase k =>
    simp only [BTree.perform, BTree.erase, hfind, ok_bind] at e
    cases e
    refine ⟨⟨by simp [Request.Returns], hS⟩, harmless ?_ ?_⟩
    · simp [BTree.target, BTree.eraseTarget, hfind]
    · simp [BTree.tellsApart, BTree.existsKey, BTree.tellsAbsent, hfind]
  | deletePair k d =>
    simp only [BTree.perform, BTree.deletePair, hfind, ok_bind] at e
    cases e
    refine ⟨⟨by simp [Request.Returns], hS⟩, harmless ?_ rfl⟩
    simp [BTree.target, BTree.deleteTarget, hfind]

/-- One call follows the set exactly if it loses no second key and tells an absent key. -/
theorem Tended.follows_iff {g : List K} (hP : P.Four) (h : Tended P (fun _ _ _ => True) t g)
    (hS : t.HasKeys S)
    (hpre : (∀ k ∈ q.newKey, ∀ x ∈ g, x < k) ∧ t.canPerform P q = .ok true) :
    ∃ r t', t.perform P q = .ok (r, t') ∧
      Tended P (fun _ _ _ => True) t' (g ++ q.newKey.toList) ∧
      (q.Returns P S r ∧ t'.HasKeys (q.effect S) ↔
        t.losesNone P q = .ok true ∧ t.tellsApart P q = .ok true) := by
  obtain ⟨r, t', e, -, h'⟩ := h.perform hP
    (fun {t q} (hcan : t.canPerform P q = .ok true) => hcan) (fun _ => trivial)
    (fun _ _ _ _ => trivial) hpre
  refine ⟨r, t', e, h', ?_⟩
  obtain ⟨hasc, hcan⟩ := hpre
  cases h with
  | empty hroot hcount =>
    obtain ⟨hl, hr⟩ := empty_follows hP hroot hcount hS e
    exact ⟨fun _ => hr, fun _ => hl⟩
  | kept hkept hkeys hseps =>
    cases q with
    | insert k d =>
      have := hkept.insert_follows hP hS (fun x hx => hasc k rfl x (hkeys x hx))
        (fun z hz => hasc k rfl z (hseps z hz)) e
      exact ⟨fun _ => harmless rfl rfl, fun _ => this⟩
    | existsKey k =>
      have := hkept.lookup_follows hP hS (.inl ⟨k, rfl⟩) e
      exact ⟨fun _ => harmless rfl rfl, fun _ => this⟩
    | get k =>
      have := hkept.lookup_follows hP hS (.inr ⟨k, rfl⟩) e
      exact ⟨fun _ => harmless rfl rfl, fun _ => this⟩
    | erase k => exact hkept.erase_follows hP hS hcan e
    | deletePair k d => exact hkept.deletePair_follows hP hS hcan e

end Step

/-! ## Runs -/

variable [DecidableEq D]

/-- In runs of inserts with ascending keys, lookups and removals that go through, the tree is the
set of the keys after every call, and every answer is the set's, if and only if no removal loses a
second key and no `erase` finds a key that is not stored. -/
theorem keySet_followed_iff (hinner : P.nodeslots = 4) (hleaf : P.leafslots = 4)
    {qs : List (Request K D)} (hasc : AscendingKeys qs)
    (h : EachCall P (fun t q => t.canPerform P q = .ok true) qs) :
    Tracks (BTree.perform P) Request.effect (Request.Returns P) BTree.HasKeys ∅ BTree.init qs ↔
      EachCall P (fun t q => t.losesNone P q = .ok true ∧ t.tellsApart P q = .ok true) qs := by
  have hP : P.Four := ⟨hinner, hleaf⟩
  have hmeets := Meets.ascending (f := Request.newKey) (g := []) hasc h
  exact tracks_iff (R := fun g t => Tended P (fun _ _ _ => True) t g)
    (fun h hS hpre => h.follows_iff hP hS hpre) (.empty rfl rfl) ⟨[], rfl, by simp⟩ hmeets

/-- Removals of stored and of other keys between inserts. -/
def interleaved : List (Request Nat Nat) :=
  [.insert 1 10, .insert 2 20, .insert 3 30, .insert 4 40, .insert 5 50, .erase 2, .insert 6 60,
    .existsKey 2, .insert 7 70, .deletePair 5 0, .erase 3, .get 4, .insert 8 80]

theorem keySet_followed_interleaved :
    Tracks (BTree.perform (Template.plain 4)) Request.effect (Request.Returns (Template.plain 4))
      BTree.HasKeys ∅ BTree.init interleaved :=
  (keySet_followed_iff rfl rfl (by unfold AscendingKeys; decide) (show EachCall _ _ _ from by
    unfold EachCall; decide +kernel)).mpr (show EachCall _ _ _ from by
      unfold EachCall; decide +kernel)

end NwtBTree
