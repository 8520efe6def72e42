import Mathlib.Data.List.TakeWhile
import NwtBTree.Refine.Kept

/-!
# `erase` and `delete_pair`

Both look for the key in the one leaf that `find` ends at. `erase` reads the slot
behind the live keys when it does not find the key, `delete_pair` the slot in
front of the first one when all keys are smaller.
-/

namespace NwtBTree

variable {K D : Type} {P : Template K D} [LinearOrder K] {t : BTree K D} {k : K} {a : Addr}
  {s s' : LeafSlots K D}

/-- `erase` up to `balancetree`: the key goes, the payloads stay. -/
def BTree.dropKey (t : BTree K D) (a : Addr) (k : K) : Except Fault (BTree K D) := do
  let l ← t.leaf a
  let loc ← findKeyEqual l.toLeafSlots k
  let keys ← shiftDown l.keySlots loc (l.slotsinuse - 1 - loc)
  let t ← t.setLeaf a { l.toLeafSlots with
    keySlots := keys, slotsinuse := dec16 l.slotsinuse }
  return t.downkeycount

section Balance

variable [DecidableEq D]

/-- `erase` where the slot that is looked at has the key. -/
theorem erase_at {keys : List K} {i : Nat} (hfind : t.find P k = .ok (some a))
    (ha : t.view.body a = some (.leaf s)) (hloc : findKeyEqual s k = .ok i)
    (hload : load s.keySlots i = .ok k)
    (hshift : shiftDown s.keySlots i (s.slotsinuse - 1 - i) = .ok keys) :
    ∃ t₁ : BTree K D, t₁.view = { t.view.setBody a (.leaf { s with
        keySlots := keys, slotsinuse := dec16 s.slotsinuse }) with
          count := (t.totalkeycount + 4294967295) % 4294967296 } ∧
      t.dropKey a k = .ok t₁ ∧ t.erase P k = if t.view.flag a then .ok ((i : Int), t₁) else do
        let t' ← t₁.balanceTree P a
        return ((i : Int), t') := by
  obtain ⟨t₁, e₁, v₁⟩ := BTree.setLeaf_view ha
    { s with keySlots := keys, slotsinuse := dec16 s.slotsinuse }
  have hcount : t₁.totalkeycount = t.totalkeycount := by
    rw [← BTree.count_view, v₁]
    rfl
  refine ⟨t₁.downkeycount, ?_, ?_, ?_⟩
  · rw [BTree.downkeycount, view_count, v₁, hcount]
  · simp only [BTree.dropKey, BTree.leaf_eq ha, ok_bind, hloc, hshift, e₁]
    rfl
  · have hrefl : keyequal k k = true := (keyequal_iff k k).mpr rfl
    simp only [BTree.erase, hfind, ok_bind, BTree.leaf_eq ha, hloc, hload, hrefl, if_true,
      hshift, e₁]
    rfl

omit [DecidableEq D] in
theorem not_mem_of_lt {as : List (K × D)} {e : K × D} (hlt : ∀ x ∈ as, x.1 < e.1) :
    e.1 ∉ as.map Prod.fst := by
  rintro hm
  obtain ⟨x, hx, hxe⟩ := List.mem_map.mp hm
  exact absurd hxe (ne_of_lt (hlt x hx))

/-- `erase` of a key in a slot in use. -/
theorem erase_key {as bs : List (K × D)} {e : K × D} {r : List K}
    (hfind : t.find P e.1 = .ok (some a))
    (ha : t.view.body a = some (.leaf s)) (hs : LeafIs P s (as ++ e :: bs) r)
    (hnot : e.1 ∉ as.map Prod.fst) :
    ∃ (t₁ : BTree K D) (s' : LeafSlots K D) (es : List (K × D)) (y : K), LeafIs P s' es (y :: r) ∧
      es.map Prod.fst = (as ++ bs).map Prod.fst ∧
      es.map Prod.snd = ((as ++ e :: bs).map Prod.snd).dropLast ∧ y ∈ (e :: bs).map Prod.fst ∧
      t₁.view = { t.view.setBody a (.leaf s') with
        count := (t.totalkeycount + 4294967295) % 4294967296 } ∧
      t.dropKey a e.1 = .ok t₁ ∧
      t.erase P e.1 = if t.view.flag a then .ok ((as.length : Int), t₁) else do
        let t' ← t₁.balanceTree P a
        return ((as.length : Int), t') := by
  obtain ⟨keys, es, y, hshift, hs', hfst, hsnd, hy⟩ := hs.shiftKeys
  have hload : load s.keySlots as.length = .ok e.1 := by
    have := hs.load_key (i := as.length) (by simp)
    simpa using this
  obtain ⟨t₁, v₁, e₁⟩ := erase_at hfind ha (findKeyEqual_live hs rfl hnot) hload hshift
  exact ⟨t₁, _, es, y, hs', hfst, hsnd, hy, v₁, e₁⟩

/-- `erase` where the slot that is looked at has another key. -/
theorem erase_other {i : Nat} {y : K} (hfind : t.find P k = .ok (some a))
    (ha : t.view.body a = some (.leaf s)) (hloc : findKeyEqual s k = .ok i)
    (hload : load s.keySlots i = .ok y) (hy : y ≠ k) : t.erase P k = .ok (-1, t) := by
  have hne : keyequal k y = false := by
    rw [Bool.eq_false_iff, Ne, keyequal_iff]
    exact hy.symm
  simp only [BTree.erase, hfind, ok_bind, BTree.leaf_eq ha, hloc, hload, hne, Bool.false_eq_true,
    if_false]
  rfl

end Balance

section Kept

variable {c : MCtx K D 0}

omit [LinearOrder K] in
/-- The flag of a leaf tells whether it is the root. -/
theorem Rep.flag_leaf {v : View K D} (h : Rep P v (c.fill (.leaf a s)).2) :
    v.flag a = true ↔ c = .top := by
  have hflag := h.flag a ((mem_addrs_fill c _).mpr (.inr (by simp)))
  rw [hflag, decide_eq_true_iff, c.addr_fill]
  refine ⟨fun heq => ?_, by rintro rfl; rfl⟩
  cases c with
  | top => rfl
  | frame up b ksL csL ksR csR =>
    have hmem := Ctx.rootAddr_mem (c := .frame up b ksL csL ksR csR) (x := a) rfl
    have hdisj := (List.nodup_append'.mp h.nodup_fill).2.2
    rw [Tree.addr_leaf] at heq
    rw [← heq] at hmem
    exact absurd (by simp) (hdisj hmem)

variable [DecidableEq D]

/-- `erase` does not balance the root. -/
theorem Stocked.balance_below (hP : P.Four) (h : Stocked P t (c.fill (.leaf a s))) (hc : c.Paired)
    (hok : LeafOK P s') (hsub : s'.keys.Sublist s.keys) (hless : s'.slotsinuse + 1 = s.slotsinuse)
    (hguide : s'.slotsinuse = 1 → c.Guides P s') (hrec : s.slotsinuse = 2 → c.Recovers P)
    {t₁ : BTree K D} (hview : t₁.view = { t.view.setBody a (.leaf s') with
      count := (t.totalkeycount + 4294967295) % 4294967296 }) (i : Int) :
    ∃ t' T', ((if t.view.flag a then .ok (i, t₁) else do
        let t' ← t₁.balanceTree P a
        return (i, t')) : Except Fault (Int × BTree K D)) = .ok (i, t') ∧
      Removal P t t' c a s s' T' := by
  by_cases htop : c = .top
  · subst htop
    have hrep := h.lessened hc hok (n := (t.totalkeycount + 4294967295) % 4294967296)
    exact ⟨t₁, Ctx.top.fill (.leaf a s'), if_pos (h.rep.flag_leaf.mpr rfl), hok, hsub, hless,
      .kept (.inr rfl) hview hrep⟩
  · obtain ⟨t', T', e, hr⟩ := h.balance hP hc hok hsub hless hguide hrec hview
    refine ⟨t', T', ?_, hr⟩
    rw [if_neg (mt h.rep.flag_leaf.mp htop), e]
    rfl

omit [DecidableEq D] in
theorem LeafOK.length_erase (h : LeafOK P s) (hk : k ∈ s.keys) {es : List (K × D)}
    (hes : es.map Prod.fst = s.keys.erase k) : es.length = s.slotsinuse - 1 := by
  rw [← List.length_map, hes, List.length_erase_of_mem hk, h.length_keys]

omit [DecidableEq D] in
/-- The first pair with a key. -/
theorem LeafOK.split_first (h : LeafOK P s) (hk : k ∈ s.keys) :
    ∃ as e bs r, e.1 = k ∧ LeafIs P s (as ++ e :: bs) r ∧ e.1 ∉ as.map Prod.fst ∧
      ((as ++ bs).map Prod.fst) = s.keys.erase k := by
  have hs := h.leafIs
  have hkeys := hs.keys_eq
  rw [hkeys] at hk
  obtain ⟨ks, ls, heq, hnot⟩ := List.eq_append_cons_of_mem hk
  obtain ⟨as, es, hes, rfl, hls⟩ := List.map_eq_append_iff.mp heq
  obtain ⟨e, bs, rfl, rfl, rfl⟩ := List.map_eq_cons_iff.mp hls
  rw [hes] at hs hkeys
  refine ⟨as, e, bs, _, rfl, hs, hnot, ?_⟩
  rw [hkeys]
  simp only [List.map_append, List.map_cons]
  rw [List.erase_append_right _ hnot, List.erase_cons_head]

omit [DecidableEq D] in
/-- A key in a leaf, which is there once. -/
theorem LeafOK.split_entries (h : LeafOK P s) (hsort : s.keys.Pairwise (· < ·)) (hk : k ∈ s.keys) :
    ∃ as e bs r, e.1 = k ∧ LeafIs P s (as ++ e :: bs) r ∧ (∀ x ∈ as, x.1 < e.1) ∧
      ((as ++ bs).map Prod.fst) = s.keys.erase k := by
  obtain ⟨as, e, bs, r, he, hs, -, herase⟩ := h.split_first hk
  refine ⟨as, e, bs, r, he, hs, fun x hx => ?_, herase⟩
  rw [hs.keys_eq, List.map_append, List.map_cons] at hsort
  exact (List.pairwise_append.mp hsort).2.2 x.1 (List.mem_map_of_mem hx) e.1 (by simp)

omit [DecidableEq D] in
theorem Kept.keys_sorted (h : Kept P t (c.fill (.leaf a s))) (hc : c.Paired) :
    s.keys.Pairwise (· < ·) := by
  have ho := h.order
  rw [Ctx.inorder_fill_leaf hc] at ho
  exact (searchOrder_leaf.mp ho).2.1

/-- The pairs of the leaf after `erase`, and the tree after it has been balanced. -/
theorem Stocked.erase_pairs (hP : P.Four) (h : Stocked P t (c.fill (.leaf a s))) (hc : c.Paired)
    {as bs : List (K × D)} {e : K × D} {r : List K} (hfind : t.find P e.1 = .ok (some a))
    (hs : LeafIs P s (as ++ e :: bs) r) (hnot : e.1 ∉ as.map Prod.fst)
    (hguide : ∀ {s' : LeafSlots K D}, LeafOK P s' → s'.keys = (as ++ bs).map Prod.fst →
      (∀ y ∈ s'.beyond, y ∈ (e :: bs).map Prod.fst) → s'.slotsinuse = 1 → c.Guides P s')
    (hrec : s.slotsinuse = 2 → c.Recovers P) :
    ∃ (t' : BTree K D) (s' : LeafSlots K D) (es : List (K × D)) (y : K)
      (T' : (m : Nat) × MTree K D m),
      t.erase P e.1 = .ok ((as.length : Int), t') ∧ LeafIs P s' es (y :: r) ∧
        es.map Prod.fst = (as ++ bs).map Prod.fst ∧
        es.map Prod.snd = ((as ++ e :: bs).map Prod.snd).dropLast ∧ Removal P t t' c a s s' T' := by
  obtain ⟨t₁, s', es, y, hs', hfst, hsnd, hy, v₁, -, e₁⟩ := erase_key hfind h.leaf.1 hs hnot
  obtain ⟨t', T', e₂, hr⟩ := h.balance_below hP hc hs'.ok
    (by
      rw [hs'.keys_eq, hs.keys_eq, hfst]
      exact (List.Sublist.append_left (List.sublist_cons_self ..) _).map _)
    (by
      have hlen := congrArg List.length hfst
      rw [hs'.inuse, hs.inuse]
      simp at hlen ⊢
      omega)
    (hguide hs'.ok (hs'.keys_eq.trans hfst) fun z hz => by
      obtain rfl : y = z := by simpa [hs'.beyond_eq] using hz
      exact hy)
    hrec v₁ as.length
  exact ⟨t', s', es, y, T', e₁.trans e₂, hs', hfst, hsnd, hr⟩

theorem Kept.erase_pairs (hP : P.Four) (h : Kept P t (c.fill (.leaf a s))) (hc : c.Paired)
    {as bs : List (K × D)} {e : K × D} {r : List K} (hfind : t.find P e.1 = .ok (some a))
    (hs : LeafIs P s (as ++ e :: bs) r) (hlt : ∀ x ∈ as, x.1 < e.1)
    (hrec : s.slotsinuse = 2 → c.Recovers P) :
    ∃ (t' : BTree K D) (s' : LeafSlots K D) (es : List (K × D)) (y : K)
      (T' : (m : Nat) × MTree K D m),
      t.erase P e.1 = .ok ((as.length : Int), t') ∧ LeafIs P s' es (y :: r) ∧
        es.map Prod.fst = (as ++ bs).map Prod.fst ∧
        es.map Prod.snd = ((as ++ e :: bs).map Prod.snd).dropLast ∧ Removal P t t' c a s s' T' := by
  refine h.stocked.erase_pairs hP hc hfind hs (not_mem_of_lt hlt) (fun _ hkeys hbeyond _ => ?_) hrec
  refine h.guides hc ?_ fun y hy => ?_
  · rw [hkeys, hs.keys_eq]
    exact (List.Sublist.append_left (List.sublist_cons_self ..) _).map _
  · rw [hs.keys_eq, List.map_append]
    exact List.mem_append_right _ (hbeyond y hy)

theorem Kept.erase_live (hP : P.Four) (h : Kept P t (c.fill (.leaf a s))) (hc : c.Paired)
    (hfind : t.find P k = .ok (some a)) (hk : k ∈ s.keys) (hrec : s.slotsinuse = 2 → c.Recovers P) :
    ∃ (i : Nat) (t' : BTree K D) (s' : LeafSlots K D) (T' : (m : Nat) × MTree K D m),
      t.erase P k = .ok ((i : Int), t') ∧ s'.keys = s.keys.erase k ∧
        Removal P t t' c a s s' T' := by
  obtain ⟨as, e, bs, r, rfl, hs, hlt, herase⟩ := h.leaf.2.split_entries (h.keys_sorted hc) hk
  obtain ⟨t', s', es, y, T', e₁, hs', hfst, -, hr⟩ := h.erase_pairs hP hc hfind hs hlt hrec
  exact ⟨as.length, t', s', T', e₁, by rw [hs'.keys_eq, hfst, herase], hr⟩

/-- The key is in the first unused slot: the last key of the leaf goes. -/
theorem Kept.erase_stale (hP : P.Four) (h : Kept P t (c.fill (.leaf a s))) (hc : c.Paired)
    (hfind : t.find P k = .ok (some a)) (hk : k ∉ s.keys) (hbeyond : s.beyond = some k)
    (hpos : 0 < s.slotsinuse) (hrec : s.slotsinuse = 2 → c.Recovers P) :
    ∃ (i : Nat) (t' : BTree K D) (s' : LeafSlots K D) (T' : (m : Nat) × MTree K D m),
      t.erase P k = .ok ((i : Int), t') ∧ s'.keys = s.keys.dropLast ∧
        Removal P t t' c a s s' T' := by
  have hs := h.leaf.2.leafIs
  have hin : s.slotsinuse = s.entries.length := hs.inuse
  obtain ⟨es, e, hes⟩ : ∃ es e, s.entries = es ++ [e] := by
    rcases List.eq_nil_or_concat s.entries with hnil | ⟨es, e, hx⟩
    · simp [hnil] at hin
      omega
    · exact ⟨es, e, by rw [hx, List.concat_eq_append]⟩
  rw [hs.keys_eq] at hk
  have hload : load s.keySlots s.entries.length = .ok k := by
    rw [← hin]
    exact load_of_getElem? hbeyond
  have hshift : shiftDown s.keySlots s.entries.length (s.slotsinuse - 1 - s.entries.length) =
      .ok s.keySlots := by
    rw [hin, show s.entries.length - 1 - s.entries.length = 0 by omega]
    rfl
  obtain ⟨t₁, v₁, -, e₁⟩ := erase_at hfind h.leaf.1 (findKeyEqual_absent hs hk) hload hshift
  have hkeys := hs.keys_eq
  rw [hes] at hs hkeys
  have hs' := hs.dropLast
  have hkeys' : ({ s with slotsinuse := dec16 s.slotsinuse } : LeafSlots K D).keys =
      s.keys.dropLast := by
    rw [hs'.keys_eq, hkeys]
    simp
  obtain ⟨t', T', e₂, hr⟩ :=
    h.stocked.balance_below hP hc hs'.ok (by rw [hkeys']; exact List.dropLast_sublist _)
    (by
      rw [hs'.inuse, hs.inuse]
      simp)
    (fun _ => h.guides hc (by rw [hkeys']; exact List.dropLast_sublist _) fun z hz => by
      obtain rfl : e.1 = z := by simpa [hs'.beyond_eq] using hz
      rw [hkeys]
      simp)
    hrec v₁ s.entries.length
  exact ⟨_, t', _, T', e₁.trans e₂, hkeys', hr⟩

theorem Stocked.erase_miss (h : Stocked P t (c.fill (.leaf a s)))
    (hfind : t.find P k = .ok (some a)) (hk : k ∉ s.keys) (hroom : s.slotsinuse < P.leafnodemax)
    (hbeyond : s.beyond ≠ some k) :
    t.erase P k = .ok (-1, t) := by
  have hs := h.leaf.2.leafIs
  rw [hs.keys_eq] at hk
  obtain ⟨y, hy⟩ : ∃ y, s.keySlots[s.slotsinuse]? = some y :=
    Option.ne_none_iff_exists'.mp fun hnone => by
      rw [List.getElem?_eq_none_iff, hs.keyCap] at hnone
      omega
  refine erase_other hfind h.leaf.1 (findKeyEqual_absent hs hk) (y := y) ?_ ?_
  · rw [← hs.inuse]
    exact load_of_getElem? hy
  · rintro rfl
    exact hbeyond hy

/-- The leaf after the pair has gone, and the tree after it has been balanced. -/
theorem Kept.deletePair_key (hP : P.Four) (h : Kept P t (c.fill (.leaf a s))) (hc : c.Paired)
    {as bs : List (K × D)} {e : K × D} {r : List K} (hfind : t.find P e.1 = .ok (some a))
    (hs : LeafIs P s (as ++ e :: bs) r) (hlt : ∀ x ∈ as, x.1 < e.1)
    (hrec : s.slotsinuse = 2 → c.Recovers P) (d : D) :
    ∃ (t₁ t' : BTree K D) (s' : LeafSlots K D) (y : K) (T' : (m : Nat) × MTree K D m),
      t.deletePair P e.1 d = .ok ((as.length : Int), t') ∧ LeafIs P s' (as ++ bs) (y :: r) ∧
        y ∈ (e :: bs).map Prod.fst ∧
        t₁.view = { t.view.setBody a (.leaf s') with
          count := (t.totalkeycount + 4294967295) % 4294967296 } ∧
        t₁.balanceTree P a = .ok t' ∧ Removal P t t' c a s s' T' := by
  obtain ⟨t₁, s', y, e₁, hs', hy, v₁⟩ := deleteLeafPair_spec h.leaf.1 hs hlt d
  have hless : s'.slotsinuse + 1 = s.slotsinuse := by
    rw [hs'.inuse, hs.inuse]
    simp
    omega
  obtain ⟨t', T', e₂, hr⟩ := h.balance hP hc hs'.ok
    (by
      rw [hs'.keys_eq, hs.keys_eq]
      exact (List.Sublist.append_left (List.sublist_cons_self ..) _).map _)
    hless
    (fun z hz => by
      obtain rfl : y = z := by simpa [hs'.beyond_eq] using hz
      rw [hs.keys_eq, List.map_append]
      exact List.mem_append_right _ hy)
    hrec v₁
  refine ⟨t₁, t', s', y, T', ?_, hs', hy, v₁, e₂, hr⟩
  simp only [BTree.deletePair, hfind, ok_bind, e₁, if_neg (Int.not_lt.mpr (Int.natCast_nonneg _)),
    e₂]
  rfl

theorem Kept.deletePair_live (hP : P.Four) (h : Kept P t (c.fill (.leaf a s))) (hc : c.Paired)
    (hfind : t.find P k = .ok (some a)) (hk : k ∈ s.keys) (hrec : s.slotsinuse = 2 → c.Recovers P)
    (d : D) :
    ∃ (i : Nat) (t' : BTree K D) (s' : LeafSlots K D) (T' : (m : Nat) × MTree K D m),
      t.deletePair P k d = .ok ((i : Int), t') ∧ s'.keys = s.keys.erase k ∧
        Removal P t t' c a s s' T' := by
  obtain ⟨as, e, bs, r, rfl, hs, hlt, herase⟩ := h.leaf.2.split_entries (h.keys_sorted hc) hk
  obtain ⟨t₁, t', s', y, T', e₁, hs', -, -, -, hr⟩ := h.deletePair_key hP hc hfind hs hlt hrec d
  exact ⟨as.length, t', s', T', e₁, by rw [hs'.keys_eq, herase], hr⟩

/-- Nothing is deleted from an empty leaf, or where the lower bound is another key. -/
theorem Kept.deletePair_miss (h : Kept P t (c.fill (.leaf a s))) (hc : c.Paired)
    (hfind : t.find P k = .ok (some a)) (hk : k ∉ s.keys)
    (habove : s.keys = [] ∨ ∃ x ∈ s.keys, k ≤ x) (d : D) : t.deletePair P k d = .ok (-1, t) := by
  have hs := h.leaf.2.leafIs
  have hmiss : t.deleteLeafPair a k d = .ok (-1, t) := by
    rcases habove with hnil | ⟨x, hx, hkx⟩
    · rw [hs.keys_eq, List.map_eq_nil_iff] at hnil
      rw [hnil] at hs
      exact deleteLeafPair_empty h.leaf.1 hs k d
    · -- the first key that is not smaller
      have ho := h.order
      rw [Ctx.inorder_fill_leaf hc] at ho
      have hsort := (searchOrder_leaf.mp ho).2.1
      change s.keys.Pairwise (· < ·) at hsort
      rw [hs.keys_eq] at hx hsort hk
      obtain ⟨e, he, rfl⟩ := List.mem_map.mp hx
      have hsplit := List.takeWhile_append_dropWhile (p := fun e : K × D => decide (e.1 < k))
        (l := s.entries)
      obtain ⟨f, bs, hdrop⟩ : ∃ f bs, s.entries.dropWhile (fun e => decide (e.1 < k)) =
        f :: bs := by
        refine List.exists_cons_of_ne_nil fun hnil => ?_
        have := List.dropWhile_eq_nil_iff.mp hnil e he
        exact absurd (of_decide_eq_true this) (not_lt.mpr hkx)
      have hf : ¬f.1 < k := by
        have := List.head?_dropWhile_not (fun e : K × D => decide (e.1 < k)) s.entries
        rw [hdrop] at this
        simpa using this
      rw [hdrop] at hsplit
      rw [← hsplit] at hs hk
      refine deleteLeafPair_other h.leaf.1 hs (fun x hx => ?_) (lt_of_le_of_ne (not_lt.mp hf) ?_) d
      · have := List.mem_takeWhile_imp (p := fun e : K × D => decide (e.1 < k)) hx
        exact of_decide_eq_true this
      · rintro rfl
        exact hk (by simp)
  simp only [BTree.deletePair, hfind, ok_bind, hmiss]
  rfl

end Kept

end NwtBTree
