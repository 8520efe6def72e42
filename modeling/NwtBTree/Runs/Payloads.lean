import NwtBTree.Refine.Erase
import NwtBTree.Runs.Append

/-!
# Payloads under `erase`

`erase` moves the keys behind the erased one down by a slot, and leaves the payloads
where they are.
-/

namespace NwtBTree

section Lists

variable {K D : Type}

theorem dropLast_eq_iff {x : D} {ys : List D} : (x :: ys).dropLast = ys ↔ ∀ y ∈ ys, y = x := by
  induction ys generalizing x with
  | nil => simp
  | cons y ys ih =>
    rw [List.dropLast_cons_of_ne_nil (by simp), List.cons.injEq, ih, List.forall_mem_cons]
    constructor
    · rintro ⟨rfl, h⟩
      exact ⟨rfl, h⟩
    · rintro ⟨rfl, h⟩
      exact ⟨rfl, h⟩

/-- Keys moved down with the payloads left where they were. -/
theorem slid_eq_iff {as bs es : List (K × D)} {e : K × D}
    (hfst : es.map Prod.fst = (as ++ bs).map Prod.fst)
    (hsnd : es.map Prod.snd = ((as ++ e :: bs).map Prod.snd).dropLast) :
    es = as ++ bs ↔ ∀ x ∈ bs, x.2 = e.2 := by
  have hcut : ((as ++ e :: bs).map Prod.snd).dropLast =
      as.map Prod.snd ++ (e.2 :: bs.map Prod.snd).dropLast := by
    rw [List.map_append, List.map_cons, List.dropLast_append_of_ne_nil (by simp)]
  have hall : (∀ x ∈ bs, x.2 = e.2) ↔ (e.2 :: bs.map Prod.snd).dropLast = bs.map Prod.snd := by
    rw [dropLast_eq_iff, List.forall_mem_map]
  rw [hall]
  constructor
  · rintro rfl
    rw [hcut, List.map_append] at hsnd
    exact (List.append_cancel_left hsnd).symm
  · intro h
    rw [hcut, h, ← List.map_append] at hsnd
    exact (List.zip_of_prod hfst hsnd).trans (List.zip_of_prod rfl rfl).symm

/-- Two lists of pairs with the same keys, each of them once. -/
theorem eq_of_keys {xs ys : List (K × D)} (hkeys : xs.map Prod.fst = ys.map Prod.fst)
    (hnd : (ys.map Prod.fst).Nodup) (hsub : ∀ y ∈ ys, y ∈ xs) : xs = ys := by
  induction ys generalizing xs with
  | nil => simpa using hkeys
  | cons y ys ih =>
    obtain ⟨x, xs, rfl⟩ : ∃ x xs', xs = x :: xs' :=
      List.exists_cons_of_ne_nil (by rintro rfl; simp at hkeys)
    obtain ⟨-, htail⟩ := List.cons.inj hkeys
    obtain ⟨hy, hnd⟩ := List.nodup_cons.mp hnd
    have hmem : ∀ z ∈ xs, z.1 ∈ ys.map Prod.fst := fun z hz => htail ▸ List.mem_map_of_mem hz
    have hx : y = x := by
      rcases List.mem_cons.mp (hsub y List.mem_cons_self) with h | h
      · exact h
      · exact absurd (hmem y h) hy
    subst hx
    refine congrArg (y :: ·) (ih htail hnd fun z hz => ?_)
    rcases List.mem_cons.mp (hsub z (List.mem_cons_of_mem y hz)) with rfl | h
    · exact absurd (List.mem_map_of_mem hz) hy
    · exact h

end Lists

variable {K D : Type} [LinearOrder K] [DecidableEq D] {P : Template K D}

section Leaf

variable {t : BTree K D} {c : MCtx K D 0} {a : Addr} {s : LeafSlots K D} {as bs : List (K × D)}
  {e : K × D} {r : List K}

/-- An `erase` that leaves enough keys in the leaf, or takes the pair from the root. -/
theorem erase_light (h : Rep P t.view (c.fill (.leaf a s)).2) (hc : c.Paired)
    (ho : SearchOrder LeafSlots.keys (c.fill (.leaf a s)).2.inorder)
    (hfind : t.find P e.1 = .ok (some a)) (hs : LeafIs P s (as ++ e :: bs) r)
    (hlt : ∀ x ∈ as, x.1 < e.1) (hmin : 0 < P.leafnodemin)
    (hkeep : t.view.flag a = true ∨ P.leafnodemin < s.slotsinuse) :
    ∃ t' s' es y, t.erase P e.1 = .ok ((as.length : Int), t') ∧ LeafIs P s' es (y :: r) ∧
      es.map Prod.fst = (as ++ bs).map Prod.fst ∧
      es.map Prod.snd = ((as ++ e :: bs).map Prod.snd).dropLast ∧
      t'.view = { t.view.setBody a (.leaf s') with
        count := (t.totalkeycount + 4294967295) % 4294967296 } := by
  have hbody : t.view.body a = some (.leaf s) := ((holds_fill c (.leaf a s)).mp h.holds).2.1
  obtain ⟨t₁, s', es, y, hs', hfst, hsnd, -, v₁, -, e₁⟩ :=
    erase_key hfind hbody hs (not_mem_of_lt hlt)
  refine ⟨t₁, s', es, y, e₁.trans ?_, hs', hfst, hsnd, v₁⟩
  by_cases hflag : t.view.flag a = true
  · rw [if_pos hflag]
  · rw [if_neg hflag]
    have hmany : P.leafnodemin < s.slotsinuse := hkeep.resolve_left hflag
    have hlen := congrArg List.length hfst
    have hin := hs.inuse
    simp only [List.length_map, List.length_append, List.length_cons] at hlen hin
    obtain ⟨x, xs, rfl⟩ : ∃ x xs, es = x :: xs :=
      List.exists_cons_of_ne_nil (by rintro rfl; simp at hlen; omega)
    -- the leaf is below the root
    cases c with
    | top => exact absurd (h.flag_leaf.mpr rfl) hflag
    | frame up b ksL csL ksR csR =>
      have hrep : Rep P t₁.view ((Ctx.frame up b ksL csL ksR csR).fill (.leaf a s')).2 := by
        rw [v₁]
        exact (h.setLeaf hc hs'.ok).congr rfl (fun _ _ => rfl) (fun _ _ => rfl) (fun _ _ => rfl)
          (fun _ _ => ⟨rfl, rfl⟩)
      have hx : x.1 ∈ s.keys := by
        have hmem : x.1 ∈ (as ++ bs).map Prod.fst := hfst ▸ List.mem_cons_self
        rw [hs.keys_eq]
        simp only [List.map_append, List.map_cons, List.mem_append, List.mem_cons] at hmem ⊢
        tauto
      obtain ⟨-, hloc, -⟩ := leaf_loc hrep hc hs'.head_key (ho.routes hc hx).here
      rw [balanceTree_enough (((holds_fill _ _).mp hrep.holds).2.1) hloc]
      · rfl
      · rw [hs'.inuse]
        omega

omit [DecidableEq D] in
/-- A leaf that has lost keys, in its tree. -/
theorem lightened {s' : LeafSlots K D} {v' : View K D} (h : Rep P t.view (c.fill (.leaf a s)).2)
    (hc : c.Paired) (ho : SearchOrder LeafSlots.keys (c.fill (.leaf a s)).2.inorder)
    (hfull : FullLast P t.view (c.fill (.leaf a s)).2.inorder) (hok : LeafOK P s')
    (hsub : s'.keys.Sublist s.keys) (hroom : s'.slotsinuse < P.leafnodemax) {n : Nat}
    (hview : v' = { t.view.setBody a (.leaf s') with count := n }) :
    Rep P v' (c.fill (.leaf a s')).2 ∧ SearchOrder LeafSlots.keys (c.fill (.leaf a s')).2.inorder ∧
      FullLast P v' (c.fill (.leaf a s')).2.inorder := by
  subst hview
  refine ⟨(h.setLeaf hc hok).congr rfl (fun _ _ => rfl) (fun _ _ => rfl) (fun _ _ => rfl)
    (fun _ _ => ⟨rfl, rfl⟩), ?_, ?_⟩
  · rw [Ctx.inorder_fill_leaf hc] at ho ⊢
    exact ho.shrink hsub
  · intro l hl
    rw [Ctx.inorder_fill_leaf hc] at hl hfull
    simp only [tips_append, tips_inr, List.mem_append, List.mem_cons] at hl
    rcases hl with hl | rfl | hl
    · exact hfull l (by simp [hl])
    · exact .inl hroom
    · exact hfull l (by simp [hl])

omit [DecidableEq D] in
/-- The pairs from a key on have one payload. -/
theorem same_payloads_iff (hlt : ∀ x ∈ as, x.1 < e.1) (hgt : ∀ x ∈ bs, e.1 < x.1) :
    (∀ p ∈ as ++ e :: bs, ∀ q ∈ as ++ e :: bs, e.1 ≤ p.1 → e.1 ≤ q.1 → p.2 = q.2) ↔
      ∀ x ∈ bs, x.2 = e.2 := by
  constructor
  · intro h x hx
    exact h x (by simp [hx]) e (by simp) (hgt x hx).le le_rfl
  · intro h
    have hone : ∀ p ∈ as ++ e :: bs, e.1 ≤ p.1 → p.2 = e.2 := by
      intro p hp hle
      rcases List.mem_append.mp hp with hp | hp
      · exact absurd (hlt p hp) (not_lt.mpr hle)
      · rcases List.mem_cons.mp hp with rfl | hp
        · rfl
        · exact h p hp
    intro p hp q hq hpe hqe
    rw [hone p hp hpe, hone q hq hqe]

end Leaf

/-- Afterwards `get` does not find the erased key, and finds every other key with its payload. -/
def KeepsPayloads (P : Template K D) (es : List (K × D)) (t : BTree K D) (k : K) : Prop :=
  ∃ i t', t.erase P k = .ok (i, t') ∧ t'.get P k = .ok (P.emptyData, false) ∧
    ∀ x ∈ es.map Prod.fst, x ≠ k → ∃ d, t.get P x = .ok (d, true) ∧ t'.get P x = .ok (d, true)

section Pairs

variable {t t' : BTree K D} {T T' : (n : Nat) × MTree K D n} {as bs es L R : List (K × D)}
  {e : K × D}
  {i : Int}

/-- The payloads are kept exactly if the pairs of the leaf are the old ones without the erased. -/
theorem keepsPayloads_iff (h : Rep P t.view T.2) (ho : SearchOrder LeafSlots.keys T.2.inorder)
    (hfull : FullLast P t.view T.2.inorder) (h' : Rep P t'.view T'.2)
    (ho' : SearchOrder LeafSlots.keys T'.2.inorder) (hfull' : FullLast P t'.view T'.2.inorder)
    (hpairs : pairs T.2.inorder = L ++ ((as ++ e :: bs) ++ R))
    (hpairs' : pairs T'.2.inorder = L ++ (es ++ R))
    (hfst : es.map Prod.fst = (as ++ bs).map Prod.fst) (herase : t.erase P e.1 = .ok (i, t')) :
    KeepsPayloads P (pairs T.2.inorder) t e.1 ↔ es = as ++ bs := by
  have hnd : ((pairs T.2.inorder).map Prod.fst).Nodup :=
    (h.allKeys_eq ▸ ho.keys_sorted).imp ne_of_lt
  have hperm : (as ++ e :: bs).Perm (e :: (as ++ bs)) := List.perm_middle
  have hmoved := ((hperm.append_right R).append_left L).trans List.perm_middle
  rw [hpairs, (hmoved.map Prod.fst).nodup_iff, List.map_cons, List.nodup_cons] at hnd
  obtain ⟨hnot, hnd⟩ := hnd
  constructor
  · rintro ⟨j, t₂, e₂, -, hothers⟩
    obtain ⟨-, rfl⟩ := Prod.mk.inj (Except.ok.inj (herase.symm.trans e₂))
    refine eq_of_keys hfst ?_ fun x hx => ?_
    · have hin : (as ++ bs).Sublist (L ++ ((as ++ bs) ++ R)) :=
        (List.sublist_append_left ..).trans (List.sublist_append_right ..)
      exact hnd.sublist (hin.map _)
    · have hxe : x.1 ≠ e.1 := by
        intro heq
        refine hnot (List.mem_map.mpr ⟨x, ?_, heq⟩)
        exact List.mem_append_right _ (List.mem_append_left _ hx)
      have hxT : x ∈ pairs T.2.inorder := by
        rw [hpairs]
        refine List.mem_append_right _ (List.mem_append_left _ ?_)
        exact hperm.mem_iff.mpr (List.mem_cons_of_mem e hx)
      obtain ⟨d, hd, hd'⟩ := hothers x.1 (List.mem_map_of_mem hxT) hxe
      obtain ⟨x', hx', hkey⟩ := List.mem_map.mp (hfst ▸ List.mem_map_of_mem hx)
      have hget := (get_mem h ho hfull hxT).symm.trans hd
      have hget' := get_mem h' ho' hfull' (e := x') (by rw [hpairs']; simp [hx'])
      rw [hkey, hd'] at hget'
      have hsame : x' = x := Prod.ext hkey (Prod.mk.inj (Except.ok.inj (hget.trans hget'))).1.symm
      exact hsame ▸ hx'
  · rintro rfl
    refine ⟨i, t', herase, get_not_mem h' ho' hfull' (hpairs' ▸ hnot), fun x hx hxe => ?_⟩
    obtain ⟨p, hp, rfl⟩ := List.mem_map.mp hx
    have hp' : p ∈ pairs T'.2.inorder := by
      rw [hpairs, hmoved.mem_iff, List.mem_cons] at hp
      rw [hpairs']
      exact hp.resolve_left fun heq => hxe (congrArg Prod.fst heq)
    exact ⟨p.2, get_mem h ho hfull hp, get_mem h' ho' hfull' hp'⟩

end Pairs

/-- In a loaded tree, `erase` of a key whose leaf stays half full, or is the root, keeps the
payloads of the others exactly if those in the leaf are the same from the erased key on. -/
theorem keeps_payloads (hinner : P.nodeslots = 4) (hleaf : P.leafslots = 4) {es : List (K × D)}
    (hasc : es.Pairwise (fun a b => a.1 < b.1)) {rs : List Int} {t : BTree K D}
    (hrun : run (BTree.insertStep P) BTree.init es = .ok (rs, t)) {k : K} (hk : k ∈ es.map Prod.fst)
    {a : Addr} {l : LeafNode K D} (hfind : t.find P k = .ok (some a)) (hl : t.leaf a = .ok l)
    (hkeep : l.isrootnode = true ∨ P.leafnodemin < l.slotsinuse) :
    KeepsPayloads P es t k ↔
      ∀ e ∈ l.entries, ∀ e' ∈ l.entries, k ≤ e.1 → k ≤ e'.1 → e.2 = e'.2 := by
  have hne : es ≠ [] := by
    rintro rfl
    simp at hk
  have hin4 : P.innernodemax = 4 := by rw [Template.innernodemax, hinner]
  have hlf4 : P.leafnodemax = 4 := by rw [Template.leafnodemax, hleaf]
  have hmin : P.leafnodemin = 2 := by rw [Template.leafnodemin, hleaf]
  obtain ⟨t₀, T, I, l₀, e₀, h, rfl, -, -⟩ := load_spec (P := P) (by omega) (by omega) hne hasc
  obtain ⟨-, rfl⟩ := Prod.mk.inj (Except.ok.inj (e₀.symm.trans hrun))
  have hfull := h.fullLast (by omega)
  obtain ⟨hrep, -, ho, -⟩ := h
  obtain ⟨c, ⟨b, s⟩, rfl, hc, -, hfind', hmem⟩ := find_tip hrep ho hfull k
  obtain rfl : b = a := Option.some.inj (Except.ok.inj (hfind'.symm.trans hfind))
  have hin := Ctx.inorder_fill_leaf hc (⟨b, s⟩ : Tip Addr (LeafSlots K D))
  have hsort := ho.sorted ⟨b, s⟩ (by simp [hin])
  obtain ⟨hbody, hok⟩ := hrep.holds.tip hrep.paired (l := ⟨b, s⟩) (by simp [hin])
  obtain rfl := Except.ok.inj ((BTree.leaf_eq hbody).symm.trans hl)
  obtain ⟨e, he, rfl⟩ := List.mem_map.mp hk
  obtain ⟨as, bs, hcut⟩ := List.append_of_mem (hmem e he rfl)
  have hs := hok.leafIs
  change LeafIs P s s.entries _ at hs
  change s.entries = _ at hcut
  change s.keys.Pairwise (· < ·) at hsort
  rw [hcut] at hs
  rw [hs.keys_eq] at hsort
  simp only [List.map_append, List.map_cons] at hsort
  obtain ⟨-, hsortR, hcross⟩ := List.pairwise_append.mp hsort
  have hlt : ∀ x ∈ as, x.1 < e.1 := fun x hx => hcross x.1 (List.mem_map_of_mem hx) e.1 (by simp)
  have hgt : ∀ x ∈ bs, e.1 < x.1 := fun x hx =>
    (List.pairwise_cons.mp hsortR).1 x.1 (List.mem_map_of_mem hx)
  obtain ⟨t', s', es', y, e₁, hs', hfst, hsnd, hview⟩ :=
    erase_light hrep hc ho hfind hs hlt (by omega) hkeep
  have hsub : s'.keys.Sublist s.keys := by
    rw [hs'.keys_eq, hs.keys_eq, hfst]
    exact (List.Sublist.append_left (List.sublist_cons_self ..) _).map _
  have hroom : s'.slotsinuse < P.leafnodemax := by
    have hlen := congrArg List.length hfst
    have hle := hs.length_le
    simp only [List.length_map, List.length_append, List.length_cons] at hlen hle
    rw [hs'.inuse]
    omega
  obtain ⟨hrep', ho', hfull'⟩ := lightened hrep hc ho hfull hs'.ok hsub hroom hview
  change KeepsPayloads P _ _ _ ↔ ∀ p ∈ s.entries, ∀ q ∈ s.entries, e.1 ≤ p.1 → e.1 ≤ q.1 → p.2 = q.2
  rw [hcut, same_payloads_iff hlt hgt, ← slid_eq_iff hfst hsnd]
  change KeepsPayloads P (pairs (c.fill (.leaf b s)).2.inorder) t₀ e.1 ↔ _
  refine keepsPayloads_iff (L := pairs c.left) (R := pairs c.right) hrep ho hfull hrep' ho' hfull'
    ?_ ?_ hfst e₁
  · rw [Ctx.inorder_fill_leaf hc, pairs_append, pairs_inr, ← hcut]
  · rw [Ctx.inorder_fill_leaf hc, pairs_append, pairs_inr, ← hs'.entries_eq]

theorem keeps_payloads_four : ∃ rs t, run (BTree.insertStep (Template.plain 4)) BTree.init
    [(1, 10), (2, 20), (3, 30), (4, 30)] = .ok (rs, t) ∧
      KeepsPayloads (Template.plain 4) [(1, 10), (2, 20), (3, 30), (4, 30)] t 3 := by
  have h : (run (BTree.insertStep (Template.plain 4)) BTree.init
      [(1, 10), (2, 20), (3, 30), (4, 30)] >>= fun r => do
        let a ← r.2.find (Template.plain 4) 3
        return (a, ← r.2.leaf 0)) =
      .ok (some 0, ⟨⟨4, 4, [1, 2, 3, 4], [10, 20, 30, 30]⟩, true, none, none, none⟩) := by
    decide +kernel
  obtain ⟨⟨rs, t⟩, hrun, h⟩ := bind_eq_ok.mp h
  obtain ⟨p, hfind, h⟩ := bind_eq_ok.mp h
  obtain ⟨l, hl, h⟩ := bind_eq_ok.mp h
  obtain ⟨rfl, rfl⟩ := Prod.mk.inj (Except.ok.inj h)
  exact ⟨rs, t, hrun, (keeps_payloads rfl rfl (by decide) hrun (by decide) hfind hl (.inl rfl)).mpr
    (by decide)⟩

/-- The payload of a key behind the erased one is replaced by the one in front of it. -/
theorem not_keeps_payloads : ¬∃ rs t, run (BTree.insertStep (Template.plain 4)) BTree.init
    [(1, 10), (2, 20), (3, 30)] = .ok (rs, t) ∧
      KeepsPayloads (Template.plain 4) [(1, 10), (2, 20), (3, 30)] t 1 := by
  rintro ⟨rs, t, e, i, t', herase, -, hothers⟩
  have h : (run (BTree.insertStep (Template.plain 4)) BTree.init
      [(1, 10), (2, 20), (3, 30)] >>= fun r => do
        let r' ← r.2.erase (Template.plain 4) 1
        return (← r.2.get (Template.plain 4) 2, ← r'.2.get (Template.plain 4) 2)) =
      .ok ((20, true), (10, true)) := by
    decide +kernel
  obtain ⟨d, hd, hd'⟩ := hothers 2 (by decide) (by decide)
  rw [e, ok_bind, herase, ok_bind, hd, ok_bind, hd', ok_bind] at h
  cases h

end NwtBTree
