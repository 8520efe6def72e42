import NwtBTree.Multiway.Ascend
import NwtBTree.Refine.Scan
import NwtBTree.Refine.Stocked

/-!
# Loading repeated keys

`Laden` is what inserts in ascending order leave behind when keys may be repeated.
A separator is still a first key, but it may also be the last key in front of it.
-/

namespace NwtBTree

variable {K D : Type} {P : Template K D} [LinearOrder K]

/-- A leaf with room takes the pair unless it seems to have it already. -/
def BTree.takesPair [DecidableEq D] (P : Template K D) (t : BTree K D) (k : K) (d : D) :
    Except Fault Bool := do
  match ← t.find P k with
  | none => return true
  | some a =>
    let l ← t.leaf a
    return decide (l.slotsinuse = P.leafnodemax ∨ (k, d) ∉ l.entries)

/-- A tree that was filled in ascending order. -/
structure Laden (P : Template K D) (t : BTree K D) (T : (n : Nat) × MTree K D n) : Prop
    extends Stocked P t T where
  ascends : Ascends LeafSlots.keys T.2.inorder
  leads : Leads LeafSlots.keys T.2.inorder
  half : ∀ l ∈ (tips T.2.inorder).dropLast, l.body.slotsinuse = 2

/-- Pairs in order are divided by a key. -/
theorem exists_lower_bound (k : K) {es : List (K × D)}
    (hsort : (es.map Prod.fst).Pairwise (· ≤ ·)) :
    ∃ as bs, es = as ++ bs ∧ (∀ e ∈ as, e.1 < k) ∧ ∀ e ∈ bs, k ≤ e.1 := by
  induction es with
  | nil => exact ⟨[], [], rfl, by simp, by simp⟩
  | cons e es ih =>
    obtain ⟨hle, hsort⟩ := List.pairwise_cons.mp hsort
    rcases lt_or_ge e.1 k with hlt | hge
    · obtain ⟨as, bs, rfl, has, hbs⟩ := ih hsort
      exact ⟨e :: as, bs, rfl, List.forall_mem_cons.mpr ⟨hlt, has⟩, hbs⟩
    · refine ⟨[], e :: es, rfl, by simp, List.forall_mem_cons.mpr ⟨hge, fun x hx => ?_⟩⟩
      exact le_trans hge (hle x.1 (List.mem_map_of_mem hx))

section Push

variable {t t' : BTree K D} {T : (n : Nat) × MTree K D n} {c : MCtx K D 0} {a : Addr}
  {s : LeafSlots K D} {k : K} {d : D}

/-- The leaf that a search ends at. -/
theorem exists_landing (hp : T.2.Paired) (k : K) : ∃ (c : MCtx K D 0) (a : Addr)
    (s : LeafSlots K D), T = c.fill (.leaf a s) ∧ c.Paired ∧ c.Routes k := by
  obtain ⟨c, ⟨a, s⟩, hT, hc, hr⟩ := Ctx.exists_tip k T hp
  exact ⟨c, a, s, hT, hc, hr⟩

/-- No separator exceeds the keys. -/
theorem Laden.route (h : Laden P t T) (hk : ∀ x ∈ allKeys LeafSlots.keys T.2.inorder, x ≤ k) :
    ∃ (c : MCtx K D 0) (a : Addr) (s : LeafSlots K D), T = c.fill (.leaf a s) ∧ c.Paired ∧
      c.Routes k ∧ c.right = [] ∧ t.view.links.nxt a = none := by
  obtain ⟨c, a, s, rfl, hc, hr⟩ := exists_landing h.rep.paired k
  have hin := Ctx.inorder_fill_leaf hc (Tree.leaf (K := K) a s)
  have hright : c.right = [] := by
    rcases right_starts hc with hnil | ⟨z, J, hz⟩
    · exact hnil
    · -- the next separator is a stored key
      have ho := h.ascends
      have hleads := h.leads
      rw [Ctx.inorder_fill hc] at ho
      have hlt : k < z := ho.lt_seps hc hr z (by simp [hz])
      rw [hin, hz] at hleads
      obtain ⟨⟨m, M, hm, hzm⟩, -⟩ := hleads.of_append
      refine absurd (hk z ?_) (not_le.mpr hlt)
      rw [hin, hz, hm]
      simp [List.mem_of_mem_head? hzm]
  have hlast := h.last
  rw [hin, hright] at hlast
  exact ⟨c, a, s, rfl, hc, hr, hright, hlast a (by simp)⟩

/-- The keys of the last leaf and those in front of it. -/
theorem Laden.seq (h : Laden P t (c.fill (.leaf a s))) (hc : c.Paired) (hright : c.right = []) :
    (c.fill (.leaf a s)).2.inorder = c.left ++ [.inr ⟨a, s⟩] ∧
      Ascends LeafSlots.keys (c.left ++ [.inr ⟨a, s⟩]) ∧
      Leads LeafSlots.keys (c.left ++ [.inr ⟨a, s⟩]) ∧
      ∀ l ∈ tips c.left, l.body.slotsinuse = 2 := by
  have hin := Ctx.inorder_fill_leaf hc (Tree.leaf (K := K) a s)
  rw [hright] at hin
  have hhalf := h.half
  rw [hin] at hhalf
  exact ⟨hin, hin ▸ h.ascends, hin ▸ h.leads, fun l hl => hhalf l (by simpa using hl)⟩

/-- The key behind all others. -/
theorem Laden.keyRow_push (h : Laden P t (c.fill (.leaf a s))) (hc : c.Paired) (hr : c.Routes k)
    (hright : c.right = []) (hle : ∀ x ∈ s.keys, x ≤ k) :
    (keyRow LeafSlots.keys c.left ++ (s.keys ++ [k])).Pairwise (· ≤ ·) := by
  obtain ⟨-, ho, -, -⟩ := h.seq hc hright
  have hleft := ho.keys_le hc hr
  rw [Ascends, keyRow_append, keyRow_inr, keyRow_nil, List.append_nil] at ho
  rw [← List.append_assoc]
  refine List.pairwise_append.mpr ⟨ho, by simp, fun x hx y hy => ?_⟩
  obtain rfl : y = k := by simpa using hy
  exact (List.mem_append.mp hx).elim (hleft x) (hle x)

/-- The last leaf starts where it started. -/
theorem Laden.leads_push (h : Laden P t (c.fill (.leaf a s))) (hc : c.Paired)
    (hright : c.right = []) {l : Tip Addr (LeafSlots K D)}
    {J : List (Item Addr K (LeafSlots K D))} (hne : l.body.keys ≠ [])
    (hkeys : ∃ ks, l.body.keys ++ ks = s.keys ++ [k]) (hJ : Leads LeafSlots.keys J) :
    Leads LeafSlots.keys (c.left ++ .inr l :: J) := by
  obtain ⟨hin, -, hleads, -⟩ := h.seq hc hright
  obtain ⟨ks, hks⟩ := hkeys
  by_cases hnil : s.keys = []
  · -- an empty leaf is the only one
    have hleft : c.left = [] := by
      have hleast := h.least ⟨a, s⟩ (by rw [hin]; simp)
      rw [hin] at hleast
      rcases hleast with h2 | hone
      · change 2 ≤ s.slotsinuse at h2
        rw [← h.leaf.2.length_keys, hnil] at h2
        simp at h2
      · simpa using congrArg List.length hone
    rw [hleft]
    exact hJ
  · refine hleads.replace ?_ hJ
    show l.body.keys.head? = s.keys.head?
    rw [← List.head?_append_of_ne_nil _ hne, hks, List.head?_append_of_ne_nil _ hnil]

variable [DecidableEq D]

/-- The last leaf has room: the pair goes in front of those with its key. -/
theorem Laden.push_room (h : Laden P t (c.fill (.leaf a s))) (hc : c.Paired) (hr : c.Routes k)
    (hright : c.right = []) (hnext : t.view.links.nxt a = none) (hle : ∀ x ∈ s.keys, x ≤ k)
    (hroom : s.slotsinuse < P.leafnodemax) (hfresh : (k, d) ∉ s.entries) :
    ∃ t' T', t.insert P k d = .ok (1, t') ∧ Laden P t' T' ∧ allKeys LeafSlots.keys T'.2.inorder =
      allKeys LeafSlots.keys (c.fill (.leaf a s)).2.inorder ++ [k] := by
  obtain ⟨hbody, hok⟩ := h.leaf
  obtain ⟨hin, ho, hleads, hhalf⟩ := h.seq hc hright
  have hs := hok.leafIs
  have hsort : (s.entries.map Prod.fst).Pairwise (· ≤ ·) := by
    have := ho.append.2.1
    rw [Ascends, keyRow_inr, keyRow_nil, List.append_nil] at this
    exact hs.keys_eq ▸ this
  obtain ⟨as, bs, heq, has, hbs⟩ := exists_lower_bound k hsort
  have hlen : s.entries.length < P.leafnodemax := hs.inuse ▸ hroom
  have hfind := BTree.find_stay h.rep.stands hc hr hs (.inr (.inl hlen))
  -- the scan sees the pairs of this leaf only
  obtain ⟨f, hf⟩ := fuel_eq hbody
  have hscan : t.duplicateScan k d t.fuel (some a) as.length = .ok false := by
    obtain ⟨e, hrun⟩ := duplicateScan_eq (t := t) (k := k) (d := d) (l := ⟨a, s⟩) (S := [])
      (by simpa using ⟨hbody, hok⟩) (by simp [Forward, hnext]) (j := as.length)
      (by rw [heq, List.length_append] at hlen; omega) (show 0 + 1 < t.fuel by simp [hf])
    rw [e]
    refine congrArg _ (decide_eq_false fun hmem => hfresh ?_)
    simpa using hrun _ hmem
  rw [heq] at hs hlen
  obtain ⟨s', es, e₁, hs', hfst, -⟩ := insertLeafSlotsAt_spec hs hlen k d
  obtain ⟨t', e, v'⟩ := insert_room (d := d) h.rep.root_ne hfind hbody hs hlen has
    (fun e he => hbs e (List.mem_of_mem_head? he)) hscan e₁
  have hkeys : s'.keys = s.keys ++ [k] := by
    have hrep : bs.map Prod.fst = List.replicate bs.length k := by
      refine List.eq_replicate_iff.mpr ⟨by simp, fun x hx => ?_⟩
      obtain ⟨e, he, rfl⟩ := List.mem_map.mp hx
      refine le_antisymm (hle e.1 ?_) (hbs e he)
      rw [hs.keys_eq]
      exact List.mem_map_of_mem (List.mem_append_right _ he)
    rw [hs'.keys_eq, hs.keys_eq, hfst, List.map_append, hrep, ← List.replicate_succ,
      List.replicate_succ', List.append_assoc]
  have hmore : s.slotsinuse ≤ s'.slotsinuse := by
    rw [← hok.length_keys, ← hs'.ok.length_keys, hkeys]
    simp
  have hin' := Ctx.inorder_fill_leaf hc (Tree.leaf (K := K) a s')
  rw [hright] at hin'
  refine ⟨t', c.fill (.leaf a s'), e, ⟨h.grow_room hc hright hs'.ok hmore v', ?_, ?_,
    fun l hl => ?_⟩, ?_⟩
  · rw [hin', Ascends, keyRow_append, keyRow_inr, keyRow_nil, List.append_nil]
    show (_ ++ s'.keys).Pairwise _
    rw [hkeys]
    exact h.keyRow_push hc hr hright hle
  · rw [hin']
    exact h.leads_push hc hright (l := ⟨a, s'⟩) (by simp [hkeys]) ⟨[], by simpa using hkeys⟩ trivial
  · rw [hin'] at hl
    exact hhalf l (by simpa using hl)
  · rw [hin, hin']
    simp [hkeys]

/-- The last leaf is full and is split. -/
theorem Laden.push_split (hP : P.Four) (h : Laden P t (c.fill (.leaf a s))) (hc : c.Paired)
    (hr : c.Routes k) (hright : c.right = []) (hnext : t.view.links.nxt a = none)
    (hle : ∀ x ∈ s.keys, x ≤ k) (hfull : s.slotsinuse = P.leafnodemax) :
    ∃ t' T', t.insert P k d = .ok (1, t') ∧ Laden P t' T' ∧ allKeys LeafSlots.keys T'.2.inorder =
      allKeys LeafSlots.keys (c.fill (.leaf a s)).2.inorder ++ [k] := by
  obtain ⟨-, hok⟩ := h.leaf
  obtain ⟨hin, ho, -, hhalf⟩ := h.seq hc hright
  have hrow := h.keyRow_push hc hr hright hle
  obtain ⟨t', sln, slp, e, e₁, hp⟩ := insert_last_divide (d := d) (by rw [hP.innernodemax]; decide)
    (Ctx.growable_of_three (by rw [hP.innernodemax]; decide) c)
    (hP.leafnodemax.trans hP.innernodemax.symm) h.rep hc hr hright ho.append.1.seps
    (fun z hz x hx => (List.pairwise_append.mp hrow).2.2 z ((seps_sublist_keyRow _).subset hz) x hx)
    hnext hle hfull
  obtain ⟨hlower, hgrow⟩ := h.grow_split hP hc hright hfull hp
  have hseq := hp.seq
  have hkeys := hp.keys_eq hok
  refine ⟨t', _, e₁, ⟨hgrow, ?_, ?_, fun l hl => ?_⟩, ?_⟩
  · rw [hseq]
    refine Ascends.part ?_ hp.head_upper
    show (_ ++ (sln.keys ++ slp.keys ++ _)).Pairwise _
    rw [hkeys]
    simpa using hrow
  · rw [hseq]
    exact h.leads_push hc hright (hp.lower_ne_nil (by rw [hP.leafnodemax]; decide))
      ⟨slp.keys, hkeys⟩ ⟨⟨_, [], rfl, hp.head_upper⟩, trivial⟩
  · rw [hseq] at hl
    simp only [tips_append, tips_inr, tips_inl, tips_nil, List.dropLast_append_cons,
      List.dropLast_cons_cons, List.dropLast_singleton, List.mem_append, List.mem_singleton] at hl
    rcases hl with hl | rfl
    · exact hhalf l hl
    · exact hlower
  · rw [hseq, hin]
    simp only [allKeys_append, allKeys_inr, allKeys_inl, allKeys_nil, List.append_nil, hkeys,
      List.append_assoc]

/-- The insert of a key that no other one exceeds. -/
theorem Laden.push (hP : P.Four) (h : Laden P t T)
    (hk : ∀ x ∈ allKeys LeafSlots.keys T.2.inorder, x ≤ k)
    (htakes : t.takesPair P k d = .ok true) :
    ∃ t' T', t.insert P k d = .ok (1, t') ∧ Laden P t' T' ∧ allKeys LeafSlots.keys T'.2.inorder =
      allKeys LeafSlots.keys T.2.inorder ++ [k] := by
  obtain ⟨c, a, s, rfl, hc, hr, hright, hnext⟩ := h.route hk
  obtain ⟨hbody, hok⟩ := h.leaf
  have hle : ∀ x ∈ s.keys, x ≤ k := fun x hx => hk x (by
    rw [Ctx.inorder_fill_leaf hc]
    simp [hx])
  rcases Nat.lt_or_ge s.slotsinuse P.leafnodemax with hroom | hfull
  · have hfind := BTree.find_stay h.rep.stands hc hr hok.leafIs
      (.inr (.inl (hok.leafIs.inuse ▸ hroom)))
    simp only [BTree.takesPair, hfind, ok_bind, BTree.leaf_eq hbody] at htakes
    have hfresh := (of_decide_eq_true (Except.ok.inj htakes)).resolve_left (Nat.ne_of_lt hroom)
    exact h.push_room hc hr hright hnext hle hroom hfresh
  · exact h.push_split hP hc hr hright hnext hle (le_antisymm hok.inuse hfull)

/-- The first insert. -/
theorem laden_first (hcap : 0 < P.leafnodemax) (hroot : t.root = none) (hzero : t.totalkeycount = 0)
    (k : K) (d : D) : ∃ t' T', t.insert P k d = .ok (1, t') ∧ Laden P t' T' ∧
      allKeys LeafSlots.keys T'.2.inorder = [k] := by
  obtain ⟨t', s, e, hkeys, hs, -, -⟩ := stocked_first hcap hroot hzero k d
  refine ⟨t', _, e, ⟨hs, ?_, trivial, by simp⟩, by simp [hkeys]⟩
  simp [Ascends, hkeys]

end Push

end NwtBTree
