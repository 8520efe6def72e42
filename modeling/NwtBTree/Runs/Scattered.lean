import NwtBTree.Runs.Descend

/-!
# Distinct keys in any order

Two things can go wrong besides a split that is not at the end. A new key in
front of a full leaf pushes the first key of that leaf out, and the walk of
`find` past a full leaf puts keys behind separators that are greater: when the
leaf passed is split, it has room and the walk ends there.
-/

namespace NwtBTree

variable {K D : Type} [LinearOrder K] {P : Template K D}

namespace BTree

/-- No key of another leaf has its descent end at the leaf `a`. -/
def landsAlone (t : BTree K D) (a : Addr) : Bool :=
  match t.root with
  | none => true
  | some r =>
    match t.leavesUnder t.fuel r with
    | .ok ls => ls.all fun l => decide (l.addr = a) ||
        l.body.keys.all fun x => decide (t.descend x t.fuel r ≠ .ok a)
    | .error _ => true

/-- If an insert of `k` splits a leaf, it is split at the end, `k` is not in front of its keys and
no key outside it depends on its being full. -/
def splitsClean (P : Template K D) (t : BTree K D) (k : K) : Bool :=
  t.splitsAtEnd P k &&
    match t.splitTarget P k with
    | some (a, l) => l.keys.head?.all (decide <| · < k) && t.landsAlone a
    | none => true

end BTree

section Step

variable {t : BTree K D} {T : (n : Nat) × MTree K D n} {k : K} {c : MCtx K D 0}
  {n : Tip Addr (LeafSlots K D)}

/-- The search order that inserts in any order keep. -/
def Walked (P : Template K D) (t : BTree K D) (T : (n : Nat) × MTree K D n) : Prop :=
  Standing P t T ∧ WalkOrder LeafSlots.keys (Lets P t.view) T.2.inorder

theorem alone_of_landsAlone (h : Standing P t (c.fill n)) (hc : c.Paired)
    (halone : t.landsAlone n.addr = true) :
    ∀ x ∈ allKeys LeafSlots.keys (c.left ++ c.right), (∀ s ∈ seps c.left, s ≤ x) →
      ¬∀ s ∈ seps c.right, x < s := by
  intro x hx hL hR
  have hin := Ctx.inorder_fill_leaf hc n
  have hroot : t.root = some (c.rootAddr n.addr) := by
    have := h.rep.root
    rw [Ctx.addr_fill] at this
    exact this
  have hdesc : t.descend x t.fuel (c.rootAddr n.addr) = .ok n.addr :=
    BTree.descend_spec (a := n.addr) (s := n.body) h.rep.stands hc (Ctx.routes_of_seps hc hL hR)
  have hleaves : t.leavesUnder t.fuel (c.rootAddr n.addr) = .ok (tips (c.fill n).2.inorder) := by
    have := BTree.leavesUnder_eq h.rep.holds h.rep.paired h.rep.height_lt
    rwa [Ctx.addr_fill] at this
  simp only [BTree.landsAlone, hroot, hleaves, List.all_eq_true, Bool.or_eq_true,
    decide_eq_true_eq] at halone
  obtain ⟨m, hm, hx⟩ := mem_allKeys.mp hx
  have hm' : m ∈ tips c.left ∨ m ∈ tips c.right := by simpa [mem_tips] using hm
  rcases halone m (by rw [hin]; simp; tauto) with haddr | hall
  · have hmem := Ctx.addr_mem_addrs hc hm'
    rw [haddr] at hmem
    exact (List.nodup_append'.mp h.rep.nodup_fill).2.2 hmem (Tree.addr_mem_addrs (n := 0) n)
  · exact hall x hx hdesc

omit [LinearOrder K] in
theorem stored_key {v : View K D} {e : K × D} (h : Rep P v T.2) (he : e ∈ pairs T.2.inorder) :
    e.1 ∈ allKeys LeafSlots.keys T.2.inorder := by
  rw [h.allKeys_eq]
  exact List.mem_map_of_mem he

theorem pairwise_lt {l : List K} (h : l.Pairwise (· ≤ ·)) (hnd : l.Nodup) : l.Pairwise (· < ·) :=
  (h.and hnd).imp fun h => lt_of_le_of_ne h.1 h.2

omit [LinearOrder K] in
/-- Keys of a leaf and a new key, whatever leaves they end up in. -/
theorem perm_middle_append {xs ys zs ws : List K} (h : ws.Perm (k :: ys)) :
    (xs ++ (ws ++ zs)).Perm (k :: (xs ++ (ys ++ zs))) :=
  ((h.append_right zs).append_left xs).trans List.perm_middle

theorem Walked.existsKey (h : Walked P t T) (k : K) :
    t.existsKey P k = .ok (decide (k ∈ allKeys LeafSlots.keys T.2.inorder)) := by
  obtain ⟨hs, ho⟩ := h
  obtain ⟨c, n, rfl, hc, hfind, hstop, hreach⟩ := hs.find k
  obtain ⟨hbody, hok⟩ := hs.tip hc
  have halt := Tree.alternates hs.rep.paired
  have hr := hreach ho.seps_sorted
  rw [Ctx.inorder_fill_leaf hc] at halt ho ⊢
  rw [BTree.existsKey_eq hfind hbody hok.leafIs, ← hok.leafIs.keys_eq]
  congr 2
  exact propext (ho.mem_iff halt hr hstop).symm

variable [DecidableEq D] {d : D}

/-- One insert of a new key. -/
theorem Walked.insert (hleaf : P.leafnodemax = 4) (hinner : P.innernodemax = 4)
    (h : Walked P t T) (hnew : k ∉ allKeys LeafSlots.keys T.2.inorder)
    (hclean : t.splitsClean P k = true) :
    ∃ t' T', t.insert P k d = .ok (1, t') ∧ Walked P t' T' ∧
      (allKeys LeafSlots.keys T'.2.inorder).Perm (k :: allKeys LeafSlots.keys T.2.inorder) := by
  obtain ⟨hs, ho⟩ := h
  rw [BTree.splitsClean, Bool.and_eq_true] at hclean
  obtain ⟨hend, hsplit⟩ := hclean
  obtain ⟨c, n, o, t', T', rfl, hc, hfind, hstop, hreach, e, h', hins⟩ :=
    hs.insert hleaf hinner hend d
  have hin := Ctx.inorder_fill_leaf hc n
  have halt := Tree.alternates hs.rep.paired
  have hr := hreach ho.seps_sorted
  obtain ⟨hbody, hok⟩ := hs.tip hc
  rw [hin] at halt ho hnew
  have hn := ho.sorted n (by simp)
  have hkn : k ∉ n.body.keys := fun hk => hnew (by simp [hk])
  generalize hI : T'.2.inorder = I at hins
  cases hins with
  | duplicate room run stored =>
    rw [← hin] at stored
    exact absurd (stored_key hs.rep stored) (by rwa [hin])
  | @room t' s room run links keys data =>
    have hperm : s.keys.Perm (k :: n.body.keys) := by
      rw [keys]
      refine List.perm_middle.trans ?_
      rw [List.takeWhile_append_dropWhile]
    have hle := h'.sorted ⟨n.addr, s⟩ (by simp [hI])
    refine ⟨t', T', e, ⟨h', ?_⟩, ?_⟩
    · rw [hI]
      refine ho.room halt hr (fun hp => Nat.ne_of_lt room hp.1) (fun x => ?_)
        (pairwise_lt hle (hperm.nodup_iff.mpr (List.nodup_cons.mpr ⟨hkn, hn.imp ne_of_lt⟩)))
        fun l _ => by simp only [Lets, links]
      exact hperm.mem_iff.trans List.mem_cons
    · rw [hI, hin]
      simpa using perm_middle_append hperm
  | @split t' sln slp kp full halves atEnd next =>
    have hisfull : n.body.isfull P = true := by simpa [LeafSlots.isfull] using full
    simp only [BTree.splitTarget, hfind, BTree.leaf_eq hbody, hisfull, if_true, Bool.and_eq_true]
      at hsplit
    obtain ⟨hfirst, halone⟩ := hsplit
    have hfirst' : ∀ x ∈ n.body.keys.head?, x ≤ k := by
      intro x hx
      rw [Option.mem_def.mp hx] at hfirst
      exact le_of_lt (by simpa using hfirst)
    have hperm := halves.keys_perm hok hfirst'
    have hlt := pairwise_lt (halves.keys_sorted hok (hn.imp le_of_lt) hfirst')
      (hperm.nodup_iff.mpr (List.nodup_cons.mpr ⟨hkn, hn.imp ne_of_lt⟩))
    refine ⟨t', T', e, ⟨h', ?_⟩, ?_⟩
    · rw [hI]
      refine ho.split halt hr hstop (fun x => hperm.mem_iff.trans List.mem_cons) hlt halves.first ?_
        (halves.exists_le hperm hlt) (fun l hl => ?_) (alone_of_landsAlone hs hc halone)
      · have hsorted := ho.seps_sorted
        rw [seps_append] at hsorted
        exact atEnd.seps_le hc (List.pairwise_append.mp hsorted).1
      · simp only [Lets, ne_eq, next l hl]
    · rw [hI, hin]
      simpa using perm_middle_append hperm

theorem walked_first (hcap : 0 < P.leafnodemax) (hroot : t.root = none) (k : K) (d : D) :
    ∃ t' T', t.insert P k d = .ok (1, t') ∧ Walked P t' T' ∧
      allKeys LeafSlots.keys T'.2.inorder = [k] := by
  obtain ⟨t', s, e, h, hs⟩ := standing_first hcap hroot k d
  obtain ⟨-, hok⟩ := h.rep.holds
  have hkeys : s.keys = [k] := by
    rw [LeafOK.leafIs hok |>.keys_eq, hs]
    rfl
  refine ⟨t', _, e, ⟨h, ⟨by simp, fun l hl => ?_, ?_⟩⟩, by simp [hkeys]⟩
  · obtain rfl : l = ⟨t.nodes.size, s⟩ := by simpa using hl
    rw [hkeys]
    simp
  · intro X l Y heq x _
    obtain ⟨rfl, rfl⟩ : X = [] ∧ Y = [] := by
      cases X with
      | nil => exact ⟨rfl, by simpa [eq_comm] using (List.cons_eq_cons.mp heq).2⟩
      | cons y X => simp at heq
    exact ⟨[], [], rfl, by simp, by simp, by simp, by simp⟩

end Step

variable [DecidableEq D]

/-- Every insert of the sequence that splits a leaf splits it cleanly. -/
def SplitsClean (P : Template K D) (es : List (K × D)) : Prop :=
  Meets (BTree.insertStep P) (fun (_ : Unit) _ => ()) (fun _ t e => t.splitsClean P e.1 = true) ()
    BTree.init es

/-- All inserts return `1`, and the leaves under the root hold exactly the inserted keys in
ascending order. -/
def FilledInOrder (P : Template K D) (es : List (K × D)) : Prop :=
  ∃ t ps, run (BTree.insertStep P) BTree.init es = .ok (List.replicate es.length 1, t) ∧
    t.content = .ok ps ∧ (ps.map Prod.fst).Pairwise (· < ·) ∧
    (ps.map Prod.fst).Perm (es.map Prod.fst) ∧
    ∀ k, t.existsKey P k = .ok (decide (k ∈ es.map Prod.fst))

/-- The keys inserted so far are the keys of the tree. -/
def Filled (P : Template K D) (g : List K) (t : BTree K D) : Prop :=
  (g = [] ∧ t.root = none) ∨ ∃ T, Walked P t T ∧ (allKeys LeafSlots.keys T.2.inorder).Perm g

theorem Filled.insert (hinner : P.innernodemax = 4) (hleaf : P.leafnodemax = 4) {g : List K}
    {t : BTree K D} {e : K × D} (h : Filled P g t)
    (hcond : e.1 ∉ g ∧ t.splitsClean P e.1 = true) :
    ∃ o t', BTree.insertStep P t e = .ok (o, t') ∧ o = 1 ∧ Filled P (g ++ [e.1]) t' := by
  obtain ⟨hnew, hclean⟩ := hcond
  rcases h with ⟨rfl, hroot⟩ | ⟨T, hT, hg⟩
  · obtain ⟨t', T', e1, hT', hkeys⟩ := walked_first (by rw [hleaf]; decide) hroot e.1 e.2
    exact ⟨1, t', e1, rfl, .inr ⟨T', hT', by rw [hkeys]; exact .refl _⟩⟩
  · obtain ⟨t', T', e1, hT', hperm⟩ := hT.insert (d := e.2) hleaf hinner
      (fun hk => hnew (hg.subset hk)) hclean
    have hcons := hperm.trans (hg.cons e.1)
    exact ⟨1, t', e1, rfl, .inr ⟨T', hT', hcons.trans (List.perm_append_singleton e.1 g).symm⟩⟩

theorem filled_in_order (hinner : P.nodeslots = 4) (hleaf : P.leafslots = 4) {es : List (K × D)}
    (hnd : (es.map Prod.fst).Nodup) (h : SplitsClean P es) : FilledInOrder P es := by
  have hinner' : P.innernodemax = 4 := by rw [Template.innernodemax, hinner]
  have hleaf' : P.leafnodemax = 4 := by rw [Template.leafnodemax, hleaf]
  have hfresh : Meets (BTree.insertStep P) (fun g e => g ++ [e.1])
      (fun g t e => e.1 ∉ g ∧ t.splitsClean P e.1 = true) [] BTree.init es := Meets.fresh hnd h
  have hstart : Filled P [] (BTree.init : BTree K D) := .inl ⟨rfl, rfl⟩
  obtain ⟨os, t, e, hos, hR⟩ : ∃ os t, run (BTree.insertStep P) BTree.init es = .ok (os, t) ∧
      Answers (fun g e => g ++ [e.1]) (fun _ _ o => o = 1) ([] : List K) es os ∧
      Filled P (es.foldl (fun g e => g ++ [e.1]) []) t :=
    run_sim (fun hR hcond => hR.insert hinner' hleaf' hcond) hstart hfresh
  rw [hos.eq_replicate] at e
  rw [foldl_label, List.nil_append] at hR
  rcases hR with ⟨hnil, hroot⟩ | ⟨T, hT, hg⟩
  · refine ⟨t, [], e, by simp [BTree.content, hroot], by simp, by simp [hnil], fun k => ?_⟩
    simp [BTree.existsKey, BTree.find_none hroot, hnil]
  · have hps := hT.1.rep.allKeys_eq
    refine ⟨t, _, e, content_eq hT.1.rep, hps ▸ hT.2.keys_sorted, hps ▸ hg, fun k => ?_⟩
    rw [hT.existsKey]
    simp only [hg.mem_iff]

theorem filled_in_order_six :
    FilledInOrder (Template.plain 4) [(2, 0), (9, 0), (4, 0), (7, 0), (5, 0), (1, 0)] :=
  filled_in_order rfl rfl (by decide) (show SplitsClean _ _ from by
    unfold SplitsClean; decide +kernel)

/-- The last key goes in front of a full leaf, twice, and pushes out the key `2`. -/
theorem not_filled_in_order :
    ¬FilledInOrder (Template.plain 4) [(2, 0), (3, 0), (4, 0), (5, 0), (1, 0)] := by
  rintro ⟨t, ps, e, hps, -, hperm, -⟩
  have h : (do
      let (_, t) ← run (BTree.insertStep (Template.plain 4)) BTree.init
        [(2, 0), (3, 0), (4, 0), (5, 0), (1, 0)]
      t.content) = .ok [(1, 0), (1, 0), (3, 0), (4, 0), (5, 0)] := by decide +kernel
  rw [e, ok_bind] at h
  obtain rfl := Except.ok.inj (hps.symm.trans h)
  exact absurd hperm (by decide)

end NwtBTree
