import Mathlib.Data.List.TakeWhile
import NwtBTree.Calls.Lookup
import NwtBTree.Multiway.Walk

/-!
# Insertion without a split

`find` leaves a full leaf for its successor when all keys of the full leaf are
smaller, and `insert` then stores the key behind the separator that the search
descended in front of. Later, when the full leaf has lost a key, the search no
longer moves on and the key is out of reach.
-/

namespace NwtBTree

variable {K D : Type} [LinearOrder K] {P : Template K D} {t : BTree K D} {k : K}

/-- The keys of the tree are those of `T` and the new one, every key lies in the intervals of the
children that hold it, and while keys disappear from leaves and nothing else happens the new key
is found as long as it is there. -/
structure KeepsOrder (P : Template K D) (T : (n : Nat) × MTree K D n) (k : K) (t' : BTree K D)
    (T' : (n : Nat) × MTree K D n) : Prop where
  stands : Stands P t'.view T'.2
  keys : (allKeys LeafSlots.keys T'.2.inorder).Perm (k :: allKeys LeafSlots.keys T.2.inorder)
  ordered : T'.2.Ordered LeafSlots.keys
  findable : ∀ (s : BTree K D) (S : MTree K D T'.1), Stands P s.view S →
    Tree.Thins LeafSlots.keys T'.2 S → ∀ l ∈ tips S.inorder, k ∈ l.body.keys →
      s.find P k = .ok (some l.addr)

/-- The leaf that the separators name for `k` has room, or a key not smaller than `k`, or no
successor. -/
def StaysHome (P : Template K D) (v : View K D) (T : (n : Nat) × MTree K D n) (k : K) : Prop :=
  ∀ l ∈ T.2.home k, Stops P v k l = true

theorem exists_cut (es : List (K × D)) (k : K) :
    ∃ as bs, es = as ++ bs ∧ (∀ e ∈ as, e.1 < k) ∧ ∀ e ∈ bs.head?, k ≤ e.1 := by
  refine ⟨es.takeWhile fun e => decide (e.1 < k), es.dropWhile fun e => decide (e.1 < k),
    List.takeWhile_append_dropWhile.symm, fun e he => ?_, fun e he => ?_⟩
  · simpa using List.mem_takeWhile_imp he
  · have := List.head?_dropWhile_not (fun e : K × D => decide (e.1 < k)) es
    rw [Option.mem_def.mp he] at this
    simpa using this

variable [DecidableEq D]

/-- The leaf that `find` ends at takes the key; the tree stays ordered exactly if the key leads
to that leaf. -/
theorem Valid.insert_room {c : MCtx K D 0} {n : Tip Addr (LeafSlots K D)}
    (h : Valid P t (c.fill n)) (hc : c.Paired) (hfind : t.find P k = .ok (some n.addr))
    (hroom : n.body.slotsinuse < P.leafnodemax)
    (hk : k ∉ allKeys LeafSlots.keys (c.fill n).2.inorder) (d : D) :
    ∃ t' s, t.insert P k d = .ok (1, t') ∧ Stands P t'.view (c.fill (.leaf n.addr s)).2 ∧
      (allKeys LeafSlots.keys (c.fill (.leaf n.addr s)).2.inorder).Perm
        (k :: allKeys LeafSlots.keys (c.fill n).2.inorder) ∧
      ((c.fill (.leaf n.addr s)).2.Ordered LeafSlots.keys ↔ c.Routes k) := by
  have hin := Ctx.inorder_fill_leaf hc n
  have hn : n ∈ tips (c.fill n).2.inorder := by simp [hin]
  obtain ⟨hbody, hok⟩ := h.tip hn
  have hs := hok.leafIs
  obtain ⟨as, bs, hcut, hlt, hge⟩ := exists_cut n.body.entries k
  have hlen := hs.inuse
  rw [hcut] at hs hlen
  rw [hlen] at hroom
  -- the scan finds nothing: what it looks at is stored
  obtain ⟨hscan, hrun⟩ := h.stands.scan (k := k) (d := d) h.lists.forward hc
    (show as.length < P.leafnodemax by simp only [List.length_append] at hroom; omega)
  have hmiss : (k, d) ∉ t.equalRun k t.fuel (some n.addr) as.length := by
    intro hmem
    obtain ⟨l, hl, he⟩ := List.mem_flatMap.mp (hrun _ hmem)
    exact hk (List.mem_flatMap.mpr ⟨l, hl, LeafSlots.mem_keys he⟩)
  rw [decide_eq_false hmiss] at hscan
  have hroot : t.root ≠ none := by
    have := h.stands.root
    intro hnone
    rw [show t.view.root = t.root from rfl, hnone] at this
    simp at this
  obtain ⟨s, es, e1, hs', hkeys, -⟩ := insertLeafSlotsAt_spec hs hroom k d
  obtain ⟨t', e, hv⟩ := NwtBTree.insert_room hroot hfind hbody hs hroom hlt hge hscan e1
  have hnk : n.body.keys = as.map Prod.fst ++ bs.map Prod.fst := by
    rw [hs.keys_eq, List.map_append]
  have hsk : s.keys = as.map Prod.fst ++ k :: bs.map Prod.fst := hs'.keys_eq.trans hkeys
  have hmid : s.keys.Perm (k :: n.body.keys) := by
    rw [hsk, hnk]
    exact List.perm_middle
  refine ⟨t', s, e, ?_, ?_, ?_⟩
  · have hset := h.stands.setLeaf hc hs'.ok
    rw [hv]
    exact ⟨hset.root, hset.holds, hset.nodup, hset.paired⟩
  · have hin' := Ctx.inorder_fill_leaf hc ⟨n.addr, s⟩
    rw [hin', hin]
    simp only [allKeys_append, allKeys_inr]
    exact ((hmid.append_right _).append_left _).trans List.perm_middle
  · have hmem : ∀ x ∈ n.body.keys, x ∈ allKeys LeafSlots.keys (c.fill n).2.inorder := by
      intro x hx
      simp [hin, hx]
    have hsorted : s.keys.Pairwise (· < ·) := by
      have hold := h.keys_sorted hn
      rw [hnk] at hold
      rw [hsk]
      refine pairwise_insert lt_trans hold (fun x hx => ?_) fun y hy => ?_
      · obtain ⟨e, he, rfl⟩ := List.mem_map.mp hx
        exact hlt e he
      · rw [List.head?_map] at hy
        obtain ⟨e, he, rfl⟩ := Option.map_eq_some_iff.mp hy
        refine lt_of_le_of_ne (hge e he) ?_
        rintro rfl
        refine hk (hmem _ ?_)
        rw [hnk]
        exact List.mem_append_right _ (List.mem_map_of_mem (List.mem_of_mem_head? he))
    have hold := Ctx.routes_of_ordered (t := n) hc h.ordered
    simp only [Tree.inorder, allKeys_inr, allKeys_nil, List.append_nil] at hold
    rw [Ctx.ordered_fill (t := n) hc h.ordered, Tree.ordered_leaf]
    simp only [Tree.inorder_leaf, allKeys_inr, allKeys_nil, List.append_nil, hsorted, true_and]
    constructor
    · intro hr
      exact hr k (hmid.mem_iff.mpr List.mem_cons_self)
    · intro hr x hx
      rcases List.mem_cons.mp (hmid.mem_iff.mp hx) with rfl | hx
      · exact hr
      · exact hold x hx

theorem Valid.keepsOrder_iff {c : MCtx K D 0} {n : Tip Addr (LeafSlots K D)}
    (h : Valid P t (c.fill n)) (hc : c.Paired) (hfind : t.find P k = .ok (some n.addr))
    (hroom : n.body.slotsinuse < P.leafnodemax)
    (hk : k ∉ allKeys LeafSlots.keys (c.fill n).2.inorder) (d : D) :
    (∃ t' T', t.insert P k d = .ok (1, t') ∧ KeepsOrder P (c.fill n) k t' T') ↔ c.Routes k := by
  obtain ⟨t', s, e, hstands, hperm, hord⟩ := h.insert_room hc hfind hroom hk d
  constructor
  · rintro ⟨t'', T', e', hkeeps⟩
    obtain rfl : t'' = t' := by simpa [e] using e'.symm
    have hT := hkeeps.stands.holds.unique hstands.holds hkeeps.stands.paired
      (Option.some.inj (hkeeps.stands.root.symm.trans hstands.root))
    apply hord.mp
    rw [← show T' = c.fill (.leaf n.addr s) from hT]
    exact hkeeps.ordered
  · intro hr
    have hordered := hord.mpr hr
    refine ⟨t', c.fill (.leaf n.addr s), e, hstands, hperm, hordered,
      fun u S hS hthin m hm hkm => ?_⟩
    have hS' := hthin.ordered hstands.paired hS.paired hordered
    exact Stands.find_ordered (T := ⟨_, S⟩) hS hS' hm hkm

/-- An insertion into a leaf with room keeps the search order exactly if `find` does not leave the
leaf that the separators name. -/
theorem keeps_order {T : (n : Nat) × MTree K D n} (h : Valid P t T)
    (hk : k ∉ allKeys LeafSlots.keys T.2.inorder)
    (hroom : ∀ a l, t.find P k = .ok (some a) → t.leaf a = .ok l → l.isfull P = false) (d : D) :
    (∃ t' T', t.insert P k d = .ok (1, t') ∧ KeepsOrder P T k t' T') ↔
      StaysHome P t.view T k := by
  obtain ⟨c, l, n, rfl, hc, hr, hfind, e⟩ := find_walk h.stands h.lists.forward k
  have hin := Ctx.inorder_fill_leaf hc l
  have hhome : (c.fill l).2.home k = some l := Ctx.home_fill hc hr l
  have hn : n ∈ tips (c.fill l).2.inorder := by
    have := List.mem_of_find?_eq_some hfind
    rw [hin, tips_append, tips_inr]
    exact List.mem_append_right _ this
  obtain ⟨hbody, hok⟩ := h.tip hn
  have hnotfull : n.body.slotsinuse < P.leafnodemax := by
    have := hroom n.addr _ e (BTree.leaf_eq hbody)
    simp only [LeafSlots.isfull, beq_eq_false_iff_ne] at this
    exact lt_of_le_of_ne hok.inuse this
  constructor
  · intro hkeeps m hm
    obtain rfl : l = m := by simpa [hhome] using hm
    obtain ⟨c', hfill, hc'⟩ := h.exists_ctx hn
    rw [hfill] at h hk hkeeps
    have hroutes := (h.keepsOrder_iff hc' e hnotfull hk d).mp hkeeps
    obtain rfl : l = n := Ctx.routes_unique hc hc' hr hroutes hfill
    exact List.find?_some hfind
  · intro hstay
    obtain rfl : n = l := by
      have hl : Stops P t.view k l = true := hstay l hhome
      simpa [hl, eq_comm] using hfind
    exact (h.keepsOrder_iff hc e hnotfull hk d).mpr hr

theorem keeps_order_sample :
    (∃ t' T', sampleTree.insert Template.strings 15 "o" = .ok (1, t') ∧
      KeepsOrder Template.strings ⟨1, .node 0 [10] sampleLeaves⟩ 15 t' T') ↔
    StaysHome Template.strings sampleTree.view ⟨1, .node 0 [10] sampleLeaves⟩ 15 := by
  refine keeps_order sample_valid (by decide) (fun a l ha hl => ?_) "o"
  have hfind : sampleTree.find Template.strings 15 = .ok (some 2) := by decide
  obtain rfl : 2 = a := by simpa [hfind] using ha
  cases hl
  rfl

/-- The leaf 1, 2, 3, 4 is full and in front of the separator 10: the key 7 goes to the leaf
behind it. -/
theorem not_keeps_order : ¬∃ t' T', sampleTree.insert Template.strings 7 "g" = .ok (1, t') ∧
    KeepsOrder Template.strings ⟨1, .node 0 [10] sampleLeaves⟩ 7 t' T' := by
  intro h
  have hroutes := (Valid.keepsOrder_iff (c := .frame .top 0 [10] (sampleLeaves.take 1) [] [])
    (n := ⟨2, ⟨4, 2, [10, 20, 0, 0], ["j", "t", "", ""]⟩⟩) sample_valid (by simp [sampleLeaves])
    (by decide) (by decide) (by decide) "g").mp h
  simp at hroutes

end NwtBTree
