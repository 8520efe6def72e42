import Mathlib.Data.List.Perm.Subperm
import NwtBTree.Multiway.Search
import NwtBTree.Refine.Leaf
import NwtBTree.Refine.SplitInner

/-!
# What `find` returns

The descent follows the route of the key, one level at an iteration, and has fuel
left when it arrives: a tree has no more levels than nodes. At the leaf the walk
along the chain only starts when the leaf is full and all of its keys are smaller.
-/

namespace NwtBTree

variable {K D : Type} [LinearOrder K] {P : Template K D} {t : BTree K D} {k : K}

omit [LinearOrder K] in
/-- Distinct addresses that were handed out are no more than the addresses handed out. -/
theorem length_le_of_nodup {L : List Addr} {n : Nat} (h : L.Nodup) (hlt : ∀ a ∈ L, a < n) :
    L.length ≤ n := by
  have hsub : L ⊆ List.range n := fun a ha => List.mem_range.mpr (hlt a ha)
  simpa using (h.subperm hsub).length_le

omit [LinearOrder K] in
theorem depth_le {A L : Type} {n : Nat} (c : Ctx A K L n) : c.depth ≤ c.addrs.length := by
  induction c with
  | top => simp [Ctx.depth]
  | frame up a ksL csL ksR csR ih =>
    simp only [Ctx.depth, Ctx.addrs_frame, List.length_cons, List.length_append]
    omega

omit [LinearOrder K] in
theorem Stands.lt_size {n : Nat} {T : MTree K D n} (h : Stands P t.view T) {a : Addr}
    (ha : a ∈ T.addrs) : a < t.nodes.size := by
  obtain ⟨b, hb⟩ := h.holds.isSome ha
  exact BTree.body_lt_size hb

omit [LinearOrder K] in
theorem Rep.lt_size {n : Nat} {T : MTree K D n} (h : Rep P t.view T) {a : Addr}
    (ha : a ∈ T.addrs) : a < t.nodes.size :=
  h.stands.lt_size ha

omit [LinearOrder K] in
theorem Stands.depth_lt_fuel {n : Nat} {c : MCtx K D n} {T : MTree K D n}
    (h : Stands P t.view (c.fill T).2) : c.depth < t.fuel := by
  have hnd := (List.nodup_append'.mp h.nodup_fill).1
  have hlen := length_le_of_nodup hnd fun a ha => h.lt_size ((mem_addrs_fill c T).mpr (.inl ha))
  have := depth_le c
  unfold BTree.fuel
  omega

omit [LinearOrder K] in
theorem Rep.depth_lt_fuel {n : Nat} {c : MCtx K D n} {T : MTree K D n}
    (h : Rep P t.view (c.fill T).2) : c.depth < t.fuel :=
  h.stands.depth_lt_fuel

namespace BTree

/-! ## The descent -/

theorem descendStep_spec {a x : Addr} {s : InnerSlots K} {ksL ksR : List K} {csL csR : List Addr}
    (ha : t.view.body a = some (.inner s)) (hs : InnerHas P s (ksL ++ ksR) (csL ++ x :: csR))
    (hlen : ksL.length = csL.length) (hlen' : ksR.length = csR.length) (hL : ∀ y ∈ ksL, y ≤ k)
    (hR : ∀ y ∈ ksR.head?, k < y) : t.descendStep k a = .ok x := by
  have hmore : s.slotsinuse < s.numChildren := by
    rw [hs.inuse, hs.num]
    simp
    omega
  have hchild : getChild s ksL.length = .ok (some x) := by
    rw [getChild, if_neg (by rw [hs.inuse, List.length_append]; omega), Int.toNat_natCast,
      hs.load_child (by simp; omega)]
    simp [hlen]
  have hleft : ∀ y ∈ ksL, keygreater y k = false := by
    intro y hy
    simpa [keygreater] using hL y hy
  obtain ⟨r, hr⟩ := hs.keys
  cases hR' : ksR with
  | nil =>
    subst hR'
    rw [List.append_nil] at hr
    have hscan : scan (keygreater · k) s.keySlots s.slotsinuse 0 = .ok none := by
      rw [hr, hs.inuse, List.append_nil]
      exact scan_none r hleft
    have hcount : s.slotsinuse = ksL.length := by simpa using hs.inuse
    simp only [descendStep, inner_eq ha, ok_bind, hscan]
    rw [hcount, hchild]
    rfl
  | cons y ys =>
    subst hR'
    have hy : keygreater y k = true := (keygreater_iff _ _).mpr (hR y (by simp))
    have hscan : scan (keygreater · k) s.keySlots s.slotsinuse 0 = .ok (some ksL.length) := by
      rw [hr, hs.inuse]
      exact scan_some r hleft hy
    simp only [descendStep, inner_eq ha, ok_bind, hscan, if_pos hmore, hchild]
    rfl

/-- Every iteration goes one level down the route. -/
theorem descend_ctx {n : Nat} {c : MCtx K D n} {x : Addr} (hc : HoldsCtx P t.view.body c x)
    (hp : c.Paired) (hr : c.Routes k) (fuel : Nat) :
    t.descend k (fuel + c.depth) (c.rootAddr x) = t.descend k fuel x := by
  induction c generalizing x fuel with
  | top => rfl
  | frame up a ksL csL ksR csR ih =>
    obtain ⟨⟨s, hs, hin⟩, -, -, hup⟩ := hc
    obtain ⟨hlen, hlen', -, -, -, hpup⟩ := hp
    obtain ⟨hL, hR, hrup⟩ := hr
    have hstep : t.descendStep k a = .ok x :=
      descendStep_spec hs hin (by simpa using hlen) (by simpa using hlen') hL hR
    have h := ih hup hpup hrup (fuel + 1)
    rw [Ctx.rootAddr_frame, Ctx.depth, show fuel + (up.depth + 1) = fuel + 1 + up.depth by omega, h,
      descend]
    simp only [isleaf_inner hs, ok_bind, Bool.false_eq_true, if_false, hstep]

theorem descend_spec {c : MCtx K D 0} {a : Addr} {s : LeafSlots K D}
    (h : Stands P t.view (c.fill (.leaf a s)).2) (hp : c.Paired) (hr : c.Routes k) :
    t.descend k t.fuel (c.rootAddr a) = .ok a := by
  obtain ⟨hc, hs, -⟩ := (holds_fill c (.leaf a s)).mp h.holds
  have hfuel := h.depth_lt_fuel
  obtain ⟨f, hf⟩ : ∃ f, t.fuel = f + 1 + c.depth := ⟨t.fuel - 1 - c.depth, by omega⟩
  have hdesc := descend_ctx hc hp hr (f + 1)
  rw [Tree.addr_leaf] at hdesc
  rw [hf, hdesc, descend]
  simp only [isleaf_leaf hs, ok_bind, if_true]
  rfl

/-! ## The walk -/

/-- The walk stays on a leaf that has a key not smaller than `k`, or has room, or is last. -/
theorem leafWalk_stay {a : Addr} {s : LeafSlots K D} {es : List (K × D)} {r : List K}
    (ha : t.view.body a = some (.leaf s)) (hs : LeafIs P s es r)
    (hstay : (∃ e ∈ es, k ≤ e.1) ∨ es.length < P.leafnodemax ∨ t.view.links.nxt a = none)
    (fuel : Nat) : t.leafWalk P k (fuel + 1) a = .ok a := by
  have hscan := hs.scan_eq (keygreaterequal · k)
  simp only [leafWalk, leaf_eq ha, ok_bind, hscan]
  cases hfind : (es.map Prod.fst).findIdx? (keygreaterequal · k) with
  | some i => rfl
  | none =>
    have hlt : ∀ e ∈ es, ¬k ≤ e.1 := by
      intro e he hk
      have := List.findIdx?_eq_none_iff.mp hfind e.1 (List.mem_map_of_mem he)
      simp [keygreaterequal] at this
      exact absurd hk (not_le.mpr this)
    by_cases hfull : s.isfull P = true
    · have hlen := hs.isfull_iff.mp hfull
      have hn : t.view.links.nxt a = none := by
        rcases hstay with ⟨e, he, hk⟩ | h | h
        · exact absurd hk (hlt e he)
        · omega
        · exact h
      simp only [hfull, if_true, hn]
      rfl
    · simp only [hfull, Bool.false_eq_true, if_false]
      rfl

theorem leafWalk_step {a b : Addr} {s : LeafSlots K D} {es : List (K × D)} {r : List K}
    (ha : t.view.body a = some (.leaf s)) (hs : LeafIs P s es r) (hlt : ∀ e ∈ es, e.1 < k)
    (hfull : es.length = P.leafnodemax) (hn : t.view.links.nxt a = some b) (fuel : Nat) :
    t.leafWalk P k (fuel + 1) a = t.leafWalk P k fuel b := by
  have hscan := hs.scan_eq (keygreaterequal · k)
  have hnone : (es.map Prod.fst).findIdx? (keygreaterequal · k) = none := by
    rw [List.findIdx?_eq_none_iff]
    intro x hx
    obtain ⟨e, he, rfl⟩ := List.mem_map.mp hx
    simpa [keygreaterequal] using hlt e he
  rw [hnone] at hscan
  simp only [leafWalk, leaf_eq ha, ok_bind, hscan, hs.isfull_iff.mpr hfull, if_true, hn]

theorem find_eq {a b : Addr} {c : MCtx K D 0} {s : LeafSlots K D}
    (h : Stands P t.view (c.fill (.leaf a s)).2) (hp : c.Paired) (hr : c.Routes k)
    (hw : t.leafWalk P k t.fuel a = .ok b) : t.find P k = .ok (some b) := by
  have hroot : t.root = some (c.rootAddr a) := by
    have := h.root
    rw [Ctx.addr_fill] at this
    exact this
  simp only [find, hroot, descend_spec h hp hr, ok_bind, hw]
  rfl

theorem find_stay {a : Addr} {c : MCtx K D 0} {s : LeafSlots K D} {es : List (K × D)} {r : List K}
    (h : Stands P t.view (c.fill (.leaf a s)).2) (hp : c.Paired) (hr : c.Routes k)
    (hs : LeafIs P s es r)
    (hstay : (∃ e ∈ es, k ≤ e.1) ∨ es.length < P.leafnodemax ∨ t.view.links.nxt a = none) :
    t.find P k = .ok (some a) := by
  have ha := ((holds_fill c (.leaf a s)).mp h.holds).2.1
  exact find_eq h hp hr (leafWalk_stay ha hs hstay t.nodes.size)

theorem find_none (h : t.root = none) : t.find P k = .ok none := by
  simp [find, h]

/-! ## `exists` and `get` -/

theorem existsKey_eq {a : Addr} {s : LeafSlots K D} {es : List (K × D)} {r : List K}
    (hf : t.find P k = .ok (some a)) (ha : t.view.body a = some (.leaf s)) (hs : LeafIs P s es r) :
    t.existsKey P k = .ok (decide (k ∈ es.map Prod.fst)) := by
  have hscan := hs.scan_eq (keyequal · k)
  simp only [existsKey, hf, ok_bind, leaf_eq ha, hscan]
  cases hfind : (es.map Prod.fst).findIdx? (keyequal · k) with
  | some i =>
    obtain ⟨hi, he, -⟩ := List.findIdx?_eq_some_iff_getElem.mp hfind
    have hmem : k ∈ es.map Prod.fst := by
      rw [← (keyequal_iff _ _).mp he]
      exact List.getElem_mem hi
    rw [decide_eq_true hmem]
    rfl
  | none =>
    have hmem : k ∉ es.map Prod.fst := by
      intro hk
      have := List.findIdx?_eq_none_iff.mp hfind k hk
      simp [keyequal] at this
    rw [decide_eq_false hmem]
    rfl

/-- `get` returns the first payload stored under the key in the leaf that `find` names. -/
theorem get_eq {a : Addr} {s : LeafSlots K D} {es : List (K × D)} {r : List K}
    (hf : t.find P k = .ok (some a)) (ha : t.view.body a = some (.leaf s)) (hs : LeafIs P s es r) :
    t.get P k = .ok (match es.find? (fun e => keyequal e.1 k) with
      | some e => (e.2, true)
      | none => (P.emptyData, false)) := by
  have hscan := hs.scan_eq (keyequal · k)
  rw [List.findIdx?_map] at hscan
  simp only [get, hf, ok_bind, leaf_eq ha, hscan]
  cases hfind : es.findIdx? ((keyequal · k) ∘ Prod.fst) with
  | some i =>
    obtain ⟨hi, he, hlt⟩ := List.findIdx?_eq_some_iff_getElem.mp hfind
    have hfind' : es.find? (fun e => keyequal e.1 k) = some es[i] := by
      rw [List.find?_eq_some_iff_getElem]
      refine ⟨he, i, hi, rfl, fun j hj => ?_⟩
      rw [Bool.not_eq_true']
      exact Bool.eq_false_iff.mpr (hlt j hj)
    simp only [hs.load_data hi, ok_bind, hfind']
    rfl
  | none =>
    have hfind' : es.find? (fun e => keyequal e.1 k) = none := by
      rw [List.find?_eq_none]
      intro e he
      have := List.findIdx?_eq_none_iff.mp hfind e he
      simpa [keyequal] using this
    simp only [hfind']
    rfl

end BTree

end NwtBTree
