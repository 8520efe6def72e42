import NwtBTree.Multiway.Growth
import NwtBTree.Refine.SplitInner

/-!
# `insert_in_parent` is `pushUp`

As long as the split node is the last child, and no key of the parent is greater
than the pushed up key, `insert_in_parent` climbs the parent pointers exactly as
`Ctx.pushUp` climbs the context. The leaf chain changes only at the two new
leaves: they are joined to each other and to the leaf on their left.
-/

namespace NwtBTree

variable {K D : Type} {P : Template K D}

/-- The links after `N` and `N'` took the place of the last child below `c`. -/
def growLinks {n : Nat} (c : MCtx K D n) (l : Links) (N N' : Addr) : Links :=
  l.grow (n == 0) c.lefts N N'

namespace BTree

variable {t : BTree K D} {p N N' x : Addr} {k : K} {lf : Bool} {ks : List K} {cs : List Addr}
  {s : InnerSlots K}

/-- The key and the child go where the search loop ends. -/
theorem insertInnerNodePair_at [LinearOrder K] {as bs : List K} {csL csR : List Addr}
    {loc : Option Nat} (hp : t.view.body p = some (.inner s))
    (hs : InnerHas P s (as ++ bs) (csL ++ csR)) (hlen : csL.length = as.length)
    (hroom : (as ++ bs).length < P.innernodemax) (hroom' : (csL ++ csR).length ≤ P.innernodemax)
    (hscan : scanLast (keygreater · k) s.keySlots s.slotsinuse 0 none = .ok loc)
    (hloc : loc.getD s.slotsinuse = as.length) (hNk : t.view.IsKind lf N)
    (hkind : lf = true → ∀ b ∈ csL ++ N :: csR, t.view.IsKind true b) :
    ∃ t' s', t.insertInnerNodePair p k N = .ok (as.length, t') ∧
      InnerHas P s' (as ++ k :: bs) (csL ++ N :: csR) ∧
      t'.view = ((t.view.setBody p (.inner s')).setPar N (some p)).setLinks
        (t.view.links.around lf csL N csR) := by
  obtain ⟨s1, e1, hs1⟩ := insertInnerNodeKeyAt_spec hs hroom k
  obtain ⟨t1, e2, v1⟩ := setInner_view hp s1
  have hp1 : t1.view.body p = some (.inner s1) := by
    rw [v1]
    simp
  have hNk1 : t1.view.IsKind lf N := by
    rw [v1]
    exact View.isKind_setBody hp s1 hNk
  have hkind1 : lf = true → ∀ b ∈ csL ++ N :: csR, t1.view.IsKind true b := by
    intro hlf b hb
    rw [v1]
    exact View.isKind_setBody hp s1 (hkind hlf b hb)
  obtain ⟨s2, t2, e3, hs2, v2⟩ := insertInnerNodeChildAt_at hp1 hs1 hroom' hNk1 hkind1
  refine ⟨t2, s2, ?_, hs2, ?_⟩
  · have hlt : s.slotsinuse < s.slots := by rw [hs.inuse, hs.slots]; exact hroom
    rw [hlen] at e3
    simp only [insertInnerNodePair, inner_eq hp, ok_bind, hscan, hloc, e1, e2, e3]
    rw [if_neg (not_not.mpr hlt)]
    rfl
  · rw [v2, v1]
    simp [View.setBody]

theorem insertInnerNodePair_spec [LinearOrder K] (hp : t.view.body p = some (.inner s))
    (hs : InnerHas P s ks cs)
    (hlen : cs.length = ks.length) (hroom : ks.length < P.innernodemax) (hk : ∀ y ∈ ks, y ≤ k)
    (hkind : ∀ b ∈ cs ++ [N], t.view.IsKind lf b) :
    ∃ t' s', t.insertInnerNodePair p k N = .ok (ks.length, t') ∧
      InnerHas P s' (ks ++ [k]) (cs ++ [N]) ∧
      t'.view = ((t.view.setBody p (.inner s')).setPar N (some p)).setLinks
        (t.view.links.around lf cs N []) := by
  have hscan : scanLast (keygreater · k) s.keySlots s.slotsinuse 0 none = .ok none := by
    obtain ⟨r, hr⟩ := hs.keys
    rw [hr, hs.inuse]
    exact scanLast_none ks r [] none fun y hy => by simpa [keygreater] using hk y hy
  have hs' : InnerHas P s (ks ++ []) (cs ++ []) := by simpa using hs
  refine insertInnerNodePair_at hp hs' hlen (by simpa using hroom) ?_ hscan hs.inuse
    (hkind N (by simp)) fun hlf b hb => hlf ▸ hkind b hb
  simp only [List.append_nil, hlen]
  exact Nat.le_of_lt hroom

theorem insertInRoom_spec [LinearOrder K] (hp : t.view.body p = some (.inner s))
    (hs : InnerHas P s ks (cs ++ [x])) (hlen : cs.length = ks.length) (hpos : 0 < ks.length)
    (hroom : ks.length < P.innernodemax) (hk : ∀ y ∈ ks, y ≤ k)
    (hkind : ∀ b ∈ cs ++ [N, N'], t.view.IsKind lf b) :
    ∃ t' s', t.insertInRoom p N k N' = .ok t' ∧ InnerHas P s' (ks ++ [k]) (cs ++ [N, N']) ∧
      t'.view = (((t.view.setBody p (.inner s')).setPar N (some p)).setPar N' (some p)).setLinks
        (t.view.links.grow lf cs N N') := by
  obtain ⟨t1, e1, v1⟩ := setInner_view hp { s with numChildren := s.numChildren - 1 }
  have hs1 := hs.dropChild
  have hp1 : t1.view.body p = some (.inner { s with numChildren := s.numChildren - 1 }) := by
    rw [v1]
    simp
  have hkind1 : ∀ b ∈ cs ++ [N, N'], t1.view.IsKind lf b := by
    intro b hb
    rw [v1]
    exact View.isKind_setBody hp _ (hkind b hb)
  obtain ⟨t2, s2, e2, hs2, v2⟩ := insertInnerNodePair_spec (N := N) hp1 hs1 hlen hroom hk
    (fun b hb => hkind1 b (by
      simp only [List.mem_append, List.mem_cons, List.not_mem_nil, or_false] at hb ⊢
      tauto))
  have hp2 : t2.view.body p = some (.inner s2) := by
    rw [v2]
    simp
  obtain ⟨s3, t3, e3, hs3, v3⟩ := insertInnerNodeChildAt_spec hp2
    (show InnerHas P s2 (ks ++ [k]) ((cs ++ [N]) ++ []) by simpa using hs2)
    (by simp; omega) (fun b hb => by
      rw [v2]
      exact View.isKind_setBody hp1 s2 (hkind1 b (by simpa using hb)))
  refine ⟨t3, s3, ?_, by simpa using hs3, ?_⟩
  · have hidx : (ks.length : Int) + 1 = ((cs ++ [N]).length : Int) := by simp [hlen]
    simp only [insertInRoom, inner_eq hp, ok_bind, e1, e2]
    rw [if_pos (by omega), hidx, e3]
    rfl
  · rw [v3, v2, v1]
    simp only [View.setBody, View.setPar, View.setLinks, View.mk.injEq, and_true, Links.grow]
    simp

theorem insertNewRoot_spec [LinearOrder K] (hcap : 1 ≤ P.innernodemax) (hN : N ≠ t.nodes.size)
    (hN' : N' ≠ t.nodes.size) (hkind : ∀ b ∈ [N, N'], t.view.IsKind lf b) :
    ∃ t' s', t.insertNewRoot P N k N' = .ok t' ∧ InnerHas P s' [k] [N, N'] ∧
      t'.view = { t.view with
        body := Function.update t.view.body t.nodes.size (some (.inner s'))
        par := Function.update (Function.update t.view.par N (some t.nodes.size)) N'
          (some t.nodes.size)
        flag := Function.update t.view.flag t.nodes.size true
        links := t.view.links.grow lf [] N N'
        size := t.nodes.size + 1
        root := some t.nodes.size } := by
  have v0 := newInner_view P t
  have hb0 : (t.newInner P).view.body t.nodes.size =
      some (.inner (InnerNode.fresh P t.nodes.size).toInnerSlots) := by
    rw [v0]
    simp
  have hkind0 : ∀ b ∈ [N, N'], (t.newInner P).view.IsKind lf b := by
    intro b hb
    have hne : b ≠ t.nodes.size := by
      simp only [List.mem_cons, List.not_mem_nil, or_false] at hb
      rcases hb with rfl | rfl <;> assumption
    have := hkind b hb
    rw [v0]
    cases lf <;> simpa [View.IsKind, hne] using this
  obtain ⟨t1, e1, v1⟩ := setIsRoot_view hb0 true
  obtain ⟨s2, t2, e2, hs2, v2⟩ := appendKey_spec (show t1.view.body t.nodes.size = _ by
    rw [v1]; exact hb0) (InnerHas.fresh P _) (by simp; omega) k (show 0 = _ from rfl)
  have hkind2 : ∀ b ∈ [N, N'], t2.view.IsKind lf b := by
    intro b hb
    rw [v2]
    exact View.isKind_setBody (by rw [v1]; exact hb0) s2 (by rw [v1]; exact hkind0 b hb)
  have hb2 : t2.view.body t.nodes.size = some (.inner s2) := by
    rw [v2]
    simp
  obtain ⟨s3, t3, e3, hs3, v3⟩ := appendChild_spec (x := N) hb2 hs2 (by simp)
    (fun b hb => hkind2 b (by simp at hb ⊢; tauto)) (show 0 = _ from rfl)
  obtain ⟨s4, t4, e4, hs4, v4⟩ := appendChild_spec (x := N') (show t3.view.body t.nodes.size = _ by
    rw [v3]; simp) hs3 (by simpa using hcap)
    (fun b hb => by
      rw [v3]
      exact View.isKind_setBody hb2 s3 (hkind2 b (by simpa using hb))) (show 1 = _ from rfl)
  refine ⟨{ t4 with root := some t.nodes.size }, s4, ?_, hs4, ?_⟩
  · simp only [insertNewRoot, e1, ok_bind, e2, e3, e4]
    rfl
  · have hroot : ({ t4 with root := some t.nodes.size } : BTree K D).view =
        { t4.view with root := some t.nodes.size } := rfl
    rw [hroot, v4, v3, v2, v1, v0]
    simp only [View.setBody, View.setPar, View.setLinks, View.setFlag, View.alloc, View.mk.injEq,
      and_true, Links.grow]
    simp

end BTree

/-! ## The climb -/

/-- What `insert_in_parent` leaves behind. -/
structure Grown (P : Template K D) (v v' : View K D) {n : Nat} (c : MCtx K D n) (f : Nat)
    (N : MTree K D n) (k : K) (N' : MTree K D n) : Prop where
  rep : Rep P v' (c.pushUp P.innernodemax id f N k N').2
  links : v'.links = growLinks c v.links N.addr N'.addr
  body : ∀ b < v.size, b ∉ c.addrs → v'.body b = v.body b
  size : v.size ≤ v'.size
  count : v'.count = v.count
  tailleaf : v'.tailleaf = v.tailleaf
  headleaf : v'.headleaf = v.headleaf

/-- The situation in which `insert_in_parent` is called: `N` and `N'` are to take the
place of the node at `x`. -/
structure Splitting (P : Template K D) (v : View K D) {n : Nat} (c : MCtx K D n) (x : Addr)
    (N N' : MTree K D n) : Prop where
  hole : Hole P v c x
  left : Plug P v N
  right : Plug P v N'
  nodup : (c.addrs ++ (N.addrs ++ N'.addrs)).Nodup
  old : x ∉ c.addrs ++ (N.addrs ++ N'.addrs)
  kind : v.IsKind (n == 0) x

section Climb

variable {v : View K D} {n : Nat} {up : MCtx K D (n + 1)} {a x : Addr} {ksL : List K}
  {csL : List (MTree K D n)} {N N' : MTree K D n}

/-- The children that the node at the hole is about to have. -/
theorem Splitting.kids (h : Splitting P v (.frame up a ksL csL [] []) x N N') :
    (a :: ((csL ++ [N, N']).flatMap Tree.addrs ++ up.addrs)).Nodup ∧
    (∀ c ∈ csL ++ [N, N'], Plug P v c) ∧ (∀ c ∈ csL, v.par c.addr = some a) ∧
    x ∉ a :: ((csL ++ [N, N']).flatMap Tree.addrs ++ up.addrs) := by
  have hperm : ((Ctx.frame up a ksL csL [] []).addrs ++ (N.addrs ++ N'.addrs)).Perm
      (a :: ((csL ++ [N, N']).flatMap Tree.addrs ++ up.addrs)) := by
    classical
    rw [List.perm_iff_count]
    intro b
    simp only [Ctx.addrs_frame, List.flatMap_append, List.flatMap_cons, List.flatMap_nil,
      List.count_append, List.count_cons, List.cons_append, List.append_nil]
    omega
  have hsib := h.hole.siblings (List.nodup_append'.mp h.nodup).1
  refine ⟨hperm.nodup_iff.mp h.nodup, ?_, fun c hc => (hsib c (by simpa using hc)).2,
    fun hx => h.old (hperm.mem_iff.mpr hx)⟩
  intro c hc
  simp only [List.mem_append, List.mem_cons, List.not_mem_nil, or_false] at hc
  obtain hc | rfl | rfl := hc
  · exact (hsib c (by simpa using hc)).1
  · exact h.left
  · exact h.right

@[simp] theorem growLinks_succ (c : MCtx K D (n + 1)) (l : Links) (N N' : Addr) :
    growLinks c l N N' = l := rfl

variable [LinearOrder K] {t : BTree K D} {k : K}

/-- The last step of the climb: a node with room. -/
theorem grown_room (h : Splitting P t.view (.frame up a ksL csL [] []) x N N')
    (hroom : ksL.length < P.innernodemax) (hk : ∀ y ∈ ksL, y ≤ k) :
    ∃ t', t.insertInRoom a N.addr k N'.addr = .ok t' ∧
      Grown P t.view t'.view (.frame up a ksL csL [] []) t.nodes.size N k N' := by
  obtain ⟨hnd, hplug, hparL, hx⟩ := h.kids
  obtain ⟨s, hs, hin⟩ := h.hole.holds.1
  obtain ⟨hlen, -, hpos, -⟩ := h.hole.paired
  obtain ⟨hroots, hdisj⟩ := List.nodup_cons.mp hnd
  obtain ⟨hkids, -, hup⟩ := List.nodup_append'.mp hdisj
  have haddr : (csL ++ [N, N']).map Tree.addr = csL.map Tree.addr ++ [N.addr, N'.addr] := by simp
  have hroot : ∀ b ∈ csL.map Tree.addr ++ [N.addr, N'.addr],
      b ∈ (csL ++ [N, N']).flatMap Tree.addrs := by
    intro b hb
    rw [← haddr] at hb
    exact addr_mem_flatMap hb
  have hkind : ∀ b ∈ csL.map Tree.addr ++ [N.addr, N'.addr], t.view.IsKind (n == 0) b := by
    intro b hb
    rw [← haddr] at hb
    obtain ⟨c, hc, rfl⟩ := List.mem_map.mp hb
    exact (hplug c hc).holds.isKind
  have hne : ∀ b ∈ (csL ++ [N, N']).flatMap Tree.addrs ++ up.addrs, b ≠ a := by
    rintro b hb rfl
    exact hroots hb
  obtain ⟨t', s', e, hs', v'⟩ := BTree.insertInRoom_spec hs (by simpa using hin)
    (by simpa using hlen.symm) (by simpa using hpos) hroom hk hkind
  have hgrow : t'.view.links =
      growLinks (.frame up a ksL csL [] []) t.view.links N.addr N'.addr := by
    rw [v']
    rfl
  have hbody : ∀ b, b ≠ a → t'.view.body b = t.view.body b := by
    intro b hb
    rw [v']
    simp [hb]
  have hpar : ∀ b, t'.view.par b =
      if b = N'.addr then some a else if b = N.addr then some a else t.view.par b := by
    intro b
    rw [v']
    simp
  have hflag : t'.view.flag = t.view.flag := by
    rw [v']
    rfl
  have hnot : ∀ b ∈ a :: up.addrs, b ∉ csL.map Tree.addr ++ [N.addr, N'.addr] := by
    intro b hb hb'
    simp only [List.mem_cons] at hb
    obtain rfl | hb := hb
    · exact hroots (List.mem_append_left _ (hroot b hb'))
    · exact hup (hroot b hb') hb
  have hnotN : ∀ b ∈ a :: up.addrs, b ≠ N.addr ∧ b ≠ N'.addr := by
    intro b hb
    have := hnot b hb
    simp only [List.mem_append, List.mem_cons, List.not_mem_nil, or_false, not_or] at this
    exact this.2
  refine ⟨t', e, ⟨?_, hgrow, ?_, ?_, ?_, ?_, ?_⟩⟩
  · rw [Ctx.pushUp_room _ _ _ _ _ _ _ _ _ hroom]
    have hhole : Hole P t'.view up a := by
      refine h.hole.up.congr (by rw [v']; rfl) (fun b hb => hbody b (hne b (by simp [hb])))
        (fun b hb => ?_) (fun b _ => by rw [hflag]) (fun b hb => ?_)
      · obtain ⟨h1, h2⟩ := hnotN b (by simp [hb])
        rw [hpar, if_neg h2, if_neg h1]
      · rw [hgrow]
        exact Links.grow_of_not_mem (hnot b hb)
    have hcs : ∀ c ∈ csL ++ [N, N'], Plug P t'.view c := by
      refine plugs_congr hplug hkids (fun b hb => hbody b (hne b (List.mem_append_left _ hb)))
        (fun b hb hb' => ?_) (fun b _ => by rw [hflag]) (fun hn => ?_)
      · rw [haddr] at hb'
        simp only [List.mem_append, List.mem_cons, List.not_mem_nil, or_false, not_or] at hb'
        rw [hpar, if_neg hb'.2.2, if_neg hb'.2.1]
      · rw [hgrow]
        obtain ⟨m, rfl⟩ : ∃ m, n = m + 1 := ⟨n - 1, by omega⟩
        rfl
    refine hhole.rep_node (s := s') (by rw [v']; simp) (by simpa using hs')
      (fun c hc => ⟨hcs c hc, ?_⟩) ?_ ?_ ?_ (by simpa using hnd) (by simp) (by simp [hlen])
    · simp only [List.mem_append, List.mem_cons, List.not_mem_nil, or_false] at hc
      rw [hpar]
      obtain hc | rfl | rfl := hc
      · split_ifs
        · rfl
        · rfl
        · exact hparL c hc
      · simp
      · simp
    · obtain ⟨h1, h2⟩ := hnotN a (by simp)
      rw [hpar, if_neg h2, if_neg h1]
      exact h.hole.par.1
    · rintro rfl
      rw [hgrow]
      have hch := h.hole.sibs.1 rfl
      rw [haddr]
      exact Links.isChain_grow (haddr ▸ nodup_map_addr hkids) hch.left_of_append
    · rw [hflag]
      exact h.hole.flag a (by simp)
  · intro b _ hb
    exact hbody b fun hba => hb (by simp [hba])
  · rw [v']
    exact le_refl _
  · rw [v']
    rfl
  · rw [v']
    rfl
  · rw [v']
    rfl

omit [LinearOrder K] in
theorem Plug.lt_size {m : Nat} {T : MTree K D m} (h : Plug P t.view T) {b : Addr}
    (hb : b ∈ T.addrs) : b < t.nodes.size := by
  obtain ⟨r, hr⟩ := h.holds.isSome hb
  exact BTree.body_lt_size hr

/-- The climb ends above the root: a new root. -/
theorem grown_top (hcap : 1 ≤ P.innernodemax)
    (h : Splitting P t.view (.top : MCtx K D n) x N N') :
    ∃ t', t.insertNewRoot P N.addr k N'.addr = .ok t' ∧
      Grown P t.view t'.view (.top : MCtx K D n) t.nodes.size N k N' := by
  have hnd : (N.addrs ++ N'.addrs).Nodup := by simpa using h.nodup
  obtain ⟨hndN, hndN', hdisj⟩ := List.nodup_append'.mp hnd
  have hltN : ∀ b ∈ N.addrs, b ≠ t.nodes.size := fun b hb => Nat.ne_of_lt (h.left.lt_size hb)
  have hltN' : ∀ b ∈ N'.addrs, b ≠ t.nodes.size := fun b hb => Nat.ne_of_lt (h.right.lt_size hb)
  have hNN' : N.addr ≠ N'.addr := fun heq => hdisj N.addr_mem_addrs (heq ▸ N'.addr_mem_addrs)
  have hkind : ∀ b ∈ [N.addr, N'.addr], t.view.IsKind (n == 0) b := by
    intro b hb
    simp only [List.mem_cons, List.not_mem_nil, or_false] at hb
    obtain rfl | rfl := hb
    · exact h.left.holds.isKind
    · exact h.right.holds.isKind
  obtain ⟨t', s', e, hs', v'⟩ := BTree.insertNewRoot_spec (k := k) hcap
    (hltN _ N.addr_mem_addrs) (hltN' _ N'.addr_mem_addrs) hkind
  have hgrow : t'.view.links = growLinks (.top : MCtx K D n) t.view.links N.addr N'.addr := by
    rw [v']
    rfl
  have hbody : ∀ b, b ≠ t.nodes.size → t'.view.body b = t.view.body b := by
    intro b hb
    rw [v']
    simp [hb]
  have hpar : ∀ b, t'.view.par b = if b = N'.addr then some t.nodes.size
      else if b = N.addr then some t.nodes.size else t.view.par b := by
    intro b
    rw [v']
    simp [Function.update_apply]
  have hflag : ∀ b, b ≠ t.nodes.size → t'.view.flag b = t.view.flag b := by
    intro b hb
    rw [v']
    simp [hb]
  have hlinks : 0 < n → t'.view.links = t.view.links := by
    intro hn
    rw [hgrow]
    obtain ⟨m, rfl⟩ : ∃ m, n = m + 1 := ⟨n - 1, by omega⟩
    rfl
  have hleft : Plug P t'.view N := by
    refine h.left.congr (fun b hb => hbody b (hltN b hb)) (fun b hb hne => ?_)
      (fun b hb => hflag b (hltN b hb)) (fun hn b _ => by simp [hlinks hn]) hndN
    have hb' : b ≠ N'.addr := fun heq => hdisj hb (heq ▸ N'.addr_mem_addrs)
    rw [hpar, if_neg hb', if_neg hne]
  have hright : Plug P t'.view N' := by
    refine h.right.congr (fun b hb => hbody b (hltN' b hb)) (fun b hb hne => ?_)
      (fun b hb => hflag b (hltN' b hb)) (fun hn b _ => by simp [hlinks hn]) hndN'
    have hb' : b ≠ N.addr := fun heq => hdisj (heq ▸ N.addr_mem_addrs) hb
    rw [hpar, if_neg hne, if_neg hb']
  have hhole : Hole P t'.view (.top : MCtx K D (n + 1)) t.nodes.size :=
    ⟨by rw [v']; rfl, trivial, trivial, trivial, by simp, trivial⟩
  refine ⟨t', e, ⟨?_, hgrow, fun b hb _ => hbody b (Nat.ne_of_lt hb), ?_, ?_, ?_, ?_⟩⟩
  · rw [Ctx.pushUp_top]
    refine hhole.rep_node (s := s') (by rw [v']; simp) (by simpa using hs') ?_ ?_ ?_ ?_ ?_
      (by simp) (by simp)
    · intro c hc
      simp only [List.mem_cons, List.not_mem_nil, or_false] at hc
      obtain rfl | rfl := hc
      · exact ⟨hleft, by rw [hpar]; simp⟩
      · exact ⟨hright, by rw [hpar]; simp⟩
    · rw [hpar, if_neg (hltN' _ N'.addr_mem_addrs).symm, if_neg (hltN _ N.addr_mem_addrs).symm]
      exact (BTree.view_new (le_refl _)).1
    · rintro rfl
      rw [hgrow]
      exact Links.isChain_grow (show ([] ++ [N.addr, N'.addr]).Nodup by simpa using hNN')
        List.isChain_nil
    · rw [v']
      simp
    · simp only [List.flatMap_cons, List.flatMap_nil, List.append_nil, Ctx.addrs_top,
        List.nodup_cons, List.mem_append, not_or]
      exact ⟨⟨fun hb => hltN _ hb rfl, fun hb => hltN' _ hb rfl⟩, hnd⟩
  · rw [v']
    exact Nat.le_succ _
  · rw [v']
  · rw [v']
  · rw [v']

omit [LinearOrder K] in
/-- Two new inner nodes. -/
theorem view_newInner_twice (P : Template K D) (t : BTree K D) :
    ((t.newInner P).newInner P).view.par = t.view.par ∧
    ((t.newInner P).newInner P).view.flag = t.view.flag ∧
    ((t.newInner P).newInner P).view.links = t.view.links ∧
    ∀ b < t.nodes.size, ((t.newInner P).newInner P).view.body b = t.view.body b := by
  rw [BTree.newInner_view, BTree.newInner_view]
  refine ⟨rfl, rfl, rfl, fun b hb => ?_⟩
  have h1 : b ≠ t.nodes.size := Nat.ne_of_lt hb
  have h2 : b ≠ t.nodes.size + 1 := Nat.ne_of_lt (Nat.lt_succ_of_lt hb)
  simp [h1, h2]

/-- A step of the climb: a full node is split, and its parent is next. -/
theorem splitting_full (hcap : 3 ≤ P.innernodemax) {X B : List K} {m : K}
    {CA CB : List (MTree K D n)}
    (h : Splitting P t.view (.frame up a (X ++ m :: B) (CA ++ CB) [] []) x N N')
    (hfull : P.innernodemax ≤ (X ++ m :: B).length) (hX : X.length = P.innernodemax / 2)
    (hCA : CA.length = X.length + 1) (hk : ∀ y ∈ X ++ m :: B, y ≤ k) :
    ∃ t', t.splitInner P a N.addr k N'.addr = .ok (m, t') ∧
      Splitting P t'.view up a (.node t.nodes.size X CA)
        (.node (t.nodes.size + 1) (B ++ [k]) (CB ++ [N, N'])) ∧
      t'.view.links = growLinks (.frame up a (X ++ m :: B) (CA ++ CB) [] []) t.view.links
        N.addr N'.addr ∧
      (∀ b < t.nodes.size, t'.view.body b = t.view.body b) ∧ t'.view.par a = t.view.par a ∧
      t'.nodes.size = t.nodes.size + 2 ∧ t'.view.count = t.view.count ∧
      t'.view.tailleaf = t.view.tailleaf ∧ t'.view.headleaf = t.view.headleaf := by
  obtain ⟨hnd, hplug, hparL, hx⟩ := h.kids
  obtain ⟨s, hs, hin⟩ := h.hole.holds.1
  have hlen := h.hole.paired.1
  have hcapeq : (X ++ m :: B).length = P.innernodemax := by
    refine le_antisymm ?_ hfull
    obtain ⟨r, hr⟩ := hin.keys
    rw [← hin.keyCap, hr]
    simp
  have hcap2 : X.length + (B.length + 1) = P.innernodemax := by simpa using hcapeq
  simp only [List.length_append, List.length_cons] at hlen
  have hCB : CB.length = B.length := by omega
  have hB : CB.map Tree.addr ≠ [] := by
    intro hnil
    have := congrArg List.length hnil
    simp only [List.length_map, List.length_nil] at this
    omega
  obtain ⟨hroots, hdisj⟩ := List.nodup_cons.mp hnd
  obtain ⟨hkids, -, hup⟩ := List.nodup_append'.mp hdisj
  have haddr : (CA ++ CB ++ [N, N']).map Tree.addr =
      CA.map Tree.addr ++ (CB.map Tree.addr ++ [N.addr, N'.addr]) := by simp
  -- every node of the situation is below the addresses of the two new ones
  have hlt : ∀ b ∈ (CA ++ CB ++ [N, N']).flatMap Tree.addrs, b < t.nodes.size := by
    intro b hb
    obtain ⟨c, hc, hb⟩ := List.mem_flatMap.mp hb
    exact (hplug c hc).lt_size hb
  have hltup : ∀ b ∈ a :: up.addrs, b < t.nodes.size := by
    intro b hb
    obtain ⟨r, hr⟩ := h.hole.holds.isSome (a := b) (by
      simp only [List.mem_cons, Ctx.addrs_frame, List.mem_append] at hb ⊢
      tauto)
    exact BTree.body_lt_size hr
  have hltx : x < t.nodes.size := by
    have hk := h.kind
    cases hn : (n == 0) <;> rw [hn] at hk <;> obtain ⟨r, hr⟩ := hk <;> exact BTree.body_lt_size hr
  have hroot : ∀ b ∈ CA.map Tree.addr ++ (CB.map Tree.addr ++ [N.addr, N'.addr]),
      b ∈ (CA ++ CB ++ [N, N']).flatMap Tree.addrs := by
    intro b hb
    rw [← haddr] at hb
    exact addr_mem_flatMap hb
  have hkind : ∀ b ∈ CA.map Tree.addr ++ (CB.map Tree.addr ++ [N.addr, N'.addr]),
      t.view.IsKind (n == 0) b := by
    intro b hb
    rw [← haddr] at hb
    obtain ⟨c, hc, rfl⟩ := List.mem_map.mp hb
    exact (hplug c hc).holds.isKind
  obtain ⟨w, hw⟩ : ∃ w, w = ((t.newInner P).newInner P).view := ⟨_, rfl⟩
  obtain ⟨hwpar, hwflag, hwlinks, hwbody⟩ := view_newInner_twice P t
  rw [← hw] at hwpar hwflag hwlinks hwbody
  have hwkind : ∀ b < t.nodes.size, ∀ lf, t.view.IsKind lf b → w.IsKind lf b := by
    intro b hb lf hk
    cases lf <;> simpa [View.IsKind, hwbody b hb] using hk
  have hchild : ∀ b ∈ CA.map Tree.addr ++ (CB.map Tree.addr ++ [x]),
      b < t.nodes.size ∧ t.view.IsKind (n == 0) b := by
    intro b hb
    simp only [List.mem_append, List.mem_singleton] at hb
    by_cases hbx : b = x
    · exact hbx ▸ ⟨hltx, h.kind⟩
    · have hb' : b ∈ CA.map Tree.addr ++ (CB.map Tree.addr ++ [N.addr, N'.addr]) := by
        simp only [List.mem_append]
        tauto
      exact ⟨hlt b (hroot b hb'), hkind b hb'⟩
  have ho : Overfull P w a t.nodes.size (t.nodes.size + 1) (n == 0) X m B (CA.map Tree.addr)
      (CB.map Tree.addr) x := by
    refine ⟨⟨s, ?_, by simpa using hin⟩, hcapeq, hX, by simpa using hCA, by simpa using hCB,
      by omega, Nat.ne_of_lt (hltup a (by simp)),
      Nat.ne_of_lt (Nat.lt_succ_of_lt (hltup a (by simp))), Nat.ne_of_lt (Nat.lt_succ_self _),
      fun c hc => hwkind c (hchild c hc).1 _ (hchild c hc).2,
      fun c hc => ⟨Nat.ne_of_lt (hchild c hc).1, Nat.ne_of_lt (Nat.lt_succ_of_lt (hchild c hc).1)⟩,
      ?_⟩
    · rw [hwbody a (hltup a (by simp))]
      exact hs
    · have hnd1 := nodup_map_addr hkids
      rw [haddr, ← List.append_assoc] at hnd1
      have hxroot : x ∉ CA.map Tree.addr ++ CB.map Tree.addr := by
        intro hb
        refine hx (List.mem_cons_of_mem _ (List.mem_append_left _ (hroot x ?_)))
        rw [← List.append_assoc]
        exact List.mem_append_left _ hb
      rw [← List.append_assoc]
      exact List.nodup_append'.mpr ⟨(List.nodup_append'.mp hnd1).1, by simp,
        fun b hb hb' => hxroot (by rwa [List.mem_singleton.mp hb'] at hb)⟩
  have hlinked : w.Linked (n == 0) (CA.map Tree.addr ++ (CB.map Tree.addr ++ [x])) := by
    intro hn
    rw [hwlinks]
    simpa using h.hole.sibs.1 (by simpa using hn)
  have hndroot := nodup_map_addr hkids
  rw [haddr] at hndroot
  obtain ⟨hndA, hndB, hdisjAB⟩ := List.nodup_append'.mp hndroot
  have hxnot : ∀ b ∈ (CA ++ CB ++ [N, N']).flatMap Tree.addrs ++ up.addrs, b ≠ x := by
    rintro b hb rfl
    exact hx (List.mem_cons_of_mem _ hb)
  obtain ⟨t', L, sp, sq, e, hsp, hsq, v', hgrown⟩ := BTree.splitInner_spec hw rfl rfl ho hk
    (fun hm => hdisjAB hm (by simp)) (fun hm => hdisjAB hm (by simp))
    (fun hm => hxnot x (List.mem_append_left _ (hroot x (List.mem_append_left _ hm))) rfl)
    (fun b hb => by
      have hb' := hlt b (hroot b (List.mem_append_right _ hb))
      exact ⟨Nat.ne_of_lt hb', Nat.ne_of_lt (Nat.lt_succ_of_lt hb')⟩)
    (fun b hb => hwkind b (hlt b (hroot b (List.mem_append_right _ hb))) _
      (hkind b (List.mem_append_right _ hb)))
  have hlinks : t'.view.links = t.view.links.grow (n == 0) (CB.map Tree.addr) N.addr N'.addr := by
    rw [v', ← hwlinks, View.links_setLinks, hgrown hlinked]
  have hgrow : t'.view.links =
      growLinks (.frame up a (X ++ m :: B) (CA ++ CB) [] []) t.view.links N.addr N'.addr := by
    rw [hlinks, growLinks, Ctx.lefts, List.map_append, Links.grow_append hB]
  have hbody : ∀ b < t.nodes.size, t'.view.body b = t.view.body b := by
    intro b hb
    rw [v', ← hwbody b hb, View.body_setLinks,
      View.split_body_other (Nat.ne_of_lt hb) (Nat.ne_of_lt (Nat.lt_succ_of_lt hb))]
  have hpar : ∀ b, t'.view.par b = if b ∈ CA.map Tree.addr then some t.nodes.size
      else if b ∈ CB.map Tree.addr ++ [x] ++ [N.addr, N'.addr] then some (t.nodes.size + 1)
      else t.view.par b := by
    intro b
    rw [v', ← hwpar]
    rfl
  have hflag : t'.view.flag = t.view.flag := by
    rw [v', ← hwflag]
    rfl
  have hparnot : ∀ b, b ∉ CA.map Tree.addr ++ (CB.map Tree.addr ++ [N.addr, N'.addr]) → b ≠ x →
      t'.view.par b = t.view.par b := by
    intro b hb hbx
    simp only [List.mem_append, not_or] at hb
    rw [hpar, if_neg hb.1, if_neg (by simp only [List.mem_append, List.mem_singleton]; tauto)]
  have hnot : ∀ b ∈ a :: up.addrs,
      b ∉ CA.map Tree.addr ++ (CB.map Tree.addr ++ [N.addr, N'.addr]) := by
    intro b hb hb'
    simp only [List.mem_cons] at hb
    obtain rfl | hb := hb
    · exact hroots (List.mem_append_left _ (hroot b hb'))
    · exact hup (hroot b hb') hb
  have hcs : ∀ c ∈ CA ++ CB ++ [N, N'], Plug P t'.view c := by
    refine plugs_congr hplug hkids (fun b hb => hbody b (hlt b hb)) (fun b hb hb' => ?_)
      (fun b _ => by rw [hflag]) (fun hn => ?_)
    · rw [haddr] at hb'
      exact hparnot b hb' (hxnot b (List.mem_append_left _ hb))
    · rw [hgrow]
      obtain ⟨i, rfl⟩ : ∃ i, n = i + 1 := ⟨n - 1, by omega⟩
      rfl
  have hleft : Plug P t'.view (Tree.node t.nodes.size X CA) := by
    refine Plug.node (s := sp) (by rw [v', View.body_setLinks, View.split_body_left ho.ne]) hsp
      (fun c hc => ⟨hcs c (by simp [hc]), ?_⟩) ?_ ?_ (by omega) hCA
    · rw [hpar, if_pos (List.mem_map_of_mem hc)]
    · rintro rfl
      have hch := h.hole.sibs.1 rfl
      rw [List.map_append, List.append_assoc] at hch
      refine isChain_congr hch.left_of_append fun b hb => ?_
      rw [hlinks]
      exact Links.grow_of_not_mem fun hb' => hdisjAB hb hb'
    · rw [hflag]
      exact (BTree.view_new (le_refl _)).2
  have hright : Plug P t'.view (Tree.node (t.nodes.size + 1) (B ++ [k]) (CB ++ [N, N'])) := by
    refine Plug.node (s := sq) (by rw [v', View.body_setLinks, View.split_body_right])
      (by simpa using hsq)
      (fun c hc => ⟨hcs c (by
        simp only [List.mem_append, List.mem_cons, List.not_mem_nil, or_false] at hc ⊢
        tauto), ?_⟩) ?_ ?_ (by simp) (by simp [hCB])
    · have hc' : c.addr ∈ CB.map Tree.addr ++ [N.addr, N'.addr] := by
        simpa using List.mem_map_of_mem (f := Tree.addr) hc
      rw [hpar, if_neg fun hm => hdisjAB hm hc', if_pos (by
        simp only [List.mem_append] at hc' ⊢
        tauto)]
    · rintro rfl
      have hch := h.hole.sibs.1 rfl
      rw [List.map_append, List.append_assoc] at hch
      rw [hlinks, List.map_append]
      exact Links.isChain_grow hndB hch.right_of_append.left_of_append
    · rw [hflag]
      exact (BTree.view_new (Nat.le_succ _)).2
  have hnew : ∀ b ∈ (CA ++ CB ++ [N, N']).flatMap Tree.addrs ++ up.addrs, b < t.nodes.size := by
    intro b hb
    rcases List.mem_append.mp hb with hb | hb
    · exact hlt b hb
    · exact hltup b (by simp [hb])
  have hperm : (up.addrs ++ ((Tree.node t.nodes.size X CA).addrs ++
      (Tree.node (t.nodes.size + 1) (B ++ [k]) (CB ++ [N, N'])).addrs)).Perm
      (t.nodes.size :: (t.nodes.size + 1) ::
        ((CA ++ CB ++ [N, N']).flatMap Tree.addrs ++ up.addrs)) := by
    classical
    rw [List.perm_iff_count]
    intro b
    simp only [Tree.addrs_node, List.flatMap_append, List.count_append, List.count_cons]
    omega
  refine ⟨t', e, ⟨?_, hleft, hright, ?_, ?_, ⟨s, ?_⟩⟩, hgrow, hbody, ?_, ?_, ?_, ?_, ?_⟩
  · refine h.hole.up.congr (by rw [v', hw]; rfl) (fun b hb => hbody b (hltup b (by simp [hb])))
      (fun b hb => hparnot b (hnot b (by simp [hb])) (hxnot b (List.mem_append_right _ hb)))
      (fun b _ => by rw [hflag]) (fun b hb => ?_)
    rw [hgrow]
    exact Links.grow_of_not_mem (by simpa [Ctx.lefts] using hnot b hb)
  · refine hperm.nodup_iff.mpr (List.nodup_cons.mpr ⟨?_, List.nodup_cons.mpr ⟨?_, hdisj⟩⟩)
    · intro hb
      rcases List.mem_cons.mp hb with hb | hb
      · exact absurd hb (Nat.ne_of_lt (Nat.lt_succ_self _))
      · exact absurd (hnew _ hb) (Nat.lt_irrefl _)
    · intro hb
      exact absurd (hnew _ hb) (Nat.not_lt.mpr (Nat.le_succ _))
  · intro hb
    rcases List.mem_cons.mp (hperm.mem_iff.mp hb) with hb | hb
    · exact Nat.ne_of_lt (hltup a (by simp)) hb
    · rcases List.mem_cons.mp hb with hb | hb
      · exact Nat.ne_of_lt (Nat.lt_succ_of_lt (hltup a (by simp))) hb
      · exact hroots hb
  · rw [hbody a (hltup a (by simp))]
    exact hs
  · exact hparnot a (hnot a (by simp)) fun hax => hx (by simp [hax])
  · have : t'.view.size = t.nodes.size + 2 := by
      rw [v', hw, BTree.newInner_view, BTree.newInner_view]
      rfl
    exact this
  · rw [v', hw]
    rfl
  · rw [v', hw]
    rfl
  · rw [v', hw]
    rfl

/-- `insert_in_parent` is `pushUp`. -/
theorem insertInParent_spec {m : Nat} (c : MCtx K D m) (hcap : c.Growable P.innernodemax)
    {N N' : MTree K D m} (h : Splitting P t.view c x N N') (hend : c.AtEnd P.innernodemax k)
    {fuel : Nat} (hfuel : c.depth < fuel) :
    ∃ t', BTree.insertInParent P fuel t c.parent N.addr k N'.addr = .ok t' ∧
      Grown P t.view t'.view c t.nodes.size N k N' := by
  induction c generalizing t k fuel x with
  | top =>
    obtain ⟨fuel, rfl⟩ : ∃ f, fuel = f + 1 := ⟨fuel - 1, by omega⟩
    exact grown_top hcap h
  | @frame m up a ksL csL ksR csR ih =>
    obtain ⟨fuel, rfl⟩ : ∃ f, fuel = f + 1 := ⟨fuel - 1, by omega⟩
    obtain ⟨rfl, rfl, hk, hnext⟩ := hend
    obtain ⟨s, hs, hin⟩ := h.hole.holds.1
    have hlen := h.hole.paired.1
    have hnum : s.numChildren = ksL.length + 1 := by
      rw [hin.num, hlen]
      simp
    by_cases hroom : ksL.length < P.innernodemax
    · obtain ⟨t', e, hg⟩ := grown_room h hroom hk
      refine ⟨t', ?_, hg⟩
      simp only [BTree.insertInParent, Ctx.parent_frame, BTree.inner_eq hs, ok_bind, hnum]
      rw [if_pos (by omega), e]
    · have hfull := Nat.not_lt.mp hroom
      have hcap3 : 3 ≤ P.innernodemax := hcap.resolve_right hroom
      obtain ⟨X, j, B, CA, CB, rfl, rfl, hX, hCA⟩ := Ctx.exists_cut hlen hfull (by omega)
      obtain ⟨t1, e1, h1, hl1, hb1, hp1, hz1, hc1, ht1, hh1⟩ :=
        splitting_full hcap3 h hfull hX hCA hk
      obtain ⟨s1, hs1, -⟩ : ∃ s1, t1.view.body a = some (.inner s1) ∧ True := by
        obtain ⟨r, hr⟩ := h1.kind
        exact ⟨r, hr, trivial⟩
      have hup : t1.view.par a = up.parent := hp1.trans h.hole.par.1
      obtain ⟨t2, e2, hg⟩ := ih (Ctx.growable_of_three hcap3 up) h1 (hnext hfull j (by simp [← hX]))
        (show up.depth < fuel by simp only [Ctx.depth] at hfuel; omega)
      refine ⟨t2, ?_, ?_, ?_, ?_, ?_, ?_, ?_, ?_⟩
      · simp only [BTree.insertInParent, Ctx.parent_frame, BTree.inner_eq hs, ok_bind, hnum]
        rw [if_neg (by omega)]
        simp only [e1, ok_bind, BTree.inner_eq hs1, hup]
        exact e2
      · rw [Ctx.pushUp_full _ _ _ _ _ _ hfull hX hCA]
        rw [hz1] at hg
        exact hg.rep
      · rw [hg.links, growLinks_succ, hl1]
      · intro b hb hb'
        have hb1' : b < t1.view.size := by
          rw [BTree.size_view, hz1]
          exact Nat.lt_of_lt_of_le hb (Nat.le_add_right _ _)
        rw [hg.body b hb1' fun hu => hb' (by simp [hu]), hb1 b hb]
      · refine le_trans ?_ hg.size
        rw [BTree.size_view, BTree.size_view, hz1]
        exact Nat.le_add_right _ _
      · rw [hg.count, hc1]
      · rw [hg.tailleaf, ht1]
      · rw [hg.headleaf, hh1]

end Climb

end NwtBTree
