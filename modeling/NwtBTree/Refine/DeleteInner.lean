import NwtBTree.Multiway.Order
import NwtBTree.Multiway.Shrink
import NwtBTree.Refine.MergeInner

/-!
# `deleteInnerNode` is `Settled`

`deleteInnerNode` takes a child and a separator out of a node and repairs the
node above where that is left too small. As long as no left sibling would have
to hand over a child, it climbs as `Ctx.Settled` does. The leaf chain changes at
the removed leaf and at the seam of the first merge.
-/

namespace NwtBTree

variable {K D : Type} {P : Template K D}

/-- The node `a` in the hole holds the separators `ks` and the children `cs`; they may be
too few. -/
structure Stripped (P : Template K D) (v : View K D) {n : Nat} (up : MCtx K D (n + 1)) (a : Addr)
    (ks : List K) (cs : List (MTree K D n)) : Prop where
  hole : Hole P v up a
  body : ∃ s, v.body a = some (.inner s) ∧ InnerHas P s ks (cs.map Tree.addr)
  kids : ∀ c ∈ cs, Plug P v c ∧ v.par c.addr = some a
  par : v.par a = up.parent
  flag : v.flag a = decide (a = up.rootAddr a)
  chain : n = 0 → (cs.map Tree.addr).IsChain v.links.Joined
  nodup : (a :: (cs.flatMap Tree.addrs ++ up.addrs)).Nodup
  len : cs.length = ks.length + 1

/-- The situation in which `deleteInnerNode` is called: the child at `x` of the node `a` and the
separator `k` are to go. -/
structure Doomed (P : Template K D) (v : View K D) {n : Nat} (up : MCtx K D (n + 1)) (a : Addr)
    (ksL : List K) (k : K) (ksR : List K) (csL : List (MTree K D n)) (x : Addr)
    (csR : List (MTree K D n)) : Prop where
  hole : Hole P v up a
  body : ∃ s, v.body a = some (.inner s) ∧
    InnerHas P s (ksL ++ k :: ksR) (csL.map Tree.addr ++ x :: csR.map Tree.addr)
  kids : ∀ c ∈ csL ++ csR, Plug P v c ∧ v.par c.addr = some a
  par : v.par a = up.parent
  flag : v.flag a = decide (a = up.rootAddr a)
  chain : n = 0 → (csL.map Tree.addr ++ x :: csR.map Tree.addr).IsChain v.links.Joined
  nodup : (x :: a :: ((csL ++ csR).flatMap Tree.addrs ++ up.addrs)).Nodup
  kind : v.IsKind (n == 0) x
  len : (csL ++ csR).length = (ksL ++ ksR).length + 1

/-- Of equal separators any one may be meant. -/
theorem Doomed.recut {v : View K D} {n : Nat} {up : MCtx K D (n + 1)} {a x : Addr}
    {ksL ksR kL kR : List K} {k : K} {csL csR : List (MTree K D n)}
    (h : Doomed P v up a ksL k ksR csL x csR) (hcut : kL ++ k :: kR = ksL ++ k :: ksR) :
    Doomed P v up a kL k kR csL x csR := by
  have hlen := congrArg List.length hcut
  simp only [List.length_append, List.length_cons] at hlen
  refine ⟨h.hole, hcut ▸ h.body, h.kids, h.par, h.flag, h.chain, h.nodup, h.kind, ?_⟩
  rw [h.len, List.length_append, List.length_append]
  omega

namespace Links

theorem bypass_of_not_mem {l : Links} {as bs : List Addr} {x c : Addr} (hc : c ∉ as ++ bs) :
    (l.bypass as x bs).nxt c = l.nxt c ∧ (l.bypass as x bs).prv c = l.prv c := by
  rcases List.eq_nil_or_concat as with rfl | ⟨as, p, rfl⟩
  · match bs with
    | [] => exact ⟨rfl, rfl⟩
    | [b] => exact ⟨rfl, rfl⟩
    | b :: b' :: bs =>
      have hb : c ≠ b := fun h => hc (by simp [h])
      simp [bypass, hb]
  · have hp : c ≠ p := fun h => hc (by simp [h])
    cases bs with
    | nil => simp [bypass, hp]
    | cons b bs =>
      have hb : c ≠ b := fun h => hc (by simp [h])
      simp [bypass, hp, hb]

/-- The children that stay are joined. -/
theorem isChain_bypass {l : Links} {as bs : List Addr} {x : Addr} (hnd : (as ++ x :: bs).Nodup)
    (h : (as ++ x :: bs).IsChain l.Joined) :
    (as ++ bs).IsChain ((l.bypass as x bs).forget x).Joined := by
  obtain ⟨hx, hnd'⟩ := List.nodup_cons.mp (List.nodup_middle.mp hnd)
  have has := h.left_of_append
  have hbs : bs.IsChain l.Joined := h.right_of_append.tail
  have hforget : ∀ l' : Links, (as ++ bs).IsChain l'.Joined →
      (as ++ bs).IsChain (l'.forget x).Joined := fun l' h' => isChain_congr h' fun b hb => by
    simp [forget, ne_of_mem_of_not_mem hb hx]
  refine hforget _ ?_
  rcases List.eq_nil_or_concat as with rfl | ⟨as, p, rfl⟩
  · rcases bs with - | ⟨b, - | ⟨b', bs⟩⟩
    · exact .nil
    · exact .singleton b
    · have := relink_none (l := l) (by simpa using hnd') hbs
      rw [List.nil_append]
      rw [List.isChain_iff_forall_rel_of_append_cons_cons] at hbs ⊢
      intro c d X Y heq
      have hd : d ≠ b := by
        rintro rfl
        cases X <;> simp_all
      exact (hbs heq).congr rfl (by simp [bypass, hd])
  · cases bs with
    | nil =>
      rw [List.append_nil] at *
      rw [List.isChain_iff_forall_rel_of_append_cons_cons] at has ⊢
      intro c d X Y heq
      have hc : c ≠ p := by
        rintro rfl
        have hlast : (d :: Y).getLast? = some c := by
          have := congrArg List.getLast? heq
          rw [List.concat_eq_append, List.getLast?_concat, List.getLast?_append_of_ne_nil _
            (by simp),
            List.getLast?_cons_cons] at this
          exact this.symm
        have := List.mem_of_getLast? hlast
        rw [heq] at hnd'
        exact (List.nodup_cons.mp (List.nodup_append'.mp hnd').2.1).1 this
      exact (has heq).congr (by simp [bypass, hc]) (by simp [bypass])
    | cons b bs =>
      rw [List.concat_eq_append] at *
      have hlink : l.bypass (as ++ [p]) x (b :: bs) = l.bridge true (as ++ [p]) (b :: bs) := by
        simp [bypass, bridge]
      rw [hlink]
      exact isChain_bridge hnd' has hbs

/-- An inner node is in no chain, and freeing it touches none. -/
theorem forget_inner {t : BTree K D} {x : Addr} {s : InnerSlots K}
    (h : t.view.body x = some (.inner s)) : t.view.links.forget x = t.view.links := by
  obtain ⟨hn, hp⟩ := BTree.links_of_inner h
  have h1 : Function.update t.view.links.nxt x none = t.view.links.nxt := by simp [hn]
  have h2 : Function.update t.view.links.prv x none = t.view.links.prv := by simp [hp]
  rw [forget, h1, h2]

end Links

section Removal

variable {t : BTree K D} {n : Nat} {up : MCtx K D (n + 1)} {a x : Addr}
  {ks ksL ksR : List K} {k : K}
  {cs csL csR : List (MTree K D n)}

theorem Stripped.rep {v : View K D} (h : Stripped P v up a ks cs) (hpos : 0 < ks.length) :
    Rep P v (up.fill (.node a ks cs)).2 := by
  obtain ⟨s, hs, hin⟩ := h.body
  exact h.hole.rep_node hs hin h.kids h.par h.chain h.flag h.nodup hpos h.len

/-- The links after the child at `x` was removed. -/
def removalLinks (lf : Bool) (l : Links) (as : List Addr) (x : Addr) (bs : List Addr) : Links :=
  (if lf then l.bypass as x bs else l).forget x

theorem Doomed.removed (h : Doomed P t.view up a ksL k ksR csL x csR) :
    ∃ t', t.removeChild a csL.length ksL.length = .ok t' ∧
      Stripped P t'.view up a (ksL ++ ksR) (csL ++ csR) ∧
      t'.view.links = removalLinks (n == 0) t.view.links (csL.map Tree.addr) x (csR.map Tree.addr) ∧
      (∀ b, b ≠ a → b ≠ x → t'.view.body b = t.view.body b) ∧ t'.view.size = t.view.size ∧
      t'.view.count = t.view.count ∧ t'.view.tailleaf = t.view.tailleaf ∧
      t'.view.headleaf = t.view.headleaf := by
  obtain ⟨s, hs, hin⟩ := h.body
  obtain ⟨hx, hnda⟩ := List.nodup_cons.mp h.nodup
  obtain ⟨ha, hnd⟩ := List.nodup_cons.mp hnda
  obtain ⟨hkids, -, hdisj⟩ := List.nodup_append'.mp hnd
  have hxa : x ≠ a := fun hxa => hx (by simp [hxa])
  have hxkid : ∀ b ∈ (csL ++ csR).flatMap Tree.addrs ++ up.addrs, b ≠ x ∧ b ≠ a := fun b hb =>
    ⟨by rintro rfl; exact hx (List.mem_cons_of_mem _ hb), by rintro rfl; exact ha hb⟩
  have hroot : ∀ b ∈ csL.map Tree.addr ++ csR.map Tree.addr,
      b ∈ (csL ++ csR).flatMap Tree.addrs := by
    intro b hb
    rw [← List.map_append] at hb
    exact addr_mem_flatMap hb
  have hndroot : (csL.map Tree.addr ++ x :: csR.map Tree.addr).Nodup := by
    rw [List.perm_middle.nodup_iff, List.nodup_cons]
    refine ⟨fun hm => (hxkid x (List.mem_append_left _ (hroot x hm))).1 rfl, ?_⟩
    rw [← List.map_append]
    exact nodup_map_addr hkids
  have hkind : ∀ b ∈ csL.map Tree.addr ++ x :: csR.map Tree.addr, t.view.IsKind (n == 0) b := by
    intro b hb
    by_cases hbx : b = x
    · exact hbx ▸ h.kind
    · have hb' : b ∈ (csL ++ csR).map Tree.addr := by
        simp only [List.map_append, List.mem_append, List.mem_cons] at hb ⊢
        tauto
      obtain ⟨c, hc, rfl⟩ := List.mem_map.mp hb'
      exact (h.kids c hc).1.holds.isKind
  obtain ⟨s', t', e, hs', v'⟩ := BTree.removeChild_spec hs hin
    (by simpa using h.len) hndroot hxa hkind (fun hn => h.chain (by simpa using hn))
  have hlinks : t'.view.links =
      removalLinks (n == 0) t.view.links (csL.map Tree.addr) x (csR.map Tree.addr) := by
    rw [v']
    rfl
  have hbody : ∀ b, b ≠ a → b ≠ x → t'.view.body b = t.view.body b := by
    intro b hba hbx
    rw [v']
    simp [hba, hbx]
  have hpar : ∀ b, b ≠ x → t'.view.par b = t.view.par b := by
    intro b hbx
    rw [v']
    simp [View.setLinks, hbx]
  have hflag : ∀ b, b ≠ x → t'.view.flag b = t.view.flag b := by
    intro b hbx
    rw [v']
    simp [View.setLinks, hbx]
  have hother : ∀ b, b ≠ x → b ∉ csL.map Tree.addr ++ csR.map Tree.addr →
      t'.view.links.nxt b = t.view.links.nxt b ∧ t'.view.links.prv b = t.view.links.prv b := by
    intro b hbx hb
    rw [hlinks, removalLinks]
    cases hn : n == 0 with
    | false => simp [Links.forget, hbx]
    | true => simpa [Links.forget, hbx] using Links.bypass_of_not_mem (l := t.view.links) hb
  refine ⟨t', by simpa using e, ⟨?_, ⟨s', by rw [v']; simp, by simpa using hs'⟩, ?_, ?_, ?_, ?_,
    hnda, h.len⟩, hlinks,
    hbody, by rw [v']; rfl, by rw [v']; rfl, by rw [v']; rfl, by rw [v']; rfl⟩
  · refine h.hole.congr (by rw [v']; rfl) ?_ ?_ ?_ ?_
    · intro b hb
      obtain ⟨h1, h2⟩ := hxkid b (List.mem_append_right _ hb)
      exact hbody b h2 h1
    · exact fun b hb => hpar b (hxkid b (List.mem_append_right _ hb)).1
    · exact fun b hb => hflag b (hxkid b (List.mem_append_right _ hb)).1
    · intro b hb
      rcases List.mem_cons.mp hb with rfl | hb
      · exact hother b hxa.symm fun hm => ha (List.mem_append_left _ (hroot b hm))
      · exact hother b (hxkid b (List.mem_append_right _ hb)).1 fun hm => hdisj (hroot b hm) hb
  · intro c hc
    have hmem : ∀ b ∈ c.addrs, b ∈ (csL ++ csR).flatMap Tree.addrs ++ up.addrs := fun b hb =>
      List.mem_append_left _ (mem_flatMap_addrs hc hb)
    obtain ⟨hp, hpc⟩ := h.kids c hc
    refine ⟨hp.congr ?_ ?_ ?_ ?_ ((List.nodup_flatMap.mp hkids).1 c hc), ?_⟩
    · intro b hb
      obtain ⟨h1, h2⟩ := hxkid b (hmem b hb)
      exact hbody b h2 h1
    · exact fun b hb _ => hpar b (hxkid b (hmem b hb)).1
    · exact fun b hb => hflag b (hxkid b (hmem b hb)).1
    · intro hn b hb
      have hn0 : (n == 0) = false := by simpa using Nat.pos_iff_ne_zero.mp hn
      rw [hlinks, removalLinks, hn0]
      simp [Links.forget, (hxkid b (hmem b hb)).1]
    · rw [hpar _ (hxkid _ (hmem _ c.addr_mem_addrs)).1, hpc]
  · rw [hpar a hxa.symm, h.par]
  · rw [hflag a hxa.symm, h.flag]
  · rintro rfl
    rw [hlinks, List.map_append]
    exact Links.isChain_bypass hndroot (h.chain rfl)

end Removal

/-! ## Repairing the node with a sibling -/

section Siblings

variable {v v' : View K D} {n : Nat} {up : MCtx K D (n + 2)} {a b d : Addr} {ks kn ksL ksR : List K}
  {cs cn : List (MTree K D n)} {csL csR O : List (MTree K D (n + 1))}

/-- Below the root no node carries the root flag. -/
theorem Stripped.flag_frame (h : Stripped P v (.frame up b ksL csL ksR csR) a ks cs) :
    v.flag a = false := by
  rw [h.flag, decide_eq_false_iff_not]
  intro heq
  have hmem : a ∈ (Ctx.frame up b ksL csL ksR csR).addrs := by
    rw [heq]
    exact Ctx.rootAddr_mem (Ctx.parent_frame up b ksL ksR csL csR)
  exact (List.nodup_cons.mp h.nodup).1 (List.mem_append_right _ hmem)

/-- All nodes, sorted by what the repair does to them. -/
theorem Stripped.apart (h : Stripped P v (.frame up b ksL csL ksR csR) a ks cs)
    (hO : (csL ++ csR).Perm (.node d kn cn :: O)) :
    (a :: b :: d ::
      ((cs ++ cn).flatMap Tree.addrs ++ (O.flatMap Tree.addrs ++ up.addrs))).Nodup := by
  refine (List.Perm.nodup_iff ?_).mp h.nodup
  refine List.Perm.cons a ?_
  have hsib := hO.flatMap_right (Tree.addrs (A := Addr) (K := K) (L := LeafSlots K D))
  rw [List.flatMap_append, List.flatMap_cons] at hsib
  rw [Ctx.addrs_frame, List.flatMap_append]
  calc cs.flatMap Tree.addrs ++ b :: (csL.flatMap Tree.addrs ++ csR.flatMap Tree.addrs ++ up.addrs)
      _ |>.Perm (b :: (cs.flatMap Tree.addrs ++
          (csL.flatMap Tree.addrs ++ csR.flatMap Tree.addrs ++ up.addrs))) := List.perm_middle
      _ |>.Perm (b :: (cs.flatMap Tree.addrs ++ (d :: cn.flatMap Tree.addrs ++
          O.flatMap Tree.addrs ++ up.addrs))) :=
        .cons b (.append_left _ (.append_right _ hsib))
      _ |>.Perm _ := by
        simp only [List.cons_append, List.append_assoc]
        exact .cons b List.perm_middle

/-- The children of `a` and `d` are of one kind and apart from the nodes above them. -/
theorem Stripped.roots (h : Stripped P v (.frame up b ksL csL ksR csR) a ks cs)
    (hO : (csL ++ csR).Perm (.node d kn cn :: O)) :
    (a ≠ b ∧ a ≠ d ∧ b ≠ d) ∧ ((cs ++ cn).map Tree.addr).Nodup ∧
      ∀ e ∈ (cs ++ cn).map Tree.addr, e ≠ a ∧ e ≠ d ∧ v.IsKind (n == 0) e := by
  have hnd := h.apart hO
  simp only [List.nodup_cons, List.mem_cons, not_or] at hnd
  obtain ⟨⟨hab, had, ha⟩, ⟨hbd, -⟩, hd, hnd⟩ := hnd
  obtain ⟨hkids, -, -⟩ := List.nodup_append'.mp hnd
  refine ⟨⟨hab, had, hbd⟩, nodup_map_addr hkids, fun e he => ⟨?_, ?_, ?_⟩⟩
  · rintro rfl
    exact ha (List.mem_append_left _ (addr_mem_flatMap he))
  · rintro rfl
    exact hd (List.mem_append_left _ (addr_mem_flatMap he))
  · obtain ⟨c, hc, rfl⟩ := List.mem_map.mp he
    rcases List.mem_append.mp hc with hc | hc
    · exact (h.kids c hc).1.holds.isKind
    · have hmem : Tree.node d kn cn ∈ csL ++ csR := hO.mem_iff.mpr List.mem_cons_self
      have hd : Holds P v.body (Tree.node d kn cn) := by
        rcases List.mem_append.mp hmem with hm | hm
        · exact h.hole.holds.2.1 _ hm
        · exact h.hole.holds.2.2.1 _ hm
      exact (hd.2 c hc).isKind

/-- What the repair leaves alone: all nodes but `a`, its parent `b` and the sibling `d`, and the
parents and the links of all nodes but the children of `a` and `d`. -/
theorem Stripped.siblings (h : Stripped P v (.frame up b ksL csL ksR csR) a ks cs)
    (v' : View K D) (hO : (csL ++ csR).Perm (.node d kn cn :: O)) (hroot : v'.root = v.root)
    (hbody : ∀ c, c ≠ a → c ≠ b → c ≠ d → v'.body c = v.body c)
    (hpar : ∀ c, c ∉ (cs ++ cn).map Tree.addr → v'.par c = v.par c) (hflag : v'.flag = v.flag)
    (hlinks : ∀ c, c ∉ (cs ++ cn).map Tree.addr →
      v'.links.nxt c = v.links.nxt c ∧ v'.links.prv c = v.links.prv c)
    (hinner : 0 < n → v'.links = v.links) :
    Hole P v' up b ∧ (∀ e ∈ O, Plug P v' e ∧ v'.par e.addr = some b) ∧
      (∀ e ∈ cs ++ cn, Plug P v' e) ∧ v'.par a = some b ∧ v'.par b = up.parent ∧ v'.par d = some b ∧
      v'.flag a = false ∧ v'.flag b = decide (b = up.rootAddr b) ∧ v'.flag d = false ∧
      ∀ e ∈ cn, v.par e.addr = some d := by
  have hnd := h.apart hO
  obtain ⟨ha, hnd⟩ := List.nodup_cons.mp hnd
  obtain ⟨hb, hnd⟩ := List.nodup_cons.mp hnd
  obtain ⟨hd, hnd⟩ := List.nodup_cons.mp hnd
  obtain ⟨hkids, hrest, hdisj⟩ := List.nodup_append'.mp hnd
  have hsib := h.hole.siblings (by
    have := h.nodup
    rw [List.nodup_cons, List.nodup_append'] at this
    exact this.2.2.1)
  have hsibO : ∀ e ∈ .node d kn cn :: O, Plug P v e ∧ v.par e.addr = some b := fun e he =>
    hsib e (hO.mem_iff.mpr he)
  obtain ⟨hdp, hdpar⟩ := hsibO _ List.mem_cons_self
  have hroots : ∀ c ∈ (cs ++ cn).map Tree.addr, c ∈ (cs ++ cn).flatMap Tree.addrs := fun c hc =>
    addr_mem_flatMap hc
  have hcnpar : ∀ e ∈ cn, v.par e.addr = some d := by
    intro e he
    have := hdp.par.2 e he
    cases n with
    | zero => exact this
    | succ n => exact this.1
  have hfar : ∀ c ∈ O.flatMap Tree.addrs ++ up.addrs, v'.body c = v.body c ∧ v'.par c = v.par c ∧
      v'.links.nxt c = v.links.nxt c ∧ v'.links.prv c = v.links.prv c := by
    intro c hc
    have hnot : c ∉ (cs ++ cn).map Tree.addr := fun hm => hdisj (hroots c hm) hc
    refine ⟨hbody c ?_ ?_ ?_, hpar c hnot, hlinks c hnot⟩
    · rintro rfl
      exact ha (by simp only [List.mem_cons, List.mem_append] at hc ⊢; tauto)
    · rintro rfl
      exact hb (by simp only [List.mem_cons, List.mem_append] at hc ⊢; tauto)
    · rintro rfl
      exact hd (by simp only [List.mem_append] at hc ⊢; tauto)
  have hnot : ∀ c, c = a ∨ c = b ∨ c = d → c ∉ (cs ++ cn).map Tree.addr := by
    rintro c hc hm
    have := hroots c hm
    rcases hc with rfl | rfl | rfl
    · exact ha (by simp only [List.mem_cons, List.mem_append]; tauto)
    · exact hb (by simp only [List.mem_cons, List.mem_append]; tauto)
    · exact hd (by simp only [List.mem_append]; tauto)
  refine ⟨?_, ?_, ?_, ?_, ?_, ?_, ?_, ?_, ?_, hcnpar⟩
  · refine h.hole.up.congr hroot ?_ ?_ (fun c _ => by rw [hflag]) ?_
    · exact fun c hc => (hfar c (List.mem_append_right _ hc)).1
    · exact fun c hc => (hfar c (List.mem_append_right _ hc)).2.1
    · intro c hc
      rcases List.mem_cons.mp hc with rfl | hc
      · exact hlinks c (hnot c (by simp))
      · exact (hfar c (List.mem_append_right _ hc)).2.2
  · intro e he
    have hmem : ∀ c ∈ e.addrs, c ∈ O.flatMap Tree.addrs ++ up.addrs := fun c hc =>
      List.mem_append_left _ (mem_flatMap_addrs he hc)
    obtain ⟨hp, hpar'⟩ := hsibO e (by simp [he])
    refine ⟨hp.congr ?_ ?_ (fun c _ => by rw [hflag]) ?_ ?_, ?_⟩
    · exact fun c hc => (hfar c (hmem c hc)).1
    · exact fun c hc _ => (hfar c (hmem c hc)).2.1
    · exact fun _ c hc => (hfar c (hmem c hc)).2.2
    · exact (List.nodup_flatMap.mp (List.nodup_append'.mp hrest).1).1 e he
    · rw [(hfar _ (hmem _ e.addr_mem_addrs)).2.1, hpar']
  · refine plugs_congr ?_ hkids ?_ (fun c _ hc => hpar c hc) (fun c _ => by rw [hflag]) hinner
    · intro e he
      rcases List.mem_append.mp he with he | he
      · exact (h.kids e he).1
      · exact ⟨hdp.holds.2 e he, hcnpar e he ▸ hdp.par.2 e he, hdp.sibs.2 e he, fun c hc =>
          hdp.flag c (by
            rw [Tree.addrs_node]
            exact List.mem_cons_of_mem _ (mem_flatMap_addrs he hc)),
          hdp.paired.2.2 e he⟩
    · intro c hc
      refine hbody c ?_ ?_ ?_
      · rintro rfl
        exact ha (by simp only [List.mem_cons, List.mem_append] at hc ⊢; tauto)
      · rintro rfl
        exact hb (by simp only [List.mem_cons, List.mem_append] at hc ⊢; tauto)
      · rintro rfl
        exact hd (by simp only [List.mem_append] at hc ⊢; tauto)
  · rw [hpar a (hnot a (by simp)), h.par]
    rfl
  · rw [hpar b (hnot b (by simp)), h.hole.par.1]
  · rw [hpar d (hnot d (by simp))]
    exact hdpar
  · rw [hflag, h.flag_frame]
  · rw [hflag]
    exact h.hole.flag b (by simp)
  · rw [hflag]
    exact hdp.flag d (by simp)

/-- The children of `a` and of its sibling `d` are all below `d` now, and `a` is to go. -/
theorem Stripped.joined {s : InnerSlots K} {X kL kR : List K} {k : K} {Y : List (MTree K D n)}
    {csL' csR' : List (MTree K D (n + 1))} {A B : List Addr}
    (h : Stripped P v (.frame up b ksL csL ksR csR) a ks cs)
    (hO : (csL ++ csR).Perm (.node d kn cn :: O)) (hO' : (csL' ++ csR').Perm (.node d X Y :: O))
    (hL : csL'.map Tree.addr = csL.map Tree.addr) (hR : csR'.map Tree.addr = csR.map Tree.addr)
    (hY : Y.Perm (cs ++ cn)) (hX : Y.length = X.length + 1) (hpos : 0 < X.length)
    (hks : ksL ++ ksR = kL ++ k :: kR) (hs : InnerHas P s X (Y.map Tree.addr))
    (hAB : A ++ B = Y.map Tree.addr) (hA : n = 0 → A.IsChain v.links.Joined)
    (hB : n = 0 → B.IsChain v.links.Joined)
    (hv : v' = ((v.setBody d (.inner s)).adopt d (cs.map Tree.addr)).setLinks
      (v.links.bridge (n == 0) A B)) :
    Doomed P v' up b kL k kR csL' a csR' := by
  have hnd := h.apart hO
  have hAB' : ∀ c, c ∈ A ++ B ↔ c ∈ (cs ++ cn).map Tree.addr := by
    intro c
    rw [hAB]
    exact (hY.map Tree.addr).mem_iff
  have hmap : ∀ c, c ∉ (cs ++ cn).map Tree.addr → c ∉ cs.map Tree.addr := fun c hc hm =>
    hc (by simp only [List.map_append, List.mem_append]; exact .inl hm)
  obtain ⟨hup, hsib, hkids, hpa, hpb, hpd, hfa, hfb, hfd, hcn⟩ := h.siblings v' hO
    (by rw [hv]; rfl) (fun c _ _ hc => by rw [hv]; simp [hc])
    (fun c hc => by rw [hv]; exact if_neg (hmap c hc))
    (by rw [hv]; rfl)
    (fun c hc => by
      rw [hv]
      exact Links.bridge_of_not_mem fun hm => hc ((hAB' c).mp hm))
    (fun hn => by
      have hn0 : (n == 0) = false := by simpa using Nat.pos_iff_ne_zero.mp hn
      rw [hv, hn0]
      rfl)
  obtain ⟨s0, hs0, hin0⟩ := h.hole.holds.1
  obtain ⟨hab, hroots, -⟩ := h.roots hO
  have hpar : ∀ e ∈ Y, v'.par e.addr = some d := by
    intro e he
    rw [hv]
    simp only [View.setLinks, View.par_adopt]
    split
    · rfl
    · rename_i hm
      rcases List.mem_append.mp (hY.mem_iff.mp he) with he | he
      · exact absurd (List.mem_map_of_mem he) hm
      · exact hcn e he
  have hYnd : (Y.map Tree.addr).Nodup := (hY.map Tree.addr).nodup_iff.mpr hroots
  have hmerged : Plug P v' (Tree.node d X Y) := by
    refine Plug.node (s := s) (by rw [hv]; simp) hs (fun e he =>
      ⟨hkids e (hY.mem_iff.mp he), hpar e he⟩) ?_ hfd hpos hX
    rintro rfl
    rw [hv, ← hAB]
    exact Links.isChain_bridge (hAB ▸ hYnd) (hA rfl) (hB rfl)
  have hlenL := congrArg List.length hL
  have hlenR := congrArg List.length hR
  have hlenK := congrArg List.length hks
  obtain ⟨hpL, hpR, -⟩ := h.hole.paired
  simp only [List.length_map, List.length_append, List.length_cons] at hlenL hlenR hlenK
  refine ⟨hup, ⟨s0, by rw [hv]; simpa [hab.2.2] using hs0, ?_⟩, ?_, hpb, hfb,
    fun hn => absurd hn n.succ_ne_zero, ?_, ?_, ?_⟩
  · rw [hL, hR, ← hks]
    exact hin0
  · intro e he
    rcases List.mem_cons.mp (hO'.mem_iff.mp he) with rfl | he
    · exact ⟨hmerged, hpd⟩
    · exact hsib e he
  · refine (List.Perm.nodup_iff ?_).mp hnd
    have hflat := hO'.flatMap_right (Tree.addrs (A := Addr) (K := K) (L := LeafSlots K D))
    rw [List.flatMap_cons, Tree.addrs_node] at hflat
    have hYf := hY.flatMap_right (Tree.addrs (A := Addr) (K := K) (L := LeafSlots K D))
    refine .cons a (.cons b ?_)
    rw [← List.append_assoc, ← List.cons_append]
    refine .append_right _ (.trans ?_ hflat.symm)
    exact .append_right _ (.cons d hYf.symm)
  · obtain ⟨sa, hsa, -⟩ := h.body
    exact ⟨sa, by rw [hv]; simpa [hab.2.1] using hsa⟩
  · simp only [List.length_append]
    omega

/-- The first child of the right sibling `d` is below `a` now. -/
theorem Stripped.lent {s1 s2 s3 : InnerSlots K} {s z : K} {c : MTree K D n}
    (h : Stripped P v (.frame up b ksL csL (s :: ksR) (.node d (z :: kn) (c :: cn) :: csR)) a ks cs)
    (hkn : 0 < kn.length) (hs1 : InnerHas P s1 (ks ++ [s]) (cs.map Tree.addr ++ [c.addr]))
    (hs2 : InnerHas P s2 (ksL ++ z :: ksR) (csL.map Tree.addr ++ a :: d :: csR.map Tree.addr))
    (hs3 : InnerHas P s3 kn (cn.map Tree.addr))
    (hv : v' = (((((v.setBody a (.inner s1)).setPar c.addr (some a)).setLinks
      (v.links.bridge (n == 0) (cs.map Tree.addr) (c.addr :: cn.map Tree.addr))).setBody b
        (.inner s2)).setBody d (.inner s3))) :
    Rep P v' (up.fill (.node b (ksL ++ z :: ksR)
      (csL ++ .node a (ks ++ [s]) (cs ++ [c]) :: .node d kn cn :: csR))).2 := by
  have hO : (csL ++ Tree.node d (z :: kn) (c :: cn) :: csR).Perm
      (Tree.node d (z :: kn) (c :: cn) :: (csL ++ csR)) := List.perm_middle
  have hnd := h.apart hO
  have hchild : c.addr ∈ (cs ++ c :: cn).map Tree.addr := by simp
  obtain ⟨hup, hsib, hkids, hpa, hpb, hpd, hfa, hfb, hfd, hcn⟩ := h.siblings v' hO
    (by rw [hv]; rfl) (fun e h1 h2 h3 => by rw [hv]; simp [h1, h2, h3])
    (fun e he => by
      have hne : e ≠ c.addr := ne_of_mem_of_not_mem hchild he |>.symm
      rw [hv]
      simp [View.setLinks, hne])
    (by rw [hv]; rfl)
    (fun e he => by
      rw [hv]
      exact Links.bridge_of_not_mem (by simpa using he))
    (fun hn => by
      have hn0 : (n == 0) = false := by simpa using Nat.pos_iff_ne_zero.mp hn
      rw [hv, hn0]
      rfl)
  obtain ⟨hab, hndk, -⟩ := h.roots hO
  have hchain : n = 0 → ((cs ++ c :: cn).map Tree.addr).IsChain v'.links.Joined := by
    rintro rfl
    have hd := (h.hole.sibs.2.2.1 _ List.mem_cons_self).1 rfl
    rw [hv, List.map_append, List.map_cons]
    exact Links.isChain_bridge (by simpa using hndk) (h.chain rfl) hd
  obtain ⟨hpL, hpR, -, -, hpcR, -⟩ := h.hole.paired
  obtain ⟨-, hlenn, -⟩ := hpcR _ List.mem_cons_self
  have hlenn' : cn.length = kn.length + 1 := by simpa using hlenn
  have hlena := h.len
  have hda : Plug P v' (Tree.node a (ks ++ [s]) (cs ++ [c])) := by
    refine Plug.node (s := s1) (by rw [hv]; simp [hab]) (by simpa using hs1) (fun e he =>
      ⟨hkids e (by simp at he ⊢; tauto), ?_⟩) (fun hn => ?_) hfa (by simp) (by simp; omega)
    · rw [hv]
      rcases List.mem_append.mp he with he | he
      · have := (h.kids e he).2
        simp [View.setLinks, this]
      · simp [View.setLinks, List.mem_singleton.mp he]
    · have := hchain hn
      simp only [List.map_append, List.map_cons, List.map_nil] at this ⊢
      exact (List.append_cons .. ▸ this).left_of_append
  have hdd : Plug P v' (Tree.node d kn cn) := by
    refine Plug.node (s := s3) (by rw [hv]; simp) hs3 (fun e he =>
      ⟨hkids e (by simp [he]), ?_⟩) (fun hn => ?_) hfd hkn hlenn'
    · have hne : e.addr ≠ c.addr := by
        rw [List.map_append, List.map_cons, List.nodup_append', List.nodup_cons] at hndk
        exact ne_of_mem_of_not_mem (List.mem_map_of_mem he) hndk.2.1.1
      rw [hv]
      simpa [View.setLinks, hne] using hcn e (List.mem_cons_of_mem _ he)
    · have := hchain hn
      rw [List.map_append, List.map_cons] at this
      exact this.right_of_append.tail
  refine hup.rep_node (s := s2) (by rw [hv]; simp [hab]) (by simpa using hs2) ?_ hpb
    (fun hn => absurd hn n.succ_ne_zero) hfb ?_ (by grind) (by simp at hpL hpR ⊢; omega)
  · intro e he
    rcases List.mem_append.mp he with he | he
    · exact hsib e (by simp [he])
    · rcases List.mem_cons.mp he with rfl | he
      · exact ⟨hda, hpa⟩
      · rcases List.mem_cons.mp he with rfl | he
        · exact ⟨hdd, hpd⟩
        · exact hsib e (by simp [he])
  · refine (List.Perm.nodup_iff (List.perm_iff_count.mpr fun e => ?_)).mp hnd
    simp only [List.flatMap_append, List.flatMap_cons, List.flatMap_nil, Tree.addrs_node,
      List.count_append, List.count_cons, List.count_nil]
    omega

end Siblings

end NwtBTree
