import NwtBTree.Refine.Locate

/-!
# Taking a child out of an inner node

`removeChild` closes the gap in both arrays and joins every leaf it moves to its
new left neighbour. Since the children were joined before, only the neighbours of
the removed leaf change: `Links.bypass`.
-/

namespace NwtBTree

variable {K D : Type} {P : Template K D}

/-- Writing what is there. -/
theorem View.setBody_self {v : View K D} {a : Addr} {b : Body K D} (h : v.body a = some b) :
    v.setBody a b = v := by
  have : Function.update v.body a (some b) = v.body := by simp [h]
  rw [setBody, this]

namespace Links

/-- Each of `B` is joined to the one before it, the first to `p`. -/
def relink (l : Links) : Option Addr → List Addr → Links
  | _, [] => l
  | some p, b :: B => (l.link p b).relink (some b) B
  | none, b :: B => relink ⟨l.nxt, Function.update l.prv b none⟩ (some b) B

/-- Joining leaves that are joined changes nothing. -/
theorem relink_joined {l : Links} {p : Addr} {B : List Addr} (h : (p :: B).IsChain l.Joined) :
    l.relink (some p) B = l := by
  induction B generalizing p with
  | nil => rfl
  | cons b B ih =>
    obtain ⟨hpb, hB⟩ := List.isChain_cons_cons.mp h
    rw [relink, link_eq_self hpb, ih hB]

theorem relink_some {l : Links} {p b : Addr} {B : List Addr} (hp : p ∉ b :: B)
    (hnd : (b :: B).Nodup) (h : (b :: B).IsChain l.Joined) :
    l.relink (some p) (b :: B) = l.link p b := by
  refine relink_joined (l := l.link p b) ?_
  rw [List.isChain_iff_forall_rel_of_append_cons_cons] at h ⊢
  intro x y X Y heq
  have hx : x ∈ b :: B := by simp [heq]
  have hxp : x ≠ p := ne_of_mem_of_not_mem hx hp
  have hyb : y ≠ b := by
    rintro rfl
    cases X with
    | nil => simp_all
    | cons c X => simp_all
  exact (h heq).congr (by simp [hxp]) (by simp [hyb])

theorem relink_none {l : Links} {b : Addr} {B : List Addr} (hnd : (b :: B).Nodup)
    (h : (b :: B).IsChain l.Joined) :
    l.relink none (b :: B) = ⟨l.nxt, Function.update l.prv b none⟩ := by
  refine relink_joined (l := ⟨l.nxt, Function.update l.prv b none⟩) ?_
  rw [List.isChain_iff_forall_rel_of_append_cons_cons] at h ⊢
  intro x y X Y heq
  have hyb : y ≠ b := by
    rintro rfl
    cases X with
    | nil => simp_all
    | cons c X => simp_all
  exact (h heq).congr rfl (by simp [hyb])

theorem relink_concat (l : Links) (p c : Addr) (B : List Addr) :
    l.relink (some p) (B ++ [c]) = (l.relink (some p) B).linkLeft (p :: B).getLast? c := by
  induction B generalizing l p with
  | nil => rfl
  | cons b B ih =>
    rw [List.cons_append, relink, ih, relink, List.getLast?_cons_cons]

/-- A freed node is in no chain. -/
def forget (l : Links) (x : Addr) : Links where
  nxt := Function.update l.nxt x none
  prv := Function.update l.prv x none

theorem forget_link {l : Links} {a b x : Addr} (ha : a ≠ x) (hb : b ≠ x) :
    (l.forget x).link a b = (l.link a b).forget x := by
  simp only [forget, link, Links.mk.injEq]
  exact ⟨Function.update_comm ha.symm _ _ _, Function.update_comm hb.symm _ _ _⟩

/-- The links after `x` has left the child list, between `as` and `bs`. -/
def bypass (l : Links) (as : List Addr) (x : Addr) (bs : List Addr) : Links :=
  match as.getLast?, bs with
  | some p, b :: _ => l.link p b
  | some p, [] => ⟨Function.update l.nxt p (l.nxt x), l.prv⟩
  | none, b :: _ :: _ => ⟨l.nxt, Function.update l.prv b none⟩
  | none, _ => l

/-- The next leaf of `x` becomes the next leaf of its left neighbour. -/
def skip (l : Links) (as : List Addr) (x : Addr) : Links :=
  match as.getLast? with
  | some p => ⟨Function.update l.nxt p (l.nxt x), l.prv⟩
  | none => l

/-- What the removal of `x` writes to the chain comes to `bypass`. -/
theorem relink_skip {l : Links} {as B : List Addr} {x c : Addr}
    (hnd : (as ++ x :: (B ++ [c])).Nodup)
    (h : (as ++ x :: (B ++ [c])).IsChain l.Joined) :
    (((l.skip as x).forget x).relink as.getLast? B).linkLeft (as ++ B).getLast? c =
      (l.bypass as x (B ++ [c])).forget x := by
  obtain ⟨hndA, hndx, hdisj⟩ := List.nodup_append'.mp hnd
  obtain ⟨hxB, hndB⟩ := List.nodup_cons.mp hndx
  have hne : ∀ b ∈ B ++ [c], b ≠ x := fun b hb => ne_of_mem_of_not_mem hb hxB
  have hchain : (B ++ [c]).IsChain l.Joined := h.right_of_append.tail
  have hforget : (B ++ [c]).IsChain (l.forget x).Joined :=
    isChain_congr hchain fun b hb => by simp [forget, hne b hb]
  rcases List.eq_nil_or_concat as with rfl | ⟨as, p, rfl⟩
  · cases B with
    | nil => rfl
    | cons b B =>
      have hb := hne b (by simp)
      have hall := relink_none hndB hforget
      have hstep : (l.forget x).relink none (b :: (B ++ [c])) =
          ((l.forget x).relink none (b :: B)).linkLeft (b :: B).getLast? c := by
        rw [relink, relink_concat, relink]
      have hbypass : l.bypass [] x (b :: B ++ [c]) = ⟨l.nxt, Function.update l.prv b none⟩ := by
        cases B <;> rfl
      rw [hbypass]
      refine hstep.symm.trans (hall.trans ?_)
      simp only [forget, Links.mk.injEq, true_and]
      exact Function.update_comm hb.symm _ _ _
  · obtain ⟨b, B', hbB⟩ := List.exists_cons_of_ne_nil (show B ++ [c] ≠ [] by simp)
    have hpx : p ≠ x := fun hp => hdisj (a := p) (by simp) (by simp [hp])
    have hpB : p ∉ B ++ [c] := fun hp => hdisj (a := p) (by simp) (List.mem_cons_of_mem _ hp)
    have hskip : (l.skip (as.concat p) x).forget x =
        ⟨Function.update (l.forget x).nxt p (l.nxt x), (l.forget x).prv⟩ := by
      simp only [skip, forget, List.concat_eq_append, List.getLast?_concat, Links.mk.injEq,
        and_true]
      exact Function.update_comm hpx _ _ _
    have hin : (B ++ [c]).IsChain ((l.skip (as.concat p) x).forget x).Joined := by
      rw [hskip]
      exact isChain_congr hforget fun b hb => by simp [ne_of_mem_of_not_mem hb hpB]
    have hlast : (as.concat p ++ B).getLast? = (p :: B).getLast? := by
      simp [List.getLast?_append, List.getLast?_cons]
    rw [hlast, show (as.concat p).getLast? = some p by simp, ← relink_concat]
    rw [hbB] at hpB hndB hin hne ⊢
    rw [relink_some hpB hndB hin, forget_link hpx (hne b (by simp))]
    simp [bypass, skip, link]

end Links

namespace BTree

variable {t : BTree K D} {N x : Addr} {s : InnerSlots K} {lf : Bool} {as bs : List Addr}

theorem isleaf_of_isKind (h : t.view.IsKind lf x) : t.isleaf x = .ok lf := by
  cases lf with
  | false =>
    obtain ⟨s, hs⟩ := h
    exact isleaf_inner hs
  | true =>
    obtain ⟨s, hs⟩ := h
    exact isleaf_leaf hs

/-- The loop moves `bs` one slot down. -/
theorem shiftChildren_spec {z : Option Addr} {r : List (Option Addr)}
    (hN : t.view.body N = some (.inner s))
    (hs : s.firstChild = as.map some ++ z :: (bs.map some ++ r))
    (hlt : as.length + bs.length < s.slotsinuse) (hkind : ∀ b ∈ as ++ bs, t.view.IsKind lf b) :
    ∃ y t', t.shiftChildren N as.length bs.length = .ok t' ∧
      t'.view = (t.view.setBody N (.inner { s with
        firstChild := as.map some ++ (bs.map some ++ y :: r) })).setLinks
          (if lf then t.view.links.relink as.getLast? bs else t.view.links) := by
  induction bs generalizing t s as z with
  | nil =>
    refine ⟨z, t, rfl, ?_⟩
    have hself : ({ s with firstChild := as.map some ++ ([].map some ++ z :: r) } :
        InnerSlots K) = s := by
      rw [show as.map some ++ ([].map some ++ z :: r) = s.firstChild from hs.symm]
    rw [hself, View.setBody_self hN]
    cases lf <;> rfl
  | cons b bs ih =>
    obtain ⟨s1, hs1⟩ : ∃ s1 : InnerSlots K, s1 = { s with
      firstChild := as.map some ++ some b :: (some b :: (bs.map some ++ r)) } := ⟨_, rfl⟩
    have hload : load s.firstChild (as.length + 1) = .ok (some b) := by
      rw [hs]
      have := load_append (A := as.map some ++ [z]) (x := some b) (B := bs.map some ++ r)
        (i := as.length + 1) (by simp)
      simpa using this
    have hstore : store s.firstChild as.length (some b) = .ok s1.firstChild := by
      rw [hs, hs1]
      exact store_append (some b) (by simp)
    obtain ⟨t1, e1, v1⟩ := setInner_view hN s1
    have hkind1 : ∀ c ∈ as ++ b :: bs, t1.view.IsKind lf c := by
      intro c hc
      rw [v1]
      exact View.isKind_setBody hN s1 (hkind c hc)
    have hkb := hkind1 b (by simp)
    -- the moved child is joined to its new left neighbour
    obtain ⟨l1, hl1, t2, e2, v2⟩ : ∃ l1, (if lf then t.view.links.relink as.getLast? (b :: bs)
          else t.view.links) = (if lf then l1.relink (some b) bs else l1) ∧
        ∃ t2, (if lf = true then
            if 1 ≤ as.length then do t1.linkLeaves (← load s1.firstChild (as.length - 1)) (some b)
            else t1.setPrevLeaf b none
          else .ok t1) = (.ok t2 : Except Fault _) ∧ t2.view = t1.view.setLinks l1 := by
      cases lf with
      | false => exact ⟨t.view.links, rfl, t1, rfl, by simp [v1, View.setLinks, View.setBody]⟩
      | true =>
        obtain ⟨sb, hb⟩ := hkb
        rcases List.eq_nil_or_concat as with rfl | ⟨as, p, rfl⟩
        · obtain ⟨t2, e2, v2⟩ := setPrevLeaf_view hb none
          exact ⟨_, rfl, t2, e2, by rw [v2, v1]; rfl⟩
        · obtain ⟨sp, hp⟩ := hkind1 p (by simp)
          obtain ⟨t2, e2, v2⟩ := linkLeaves_view hp hb
          have hprev : load s1.firstChild ((as.concat p).length - 1) = .ok (some p) := by
            rw [hs1]
            exact load_of_getElem? (by simp)
          refine ⟨_, ?_, t2, ?_, v2⟩
          · simp [v1, Links.relink]
          · rw [if_pos rfl, if_pos (by simp), hprev, ok_bind, e2]
    have hN2 : t2.view.body N = some (.inner s1) := by
      rw [v2, v1]
      simp
    have hs2 : s1.firstChild = (as ++ [b]).map some ++ some b :: (bs.map some ++ r) := by
      rw [hs1]
      simp
    have hin : s1.slotsinuse = s.slotsinuse := by rw [hs1]
    obtain ⟨y, t3, e3, v3⟩ := ih hN2 hs2
      (by
        rw [hin]
        simp only [List.length_append, List.length_cons, List.length_nil] at hlt ⊢
        omega)
      (fun c hc => by
        have := hkind1 c (by simpa using hc)
        rw [v2]
        cases lf <;> exact this)
    refine ⟨y, t3, ?_, ?_⟩
    · have hassert : ¬¬as.length + 1 < s.slotsinuse := by
        simp only [List.length_cons] at hlt
        omega
      rw [List.length_append, List.length_singleton] at e3
      have hset : ({ s with firstChild := s1.firstChild } : InnerSlots K) = s1 := by rw [hs1]
      simp only [List.length_cons, shiftChildren, inner_eq hN, ok_bind, if_neg hassert,
        hload, hstore,
        hset, e1, deref, isleaf_of_isKind hkb, e2]
      exact e3
    · rw [v3, v2, v1, hl1, hs1]
      simp [View.setBody, View.setLinks]

/-- The last child `c` moves one slot down. -/
theorem shiftLastChild_spec {c : Addr} {y : Option Addr} {r : List (Option Addr)}
    (hN : t.view.body N = some (.inner s)) (hs : s.firstChild = as.map some ++ y :: some c :: r)
    (hkind : ∀ b ∈ as ++ [c], t.view.IsKind lf b) :
    ∃ t', t.shiftLastChild N as.length = .ok t' ∧
      t'.view = (t.view.setBody N (.inner { s with
        firstChild := as.map some ++ some c :: none :: r })).setLinks
          (if lf then t.view.links.linkLeft as.getLast? c else t.view.links) := by
  obtain ⟨s1, hs1⟩ : ∃ s1 : InnerSlots K, s1 = { s with
    firstChild := as.map some ++ some c :: none :: r } := ⟨_, rfl⟩
  have hload : load s.firstChild (as.length + 1) = .ok (some c) := by
    rw [hs]
    exact load_of_getElem? (by simp)
  have hstore : store s.firstChild as.length (some c) =
      .ok (as.map some ++ some c :: some c :: r) := by
    rw [hs]
    exact store_append (some c) (by simp)
  have hstore' : store (as.map some ++ some c :: some c :: r) (as.length + 1) none =
      .ok s1.firstChild := by
    rw [hs1]
    have := store_append (A := as.map some ++ [some c]) (B := r) (x := some c) none
      (i := as.length + 1) (by simp)
    simpa using this
  have hset : ({ s with firstChild := s1.firstChild } : InnerSlots K) = s1 := by rw [hs1]
  obtain ⟨t1, e1, v1⟩ := setInner_view hN s1
  have hkind1 : ∀ b ∈ as ++ [c], t1.view.IsKind lf b := by
    intro b hb
    rw [v1]
    exact View.isKind_setBody hN s1 (hkind b hb)
  have hrun : t.shiftLastChild N as.length = (if lf = true then
      if 1 ≤ as.length then do t1.linkLeaves (← load s1.firstChild (as.length - 1)) (some c)
      else return t1
    else return t1 : Except Fault _) := by
    simp only [shiftLastChild, inner_eq hN, ok_bind, hload, hstore, hstore', hset, e1, deref,
      isleaf_of_isKind (hkind1 c (by simp))]
  rw [hrun, ← hs1]
  cases lf with
  | false => exact ⟨t1, rfl, v1⟩
  | true =>
    rcases List.eq_nil_or_concat as with rfl | ⟨as, p, rfl⟩
    · exact ⟨t1, rfl, v1⟩
    · obtain ⟨sp, hp⟩ := hkind1 p (by simp)
      obtain ⟨sc, hc⟩ := hkind1 c (by simp)
      obtain ⟨t2, e2, v2⟩ := linkLeaves_view hp hc
      have hprev : load s1.firstChild ((as.concat p).length - 1) = .ok (some p) := by
        rw [hs1]
        exact load_of_getElem? (by simp)
      refine ⟨t2, ?_, by rw [v2, v1]; simp⟩
      rw [if_pos rfl, if_pos (by simp), hprev, ok_bind, e2]

/-- The child `x` and one separator go. -/
theorem removeChild_spec {k : K} {ksL ksR : List K} (hN : t.view.body N = some (.inner s))
    (hs : InnerHas P s (ksL ++ k :: ksR) (as ++ x :: bs))
    (hlen : (as ++ bs).length = (ksL ++ ksR).length + 1) (hnd : (as ++ x :: bs).Nodup) (hx : x ≠ N)
    (hkind : ∀ b ∈ as ++ x :: bs, t.view.IsKind lf b)
    (hchain : lf = true → (as ++ x :: bs).IsChain t.view.links.Joined) :
    ∃ s' t', t.removeChild N as.length ksL.length = .ok t' ∧ InnerHas P s' (ksL ++ ksR) (as ++ bs) ∧
      t'.view = ((t.view.setLinks
        (if lf then t.view.links.bypass as x bs else t.view.links)).free x).setBody N
          (.inner s') := by
  obtain ⟨hslots, hin, hnum, ⟨q, hq⟩, ⟨r, hr⟩, hkc, hcc⟩ := id hs
  simp only [List.length_append, List.length_cons] at hlen hin hnum
  have hcap := innernodemax_lt P
  have hle : s.slotsinuse ≤ P.innernodemax := by
    rw [hin, ← hkc, hq]
    simp
  have hkx := hkind x (by simp)
  -- the left neighbour skips `x`
  obtain ⟨t1, e1, v1⟩ : ∃ t1, (if 0 < as.length then do
        if ← t.isleaf x then
          let prev ← deref (← load s.firstChild (as.length - 1))
          let cur ← t.leaf x
          t.setNextLeaf prev cur.nextLeaf
        else .ok t
      else .ok t) = (.ok t1 : Except Fault _) ∧
      t1.view = t.view.setLinks (if lf then t.view.links.skip as x else t.view.links) := by
    rcases List.eq_nil_or_concat as with rfl | ⟨as, p, rfl⟩
    · refine ⟨t, rfl, ?_⟩
      cases lf <;> rfl
    · rw [if_pos (by simp), isleaf_of_isKind hkx, ok_bind]
      cases lf with
      | false => exact ⟨t, rfl, rfl⟩
      | true =>
        obtain ⟨sp, hp⟩ := hkind p (by simp)
        obtain ⟨sx, hsx⟩ := hkx
        obtain ⟨t1, e1, v1⟩ := setNextLeaf_view hp (t.view.links.nxt x)
        have hprev : load s.firstChild ((as.concat p).length - 1) = .ok (some p) := by
          rw [hr]
          exact load_of_getElem? (by simp)
        refine ⟨t1, ?_, by rw [v1]; simp [Links.skip]⟩
        simp only [if_true, hprev, ok_bind, deref, leaf_eq hsx, e1]
  have hbody1 : t1.view.body = t.view.body := by
    rw [v1]
    rfl
  obtain ⟨t2, e2, v2⟩ : ∃ t2, t1.freeNode x = .ok t2 ∧ t2.view = t1.view.free x := by
    cases lf <;> obtain ⟨b, hb⟩ := hkx <;> exact freeNode_view (by rw [hbody1, hb])
  have hN2 : t2.view.body N = some (.inner s) := by
    rw [v2, View.body_free, if_neg hx.symm, hbody1, hN]
  -- the keys close the gap
  obtain ⟨y, hy⟩ : ∃ y, shiftDown s.keySlots ksL.length (s.slotsinuse - 1 - ksL.length) =
      .ok (ksL ++ (ksR ++ y :: q)) := by
    have hn : s.slotsinuse - 1 - ksL.length = ksR.length := by omega
    rw [hn, hq, List.append_assoc, List.cons_append]
    exact ⟨_, shiftDown_spec ksL ksR q k⟩
  obtain ⟨s3, hs3⟩ : ∃ s3 : InnerSlots K, s3 = { s with keySlots := ksL ++ (ksR ++ y :: q) } :=
    ⟨_, rfl⟩
  obtain ⟨t3, e3, v3⟩ := setInner_view hN2 s3
  have hN3 : t3.view.body N = some (.inner s3) := by
    rw [v3]
    simp
  have hkind3 : ∀ b ∈ as ++ bs, t3.view.IsKind lf b := by
    intro b hb
    have hbx : b ≠ x := by
      rintro rfl
      exact (List.nodup_cons.mp (List.nodup_middle.mp hnd)).1 hb
    rw [v3]
    refine View.isKind_setBody hN2 s3 ?_
    have := hkind b (by simp at hb ⊢; tauto)
    cases lf <;> simpa [View.IsKind, v2, hbx, hbody1] using this
  have hlinks3 : t3.view.links =
      (if lf then t.view.links.skip as x else t.view.links).forget x := by
    rw [v3, v2, v1]
    rfl
  -- the children close the gap
  have hfirst : s3.firstChild = as.map some ++ some x :: (bs.map some ++ r) := by
    rw [hs3, hr]
    simp
  have hin3 : s3.slotsinuse = s.slotsinuse := by rw [hs3]
  obtain ⟨t4, s5, t5, e4, e5, ⟨r', hs5⟩, hlen5, v5⟩ : ∃ t4 s5 t5,
      t3.shiftChildren N as.length (s.slotsinuse - 1 - as.length) = .ok t4 ∧
      (if s.slotsinuse < s.numChildren ∧ as.length + 1 < s.numChildren then
        t4.shiftLastChild N (max as.length (s.slotsinuse - 1)) else .ok t4) = .ok t5 ∧
      (∃ r', s5 = { s3 with firstChild := (as ++ bs).map some ++ r' }) ∧
      s5.firstChild.length = s3.firstChild.length ∧
      t5.view = (t3.view.setBody N (.inner s5)).setLinks
        ((if lf then t.view.links.bypass as x bs else t.view.links).forget x) := by
    rcases List.eq_nil_or_concat bs with rfl | ⟨B, c, rfl⟩
    · have hn : s.slotsinuse - 1 - as.length = 0 := by
        simp only [List.length_nil] at hlen
        omega
      have hbypass : t.view.links.bypass as x [] = t.view.links.skip as x := by
        unfold Links.bypass Links.skip
        cases as.getLast? <;> rfl
      have hfirst' : (as ++ []).map some ++ some x :: r = s3.firstChild := by
        rw [hfirst]
        simp
      refine ⟨t3, s3, t3, by rw [hn]; rfl, ?_, ⟨some x :: r, by rw [hfirst']⟩, rfl, ?_⟩
      · rw [if_neg (by simp at hnum; omega)]
      · rw [View.setBody_self hN3, hbypass, ← hlinks3]
        rfl
    · rw [List.concat_eq_append] at *
      have hn : s.slotsinuse - 1 - as.length = B.length := by
        simp only [List.length_append, List.length_singleton] at hlen
        omega
      have hfirst' : s3.firstChild = as.map some ++ some x :: (B.map some ++ some c :: r) := by
        rw [hfirst]
        simp
      obtain ⟨y', t4, e4, v4⟩ := shiftChildren_spec hN3 hfirst'
        (by simp at hlen; omega) (fun b hb => hkind3 b (by simp at hb ⊢; tauto))
      obtain ⟨s4, hs4⟩ : ∃ s4 : InnerSlots K, s4 = { s3 with
        firstChild := as.map some ++ (B.map some ++ y' :: some c :: r) } := ⟨_, rfl⟩
      rw [← hs4] at v4
      have hN4 : t4.view.body N = some (.inner s4) := by
        rw [v4]
        simp
      have hfirst4 : s4.firstChild = (as ++ B).map some ++ y' :: some c :: r := by
        rw [hs4]
        simp
      have hkind4 : ∀ b ∈ as ++ B ++ [c], t4.view.IsKind lf b := by
        intro b hb
        have := View.isKind_setBody hN3 s4 (hkind3 b (by simpa using hb))
        rw [v4]
        cases lf <;> exact this
      obtain ⟨t5, e5, v5⟩ := shiftLastChild_spec hN4 hfirst4 hkind4
      have hchildren : (as ++ B).map some ++ some c :: none :: r =
          (as ++ (B ++ [c])).map some ++ none :: r := by simp
      rw [hchildren] at v5
      refine ⟨t4, { s3 with firstChild := (as ++ (B ++ [c])).map some ++ none :: r }, t5,
        by rw [hn, e4], ?_, ⟨none :: r, rfl⟩, ?_, ?_⟩
      · have hmax : max as.length (s.slotsinuse - 1) = (as ++ B).length := by
          simp only [List.length_append, List.length_singleton] at hlen ⊢
          omega
        rw [if_pos (by simp at hnum hlen; omega), hmax]
        exact e5
      · rw [hfirst']
        simp only [List.length_append, List.length_map, List.length_cons, List.length_nil]
        omega
      · rw [v5, v4, hs4]
        cases lf with
        | false => simp [View.setBody, View.setLinks, hlinks3]
        | true =>
          have := Links.relink_skip hnd (hchain rfl)
          simp only [if_true] at hlinks3 ⊢
          rw [← this]
          simp [View.setBody, View.setLinks, hlinks3]
  have hN5 : t5.view.body N = some (.inner s5) := by
    rw [v5]
    simp
  have hin5 : s5.slotsinuse = s.slotsinuse := by rw [hs5, hin3]
  have hnum5 : s5.numChildren = s.numChildren := by rw [hs5, hs3]
  have hkeys5 : s5.keySlots = ksL ++ (ksR ++ y :: q) := by rw [hs5, hs3]
  let s6 : InnerSlots K := { s5 with
    slotsinuse := dec16 s5.slotsinuse, numChildren := s5.numChildren - 1 }
  obtain ⟨t6, e6, v6⟩ := setInner_view hN5 s6
  refine ⟨s6, t6, ?_, ⟨?_, ?_, ?_, ⟨y :: q, ?_⟩, ⟨r', ?_⟩, ?_, ?_⟩, ?_⟩
  · have hload := hs.load_childAt (i := as.length) rfl
    have hset : ({ s with keySlots := ksL ++ (ksR ++ y :: q) } : InnerSlots K) = s3 := hs3.symm
    have hx' : deref (some x) = .ok x := rfl
    simp only [removeChild, inner_eq hN, ok_bind, hload, hx', e1, e2, hy, hset, e3, e4, e5,
      inner_eq hN5]
    exact e6
  · simp only [s6, hs5, hs3, hslots]
  · simp only [s6, hin5, hin, List.length_append]
    rw [dec16_of_pos (by omega) (by omega)]
    omega
  · simp only [s6, hnum5, hnum, List.length_append]
    omega
  · simp only [s6, hkeys5, List.append_assoc]
  · simp only [s6, hs5]
  · simp only [hq, List.length_append, List.length_cons] at hkc
    simp only [s6, hkeys5, List.length_append, List.length_cons]
    omega
  · rw [show s6.firstChild.length = s.firstChild.length by simp only [s6]; rw [hlen5, hs3], hcc]
  · rw [v6, v5, v3, v2, v1]
    simp [View.setBody, View.setLinks, View.free, Links.forget]

end BTree

end NwtBTree
