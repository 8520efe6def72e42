import NwtBTree.Refine.Rep

/-!
# What the operations on inner nodes do to the slots

One lemma per helper: the two positional insertions are list insertions, and
inserting a leaf as a child joins it to its neighbours in the node.
-/

namespace NwtBTree

variable {K D : Type} {P : Template K D}

/-- An inner node that stays an inner node changes no node's kind. -/
theorem View.IsKind.congr_inner {v v' : View K D} {a b : Addr} {s s' : InnerSlots K} {lf : Bool}
    (hk : v.IsKind lf b) (h : v.body a = some (.inner s)) (h' : v'.body a = some (.inner s'))
    (hbody : ∀ b, b ≠ a → v'.body b = v.body b) : v'.IsKind lf b := by
  by_cases hb : b = a
  · subst hb
    cases lf with
    | true =>
      obtain ⟨r, hr⟩ := hk
      rw [h] at hr
      simp at hr
    | false => exact ⟨s', h'⟩
  · cases lf <;> simpa [View.IsKind, hbody b hb] using hk

/-- Writing the slots of an inner node changes no node's kind. -/
theorem View.isKind_setBody {v : View K D} {a b : Addr} {s : InnerSlots K} {lf : Bool}
    (h : v.body a = some (.inner s)) (s' : InnerSlots K) (hk : v.IsKind lf b) :
    (v.setBody a (.inner s')).IsKind lf b := by
  have h' : (v.setBody a (.inner s')).body a = some (.inner s') := by simp
  exact hk.congr_inner h h' fun b hb => by simp [hb]

/-- The live slots of a node are what they are. -/
theorem InnerHas.unique {s : InnerSlots K} {ks ks' : List K} {cs cs' : List Addr}
    (h : InnerHas P s ks cs) (h' : InnerHas P s ks' cs') : ks = ks' ∧ cs = cs' := by
  obtain ⟨r, hr⟩ := h.keys
  obtain ⟨r', hr'⟩ := h'.keys
  obtain ⟨q, hq⟩ := h.children
  obtain ⟨q', hq'⟩ := h'.children
  refine ⟨(List.append_inj (hr.symm.trans hr') (h.inuse.symm.trans h'.inuse)).1, ?_⟩
  have hmap := (List.append_inj (hq.symm.trans hq')
    (by simpa using h.num.symm.trans h'.num)).1
  exact List.map_injective_iff.mpr (fun _ _ => Option.some.inj) hmap

/-! ## Positional insertion -/

theorem innernodemax_lt (P : Template K D) : P.innernodemax < 65536 :=
  Nat.mod_lt _ (by decide)

theorem leafnodemax_lt (P : Template K D) : P.leafnodemax < 65536 :=
  Nat.mod_lt _ (by decide)

theorem inc16_of_lt {n m : Nat} (h : n < m) (hm : m < 65536) : inc16 n = n + 1 :=
  Nat.mod_eq_of_lt (by omega)

theorem dec16_of_pos {n : Nat} (h : 0 < n) (hn : n < 65537) : dec16 n = n - 1 := by
  unfold dec16
  omega

theorem InnerHas.fresh (P : Template K D) (a : Addr) :
    InnerHas P (InnerNode.fresh P a).toInnerSlots [] [] where
  slots := rfl
  inuse := rfl
  num := rfl
  keys := ⟨_, rfl⟩
  children := ⟨_, rfl⟩
  keyCap := by simp [InnerNode.fresh]
  childCap := by simp [InnerNode.fresh]

/-- Lowering `numChildren` gives up the last child. -/
theorem InnerHas.dropChild {s : InnerSlots K} {ks : List K} {cs : List Addr} {x : Addr}
    (h : InnerHas P s ks (cs ++ [x])) :
    InnerHas P { s with numChildren := s.numChildren - 1 } ks cs := by
  obtain ⟨h1, h2, h3, h4, ⟨r, hr⟩, h6, h7⟩ := h
  exact ⟨h1, h2, by simp [h3], h4, ⟨some x :: r, by simp [hr]⟩, h6, h7⟩

/-- Lowering `slotsinuse` gives up the last key. -/
theorem InnerHas.dropKey {s : InnerSlots K} {ks : List K} {cs : List Addr} {k : K}
    (h : InnerHas P s (ks ++ [k]) cs) :
    InnerHas P { s with slotsinuse := dec16 s.slotsinuse } ks cs := by
  obtain ⟨h1, h2, h3, ⟨r, hr⟩, h5, h6, h7⟩ := h
  have hlt := innernodemax_lt P
  have hlen : ks.length + 1 ≤ P.innernodemax := by
    rw [← h6, hr]
    simp
  refine ⟨h1, ?_, h3, ⟨k :: r, by simp [hr]⟩, h5, h6, h7⟩
  rw [h2, dec16_of_pos (by simp) (by simp; omega)]
  simp

theorem insertInnerNodeKeyAt_spec {s : InnerSlots K} {as bs : List K} {cs : List Addr}
    (h : InnerHas P s (as ++ bs) cs) (hroom : (as ++ bs).length < P.innernodemax) (k : K) :
    ∃ s', insertInnerNodeKeyAt s k as.length = .ok (1, s') ∧
      InnerHas P s' (as ++ k :: bs) cs := by
  obtain ⟨hslots, hin, hnum, ⟨r, hr⟩, hch, hkc, hcc⟩ := h
  have hlen : as.length + bs.length < P.innernodemax := by simpa using hroom
  have hr0 : r ≠ [] := by
    rintro rfl
    simp [hr] at hkc
    omega
  obtain ⟨z, r, rfl⟩ := List.exists_cons_of_ne_nil hr0
  have hinc : inc16 s.slotsinuse = (as ++ k :: bs).length := by
    rw [hin, inc16_of_lt hroom (innernodemax_lt P)]
    simp
    omega
  have hguard : ¬((s.slots : Int) ≤ (as.length : Int) ∨ (as.length : Int) < 0) := by
    rw [hslots]
    omega
  have hdone :
      InnerHas P { s with keySlots := as ++ k :: (bs ++ r), slotsinuse := inc16 s.slotsinuse }
        (as ++ k :: bs) cs := by
    refine ⟨hslots, hinc, hnum, ⟨r, by simp⟩, hch, ?_, hcc⟩
    simp only [hr, List.length_append, List.length_cons] at hkc ⊢
    omega
  by_cases hend : s.slotsinuse = 0 ∨ (s.slotsinuse : Int) ≤ (as.length : Int)
  · have hbs : bs = [] := by
      rw [hin] at hend
      refine List.eq_nil_of_length_eq_zero ?_
      simp only [List.length_append] at hend
      omega
    subst hbs
    have hstore : store s.keySlots as.length k = .ok (as ++ k :: ([] ++ r)) := by
      rw [hr]
      simpa using store_append (A := as) (B := r) (x := z) k rfl
    exact ⟨_, by
      rw [insertInnerNodeKeyAt, if_neg hguard, if_pos hend, Int.toNat_natCast, hstore]
      rfl, hdone⟩
  · have hin' : s.slotsinuse = as.length + bs.length := by rw [hin]; simp
    obtain ⟨y, hy⟩ := shiftUp_spec as bs r z
    have hshift : shiftUp s.keySlots as.length s.slotsinuse = .ok (as ++ y :: (bs ++ r)) := by
      rw [hr, hin', List.append_assoc]
      exact hy
    have hstore : store (as ++ y :: (bs ++ r)) as.length k = .ok (as ++ k :: (bs ++ r)) :=
      store_append k rfl
    exact ⟨_, by
      rw [insertInnerNodeKeyAt, if_neg hguard, if_neg hend, Int.toNat_natCast, hshift, ok_bind,
        hstore]
      rfl, hdone⟩

/-- The links after a node has entered the child list between `as` and `bs`. -/
def Links.around (l : Links) (lf : Bool) (as : List Addr) (x : Addr) (bs : List Addr) : Links :=
  if lf then (l.linkLeft as.getLast? x).linkRight x bs.head? else l

@[simp] theorem Links.around_false (l : Links) (as bs : List Addr) (x : Addr) :
    l.around false as x bs = l := rfl

theorem Links.around_true (l : Links) (as bs : List Addr) (x : Addr) :
    l.around true as x bs = (l.linkLeft as.getLast? x).linkRight x bs.head? := rfl

theorem relinks_linkLeft (l : Links) (as bs : List Addr) (x : Addr) :
    Relinks (as ++ x :: bs) l (l.linkLeft as.getLast? x) := by
  rcases List.eq_nil_or_concat as with rfl | ⟨as, d, rfl⟩
  · exact .refl _
  · simpa using Relinks.one (v := l) ⟨as, bs, by simp⟩

theorem relinks_linkRight (l : Links) (as bs : List Addr) (x : Addr) :
    Relinks (as ++ x :: bs) l (l.linkRight x bs.head?) := by
  cases bs with
  | nil => exact .refl _
  | cons d bs => exact .one ⟨as, bs, rfl⟩

theorem relinks_around (l : Links) (lf : Bool) (as bs : List Addr) (x : Addr) :
    Relinks (as ++ x :: bs) l (l.around lf as x bs) := by
  cases lf with
  | false => exact .refl _
  | true => exact (relinks_linkLeft l as bs x).trans (relinks_linkRight _ as bs x)

namespace BTree

variable {t : BTree K D}

theorem linkNeighbours_spec {x : Addr} {as bs : List Addr} {r : List (Option Addr)} {num : Nat}
    (hkind : ∀ a ∈ as ++ x :: bs, t.view.IsKind true a) (hnum : num = (as ++ x :: bs).length) :
    ∃ t', t.linkNeighbours (as.map some ++ some x :: (bs.map some ++ r)) num (some x) as.length =
        .ok t' ∧ t'.view = t.view.setLinks (t.view.links.around true as x bs) := by
  obtain ⟨sx, hsx⟩ := hkind x (by simp)
  have hleft : ∃ t1, (if 1 ≤ as.length then do
        t.linkLeaves (← load (as.map some ++ some x :: (bs.map some ++ r)) (as.length - 1)) (some x)
      else .ok t) = (.ok t1 : Except Fault _) ∧
      t1.view = t.view.setLinks (t.view.links.linkLeft as.getLast? x) := by
    rcases List.eq_nil_or_concat as with rfl | ⟨as, d, rfl⟩
    · exact ⟨t, by simp, by simp⟩
    · obtain ⟨sd, hsd⟩ := hkind d (by simp)
      obtain ⟨t1, h1, v1⟩ := linkLeaves_view hsd hsx
      have hl : load ((as.concat d).map some ++ some x :: (bs.map some ++ r))
          ((as.concat d).length - 1) = .ok (some d) :=
        load_of_getElem? (by simp)
      refine ⟨t1, ?_, by simpa using v1⟩
      rw [if_pos (by simp), hl, ok_bind, h1]
  obtain ⟨t1, h1, v1⟩ := hleft
  have hright : ∃ t2, (if as.length + 1 < num then do
        t1.linkLeaves (some x) (← load (as.map some ++ some x :: (bs.map some ++ r))
          (as.length + 1))
      else .ok t1) = (.ok t2 : Except Fault _) ∧
      t2.view = t1.view.setLinks (t1.view.links.linkRight x bs.head?) := by
    cases bs with
    | nil => exact ⟨t1, by simp [hnum], by simp⟩
    | cons d bs =>
      obtain ⟨sd, hsd⟩ := hkind d (by simp)
      obtain ⟨t2, h2, v2⟩ := linkLeaves_view
        (show t1.view.body x = _ by rw [v1]; exact hsx)
        (show t1.view.body d = _ by rw [v1]; exact hsd)
      have hl : load (as.map some ++ some x :: ((d :: bs).map some ++ r)) (as.length + 1) =
          .ok (some d) :=
        load_of_getElem? (by simp)
      refine ⟨t2, ?_, by simpa using v2⟩
      rw [if_pos (by simp [hnum]), hl, ok_bind, h2]
  obtain ⟨t2, h2, v2⟩ := hright
  refine ⟨t2, by rw [linkNeighbours, h1, ok_bind, h2], ?_⟩
  rw [v2, v1]
  rfl

/-- Only the neighbours of a leaf have to be leaves. -/
theorem insertInnerNodeChildAt_at {dest x : Addr} {s : InnerSlots K} {ks : List K}
    {as bs : List Addr} {lf : Bool} (hd : t.view.body dest = some (.inner s))
    (hs : InnerHas P s ks (as ++ bs)) (hroom : (as ++ bs).length ≤ P.innernodemax)
    (hxk : t.view.IsKind lf x) (hkind : lf = true → ∀ a ∈ as ++ x :: bs, t.view.IsKind true a) :
    ∃ s' t', t.insertInnerNodeChildAt dest (some x) as.length = .ok (0, t') ∧
      InnerHas P s' ks (as ++ x :: bs) ∧
      t'.view = ((t.view.setBody dest (.inner s')).setPar x (some dest)).setLinks
        (t.view.links.around lf as x bs) := by
  obtain ⟨hslots, hin, hnum, hks, ⟨r, hr⟩, hkc, hcc⟩ := hs
  have hlen : as.length + bs.length ≤ P.innernodemax := by simpa using hroom
  have hr0 : r ≠ [] := by
    rintro rfl
    simp [hr] at hcc
    omega
  obtain ⟨z, r, rfl⟩ := List.exists_cons_of_ne_nil hr0
  have hnum' : s.numChildren = as.length + bs.length := by rw [hnum]; simp
  have hguard : ¬((s.slots : Int) < (as.length : Int) ∨ (as.length : Int) < 0) := by
    rw [hslots]
    omega
  -- the child array after the shift and the write
  have hchildren : ∃ ys, (if as.length < s.numChildren then
        shiftUp s.firstChild as.length s.numChildren else .ok s.firstChild) = .ok ys ∧
      store ys as.length (some x) = .ok (as.map some ++ some x :: (bs.map some ++ r)) := by
    by_cases hend : as.length < s.numChildren
    · obtain ⟨y, hy⟩ := shiftUp_spec (as.map some) (bs.map some) r z
      simp only [List.length_map] at hy
      refine ⟨_, ?_, store_append (A := as.map some) (x := y) (some x) (by simp)⟩
      rw [if_pos hend, hr, hnum']
      simpa using hy
    · have hbs : bs = [] := List.eq_nil_of_length_eq_zero (by omega)
      subst hbs
      refine ⟨_, if_neg hend, ?_⟩
      rw [hr]
      simpa using store_append (A := as.map some) (B := r) (x := z) (some x) (by simp)
  obtain ⟨ys, hys, hstore⟩ := hchildren
  let s' : InnerSlots K := { s with
    firstChild := as.map some ++ some x :: (bs.map some ++ r), numChildren := s.numChildren + 1 }
  have hs' : InnerHas P s' ks (as ++ x :: bs) := by
    refine ⟨hslots, hin, ?_, hks, ⟨r, by simp [s']⟩, hkc, ?_⟩
    · simp only [s', hnum', List.length_append, List.length_cons]
      omega
    · simp only [hr, List.length_append, List.length_map, List.length_cons] at hcc
      simp only [s', List.length_append, List.length_map, List.length_cons]
      omega
  obtain ⟨t1, h1, v1⟩ := setInner_view hd s'
  have hxb : ∃ b, t1.view.body x = some b := by
    rw [v1, View.body_setBody]
    split_ifs
    · exact ⟨_, rfl⟩
    · cases lf <;> obtain ⟨b, hb⟩ := hxk <;> exact ⟨_, hb⟩
  obtain ⟨b, hb⟩ := hxb
  obtain ⟨t2, h2, v2⟩ := setParent_view hb (some dest)
  have hbody2 : ∀ a ∈ as ++ x :: bs, a ≠ dest → t2.view.body a = t.view.body a := by
    intro a _ ha
    rw [v2, v1]
    simp [ha]
  -- a leaf cannot be the inner node it is inserted into
  have hleaf_ne : ∀ a, t.view.IsKind true a → a ≠ dest := by
    rintro a ⟨sa, hsa⟩ rfl
    rw [hd] at hsa
    simp at hsa
  have hrun : t.insertInnerNodeChildAt dest (some x) as.length =
      (do
        let t ← (if ← t2.isleaf x then
            t2.linkNeighbours (as.map some ++ some x :: (bs.map some ++ r)) (s.numChildren + 1)
              (some x) as.length
          else .ok t2)
        return (0, t)) := by
    simp only [insertInnerNodeChildAt, inner_eq hd, ok_bind, hguard, if_false, Int.toNat_natCast,
      hys, hstore, deref, h1, h2, s']
  rw [hrun]
  cases lf with
  | false =>
    obtain ⟨sx, hsx⟩ := hxk
    have hx2 : ∃ sx, t2.view.body x = some (.inner sx) := by
      by_cases hx : x = dest
      · exact ⟨s', by simp [v2, v1, hx]⟩
      · exact ⟨sx, by rw [hbody2 x (by simp) hx, hsx]⟩
    obtain ⟨sx, hx2⟩ := hx2
    refine ⟨s', t2, by simp [isleaf_inner hx2], hs', ?_⟩
    rw [v2, v1]
    rfl
  | true =>
    have hleaf2 : ∀ a ∈ as ++ x :: bs, t2.view.IsKind true a := by
      intro a ha
      obtain ⟨sa, hsa⟩ := hkind rfl a ha
      exact ⟨sa, by rw [hbody2 a ha (hleaf_ne a ⟨sa, hsa⟩), hsa]⟩
    obtain ⟨sx, hsx⟩ := hleaf2 x (by simp)
    have hnum1 : s.numChildren + 1 = (as ++ x :: bs).length := by
      rw [hnum']
      simp
      omega
    obtain ⟨t3, h3, v3⟩ := linkNeighbours_spec (r := r) hleaf2 hnum1
    refine ⟨s', t3, ?_, hs', ?_⟩
    · rw [isleaf_leaf hsx, ok_bind, if_pos rfl, h3]
      rfl
    · rw [v3, v2, v1]
      rfl

theorem insertInnerNodeChildAt_spec {dest x : Addr} {s : InnerSlots K} {ks : List K}
    {as bs : List Addr} {lf : Bool} (hd : t.view.body dest = some (.inner s))
    (hs : InnerHas P s ks (as ++ bs)) (hroom : (as ++ bs).length ≤ P.innernodemax)
    (hkind : ∀ a ∈ as ++ x :: bs, t.view.IsKind lf a) :
    ∃ s' t', t.insertInnerNodeChildAt dest (some x) as.length = .ok (0, t') ∧
      InnerHas P s' ks (as ++ x :: bs) ∧
      t'.view = ((t.view.setBody dest (.inner s')).setPar x (some dest)).setLinks
        (t.view.links.around lf as x bs) :=
  insertInnerNodeChildAt_at hd hs hroom (hkind x (by simp)) fun hlf a ha => hlf ▸ hkind a ha

theorem insertKeyAt_spec {a : Addr} {s : InnerSlots K} {as bs : List K} {cs : List Addr}
    (ha : t.view.body a = some (.inner s)) (hs : InnerHas P s (as ++ bs) cs)
    (hroom : (as ++ bs).length < P.innernodemax) (k : K) :
    ∃ s' t', t.insertKeyAt a k as.length = .ok t' ∧ InnerHas P s' (as ++ k :: bs) cs ∧
      t'.view = t.view.setBody a (.inner s') := by
  obtain ⟨s', h1, hs'⟩ := insertInnerNodeKeyAt_spec hs hroom k
  obtain ⟨t', h2, v2⟩ := setInner_view ha s'
  refine ⟨s', t', ?_, hs', v2⟩
  rw [insertKeyAt, inner_eq ha, ok_bind, h1, ok_bind]
  exact h2

theorem appendKey_spec {a : Addr} {s : InnerSlots K} {ks : List K} {cs : List Addr} {i : Nat}
    (ha : t.view.body a = some (.inner s)) (hs : InnerHas P s ks cs)
    (hroom : ks.length < P.innernodemax) (k : K) (hi : i = ks.length) :
    ∃ s' t', t.insertKeyAt a k i = .ok t' ∧ InnerHas P s' (ks ++ [k]) cs ∧
      t'.view = t.view.setBody a (.inner s') := by
  subst hi
  exact insertKeyAt_spec ha (by simpa using hs) (by simpa using hroom) k

theorem insertChildAt_spec {dest x : Addr} {s : InnerSlots K} {ks : List K}
    {as bs : List Addr} {lf : Bool} (hd : t.view.body dest = some (.inner s))
    (hs : InnerHas P s ks (as ++ bs)) (hroom : (as ++ bs).length ≤ P.innernodemax)
    (hkind : ∀ a ∈ as ++ x :: bs, t.view.IsKind lf a) :
    ∃ s' t', t.insertChildAt dest (some x) as.length = .ok t' ∧
      InnerHas P s' ks (as ++ x :: bs) ∧
      t'.view = ((t.view.setBody dest (.inner s')).setPar x (some dest)).setLinks
        (t.view.links.around lf as x bs) := by
  obtain ⟨s', t', h, hs', v⟩ := insertInnerNodeChildAt_spec hd hs hroom hkind
  exact ⟨s', t', by rw [insertChildAt, h]; rfl, hs', v⟩

theorem appendChild_spec {dest x : Addr} {s : InnerSlots K} {ks : List K} {cs : List Addr}
    {lf : Bool} {i : Nat} (hd : t.view.body dest = some (.inner s)) (hs : InnerHas P s ks cs)
    (hroom : cs.length ≤ P.innernodemax) (hkind : ∀ a ∈ cs ++ [x], t.view.IsKind lf a)
    (hi : i = cs.length) :
    ∃ s' t', t.insertChildAt dest (some x) i = .ok t' ∧ InnerHas P s' ks (cs ++ [x]) ∧
      t'.view = ((t.view.setBody dest (.inner s')).setPar x (some dest)).setLinks
        (t.view.links.around lf cs x []) := by
  subst hi
  exact insertChildAt_spec hd (by simpa using hs) (by simpa using hroom) hkind

end BTree

/-- The links of nodes that take no part stay. -/
theorem Links.around_of_not_mem {l : Links} {lf : Bool} {as bs : List Addr} {x b : Addr}
    (hb : b ∉ as ++ x :: bs) :
    (l.around lf as x bs).nxt b = l.nxt b ∧ (l.around lf as x bs).prv b = l.prv b := by
  have h := relinks_around l lf as bs x
  exact ⟨h.nxt_eq fun c hc => hb hc.left_mem, h.prv_eq fun c hc => hb hc.right_mem⟩

/-- A node put into a chain is joined to both neighbours. -/
theorem Links.isChain_around {l : Links} {as bs : List Addr} {x : Addr}
    (hnd : (as ++ x :: bs).Nodup) (has : as.IsChain l.Joined) (hbs : bs.IsChain l.Joined) :
    (as ++ x :: bs).IsChain (l.around true as x bs).Joined := by
  have hrel := relinks_around l true as bs x
  have hleft : ∀ d ∈ as.getLast?, (l.around true as x bs).Joined d x := by
    intro d hd
    obtain ⟨as, rfl⟩ := List.getLast?_eq_some_iff.mp hd
    have hadj : Adjacent (as ++ [d] ++ x :: bs) d x := ⟨as, bs, by simp⟩
    rw [around_true, List.getLast?_concat]
    exact (relinks_linkRight (l.link d x) (as ++ [d]) bs x).joined hnd hadj (joined_link l d x)
  have hright : ∀ b ∈ bs.head?, (l.around true as x bs).Joined x b := by
    intro b hb
    obtain ⟨bs, rfl⟩ := List.head?_eq_some_iff.mp hb
    exact joined_link _ x b
  refine List.isChain_append.mpr ⟨?_, List.isChain_cons.mpr ⟨hright, ?_⟩, ?_⟩
  · exact Relinks.isChain_infix (X := []) hnd hrel has
  · have hsplit : as ++ x :: bs = (as ++ [x]) ++ bs ++ [] := by simp
    rw [hsplit] at hnd hrel
    exact Relinks.isChain_infix hnd hrel hbs
  · intro d hd b hb
    obtain rfl : x = b := by simpa using hb
    exact hleft d hd

/-- Only the node and its neighbours get a new `next`. -/
theorem Links.nxt_around {l : Links} {as bs : List Addr} {x a : Addr}
    (h : (l.around true as x bs).nxt a ≠ l.nxt a) : a = x ∧ bs ≠ [] ∨ as.getLast? = some a := by
  rw [around_true] at h
  cases hd : as.getLast? with
  | none =>
    cases bs with
    | nil => simp [hd] at h
    | cons b bs => grind [linkLeft_none, linkRight_some, nxt_link]
  | some d =>
    cases bs with
    | nil => grind [linkLeft_some, linkRight_none, nxt_link]
    | cons b bs => grind [linkLeft_some, linkRight_some, nxt_link]

theorem Links.prv_around {l : Links} {as bs : List Addr} {x a : Addr}
    (h : (l.around true as x bs).prv a ≠ l.prv a) : a = x ∧ as ≠ [] ∨ bs.head? = some a := by
  rw [around_true] at h
  rcases List.eq_nil_or_concat as with rfl | ⟨as, d, rfl⟩
  · cases bs with
    | nil => simp at h
    | cons b bs => grind [linkLeft_none, linkRight_some, prv_link]
  · cases bs with
    | nil => grind [linkLeft_some, linkRight_none, prv_link]
    | cons b bs => grind [linkLeft_some, linkRight_some, prv_link]

/-- The links after `x` and `y` have been appended to the child list `as`. -/
def Links.grow (l : Links) (lf : Bool) (as : List Addr) (x y : Addr) : Links :=
  (l.around lf as x []).around lf (as ++ [x]) y []

@[simp] theorem Links.grow_false (l : Links) (as : List Addr) (x y : Addr) :
    l.grow false as x y = l := rfl

theorem Links.grow_of_not_mem {l : Links} {lf : Bool} {as : List Addr} {x y b : Addr}
    (hb : b ∉ as ++ [x, y]) :
    (l.grow lf as x y).nxt b = l.nxt b ∧ (l.grow lf as x y).prv b = l.prv b := by
  have hx : b ∉ as ++ [x] := by simp at hb ⊢; tauto
  have hy : b ∉ as ++ [x] ++ [y] := by simpa using hb
  obtain ⟨h1, h2⟩ := @around_of_not_mem l lf _ _ _ _ hx
  obtain ⟨h3, h4⟩ := @around_of_not_mem (l.around lf as x []) lf _ _ _ _ hy
  exact ⟨h3.trans h1, h4.trans h2⟩

/-- The last of the new children keeps its `next`. -/
theorem Links.grow_nxt_last {l : Links} {lf : Bool} {as : List Addr} {x y : Addr}
    (hnd : (as ++ [x, y]).Nodup) : (l.grow lf as x y).nxt y = l.nxt y := by
  have hnone : ∀ b, ¬Adjacent (as ++ [x] ++ [y]) y b := by
    rintro b ⟨A, B, heq⟩
    have hcount := congrArg (List.count y) heq
    have h1 : (as ++ [x]).count y = 0 := by
      rw [List.count_eq_zero]
      exact fun h => (List.nodup_append.mp (by simpa using hnd : (as ++ [x] ++ [y]).Nodup)).2.2
        y h y (by simp) rfl
    have hlast : b :: B ≠ [] := by simp
    have hy : y ∈ b :: B := by
      have h2 := congrArg List.getLast? heq
      rw [List.getLast?_concat, List.getLast?_append_of_ne_nil _ (by simp), List.getLast?_cons_cons,
        List.getLast?_eq_getLast_of_ne_nil hlast, Option.some_inj] at h2
      rw [h2]
      exact List.getLast_mem hlast
    rw [List.count_append, h1, List.count_append, List.count_cons_self] at hcount
    have h3 : 0 < (b :: B).count y := List.count_pos_iff.mpr hy
    simp at hcount
    omega
  have hx : y ∉ as ++ x :: [] := fun h =>
    (List.nodup_append.mp (by simpa using hnd : (as ++ [x] ++ [y]).Nodup)).2.2 y h y (by simp) rfl
  rw [grow, (relinks_around _ lf (as ++ [x]) [] y).nxt_eq hnone, (around_of_not_mem hx).1]

/-- The first child keeps its `prev`. -/
theorem Links.grow_prv_first {l : Links} {lf : Bool} {as : List Addr} {x y b : Addr}
    (hnd : (as ++ [x, y]).Nodup) (hb : b ∈ (as ++ [x]).head?) :
    (l.grow lf as x y).prv b = l.prv b := by
  cases lf with
  | false => rfl
  | true =>
    have hby : b ≠ y := by
      rintro rfl
      exact (List.nodup_append.mp (by simpa using hnd : (as ++ [x] ++ [b]).Nodup)).2.2 b
        (List.mem_of_mem_head? hb) b (by simp) rfl
    cases as with
    | nil => simp [grow, around_true, hby]
    | cons a as =>
      obtain rfl : b = a := by simpa [eq_comm] using hb
      have hbx : b ≠ x := by
        rintro rfl
        simp at hnd
      rcases List.eq_nil_or_concat (b :: as) with h | ⟨as', z, h⟩
      · simp at h
      · simp [grow, around_true, h, hby, hbx]

theorem Links.isChain_grow {l : Links} {as : List Addr} {x y : Addr}
    (hnd : (as ++ [x, y]).Nodup) (h : as.IsChain l.Joined) :
    (as ++ [x, y]).IsChain (l.grow true as x y).Joined := by
  have hnd' : (as ++ [x] ++ [y]).Nodup := by simpa using hnd
  have hchain := isChain_around (List.nodup_append'.mp hnd').1 h .nil
  simpa [grow] using isChain_around hnd' hchain .nil

/-- The new children being joined beforehand makes no difference. -/
theorem Links.grow_link {l : Links} {as : List Addr} {x y : Addr} :
    (l.link x y).grow true as x y = l.grow true as x y := by
  rcases List.eq_nil_or_concat as with rfl | ⟨as, d, rfl⟩
  · simp [grow, around_true, link]
  · simp only [grow, around_true, List.concat_eq_append, List.getLast?_append, link]
    simp only [List.getLast?_singleton, Option.some_or, linkLeft_some, List.head?_nil,
      linkRight_none, link, Links.mk.injEq]
    constructor <;> funext b <;> simp only [Function.update_apply] <;> split_ifs <;> rfl

/-- Only the last of the children before the new ones matters. -/
theorem Links.grow_append {l : Links} {lf : Bool} {as bs : List Addr} {x y : Addr}
    (hb : bs ≠ []) : l.grow lf (as ++ bs) x y = l.grow lf bs x y := by
  cases lf with
  | false => rfl
  | true => simp [grow, around_true, List.getLast?_append, List.getLast?_eq_getLast_of_ne_nil hb]

/-- Appending a child that already is joined to the last one does not touch the chain. -/
theorem Links.around_joined {l : Links} {lf : Bool} {as : List Addr} {x : Addr}
    (h : lf = true → (as ++ [x]).IsChain l.Joined) : l.around lf as x [] = l := by
  cases lf with
  | false => rfl
  | true =>
    rw [around_true]
    rcases List.eq_nil_or_concat as with rfl | ⟨as, d, rfl⟩
    · rfl
    · have hd : l.Joined d x := by
        have := h rfl
        rw [List.concat_eq_append, List.append_assoc, List.singleton_append,
          List.isChain_append_cons_cons] at this
        exact this.2.1
      simpa using link_eq_self hd

end NwtBTree
