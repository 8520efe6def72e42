import NwtBTree.Calls.ReplaceChild
import NwtBTree.Refine.Written

/-!
# A split child in a full parent

`insert_in_parent` deals out the keys and children of a full parent to two new
nodes. One loop does it, with the place of the new key found on the way. When a
key of the parent is greater than the new one, only one key of the parent reaches
the second node, which ends with two children at most. So the split is right only
for the last child.
-/

namespace NwtBTree

variable {K D : Type} {P : Template K D} {t t' : BTree K D} {a b p pN ppN N N' x : Addr}
  {k : K} {lf : Bool}

namespace BTree

/-! ## The loop when a key of the parent is greater -/

/-- The second node has one child after the fourth key and none before; until the new key is added
the loop has not passed its place `c`. -/
structure SplitShort (p ppN : Addr) (s₀ : InnerSlots K) (c : Nat) (s : InnerSplit K D) : Prop where
  source : s.t.view.body p = some (.inner s₀)
  second : ∃ q, s.t.view.body ppN = some (.inner q) ∧ q.numChildren ≤ s.i - 3
  bound : s.i ≤ 4
  place : s.added = false → s.slot = s.i ∧ s.i ≤ c

variable [LinearOrder K] {s₀ : InnerSlots K} {c : Nat} {s s' : InnerSplit K D} {z : K}

/-- The place of the new key is not passed without adding it. -/
theorem splitPushed_short (h : splitPushed p pN N k N' s = .ok s') (hs : SplitShort p ppN s₀ c s)
    (hi : s.i < 4) (hz : load s₀.keySlots c = .ok z) (hk : k < z) (hp : p ≠ pN) (hpp : ppN ≠ pN) :
    SplitShort p ppN s₀ c s' ∧ s'.i < 4 ∧ (s'.added = false → s'.i < c) := by
  obtain ⟨hsource, ⟨q, hq, hnum⟩, -, hplace⟩ := hs
  have hnone : q.numChildren ≤ 0 := by omega
  -- one key and two children into the first node
  have hinto : ∀ {i j l : Nat} {t₁ t₂ t₃ : BTree K D}, s.t.insertKeyAt pN k i = .ok t₁ →
      t₁.insertChildAt pN (some N) j = .ok t₂ → t₂.insertChildAt pN (some N') l = .ok t₃ →
      t₃.view.body p = some (.inner s₀) ∧ t₃.view.body ppN = some (.inner q) := by
    intro i j l t₁ t₂ t₃ h1 h2 h3
    have hkeep : ∀ b, b ≠ pN → t₃.view.body b = s.t.view.body b := fun b hb => by
      rw [(body_of_insertChildAt h3).1 b hb, (body_of_insertChildAt h2).1 b hb,
        (body_of_insertKeyAt h1).1 b hb]
    exact ⟨(hkeep p hp).trans hsource, (hkeep ppN hpp).trans hq⟩
  simp only [splitPushed, inner_eq hsource, ok_bind] at h
  obtain ⟨y, hy, h⟩ := bind_eq_ok.mp h
  split at h
  · split at h
    · obtain ⟨t₁, h1, h⟩ := bind_eq_ok.mp h
      obtain ⟨t₂, h2, h⟩ := bind_eq_ok.mp h
      obtain ⟨t₃, h3, h⟩ := bind_eq_ok.mp h
      obtain rfl := Except.ok.inj h
      obtain ⟨hs₁, hq₁⟩ := hinto h1 h2 h3
      exact ⟨⟨hs₁, ⟨q, hq₁, by omega⟩, by simp only; omega, by simp⟩, by simp only; omega, by simp⟩
    · obtain ⟨t₁, h1, h⟩ := bind_eq_ok.mp h
      obtain ⟨t₂, h2, h⟩ := bind_eq_ok.mp h
      obtain ⟨t₃, h3, h⟩ := bind_eq_ok.mp h
      obtain rfl := Except.ok.inj h
      obtain ⟨hs₁, hq₁⟩ := hinto h1 h2 h3
      exact ⟨⟨hs₁, ⟨q, hq₁, by omega⟩, by simp only; omega, by simp⟩, by simp only; omega, by simp⟩
  · rename_i hnot
    obtain rfl := Except.ok.inj h
    refine ⟨⟨hsource, ⟨q, hq, hnum⟩, by omega, hplace⟩, hi, fun hadd => ?_⟩
    obtain ⟨hslot, hle⟩ := hplace hadd
    refine lt_of_le_of_ne hle fun heq => hnot ?_
    rw [heq] at hy
    obtain rfl := Except.ok.inj (hy.symm.trans hz)
    exact ⟨(keygreater_iff _ _).mpr hk, hslot⟩

omit [LinearOrder K] in
theorem splitFirst_short (h : splitFirst p pN s = .ok s') (hs : SplitShort p ppN s₀ c s)
    (hp : p ≠ pN) (hpp : ppN ≠ pN) :
    SplitShort p ppN s₀ c s' ∧ s'.i = s.i ∧ s'.added = s.added := by
  obtain ⟨hsource, ⟨q, hq, hnum⟩, hbound, hplace⟩ := hs
  simp only [splitFirst, inner_eq hsource, ok_bind] at h
  split at h
  · obtain ⟨y, -, h⟩ := bind_eq_ok.mp h
    obtain ⟨t₁, h1, h⟩ := bind_eq_ok.mp h
    obtain ⟨y', -, h⟩ := bind_eq_ok.mp h
    obtain ⟨t₂, h2, h⟩ := bind_eq_ok.mp h
    obtain rfl := Except.ok.inj h
    have hkeep : ∀ b, b ≠ pN → t₂.view.body b = s.t.view.body b := fun b hb => by
      rw [(body_of_insertChildAt h2).1 b hb, (body_of_insertKeyAt h1).1 b hb]
    exact ⟨⟨(hkeep p hp).trans hsource, ⟨q, (hkeep ppN hpp).trans hq, hnum⟩, hbound, hplace⟩, rfl,
      rfl⟩
  · obtain rfl := Except.ok.inj h
    exact ⟨⟨hsource, ⟨q, hq, hnum⟩, hbound, hplace⟩, rfl, rfl⟩

omit [LinearOrder K] in
/-- Only the fourth key and its child go to the second node. -/
theorem splitSecond_short (h : splitSecond p ppN s = .ok s') (hs : SplitShort p ppN s₀ c s)
    (hfull : s₀.slotsinuse = 4) (hi : s.i < 4) (hp : p ≠ ppN) :
    s'.t.view.body p = some (.inner s₀) ∧
      (∃ q, s'.t.view.body ppN = some (.inner q) ∧ q.numChildren ≤ s.i + 1 - 3) ∧ s'.i = s.i ∧
      s'.slot = s.slot ∧ s'.added = s.added := by
  obtain ⟨hsource, ⟨q, hq, hnum⟩, -, -⟩ := hs
  simp only [splitSecond, inner_eq hsource, ok_bind, hfull] at h
  split at h
  · obtain ⟨y, -, h⟩ := bind_eq_ok.mp h
    obtain ⟨t₁, h1, h⟩ := bind_eq_ok.mp h
    obtain ⟨y', -, h⟩ := bind_eq_ok.mp h
    obtain ⟨t₂, h2, h⟩ := bind_eq_ok.mp h
    obtain rfl := Except.ok.inj h
    obtain ⟨hkeep₁, q₀, q₁, hq₀, hq₁, hnum₁⟩ := body_of_insertKeyAt h1
    obtain ⟨hkeep₂, q₁', q₂, hq₁', hq₂, hnum₂⟩ := body_of_insertChildAt h2
    obtain rfl : q = q₀ := by simpa [hq] using hq₀
    obtain rfl : q₁ = q₁' := by simpa [hq₁] using hq₁'
    exact ⟨by rw [hkeep₂ p hp, hkeep₁ p hp, hsource], ⟨q₂, hq₂, by omega⟩, rfl, rfl, rfl⟩
  · obtain rfl := Except.ok.inj h
    exact ⟨hsource, ⟨q, hq, by omega⟩, rfl, rfl, rfl⟩

omit [LinearOrder K] in
theorem splitMiddle_short (h : splitMiddle p pN s = .ok s')
    (hsource : s.t.view.body p = some (.inner s₀)) :
    (∀ b, b ≠ pN → s'.t.view.body b = s.t.view.body b) ∧ s'.i = s.i ∧ s'.slot = s.slot ∧
      s'.added = s.added := by
  simp only [splitMiddle, inner_eq hsource, ok_bind] at h
  split at h
  · obtain ⟨q, -, h⟩ := bind_eq_ok.mp h
    obtain ⟨kp, -, h⟩ := bind_eq_ok.mp h
    obtain ⟨t₁, h1, h⟩ := bind_eq_ok.mp h
    obtain ⟨c, -, h⟩ := bind_eq_ok.mp h
    obtain ⟨c', -, h⟩ := bind_eq_ok.mp h
    obtain ⟨f, -, h⟩ := bind_eq_ok.mp h
    obtain ⟨t₂, h2, h⟩ := bind_eq_ok.mp h
    obtain rfl := Except.ok.inj h
    have hlinks : t₂.view.body = t₁.view.body := by
      split at h2
      · obtain ⟨y, -, h2⟩ := bind_eq_ok.mp h2
        exact body_of_linkLeaves h2
      · obtain rfl := Except.ok.inj h2
        rfl
    refine ⟨fun b hb => ?_, rfl, rfl, rfl⟩
    rw [hlinks, body_of_setInner h1, Function.update_of_ne hb]
  · obtain rfl := Except.ok.inj h
    exact ⟨fun _ _ => rfl, rfl, rfl, rfl⟩

/-- When the loop ends, the new key is in one of the nodes and the second one has one child. -/
theorem innerSplitLoop_short {fuel : Nat}
    (h : innerSplitLoop p pN ppN N k N' fuel s = .ok s') (hs : SplitShort p ppN s₀ c s)
    (hfull : s₀.slotsinuse = 4) (hc : c < 4) (hz : load s₀.keySlots c = .ok z) (hk : k < z)
    (hp : p ≠ pN) (hp' : p ≠ ppN) (hpp : ppN ≠ pN) :
    SplitShort p ppN s₀ c s' ∧ s'.added = true := by
  induction fuel generalizing s with
  | zero => simp [innerSplitLoop] at h
  | succ fuel ih =>
    simp only [innerSplitLoop, inner_eq hs.source, ok_bind, hfull] at h
    split at h
    · rename_i hi
      obtain ⟨s₁, h1, h⟩ := bind_eq_ok.mp h
      obtain ⟨s₂, h2, h⟩ := bind_eq_ok.mp h
      obtain ⟨s₃, h3, h⟩ := bind_eq_ok.mp h
      obtain ⟨s₄, h4, h⟩ := bind_eq_ok.mp h
      obtain ⟨hs₁, hi₁, hadd₁⟩ := splitPushed_short h1 hs hi hz hk hp hpp
      obtain ⟨hs₂, hi₂, hadd₂⟩ := splitFirst_short h2 hs₁ hp hpp
      obtain ⟨hsource₃, ⟨q, hq, hnum⟩, hi₃, hslot₃, hadd₃⟩ :=
        splitSecond_short h3 hs₂ hfull (by omega) hp'
      obtain ⟨hkeep, hi₄, hslot₄, hadd₄⟩ := splitMiddle_short h4 hsource₃
      refine ih h ⟨(hkeep p hp).trans hsource₃, ⟨q, (hkeep ppN hpp).trans hq, ?_⟩, ?_, ?_⟩
      · simp only
        omega
      · simp only
        omega
      · intro hadd
        simp only [hadd₄, hadd₃] at hadd
        have hslot := (hs₂.place hadd).1
        have hlt := hadd₁ (hadd₂ ▸ hadd)
        simp only
        omega
    · rename_i hi
      obtain rfl := Except.ok.inj h
      refine ⟨hs, ?_⟩
      by_contra hadd
      have hle := (hs.place (by simpa using hadd)).2
      omega

/-- After the whole split the second node has two children at most. -/
theorem splitInner_short {kp : K} (h : t.splitInner P p N k N' = .ok (kp, t'))
    (hsource : t.view.body p = some (.inner s₀)) (hfull : s₀.slotsinuse = 4) (hc : c < 4)
    (hz : load s₀.keySlots c = .ok z) (hk : k < z) :
    ∃ q, t'.view.body (t.nodes.size + 1) = some (.inner q) ∧ q.numChildren ≤ 2 := by
  obtain ⟨-, -, -, hbody⟩ := view_newInner_twice P t
  have hlt := body_lt_size hsource
  have hp : p ≠ t.nodes.size := hlt.ne
  have hp' : p ≠ t.nodes.size + 1 := (Nat.lt_succ_of_lt hlt).ne
  have hpp : t.nodes.size + 1 ≠ t.nodes.size := (Nat.lt_succ_self _).ne'
  have hsource₁ : ((t.newInner P).newInner P).view.body p = some (.inner s₀) := by
    rw [hbody p hlt, hsource]
  have hfresh : ((t.newInner P).newInner P).view.body (t.nodes.size + 1) =
      some (.inner (InnerNode.fresh (K := K) P (t.nodes.size + 1)).toInnerSlots) := by
    rw [newInner_view, View.body_alloc, newInner_view]
    simp [newInner]
  simp only [splitInner, inner_eq hsource₁, ok_bind] at h
  obtain ⟨s, hloop, h⟩ := bind_eq_ok.mp h
  obtain ⟨⟨-, ⟨q, hq, hnum⟩, hbound, -⟩, hadd⟩ := innerSplitLoop_short hloop
    ⟨hsource₁, ⟨_, hfresh, by simp [InnerNode.fresh]⟩, by simp, by simp⟩ hfull hc hz hk hp hp' hpp
  obtain ⟨last, -, h⟩ := bind_eq_ok.mp h
  obtain ⟨t₁, h1, h⟩ := bind_eq_ok.mp h
  simp only [hadd, if_true, ok_bind] at h
  obtain ⟨n, -, h⟩ := bind_eq_ok.mp h
  obtain ⟨y, -, h⟩ := bind_eq_ok.mp h
  have hlast : ∃ q₁, t₁.view.body (t.nodes.size + 1) = some (.inner q₁) ∧ q₁.numChildren ≤ 2 := by
    split at h1
    · obtain ⟨-, q₀, q₁, hq₀, hq₁, hnum₁⟩ := body_of_insertChildAt h1
      obtain rfl : q = q₀ := by simpa [hq] using hq₀
      exact ⟨q₁, hq₁, by omega⟩
    · obtain rfl := Except.ok.inj h1
      exact ⟨q, hq, by omega⟩
  cases hkp : s.kp with
  | none => simp [hkp] at h
  | some m =>
    simp only [hkp, pure_eq_ok, Except.ok.injEq, Prod.mk.injEq] at h
    obtain ⟨-, rfl⟩ := h
    exact hlast

end BTree

variable {ksL ksR : List K} {csL csR : List Addr}

/-- A full parent: `p` has four keys and five children, `x` is child `i`, and `k` lies strictly
between the keys around it. -/
structure SplitFull (P : Template K D) [LinearOrder K] (t : BTree K D) (p : Addr)
    (ksL ksR : List K) (k : K) (csL csR : List Addr) (x N N' : Addr) : Prop where
  slots : ∃ s, t.view.body p = some (.inner s) ∧ InnerHas P s (ksL ++ ksR) (csL ++ x :: csR)
  left : ksL.length = csL.length
  right : ksR.length = csR.length
  full : (ksL ++ ksR).length = 4
  sorted : (ksL ++ ksR).Pairwise (· < ·)
  above : ∀ y ∈ ksL, y < k
  below : ∀ y ∈ ksR, k < y
  kind : ∃ lf, ∀ b ∈ csL ++ x :: N :: N' :: csR, t.view.IsKind lf b
  nodup : (csL ++ x :: N :: N' :: csR).Nodup

/-- The nodes at `pN` and `ppN` share the keys `ks` around `kp` and the children `cs`. -/
structure Halved (P : Template K D) (t : BTree K D) (pN ppN : Addr) (kp : K) (ks : List K)
    (cs : List Addr) : Prop where
  nodes : ∃ s s' ks₁ ks₂ cs₁ cs₂, t.view.body pN = some (.inner s) ∧
    t.view.body ppN = some (.inner s') ∧ InnerHas P s ks₁ cs₁ ∧ InnerHas P s' ks₂ cs₂ ∧
    cs₁ ++ cs₂ = cs ∧ ks₁ ++ kp :: ks₂ = ks ∧
    (s.numChildren = s.slotsinuse + 1 ∧ 3 ≤ s.numChildren) ∧
    (s'.numChildren = s'.slotsinuse + 1 ∧ 3 ≤ s'.numChildren) ∧
    (∀ c ∈ cs₁, t.view.par c = some pN) ∧ ∀ c ∈ cs₂, t.view.par c = some ppN

variable [LinearOrder K]

/-- The split of a full parent is right exactly if the split child is the last one. -/
theorem halves_last (hinner : P.nodeslots = 4) (h : SplitFull P t p ksL ksR k csL csR x N N') :
    (∃ kp t', t.splitInner P p N k N' = .ok (kp, t') ∧
      Halved P t' t.nodes.size (t.nodes.size + 1) kp (ksL ++ k :: ksR)
        (csL ++ N :: N' :: csR)) ↔ csR = [] := by
  obtain ⟨s₀, hp, hs⟩ := h.slots
  obtain ⟨lf, hkind⟩ := h.kind
  have hcap : P.innernodemax = 4 := by simp [Template.innernodemax, hinner]
  have hleft := h.left
  have hright := h.right
  have hfull := h.full
  have hnd := h.nodup
  simp only [List.length_append] at hfull
  have hlt : ∀ b ∈ csL ++ x :: N :: N' :: csR, b < t.nodes.size := fun b hb => by
    obtain ⟨u, hu⟩ : ∃ u, t.view.body b = some u := by
      have := hkind b hb
      cases lf with
      | true => exact ⟨_, this.choose_spec⟩
      | false => exact ⟨_, this.choose_spec⟩
    exact BTree.body_lt_size hu
  constructor
  · rintro ⟨kp, t', e, hhalf⟩
    by_contra hne
    -- the first key to the right of the new one
    cases ksR with
    | nil => exact hne (List.eq_nil_of_length_eq_zero hright.symm)
    | cons z zs =>
      simp only [List.length_cons] at hfull
      have hz : load s₀.keySlots ksL.length = .ok z := by
        rw [hs.load_key (by simp)]
        simp
      obtain ⟨q, hq, hnum⟩ := BTree.splitInner_short e hp (by rw [hs.inuse, h.full]) (by omega) hz
        (h.below z (by simp))
      obtain ⟨s, s', -, -, -, -, -, hs', -, -, -, -, -, hthree, -⟩ := hhalf.nodes
      obtain rfl : q = s' := by simpa [hq] using hs'
      omega
  · rintro rfl
    obtain rfl : ksR = [] := List.eq_nil_of_length_eq_zero hright
    simp only [List.append_nil, List.length_nil, Nat.add_zero] at hs hfull
    obtain ⟨k₀, k₁, m, k₃, rfl⟩ : ∃ k₀ k₁ m k₃, ksL = [k₀, k₁, m, k₃] :=
      List.length_eq_four.mp hfull
    obtain ⟨c₀, c₁, c₂, c₃, rfl⟩ : ∃ c₀ c₁ c₂ c₃, csL = [c₀, c₁, c₂, c₃] :=
      List.length_eq_four.mp (by rw [← hleft]; rfl)
    obtain ⟨w, hw⟩ : ∃ w, w = ((t.newInner P).newInner P).view := ⟨_, rfl⟩
    obtain ⟨-, -, -, hwbody⟩ := view_newInner_twice P t
    rw [← hw] at hwbody
    have hwkind : ∀ b ∈ [c₀, c₁, c₂, c₃] ++ x :: N :: N' :: [], w.IsKind lf b := by
      intro b hb
      have := hkind b hb
      cases lf <;> simpa [View.IsKind, hwbody b (hlt b hb)] using this
    have hmem : ∀ b ∈ [c₀, c₁, c₂] ++ ([c₃] ++ [x]),
        b ∈ [c₀, c₁, c₂, c₃] ++ x :: N :: N' :: [] := by
      intro b hb
      simp only [List.mem_append, List.mem_cons, List.not_mem_nil, or_false] at hb ⊢
      tauto
    have ho : Overfull P w p t.nodes.size (t.nodes.size + 1) lf [k₀, k₁] m [k₃] [c₀, c₁, c₂] [c₃]
        x := by
      refine ⟨⟨s₀, by rw [hwbody p (BTree.body_lt_size hp), hp], hs⟩, by rw [hcap]; rfl,
        by rw [hcap]; rfl, rfl, rfl, by simp, (BTree.body_lt_size hp).ne,
        (Nat.lt_succ_of_lt (BTree.body_lt_size hp)).ne, Nat.ne_of_lt (Nat.lt_succ_self _),
        fun b hb => hwkind b (hmem b hb), fun b hb => ⟨(hlt b (hmem b hb)).ne,
          (Nat.lt_succ_of_lt (hlt b (hmem b hb))).ne⟩, List.Sublist.nodup (by simp) hnd⟩
    have hmem' : ∀ b ∈ [c₃] ++ [N, N'], b ∈ [c₀, c₁, c₂, c₃] ++ x :: N :: N' :: [] := by
      intro b hb
      simp only [List.mem_append, List.mem_cons, List.not_mem_nil, or_false] at hb ⊢
      tauto
    simp only [List.cons_append, List.nil_append, List.nodup_cons, List.mem_cons, List.not_mem_nil,
      or_false, not_or] at hnd
    obtain ⟨t', L, sp, sq, e, hsp, hsq, v, -⟩ := BTree.splitInner_spec hw rfl rfl ho
      (fun y hy => (h.above y (by simpa using hy)).le) (by simp; tauto)
      (by simp; tauto) (by simp; tauto)
      (fun b hb => by
        have := hlt b (hmem' b hb)
        exact ⟨this.ne, (Nat.lt_succ_of_lt this).ne⟩) (fun b hb => hwkind b (hmem' b hb))
    refine ⟨m, t', e, sp, sq, [k₀, k₁], [k₃, k], _, _, ?_, ?_, hsp, hsq, rfl, rfl, ?_, ?_, ?_, ?_⟩
    · rw [v, View.body_setLinks, View.split_body_left ho.ne]
    · rw [v, View.body_setLinks, View.split_body_right]
    · simp [hsp.num, hsp.inuse]
    · simp [hsq.num, hsq.inuse]
    · intro b hb
      rw [v]
      exact if_pos hb
    · intro b hb
      have hnot : b ∉ [c₀, c₁, c₂] := by
        simp only [List.mem_append, List.mem_cons, List.not_mem_nil, or_false] at hb ⊢
        rintro (rfl | rfl | rfl) <;> rcases hb with rfl | rfl | rfl <;> tauto
      rw [v]
      refine (if_neg hnot).trans (if_pos ?_)
      simp only [List.mem_append, List.mem_cons, List.not_mem_nil, or_false] at hb ⊢
      tauto

/-- A full root over five leaves, and two new leaves. -/
def sampleFull : BTree Nat String :=
  BTree.newLeaf Template.strings (BTree.newLeaf Template.strings
    { nodes := ⟨some (.inner ⟨⟨4, 4, [10, 20, 30, 40], [1, 2, 3, 4, 5].map some, 5⟩, true, none⟩) ::
        [0, 1, 2, 3, 4].map fun j => some (.leaf ⟨⟨4, 2, [10 * j, 10 * j + 1, 0, 0],
          ["a", "b", "", ""]⟩, false, some 0, if j = 4 then none else some (j + 2),
          if j = 0 then none else some j⟩)⟩
      root := some 0
      tailleaf := none
      headleaf := some 1
      totalkeycount := 10 })

theorem sampleFull_kind : ∀ b ∈ [1, 2, 3, 4, 5, 6, 7], sampleFull.view.IsKind true b := by
  intro b hb
  obtain rfl | rfl | rfl | rfl | rfl | rfl | rfl :
    b = 1 ∨ b = 2 ∨ b = 3 ∨ b = 4 ∨ b = 5 ∨ b = 6 ∨ b = 7 := by simpa using hb
  all_goals exact ⟨_, rfl⟩

theorem sampleFull_last : SplitFull Template.strings sampleFull 0 [10, 20, 30, 40] [] 45
    [1, 2, 3, 4] [] 5 6 7 where
  slots := ⟨_, rfl, rfl, rfl, rfl, ⟨_, rfl⟩, ⟨_, rfl⟩, rfl, rfl⟩
  left := rfl
  right := rfl
  full := rfl
  sorted := by decide
  above := by decide
  below := by decide
  kind := ⟨true, fun b hb => sampleFull_kind b (by simpa using hb)⟩
  nodup := by decide

theorem sampleFull_middle : SplitFull Template.strings sampleFull 0 [10, 20] [30, 40] 25
    [1, 2] [4, 5] 3 6 7 where
  slots := ⟨_, rfl, rfl, rfl, rfl, ⟨_, rfl⟩, ⟨_, rfl⟩, rfl, rfl⟩
  left := rfl
  right := rfl
  full := rfl
  sorted := by decide
  above := by decide
  below := by decide
  kind := ⟨true, fun b hb => sampleFull_kind b (by
    simp only [List.mem_append, List.mem_cons, List.not_mem_nil, or_false] at hb ⊢
    tauto)⟩
  nodup := by decide

theorem halves_last_sample : ∃ kp t',
    sampleFull.splitInner Template.strings 0 6 45 7 = .ok (kp, t') ∧
      Halved Template.strings t' 8 9 kp [10, 20, 30, 40, 45] [1, 2, 3, 4, 6, 7] :=
  (halves_last rfl sampleFull_last).mpr rfl

/-- The third of five children is split: the third key is lost, and the second node gets two
children. -/
theorem not_halves : SplitFull Template.strings sampleFull 0 [10, 20] [30, 40] 25 [1, 2]
    [4, 5] 3 6 7 ∧
    ¬∃ kp t', sampleFull.splitInner Template.strings 0 6 25 7 = .ok (kp, t') ∧
      Halved Template.strings t' 8 9 kp [10, 20, 25, 30, 40] [1, 2, 6, 7, 4, 5] := by
  refine ⟨sampleFull_middle, ?_⟩
  rintro ⟨kp, t', e, h⟩
  have hnum : (do
      let r ← sampleFull.splitInner Template.strings 0 6 25 7
      let q ← r.2.inner 9
      return q.numChildren) = .ok 2 := by decide +kernel
  obtain ⟨s, s', -, -, -, -, -, hs', -, -, -, -, -, hthree, -⟩ := h.nodes
  simp only [e, ok_bind, BTree.inner_eq hs', pure_eq_ok, Except.ok.injEq] at hnum
  omega

end NwtBTree
