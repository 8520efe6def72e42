import NwtBTree.Refine.Inner

/-!
# The split of a full inner node at its right end

When no key of the full parent is greater than the pushed up key, the loop of
`insert_in_parent` copies: the first half of the keys and children goes to one
new node, the rest to the other, and the key between them moves up. The loop
invariant says after `i` iterations how much of each new node is there.
-/

namespace NwtBTree

variable {K D : Type} {P : Template K D}

theorem InnerHas.load_key {s : InnerSlots K} {ks : List K} {cs : List Addr}
    (h : InnerHas P s ks cs) {i : Nat} (hi : i < ks.length) : load s.keySlots i = .ok ks[i] := by
  obtain ⟨r, hr⟩ := h.keys
  rw [hr, load_left _ hi]

theorem InnerHas.load_child {s : InnerSlots K} {ks : List K} {cs : List Addr}
    (h : InnerHas P s ks cs) {i : Nat} (hi : i < cs.length) :
    load s.firstChild i = .ok (some cs[i]) := by
  obtain ⟨r, hr⟩ := h.children
  rw [hr, load_left _ (by simpa using hi)]
  simp

/-- Two nodes take over children of others. -/
def View.split (w : View K D) (pN ppN : Addr) (sp sq : InnerSlots K) (CA CB : List Addr) :
    View K D :=
  { w with
    body := Function.update (Function.update w.body pN (some (.inner sp))) ppN (some (.inner sq))
    par := fun b => if b ∈ CA then some pN else if b ∈ CB then some ppN else w.par b }

namespace View

variable {w : View K D} {pN ppN : Addr} {sp sq : InnerSlots K} {CA CB : List Addr}

theorem split_left (h : pN ≠ ppN) (s : InnerSlots K) (x : Addr) :
    ((w.split pN ppN sp sq CA CB).setBody pN (.inner s)).setPar x (some pN) =
      w.split pN ppN s sq (CA ++ [x]) CB := by
  simp only [split, setBody, setPar, View.mk.injEq, and_true]
  refine ⟨?_, ?_⟩
  · rw [Function.update_comm h.symm, Function.update_idem]
  · funext b
    by_cases hb : b = x
    · simp [hb]
    · simp [hb]

theorem split_right {x : Addr} (hx : x ∉ CA) (s : InnerSlots K) :
    ((w.split pN ppN sp sq CA CB).setBody ppN (.inner s)).setPar x (some ppN) =
      w.split pN ppN sp s CA (CB ++ [x]) := by
  simp only [split, setBody, setPar, View.mk.injEq, and_true]
  refine ⟨?_, ?_⟩
  · rw [Function.update_idem]
  · funext b
    by_cases hb : b = x
    · simp [hb, hx]
    · simp [hb]

theorem split_setBody_left (h : pN ≠ ppN) (s : InnerSlots K) :
    (w.split pN ppN sp sq CA CB).setBody pN (.inner s) = w.split pN ppN s sq CA CB := by
  simp only [split, setBody, View.mk.injEq, and_true]
  rw [Function.update_comm h.symm, Function.update_idem]

theorem split_setBody_right (s : InnerSlots K) :
    (w.split pN ppN sp sq CA CB).setBody ppN (.inner s) = w.split pN ppN sp s CA CB := by
  simp [split, setBody]

theorem split_body_left (h : pN ≠ ppN) :
    (w.split pN ppN sp sq CA CB).body pN = some (.inner sp) := by
  simp [split, Function.update_of_ne h]

theorem split_body_right : (w.split pN ppN sp sq CA CB).body ppN = some (.inner sq) := by
  simp [split]

theorem split_body_other {b : Addr} (h : b ≠ pN) (h' : b ≠ ppN) :
    (w.split pN ppN sp sq CA CB).body b = w.body b := by
  simp [split, Function.update_of_ne h, Function.update_of_ne h']

@[simp] theorem split_links : (w.split pN ppN sp sq CA CB).links = w.links := rfl

theorem isKind_split {lf : Bool} {b : Addr} (h : b ≠ pN) (h' : b ≠ ppN) (hk : w.IsKind lf b) :
    (w.split pN ppN sp sq CA CB).IsKind lf b := by
  cases lf <;> simpa [IsKind, split_body_other h h'] using hk

theorem split_setLinks (L L' : Links) :
    ((w.setLinks L).split pN ppN sp sq CA CB).setLinks L' =
      (w.setLinks L').split pN ppN sp sq CA CB := rfl

/-- The children, if they are leaves, are linked from left to right. -/
def Linked (w : View K D) (lf : Bool) (cs : List Addr) : Prop :=
  lf = true → cs.IsChain w.links.Joined

theorem Linked.left {lf : Bool} {as bs : List Addr} (h : w.Linked lf (as ++ bs)) :
    w.Linked lf as :=
  fun hl => (h hl).left_of_append

theorem Linked.right {lf : Bool} {as bs : List Addr} (h : w.Linked lf (as ++ bs)) :
    w.Linked lf bs :=
  fun hl => (h hl).right_of_append

end View

/-- A full inner node `p`, cut at the key `m`, and the two new nodes of its split. -/
structure Overfull (P : Template K D) (w : View K D) (p pN ppN : Addr) (lf : Bool) (A : List K)
    (m : K) (B : List K) (CA CB : List Addr) (x : Addr) : Prop where
  body : ∃ s, w.body p = some (.inner s) ∧ InnerHas P s (A ++ m :: B) (CA ++ (CB ++ [x]))
  full : (A ++ m :: B).length = P.innernodemax
  half : A.length = P.innernodemax / 2
  lenA : CA.length = A.length + 1
  lenB : CB.length = B.length
  two : 0 < B.length
  ne_left : p ≠ pN
  ne_right : p ≠ ppN
  ne : pN ≠ ppN
  kind : ∀ c ∈ CA ++ (CB ++ [x]), w.IsKind lf c
  new : ∀ c ∈ CA ++ (CB ++ [x]), c ≠ pN ∧ c ≠ ppN
  nodup : (CA ++ (CB ++ [x])).Nodup

/-- The state of the split after `i` iterations. Children that were linked stay as they were. -/
structure SplitInv (P : Template K D) (w : View K D) (pN ppN : Addr) (lf : Bool) (A : List K)
    (m : K) (B : List K) (CA CB : List Addr) (x : Addr) (i : Nat) (s : BTree.InnerSplit K D) :
    Prop where
  i_eq : s.i = i
  slot_eq : s.slot = i
  j_eq : s.j = i - (A.length + 1)
  added_eq : s.added = false
  kp_eq : s.kp = if i ≤ A.length + 1 then none else some m
  view : ∃ L sp sq, s.t.view =
      (w.setLinks L).split pN ppN sp sq (CA.take i) (CB.take (i - (A.length + 1))) ∧
    (w.Linked lf (CA ++ (CB ++ [x])) → L = w.links) ∧
    InnerHas P sp (if i ≤ A.length + 1 then (A ++ [m]).take i else A) (CA.take i) ∧
    InnerHas P sq (B.take (i - (A.length + 1))) (CB.take (i - (A.length + 1)))

theorem View.Linked.take_left {w : View K D} {lf : Bool} {CA cs : List Addr}
    (h : w.Linked lf (CA ++ cs)) (i : Nat) : w.Linked lf (CA.take i) := by
  rw [← List.take_append_drop i CA, List.append_assoc] at h
  exact h.left

namespace BTree

variable {t : BTree K D} {w : View K D} {p pN ppN N N' x c : Addr} {k m : K} {lf : Bool}
  {A B ks : List K} {CA CB CA' CB' : List Addr} {sp sq : InnerSlots K}

/-- One key and one child more for the first node. -/
theorem takeOver_left (hv : t.view = w.split pN ppN sp sq CA' CB') (hs : InnerHas P sp ks CA')
    (hne : pN ≠ ppN) (hroom : ks.length < P.innernodemax) (hroom' : CA'.length ≤ P.innernodemax)
    (hnew : ∀ b ∈ CA' ++ [c], b ≠ pN ∧ b ≠ ppN) (hkind : ∀ b ∈ CA' ++ [c], w.IsKind lf b)
    (key : K) {i j : Nat} (hi : i = ks.length) (hj : j = CA'.length) :
    ∃ t1 t2 L sp', t.insertKeyAt pN key i = .ok t1 ∧ t1.insertChildAt pN (some c) j = .ok t2 ∧
      InnerHas P sp' (ks ++ [key]) (CA' ++ [c]) ∧
      t2.view = (w.setLinks L).split pN ppN sp' sq (CA' ++ [c]) CB' ∧
      (w.Linked lf (CA' ++ [c]) → L = w.links) := by
  obtain ⟨s1, t1, e1, hs1, v1⟩ := appendKey_spec (show t.view.body pN = _ by
    rw [hv]; exact View.split_body_left hne) hs hroom key hi
  rw [hv, View.split_setBody_left hne] at v1
  obtain ⟨s2, t2, e2, hs2, v2⟩ := appendChild_spec (show t1.view.body pN = _ by
    rw [v1]; exact View.split_body_left hne) hs1 hroom' (fun b hb => by
      rw [v1]; exact View.isKind_split (hnew b hb).1 (hnew b hb).2 (hkind b hb)) hj
  refine ⟨t1, t2, w.links.around lf CA' c [], s2, e1, e2, hs2, ?_, Links.around_joined⟩
  rw [v2, v1, View.split_links, View.split_left hne]
  rfl

/-- One key and one child more for the second node. -/
theorem takeOver_right (hv : t.view = w.split pN ppN sp sq CA' CB') (hs : InnerHas P sq ks CB')
    (hc : c ∉ CA') (hroom : ks.length < P.innernodemax) (hroom' : CB'.length ≤ P.innernodemax)
    (hnew : ∀ b ∈ CB' ++ [c], b ≠ pN ∧ b ≠ ppN) (hkind : ∀ b ∈ CB' ++ [c], w.IsKind lf b)
    (key : K) {i j : Nat} (hi : i = ks.length) (hj : j = CB'.length) :
    ∃ t1 t2 L sq', t.insertKeyAt ppN key i = .ok t1 ∧ t1.insertChildAt ppN (some c) j = .ok t2 ∧
      InnerHas P sq' (ks ++ [key]) (CB' ++ [c]) ∧
      t2.view = (w.setLinks L).split pN ppN sp sq' CA' (CB' ++ [c]) ∧
      (w.Linked lf (CB' ++ [c]) → L = w.links) := by
  obtain ⟨s1, t1, e1, hs1, v1⟩ := appendKey_spec (show t.view.body ppN = _ by
    rw [hv]; exact View.split_body_right) hs hroom key hi
  rw [hv, View.split_setBody_right] at v1
  obtain ⟨s2, t2, e2, hs2, v2⟩ := appendChild_spec (show t1.view.body ppN = _ by
    rw [v1]; exact View.split_body_right) hs1 hroom' (fun b hb => by
      rw [v1]; exact View.isKind_split (hnew b hb).1 (hnew b hb).2 (hkind b hb)) hj
  refine ⟨t1, t2, w.links.around lf CB' c [], s2, e1, e2, hs2, ?_, Links.around_joined⟩
  rw [v2, v1, View.split_links, View.split_right hc]
  rfl

variable {i : Nat} {s : InnerSplit K D}

theorem splitPushed_skip [LinearOrder K] {s0 : InnerSlots K} {cs : List Addr}
    (hp : s.t.view.body p = some (.inner s0)) (h0 : InnerHas P s0 ks cs) (hi : s.i < ks.length)
    (hk : ∀ y ∈ ks, y ≤ k) : splitPushed p pN N k N' s = .ok s := by
  have hle : ¬k < ks[s.i] := not_lt.mpr (hk _ (List.getElem_mem hi))
  simp [splitPushed, inner_eq hp, h0.load_key hi, hle]

/-- The copy into the first node. -/
theorem splitStep_first (ho : Overfull P w p pN ppN lf A m B CA CB x)
    (h : SplitInv P w pN ppN lf A m B CA CB x i s) (hi : i ≤ A.length) :
    ∃ s', (do let s ← splitFirst p pN s
              let s ← splitSecond p ppN s
              splitMiddle p pN s) = .ok s' ∧
      SplitInv P w pN ppN lf A m B CA CB x (i + 1)
        { s' with i := s'.i + 1, slot := s'.slot + 1 } := by
  obtain ⟨s0, hb, h0⟩ := ho.body
  obtain ⟨hsi, hslot, hj, hadd, hkp, L, sp, sq, hv, hlinks, hsp, hsq⟩ := h
  have hlenA := ho.lenA
  have hfull : A.length + (B.length + 1) = P.innernodemax := by simpa using ho.full
  have hhalf : s0.slotsinuse / 2 = A.length := by rw [h0.inuse, ho.full, ho.half]
  have hbody : ∀ {u : BTree K D} {L sp CA'},
      u.view = (w.setLinks L).split pN ppN sp sq CA' (CB.take 0) →
      u.view.body p = some (.inner s0) := by
    intro u L sp CA' hu
    rw [hu, View.split_body_other ho.ne_left ho.ne_right, View.body_setLinks, hb]
  have hi0 : i - (A.length + 1) = 0 := by omega
  rw [hi0] at hv hsq
  rw [if_pos (by omega)] at hsp
  have hic : i < CA.length := by omega
  have htake : CA.take i ++ [CA[i]] = CA.take (i + 1) := List.take_append_getElem hic
  have hmem : ∀ c ∈ CA.take i ++ [CA[i]], c ∈ CA ++ (CB ++ [x]) := by
    intro c hc
    rw [htake] at hc
    exact List.mem_append_left _ (List.mem_of_mem_take hc)
  have hitem : i < (A ++ [m]).length := by simp; omega
  have hkey : load s0.keySlots i = .ok (A ++ [m])[i] := by
    have hlong : i < (A ++ m :: B).length := by simp; omega
    have : (A ++ m :: B)[i] = (A ++ [m])[i] := by
      simp only [List.getElem_append]
      split_ifs <;> simp [show i - A.length = 0 by omega]
    rw [h0.load_key (by simp; omega), this]
  have hchild : load s0.firstChild i = .ok (some CA[i]) := by
    rw [h0.load_child (by simp; omega)]
    simp [hic]
  obtain ⟨t1, t2, L', sp', e1, e2, hsp', v2, hlinks'⟩ := takeOver_left hv hsp ho.ne
    (by simp only [List.length_take]; omega) (by simp only [List.length_take]; omega)
    (fun b hb => ho.new b (hmem b hb)) (fun b hb => ho.kind b (hmem b hb)) (A ++ [m])[i]
    (show i = _ by simp; omega) (show i = _ by simp; omega)
  rw [htake, List.take_append_getElem hitem] at hsp'
  rw [htake] at v2 hlinks'
  have hkeep : w.Linked lf (CA ++ (CB ++ [x])) → L' = w.links := by
    intro hl
    obtain rfl := hlinks hl
    exact hlinks' (hl.take_left (i + 1))
  have hfirst : splitFirst p pN s = .ok { s with t := t2 } := by
    simp only [splitFirst, inner_eq (hbody hv), ok_bind, hhalf, hsi, hslot, hkey, hchild, e1, e2]
    rw [if_pos ⟨by omega, trivial⟩]
    rfl
  have hsecond : splitSecond p ppN { s with t := t2 } = .ok { s with t := t2 } := by
    simp only [splitSecond, inner_eq (hbody v2), ok_bind, hhalf, hsi]
    rw [if_neg (by omega)]
    rfl
  have hmiddle : splitMiddle p pN { s with t := t2 } = .ok { s with t := t2 } := by
    simp only [splitMiddle, inner_eq (hbody v2), ok_bind, hhalf, hsi]
    rw [if_neg (by omega)]
    rfl
  refine ⟨{ s with t := t2 }, by rw [hfirst, ok_bind, hsecond, ok_bind, hmiddle], ?_⟩
  refine ⟨by simp [hsi], by simp [hslot], by simp [hj]; omega, hadd, ?_, L', sp', sq, ?_, hkeep,
    ?_, ?_⟩
  · simp only [hkp]
    rw [if_pos (by omega), if_pos (by omega)]
  · simpa [show i + 1 - (A.length + 1) = 0 by omega] using v2
  · rw [if_pos (by omega)]
    exact hsp'
  · simpa [show i + 1 - (A.length + 1) = 0 by omega] using hsq

/-- The copy into the second node, up to the fourth `if`. -/
theorem splitSecond_copy (ho : Overfull P w p pN ppN lf A m B CA CB x)
    (h : SplitInv P w pN ppN lf A m B CA CB x i s) (hi : A.length < i)
    (hi' : i < (A ++ m :: B).length) :
    ∃ t' L sp sq, splitFirst p pN s = .ok s ∧
      splitSecond p ppN s = .ok { s with t := t', j := i + 1 - (A.length + 1) } ∧
      t'.view = (w.setLinks L).split pN ppN sp sq (CA.take i) (CB.take (i + 1 - (A.length + 1))) ∧
      (w.Linked lf (CA ++ (CB ++ [x])) → L = w.links) ∧
      InnerHas P sp (if i ≤ A.length + 1 then (A ++ [m]).take i else A) (CA.take i) ∧
      InnerHas P sq (B.take (i + 1 - (A.length + 1))) (CB.take (i + 1 - (A.length + 1))) := by
  obtain ⟨s0, hb, h0⟩ := ho.body
  obtain ⟨hsi, hslot, hj, hadd, hkp, L, sp, sq, hv, hlinks, hsp, hsq⟩ := h
  have hlenA := ho.lenA
  have hlenB := ho.lenB
  have hfull : A.length + (B.length + 1) = P.innernodemax := by simpa using ho.full
  have hhalf : s0.slotsinuse / 2 = A.length := by rw [h0.inuse, ho.full, ho.half]
  have hbody : s.t.view.body p = some (.inner s0) := by
    rw [hv, View.split_body_other ho.ne_left ho.ne_right, View.body_setLinks, hb]
  obtain ⟨q, rfl⟩ : ∃ q, i = A.length + 1 + q := ⟨i - (A.length + 1), by omega⟩
  have hq : A.length + 1 + q - (A.length + 1) = q := by omega
  have hq' : A.length + 1 + q + 1 - (A.length + 1) = q + 1 := by omega
  rw [hq] at hv hsq hj
  rw [hq']
  simp only [List.length_append, List.length_cons] at hi'
  have hqB : q < B.length := by omega
  have hqC : q < CB.length := by omega
  have htake : CB.take q ++ [CB[q]] = CB.take (q + 1) := List.take_append_getElem hqC
  have hmem : ∀ c ∈ CB.take q ++ [CB[q]], c ∈ CA ++ (CB ++ [x]) := by
    intro c hc
    rw [htake] at hc
    exact List.mem_append_right _ (List.mem_append_left _ (List.mem_of_mem_take hc))
  have hkey : load s0.keySlots (A.length + 1 + q) = .ok B[q] := by
    rw [h0.load_key (by simp; omega)]
    simp [show A.length + 1 + q - A.length = q + 1 by omega,
      show ¬A.length + 1 + q < A.length by omega,
      List.getElem_append]
  have hchild : load s0.firstChild (A.length + 1 + q) = .ok (some CB[q]) := by
    rw [h0.load_child (by simp; omega)]
    simp [hlenA, hqC]
  have hnotin : CB[q] ∉ CA.take (A.length + 1 + q) := by
    intro hc
    exact (List.nodup_append.mp ho.nodup).2.2 _ (List.mem_of_mem_take hc) _ (by simp) rfl
  obtain ⟨t1, t2, L', sq', e1, e2, hsq', v2, hlinks'⟩ := takeOver_right hv hsq hnotin
    (by simp only [List.length_take]; omega) (by simp only [List.length_take]; omega)
    (fun b hb => ho.new b (hmem b hb)) (fun b hb => ho.kind b (hmem b hb)) B[q]
    (show q = _ by simp; omega) (show q = _ by simp; omega)
  rw [htake, List.take_append_getElem hqB] at hsq'
  rw [htake] at v2 hlinks'
  have hkeep : w.Linked lf (CA ++ (CB ++ [x])) → L' = w.links := by
    intro hl
    obtain rfl := hlinks hl
    exact hlinks' (hl.right.take_left (q + 1))
  refine ⟨t2, L', sp, sq', ?_, ?_, v2, hkeep, hsp, hsq'⟩
  · simp only [splitFirst, inner_eq hbody, ok_bind, hhalf, hsi]
    rw [if_neg (by omega)]
    rfl
  · simp only [splitSecond, inner_eq hbody, ok_bind, hhalf, hsi, hj, hkey, hchild, e1, e2]
    rw [if_pos (by omega)]
    rfl

/-- The iteration that also finds the key between the two nodes. -/
theorem splitStep_middle (ho : Overfull P w p pN ppN lf A m B CA CB x)
    (h : SplitInv P w pN ppN lf A m B CA CB x (A.length + 1) s) :
    ∃ s', (do let s ← splitFirst p pN s
              let s ← splitSecond p ppN s
              splitMiddle p pN s) = .ok s' ∧
      SplitInv P w pN ppN lf A m B CA CB x (A.length + 2)
        { s' with i := s'.i + 1, slot := s'.slot + 1 } := by
  obtain ⟨s0, hb, h0⟩ := ho.body
  have hlenA := ho.lenA
  have hlenB := ho.lenB
  have htwo := ho.two
  have hhalf : s0.slotsinuse / 2 = A.length := by rw [h0.inuse, ho.full, ho.half]
  obtain ⟨t', L, sp, sq, hfirst, hsecond, hv, hlinks, hsp, hsq⟩ :=
    splitSecond_copy ho h (by omega) (by simp; omega)
  obtain ⟨hsi, hslot, hj, hadd, hkp, -⟩ := h
  rw [if_pos (le_refl _)] at hsp
  have htake : (A ++ [m]).take (A.length + 1) = A ++ [m] := List.take_of_length_le (by simp)
  have htakeC : CA.take (A.length + 1) = CA := List.take_of_length_le (by omega)
  have htakeC' : CA.take (A.length + 1 + 1) = CA := List.take_of_length_le (by omega)
  have hone : A.length + 1 + 1 - (A.length + 1) = 1 := by omega
  rw [hone] at hv hsq hsecond
  rw [htake, htakeC] at hsp
  rw [htakeC] at hv
  have hbody : t'.view.body p = some (.inner s0) := by
    rw [hv, View.split_body_other ho.ne_left ho.ne_right, View.body_setLinks, hb]
  have hpN : t'.view.body pN = some (.inner sp) := by rw [hv, View.split_body_left ho.ne]
  -- the last key of the first node goes up
  have hkp' : load sp.keySlots A.length = .ok m := by
    rw [hsp.load_key (by simp)]
    simp
  obtain ⟨u, e1, v1⟩ := setInner_view hpN { sp with slotsinuse := dec16 sp.slotsinuse }
  rw [hv, View.split_setBody_left ho.ne] at v1
  have hsp' := hsp.dropKey
  -- the two leaves at the cut are joined already
  have hcA : A.length < CA.length := by omega
  have hcB : 0 < CB.length := by omega
  have hchild : load s0.firstChild (A.length + 1) = .ok (some CB[0]) := by
    rw [h0.load_child (by simp; omega)]
    simp [hlenA, hcB]
  have hchild' : load s0.firstChild A.length = .ok (some CA[A.length]) := by
    rw [h0.load_child (by simp; omega)]
    simp [hcA]
  have hmemA : CA[A.length] ∈ CA ++ (CB ++ [x]) := List.mem_append_left _ (List.getElem_mem hcA)
  have hmemB : CB[0] ∈ CA ++ (CB ++ [x]) :=
    List.mem_append_right _ (List.mem_append_left _ (List.getElem_mem hcB))
  have hkind : ∀ c ∈ CA ++ (CB ++ [x]), u.view.IsKind lf c := by
    intro c hc
    rw [v1]
    exact View.isKind_split (ho.new c hc).1 (ho.new c hc).2 (ho.kind c hc)
  have hlast : ∃ f u' L', u.isleaf CB[0] = .ok f ∧ (if f then do
        u.linkLeaves (← load s0.firstChild A.length) (some CB[0])
      else .ok u : Except Fault (BTree K D)) = .ok u' ∧ u'.view = u.view.setLinks L' ∧
        (w.Linked lf (CA ++ (CB ++ [x])) → L' = w.links) := by
    cases lf with
    | false =>
      obtain ⟨sx, hsx⟩ := hkind _ hmemB
      exact ⟨false, u, L, isleaf_inner hsx, rfl, by rw [v1]; rfl, hlinks⟩
    | true =>
      obtain ⟨sx, hsx⟩ := hkind _ hmemB
      obtain ⟨sy, hsy⟩ := hkind _ hmemA
      obtain ⟨u', e2, v2⟩ := linkLeaves_view hsy hsx
      refine ⟨true, u', _, isleaf_leaf hsx, by simp [hchild', e2], v2, fun hl => ?_⟩
      have hj : w.links.Joined CA[A.length] CB[0] := by
        have h1 := (hl rfl).getElem A.length (by simp; omega)
        simpa [List.getElem_append, hlenA, hcB] using h1
      rw [v1, View.split_links, View.links_setLinks, hlinks hl, Links.link_eq_self hj]
  obtain ⟨f, u', L', e2, e3, v2, hlinks'⟩ := hlast
  refine ⟨{ s with t := u', j := 1, kp := some m }, ?_, ?_⟩
  · rw [hfirst, ok_bind, hsecond, ok_bind]
    simp only [splitMiddle, inner_eq hbody, inner_eq hpN, ok_bind, hhalf, hsi, if_true,
      Nat.add_sub_cancel, hkp', e1, hchild, deref]
    rw [e2, ok_bind, e3]
    rfl
  · refine ⟨by simp [hsi], by simp [hslot], by simp, hadd, ?_,
      L', { sp with slotsinuse := dec16 sp.slotsinuse }, sq, ?_, hlinks', ?_, ?_⟩
    · simp
    · rw [show A.length + 2 - (A.length + 1) = 1 by omega, htakeC']
      rw [v2, v1, View.split_setLinks]
    · rw [if_neg (by omega), htakeC']
      exact hsp'
    · rw [show A.length + 2 - (A.length + 1) = 1 by omega]
      exact hsq

/-- An iteration after the cut. -/
theorem splitStep_second (ho : Overfull P w p pN ppN lf A m B CA CB x)
    (h : SplitInv P w pN ppN lf A m B CA CB x i s) (hi : A.length + 1 < i)
    (hi' : i < (A ++ m :: B).length) :
    ∃ s', (do let s ← splitFirst p pN s
              let s ← splitSecond p ppN s
              splitMiddle p pN s) = .ok s' ∧
      SplitInv P w pN ppN lf A m B CA CB x (i + 1)
        { s' with i := s'.i + 1, slot := s'.slot + 1 } := by
  obtain ⟨s0, hb, h0⟩ := ho.body
  have hlenA := ho.lenA
  have hhalf : s0.slotsinuse / 2 = A.length := by rw [h0.inuse, ho.full, ho.half]
  obtain ⟨t', L, sp, sq, hfirst, hsecond, hv, hlinks, hsp, hsq⟩ :=
    splitSecond_copy ho h (by omega) hi'
  obtain ⟨hsi, hslot, hj, hadd, hkp, -⟩ := h
  have hbody : t'.view.body p = some (.inner s0) := by
    rw [hv, View.split_body_other ho.ne_left ho.ne_right, View.body_setLinks, hb]
  have htake : CA.take (i + 1) = CA.take i := by
    rw [List.take_of_length_le (by omega), List.take_of_length_le (by omega)]
  refine ⟨{ s with t := t', j := i + 1 - (A.length + 1) }, ?_, ?_⟩
  · rw [hfirst, ok_bind, hsecond, ok_bind]
    simp only [splitMiddle, inner_eq hbody, ok_bind, hhalf, hsi]
    rw [if_neg (by omega)]
    rfl
  · refine ⟨by simp [hsi], by simp [hslot], rfl, hadd, ?_, L, sp, sq, ?_, hlinks, ?_, hsq⟩
    · simp only [hkp]
      rw [if_neg (by omega), if_neg (by omega)]
    · rw [htake]
      exact hv
    · rw [if_neg (by omega)] at hsp
      rw [if_neg (by omega), htake]
      exact hsp

variable [LinearOrder K]

theorem innerSplitLoop_spec (N N' : Addr) (ho : Overfull P w p pN ppN lf A m B CA CB x)
    (hk : ∀ y ∈ A ++ m :: B, y ≤ k) (n : Nat) {fuel : Nat}
    (h : SplitInv P w pN ppN lf A m B CA CB x i s) (hn : i + n = P.innernodemax)
    (hfuel : n < fuel) :
    ∃ s', innerSplitLoop p pN ppN N k N' fuel s = .ok s' ∧
      SplitInv P w pN ppN lf A m B CA CB x P.innernodemax s' := by
  obtain ⟨s0, hb, h0⟩ := ho.body
  induction n generalizing i s fuel with
  | zero =>
    obtain ⟨fuel, rfl⟩ : ∃ f, fuel = f + 1 := ⟨fuel - 1, by omega⟩
    obtain rfl : i = P.innernodemax := by omega
    obtain ⟨L, sp, sq, hv, -⟩ := h.view
    have hbody : s.t.view.body p = some (.inner s0) := by
      rw [hv, View.split_body_other ho.ne_left ho.ne_right, View.body_setLinks, hb]
    refine ⟨s, ?_, h⟩
    simp only [innerSplitLoop, inner_eq hbody, ok_bind, h0.inuse, ho.full, h.i_eq]
    rw [if_neg (lt_irrefl _)]
    rfl
  | succ n ih =>
    obtain ⟨fuel, rfl⟩ : ∃ f, fuel = f + 1 := ⟨fuel - 1, by omega⟩
    obtain ⟨L, sp, sq, hv, -⟩ := h.view
    have hbody : s.t.view.body p = some (.inner s0) := by
      rw [hv, View.split_body_other ho.ne_left ho.ne_right, View.body_setLinks, hb]
    have hi : i < (A ++ m :: B).length := by rw [ho.full]; omega
    have hskip : splitPushed p pN N k N' s = .ok s :=
      splitPushed_skip hbody h0 (by rw [h.i_eq]; exact hi) hk
    have hstep : ∃ s', (do let s ← splitFirst p pN s
                           let s ← splitSecond p ppN s
                           splitMiddle p pN s) = .ok s' ∧
        SplitInv P w pN ppN lf A m B CA CB x (i + 1)
          { s' with i := s'.i + 1, slot := s'.slot + 1 } := by
      rcases Nat.lt_trichotomy i (A.length + 1) with hlt | rfl | hgt
      · exact splitStep_first ho h (by omega)
      · exact splitStep_middle ho h
      · exact splitStep_second ho h hgt hi
    obtain ⟨s', hrun, hinv⟩ := hstep
    obtain ⟨s'', hloop, hend⟩ := @ih _ _ fuel hinv (by omega) (by omega)
    refine ⟨s'', ?_, hend⟩
    have hbind := congrArg (fun r => r >>= fun s => innerSplitLoop p pN ppN N k N' fuel
      { s with i := s.i + 1, slot := s.slot + 1 }) hrun
    simp only [innerSplitLoop, inner_eq hbody, ok_bind, h0.inuse, ho.full, h.i_eq]
    rw [if_pos (by omega), hskip, ok_bind]
    simp only [bind_assoc, ok_bind] at hbind
    rw [hbind, hloop]

omit [LinearOrder K] in
theorem splitEnd_spec {CB₀ : List Addr} (hv : t.view = w.split pN ppN sp sq CA (CB ++ CB₀))
    (hs : InnerHas P sq B (CB ++ [x])) (hroom : CB.length < P.innernodemax)
    (hlen : CB.length = B.length)
    (hN : N ∉ CA) (hN' : N' ∉ CA) (hnew : ∀ b ∈ CB ++ [N, N'], b ≠ pN ∧ b ≠ ppN)
    (hkind : ∀ b ∈ CB ++ [N, N'], w.IsKind lf b) {j : Nat} (hj : j = CB.length) :
    ∃ t' sq', t.splitEnd ppN N k N' j = .ok t' ∧
      InnerHas P sq' (B ++ [k]) (CB ++ [N, N']) ∧
      t'.view = (w.split pN ppN sp sq' CA (CB ++ CB₀ ++ [N, N'])).setLinks
        (w.links.grow lf CB N N') := by
  have hbody : t.view.body ppN = some (.inner sq) := by rw [hv, View.split_body_right]
  obtain ⟨t1, e1, v1⟩ := setInner_view hbody { sq with numChildren := sq.numChildren - 1 }
  rw [hv, View.split_setBody_right] at v1
  have hs1 := hs.dropChild
  obtain ⟨s2, t2, e2, hs2, v2⟩ := appendChild_spec (x := N) (show t1.view.body ppN = _ by
    rw [v1]; exact View.split_body_right) hs1 (by omega)
    (fun b hb => by
      have hb' : b ∈ CB ++ [N, N'] := by
        simp only [List.mem_append, List.mem_cons, List.not_mem_nil, or_false] at hb ⊢
        tauto
      rw [v1]
      exact View.isKind_split (hnew b hb').1 (hnew b hb').2 (hkind b hb')) hj
  rw [v1, View.split_right hN, View.split_links] at v2
  -- from here on the links of the first node that moves in are part of the base view
  let w' := w.setLinks (w.links.around lf CB N [])
  have v2' : t2.view = w'.split pN ppN sp s2 CA (CB ++ CB₀ ++ [N]) := v2
  obtain ⟨s3, t3, e3, hs3, v3⟩ := appendKey_spec (show t2.view.body ppN = _ by
    rw [v2']; exact View.split_body_right) hs2 (by omega) k (show j = _ by omega)
  rw [v2', View.split_setBody_right] at v3
  have hlen' : j + 1 = (CB ++ [N]).length := by simp [hj]
  obtain ⟨s4, t4, e4, hs4, v4⟩ := appendChild_spec (x := N') (show t3.view.body ppN = _ by
    rw [v3]; exact View.split_body_right) hs3 (by simp; omega)
    (fun b hb => by
      have hb' : b ∈ CB ++ [N, N'] := by simpa using hb
      rw [v3]
      exact View.isKind_split (hnew b hb').1 (hnew b hb').2 (hkind b hb')) hlen'
  refine ⟨t4, s4, ?_, by simpa using hs4, ?_⟩
  · rw [splitEnd, inner_eq hbody, ok_bind]
    simp only [e1, ok_bind, e2, e3, e4]
  · rw [v4, v3, View.split_right hN', View.split_links, List.append_assoc _ [N]]
    rfl

/-- The whole split: the key at the cut goes up, the new nodes share the rest. -/
theorem splitInner_spec (hw : w = ((t.newInner P).newInner P).view) (hpN : pN = t.nodes.size)
    (hppN : ppN = t.nodes.size + 1) (ho : Overfull P w p pN ppN lf A m B CA CB x)
    (hk : ∀ y ∈ A ++ m :: B, y ≤ k) (hN : N ∉ CA) (hN' : N' ∉ CA) (hx : x ∉ CA)
    (hnew : ∀ b ∈ CB ++ [N, N'], b ≠ pN ∧ b ≠ ppN) (hkind : ∀ b ∈ CB ++ [N, N'], w.IsKind lf b) :
    ∃ t' L sp sq, t.splitInner P p N k N' = .ok (m, t') ∧ InnerHas P sp A CA ∧
      InnerHas P sq (B ++ [k]) (CB ++ [N, N']) ∧
      t'.view = (w.split pN ppN sp sq CA (CB ++ [x] ++ [N, N'])).setLinks L ∧
      (w.Linked lf (CA ++ (CB ++ [x])) → L = w.links.grow lf CB N N') := by
  obtain ⟨s0, hb, h0⟩ := ho.body
  have hlenA := ho.lenA
  have hlenB := ho.lenB
  have hfull : A.length + (B.length + 1) = P.innernodemax := by simpa using ho.full
  let f1 := (InnerNode.fresh (K := K) P pN).toInnerSlots
  let f2 := (InnerNode.fresh (K := K) P ppN).toInnerSlots
  have hb1 : w.body pN = some (.inner f1) := by
    rw [hw, newInner_view, newInner_view, View.body_alloc, View.body_alloc, hpN]
    simp [f1, hpN]
  have hb2 : w.body ppN = some (.inner f2) := by
    rw [hw, newInner_view, newInner_view, View.body_alloc, hppN]
    simp [f2, hppN, newInner]
  have hsplit : w = w.split pN ppN f1 f2 [] [] := by
    have h1 : Function.update w.body pN (some (.inner f1)) = w.body := by rw [← hb1]; simp
    have h2 : Function.update w.body ppN (some (.inner f2)) = w.body := by rw [← hb2]; simp
    simp [View.split, h1, h2]
  have hstart : SplitInv P w pN ppN lf A m B CA CB x 0
      ⟨(t.newInner P).newInner P, 0, 0, 0, false, none⟩ := by
    refine ⟨rfl, rfl, by simp, rfl, by simp, w.links, f1, f2, ?_, fun _ => rfl, ?_, ?_⟩
    · simpa [← hw] using hsplit
    · simpa using InnerHas.fresh P pN
    · simpa using InnerHas.fresh P ppN
  have hread : ((t.newInner P).newInner P).view.body p = some (.inner s0) := by rw [← hw, hb]
  obtain ⟨s, hloop, hend⟩ := innerSplitLoop_spec N N' ho hk P.innernodemax hstart
    (by omega) (show _ < s0.slotsinuse + 2 by rw [h0.inuse, ho.full]; omega)
  obtain ⟨hsi, -, hsj, hsadd, hskp, L, sp, sq, hv, hlinks, hsp, hsq⟩ := hend
  -- everything has been copied
  have htwo := ho.two
  have hj : P.innernodemax - (A.length + 1) = CB.length := by omega
  rw [hj, List.take_of_length_le (by omega), List.take_of_length_le (le_refl _)] at hv
  rw [if_neg (by omega), List.take_of_length_le (by omega)] at hsp
  rw [hj, List.take_of_length_le (by omega), List.take_of_length_le (le_refl _)] at hsq
  rw [if_neg (by omega)] at hskp
  -- the last child of `p` is the node that `N` and `N'` replace
  have hlast : load s0.firstChild s.i = .ok (some x) := by
    rw [hsi, h0.load_child (by simp; omega)]
    simp [List.getElem_append, show P.innernodemax - CA.length = CB.length by omega,
      show ¬P.innernodemax < CA.length by omega]
  have hmem : ∀ b ∈ CB ++ [x], b ∈ CA ++ (CB ++ [x]) := fun b hb => List.mem_append_right _ hb
  obtain ⟨sq1, t1, e1, hsq1, v1⟩ := appendChild_spec (x := x) (show s.t.view.body ppN = _ by
    rw [hv]; exact View.split_body_right) hsq (by omega)
    (fun b hb => by
      rw [hv]
      exact View.isKind_split (ho.new b (hmem b hb)).1 (ho.new b (hmem b hb)).2
        (ho.kind b (hmem b hb))) (show s.j = _ by omega)
  rw [hv, View.split_links, View.split_right hx, View.split_setLinks] at v1
  obtain ⟨t2, sq2, e2, hsq2, v2⟩ := splitEnd_spec v1 hsq1 (by omega) hlenB hN hN' hnew
    hkind (show s.j = CB.length by omega)
  have hbN : t2.view.body pN = some (.inner sp) := by
    rw [v2, View.body_setLinks, View.split_body_left ho.ne]
  have hres : ∃ y, load sp.keySlots sp.slotsinuse = .ok y := by
    have hlt : sp.slotsinuse < sp.keySlots.length := by
      rw [hsp.inuse, hsp.keyCap]
      omega
    exact ⟨_, load_of_getElem? (List.getElem?_eq_getElem hlt)⟩
  obtain ⟨y, hy⟩ := hres
  refine ⟨t2, _, sp, sq2, ?_, hsp, hsq2, v2, fun hl => ?_⟩
  swap
  · rw [View.links_setLinks, View.links_setLinks, hlinks hl, Links.around_joined hl.right]
  subst hpN hppN
  simp only [splitInner, inner_eq hread, ok_bind, hloop, hlast, Option.isSome_some, if_true, e1,
    hsadd, Bool.false_eq_true, if_false, e2, inner_eq hbN, hy, hskp]
  rfl

end BTree

end NwtBTree
