import Mathlib.Data.List.TakeDrop
import Mathlib.Order.Lattice
import NwtBTree.Multiway.Context

/-!
# Routing

A search for `k` takes in every node the child in front of the first separator
greater than `k`. `Ctx.Routes` says that a context is the trace of such a search.
In the in-order sequence the place a search ends at has a separator that is not
greater than `k` right before it and a greater one right after it.
-/

namespace NwtBTree

variable {A K L : Type}

/-- The separators of a sequence. -/
def seps : List (Item A K L) → List K
  | [] => []
  | .inl s :: I => s :: seps I
  | .inr _ :: I => seps I

/-- The leaves of a sequence. -/
def tips : List (Item A K L) → List (Tip A L)
  | [] => []
  | .inl _ :: I => tips I
  | .inr l :: I => l :: tips I

section Sequence

@[simp] theorem seps_nil : seps ([] : List (Item A K L)) = [] := rfl
@[simp] theorem seps_inl (s : K) (I : List (Item A K L)) : seps (.inl s :: I) = s :: seps I := rfl
@[simp] theorem seps_inr (l : Tip A L) (I : List (Item A K L)) : seps (.inr l :: I) = seps I := rfl
@[simp] theorem tips_nil : tips ([] : List (Item A K L)) = [] := rfl
@[simp] theorem tips_inl (s : K) (I : List (Item A K L)) : tips (.inl s :: I) = tips I := rfl
@[simp] theorem tips_inr (l : Tip A L) (I : List (Item A K L)) :
    tips (.inr l :: I) = l :: tips I := rfl

@[simp] theorem seps_append (I J : List (Item A K L)) : seps (I ++ J) = seps I ++ seps J := by
  induction I with
  | nil => rfl
  | cons x I ih => cases x <;> simp [ih]

@[simp] theorem tips_append (I J : List (Item A K L)) : tips (I ++ J) = tips I ++ tips J := by
  induction I with
  | nil => rfl
  | cons x I ih => cases x <;> simp [ih]

theorem mem_tips {l : Tip A L} {I : List (Item A K L)} : l ∈ tips I ↔ .inr l ∈ I := by
  induction I with
  | nil => simp
  | cons x I ih => cases x <;> simp [ih]

theorem mem_seps {s : K} {I : List (Item A K L)} : s ∈ seps I ↔ .inl s ∈ I := by
  induction I with
  | nil => simp
  | cons x I ih => cases x <;> simp [ih]

section Composition

variable {T : Type} (f : T → List (Item A K L))

theorem tips_before {ks : List K} {cs : List T} (h : ks.length = cs.length) :
    tips (before .inl f ks cs) = cs.flatMap (tips ∘ f) := by
  induction ks generalizing cs with
  | nil => simp [List.eq_nil_of_length_eq_zero h.symm]
  | cons k ks ih =>
    cases cs with
    | nil => simp at h
    | cons c cs => simp [@ih cs (by simpa using h)]

theorem tips_after {ks : List K} {cs : List T} (h : ks.length = cs.length) :
    tips (after .inl f ks cs) = cs.flatMap (tips ∘ f) := by
  induction ks generalizing cs with
  | nil => simp [List.eq_nil_of_length_eq_zero h.symm]
  | cons k ks ih =>
    cases cs with
    | nil => simp at h
    | cons c cs => simp [@ih cs (by simpa using h)]

theorem tips_interleave {ks : List K} {cs : List T} (h : cs.length = ks.length + 1) :
    tips (interleave .inl f ks cs) = cs.flatMap (tips ∘ f) := by
  cases cs with
  | nil => simp at h
  | cons c cs => simp [tips_after f (show ks.length = cs.length by simpa using h.symm)]

end Composition

/-- The leaves are among the nodes, in the same order. -/
theorem Tree.tips_sublist {n : Nat} {t : Tree A K L n} (h : t.Paired) :
    ((tips t.inorder).map Tip.addr).Sublist t.addrs := by
  induction n with
  | zero => exact List.Sublist.refl _
  | succ n ih =>
    obtain ⟨a, ks, cs⟩ := t
    obtain ⟨-, hlen, hcs⟩ := h
    rw [inorder_node, tips_interleave _ hlen, List.map_flatMap, addrs_node]
    refine List.Sublist.cons a ?_
    replace hcs : ∀ c ∈ cs, c.Paired := hcs
    clear hlen
    induction cs with
    | nil => exact List.Sublist.refl _
    | cons c cs ihc =>
      rw [List.flatMap_cons, List.flatMap_cons]
      exact (ih (hcs c (by simp))).append (ihc fun d hd => hcs d (by simp [hd]))

end Sequence

namespace Ctx

/-- The leaves on the two sides of the hole are nodes of the context. -/
theorem addr_mem_addrs {n : Nat} {c : Ctx A K L n} (hc : c.Paired) {l : Tip A L}
    (hl : l ∈ tips c.left ∨ l ∈ tips c.right) : l.addr ∈ c.addrs := by
  induction c with
  | top => simp at hl
  | frame up a ksL csL ksR csR ih =>
    obtain ⟨hL, hR, -, hcL, hcR, hup⟩ := hc
    simp only [left_frame, right_frame, tips_append, tips_before _ hL, tips_after _ hR,
      List.mem_append, List.mem_flatMap, Function.comp] at hl
    have hnode : ∀ c ∈ csL ++ csR, l ∈ tips c.inorder →
        l.addr ∈ csL.flatMap Tree.addrs ++ csR.flatMap Tree.addrs := by
      intro c hc hl
      rw [← List.flatMap_append]
      refine List.mem_flatMap.mpr ⟨c, hc, ?_⟩
      have hp : c.Paired := (List.mem_append.mp hc).elim (hcL c) (hcR c)
      exact (Tree.tips_sublist hp).subset (List.mem_map_of_mem hl)
    rw [addrs_frame]
    refine List.mem_cons_of_mem a ?_
    obtain (hl | ⟨c, hc, hl⟩) | (⟨c, hc, hl⟩ | hl) := hl
    · exact List.mem_append_right _ (ih hup (.inl hl))
    · exact List.mem_append_left _ (hnode c (List.mem_append_left _ hc) hl)
    · exact List.mem_append_left _ (hnode c (List.mem_append_right _ hc) hl)
    · exact List.mem_append_right _ (ih hup (.inr hl))

variable [LinearOrder K]

/-- Every frame is left at the child in front of the first separator greater than `k`. -/
def Routes : {n : Nat} → Ctx A K L n → K → Prop
  | _, top, _ => True
  | _, frame up _ ksL _ ksR _, k =>
      (∀ y ∈ ksL, y ≤ k) ∧ (∀ y ∈ ksR.head?, k < y) ∧ up.Routes k

@[simp] theorem routes_top {n : Nat} (k : K) : (top : Ctx A K L n).Routes k := trivial

@[simp] theorem routes_frame {n : Nat} (up : Ctx A K L (n + 1)) (a : A) (ksL ksR : List K)
    (csL csR : List (Tree A K L n)) (k : K) :
    (frame up a ksL csL ksR csR).Routes k ↔
      (∀ y ∈ ksL, y ≤ k) ∧ (∀ y ∈ ksR.head?, k < y) ∧ up.Routes k := Iff.rfl

/-- The route in the lowest frame. -/
theorem Routes.here {n : Nat} {up : Ctx A K L (n + 1)} {a : A} {ksL ksR : List K}
    {csL csR : List (Tree A K L n)} {k : K} (h : (frame up a ksL csL ksR csR).Routes k) :
    (∀ y ∈ ksL, y ≤ k) ∧ ∀ y ∈ ksR.head?, k < y :=
  ⟨h.1, h.2.1⟩

omit [LinearOrder K] in
theorem before_ends {n : Nat} {ks : List K} {cs : List (Tree A K L n)}
    (h : ks.length = cs.length) (hne : ks ≠ []) :
    ∃ (I : List (Item A K L)) (s : K), s ∈ ks ∧ before .inl Tree.inorder ks cs = I ++ [.inl s] := by
  obtain ⟨ks, s, rfl⟩ := List.eq_nil_or_concat ks |>.resolve_left hne
  rw [List.concat_eq_append] at h ⊢
  exact ⟨_, s, by simp, before_concat _ _ (by simpa using h.symm) s⟩

omit [LinearOrder K] in
theorem after_starts {n : Nat} {ks : List K} {cs : List (Tree A K L n)}
    (h : ks.length = cs.length) (hne : ks ≠ []) :
    ∃ (I : List (Item A K L)) (s : K), s ∈ ks.head? ∧ after .inl Tree.inorder ks cs = .inl
      s :: I := by
  obtain ⟨s, ks, rfl⟩ := List.exists_cons_of_ne_nil hne
  obtain ⟨c, cs, rfl⟩ := List.exists_cons_of_length_eq_add_one h.symm
  exact ⟨_, s, by simp, after_cons ..⟩

/-- With separators in order, no separator on the left of the trace is greater than `k`. -/
theorem Routes.left_le {n : Nat} {c : Ctx A K L n} {k : K} (hc : c.Paired) (hr : c.Routes k)
    (hs : (seps c.left).Pairwise (· ≤ ·)) : ∀ s ∈ seps c.left, s ≤ k := by
  induction c with
  | top => simp
  | frame up a ksL csL ksR csR ih =>
    obtain ⟨hlen, -, -, -, -, hup⟩ := hc
    obtain ⟨hL, -, hrup⟩ := hr
    by_cases hne : ksL = []
    · subst hne
      rw [left_frame, before_nil, List.append_nil] at hs ⊢
      exact ih hup hrup hs
    · obtain ⟨I, z, hz, heq⟩ := before_ends hlen hne
      rw [left_frame, heq, ← List.append_assoc, seps_append] at hs ⊢
      intro s hs'
      rcases List.mem_append.mp hs' with hs' | hs'
      · exact le_trans ((List.pairwise_append.mp hs).2.2 s hs' z (by simp)) (hL z hz)
      · obtain rfl : s = z := by simpa using hs'
        exact hL s hz

/-- With separators in order, every separator on the right of the trace is greater than `k`. -/
theorem Routes.lt_right {n : Nat} {c : Ctx A K L n} {k : K} (hc : c.Paired) (hr : c.Routes k)
    (hs : (seps c.right).Pairwise (· ≤ ·)) : ∀ s ∈ seps c.right, k < s := by
  induction c with
  | top => simp
  | frame up a ksL csL ksR csR ih =>
    obtain ⟨-, hlen, -, -, -, hup⟩ := hc
    obtain ⟨-, hR, hrup⟩ := hr
    by_cases hne : ksR = []
    · subst hne
      rw [right_frame, after_nil, List.nil_append] at hs ⊢
      exact ih hup hrup hs
    · obtain ⟨I, z, hz, heq⟩ := after_starts hlen hne
      rw [right_frame, heq, List.cons_append, seps_inl] at hs ⊢
      intro s hs'
      rcases List.mem_cons.mp hs' with rfl | hs'
      · exact hR _ hz
      · exact lt_of_lt_of_le (hR z hz) ((List.pairwise_cons.mp hs).1 s hs')

omit [LinearOrder K] in
theorem mem_seps_before {n : Nat} {ks : List K} {cs : List (Tree A K L n)}
    (h : ks.length = cs.length) {s : K} (hs : s ∈ ks) :
    s ∈ seps (before .inl Tree.inorder ks cs) := by
  induction ks generalizing cs with
  | nil => simp at hs
  | cons k ks ih =>
    obtain ⟨c, cs, rfl⟩ := List.exists_cons_of_length_eq_add_one h.symm
    rw [before_cons, seps_append, seps_inl]
    rcases List.mem_cons.mp hs with rfl | hs
    · simp
    · exact List.mem_append_right _ (List.mem_cons_of_mem _ (ih (by simpa using h) hs))

omit [LinearOrder K] in
theorem mem_seps_after {n : Nat} {ks : List K} {cs : List (Tree A K L n)}
    (h : ks.length = cs.length) {s : K} (hs : s ∈ ks) :
    s ∈ seps (after .inl Tree.inorder ks cs) := by
  induction ks generalizing cs with
  | nil => simp at hs
  | cons k ks ih =>
    obtain ⟨c, cs, rfl⟩ := List.exists_cons_of_length_eq_add_one h.symm
    rw [after_cons, seps_inl, seps_append]
    rcases List.mem_cons.mp hs with rfl | hs
    · simp
    · exact List.mem_cons_of_mem _ (List.mem_append_right _ (ih (by simpa using h) hs))

/-- A key between the separators on the two sides leads to the hole. -/
theorem routes_of_seps {n : Nat} {c : Ctx A K L n} {k : K} (hc : c.Paired)
    (hL : ∀ s ∈ seps c.left, s ≤ k) (hR : ∀ s ∈ seps c.right, k < s) : c.Routes k := by
  induction c with
  | top => trivial
  | frame up a ksL csL ksR csR ih =>
    obtain ⟨hlen, hlen', -, -, -, hup⟩ := hc
    rw [left_frame, seps_append] at hL
    rw [right_frame, seps_append] at hR
    refine ⟨fun y hy => hL y (List.mem_append_right _ (mem_seps_before hlen hy)), fun y hy => ?_,
      ih hup (fun s hs => hL s (List.mem_append_left _ hs))
        fun s hs => hR s (List.mem_append_right _ hs)⟩
    exact hR y (List.mem_append_left _ (mem_seps_after hlen' (List.mem_of_mem_head? hy)))

/-- Where a search goes on in one node. -/
theorem exists_slot {T : Type} (k : K) {ks : List K} {cs : List T} (h : cs.length = ks.length + 1) :
    ∃ ksL ksR csL c csR, ks = ksL ++ ksR ∧ cs = csL ++ c :: csR ∧ ksL.length = csL.length ∧
      ksR.length = csR.length ∧ (∀ y ∈ ksL, y ≤ k) ∧ ∀ y ∈ ksR.head?, k < y := by
  induction ks generalizing cs with
  | nil =>
    obtain ⟨c, rfl⟩ := List.length_eq_one_iff.mp h
    exact ⟨[], [], [], c, [], rfl, rfl, rfl, rfl, by simp, by simp⟩
  | cons y ks ih =>
    obtain ⟨c, cs, rfl⟩ := List.exists_cons_of_length_eq_add_one h
    have hlen : cs.length = ks.length + 1 := by simpa using h
    by_cases hy : k < y
    · exact ⟨[], y :: ks, [], c, cs, rfl, rfl, rfl, by simp [hlen], by simp, by simpa using hy⟩
    · obtain ⟨ksL, ksR, csL, d, csR, rfl, rfl, hlenL, hlenR, hL, hR⟩ := ih hlen
      refine ⟨y :: ksL, ksR, c :: csL, d, csR, rfl, rfl, by simp [hlenL], hlenR, ?_, hR⟩
      exact List.forall_mem_cons.mpr ⟨not_lt.mp hy, hL⟩

/-- A search can be continued to a leaf. -/
theorem exists_route (k : K) {n : Nat} (c : Ctx A K L n) (t : Tree A K L n) (hc : c.Paired)
    (ht : t.Paired) (hr : c.Routes k) :
    ∃ (c' : Ctx A K L 0) (l : Tree A K L 0), c'.fill l = c.fill t ∧ c'.Paired ∧ c'.Routes k := by
  induction n with
  | zero => exact ⟨c, t, rfl, hc, hr⟩
  | succ n ih =>
    obtain ⟨a, ks, cs⟩ := t
    obtain ⟨h0, hlen, hcs⟩ := ht
    obtain ⟨ksL, ksR, csL, d, csR, rfl, rfl, hlenL, hlenR, hL, hR⟩ := exists_slot k hlen
    replace hcs : ∀ c ∈ csL ++ d :: csR, c.Paired := hcs
    obtain ⟨c', l, heq, hc', hr'⟩ := ih (.frame c a ksL csL ksR csR) d
      ((paired_frame ..).mpr ⟨hlenL, hlenR, by simpa using h0, fun e he => hcs e (by simp [he]),
        fun e he => hcs e (by simp [he]), hc⟩)
      (hcs d (by simp)) ((routes_frame ..).mpr ⟨hL, hR, hr⟩)
    exact ⟨c', l, by rw [heq, fill_frame], hc', hr'⟩

omit [LinearOrder K] in
/-- Every leaf of a tree is the only thing missing from some context. -/
theorem exists_hole {n : Nat} (c : Ctx A K L n) (t : Tree A K L n) (hc : c.Paired) (ht : t.Paired)
    {l : Tip A L} (hl : l ∈ tips t.inorder) :
    ∃ c' : Ctx A K L 0, c.fill t = c'.fill l ∧ c'.Paired := by
  induction n with
  | zero =>
    obtain rfl : l = t := by simpa [Tree.inorder] using hl
    exact ⟨c, rfl, hc⟩
  | succ n ih =>
    obtain ⟨a, ks, cs⟩ := t
    obtain ⟨h0, hlen, hcs⟩ := ht
    rw [Tree.inorder_node, tips_interleave _ hlen] at hl
    obtain ⟨d, hd, hld⟩ := List.mem_flatMap.mp hl
    obtain ⟨csL, csR, rfl⟩ := List.append_of_mem (show d ∈ cs from hd)
    simp only [List.length_append, List.length_cons] at hlen h0
    obtain ⟨c', heq, hc'⟩ := ih (.frame c a (ks.take csL.length) csL (ks.drop csL.length) csR) d
      ((paired_frame ..).mpr ⟨by simp; omega, by simp; omega, by simp; omega,
        fun e he => hcs e (by simp [he]), fun e he => hcs e (by simp [he]), hc⟩)
      (hcs d (by simp)) hld
    refine ⟨c', ?_, hc'⟩
    rw [← heq, fill_frame, List.take_append_drop]

/-- Where the search for `k` ends. -/
theorem exists_tip (k : K) (T : (n : Nat) × Tree A K L n) (h : T.2.Paired) :
    ∃ (c : Ctx A K L 0) (l : Tip A L), T = c.fill l ∧ c.Paired ∧ c.Routes k := by
  obtain ⟨c, l, heq, hc, hr⟩ := exists_route k .top T.2 trivial h trivial
  exact ⟨c, l, heq.symm, hc, hr⟩

end Ctx

end NwtBTree
