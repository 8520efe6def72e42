import NwtBTree.Multiway.Growth

/-!
# Search order

`Below` compares two entries of the in-order sequence: separators increase, the
keys of a leaf are smaller than the separators after it and not smaller than the
separators before it. In such a sequence a search ends at the only leaf that can
hold its key.
-/

namespace NwtBTree

variable {A K L : Type} {keys : L → List K}

/-- All keys of the leaves, from left to right. -/
def allKeys (keys : L → List K) (I : List (Item A K L)) : List K :=
  (tips I).flatMap fun l => keys l.body

@[simp] theorem allKeys_nil : allKeys keys ([] : List (Item A K L)) = [] := rfl

@[simp] theorem allKeys_inl (s : K) (I : List (Item A K L)) :
    allKeys keys (.inl s :: I) = allKeys keys I := rfl

@[simp] theorem allKeys_inr (l : Tip A L) (I : List (Item A K L)) :
    allKeys keys (.inr l :: I) = keys l.body ++ allKeys keys I := rfl

@[simp] theorem allKeys_append (I J : List (Item A K L)) :
    allKeys keys (I ++ J) = allKeys keys I ++ allKeys keys J := by
  simp [allKeys]

theorem mem_allKeys {x : K} {I : List (Item A K L)} :
    x ∈ allKeys keys I ↔ ∃ l, .inr l ∈ I ∧ x ∈ keys l.body := by
  simp [allKeys, List.mem_flatMap, mem_tips]

/-- What is left of a context ends with a separator. -/
theorem left_ends {n : Nat} {c : Ctx A K L n} (hc : c.Paired) :
    c.left = [] ∨ ∃ I s, c.left = I ++ [.inl s] := by
  induction c with
  | top => exact .inl rfl
  | frame up a ksL csL ksR csR ih =>
    obtain ⟨hlen, -, -, -, -, hup⟩ := hc
    by_cases hne : ksL = []
    · subst hne
      simpa using ih hup
    · obtain ⟨I, z, -, heq⟩ := Ctx.before_ends hlen hne
      exact .inr ⟨up.left ++ I, z, by rw [Ctx.left_frame, heq, List.append_assoc]⟩

/-- What is right of a context starts with a separator. -/
theorem right_starts {n : Nat} {c : Ctx A K L n} (hc : c.Paired) :
    c.right = [] ∨ ∃ s I, c.right = .inl s :: I := by
  induction c with
  | top => exact .inl rfl
  | frame up a ksL csL ksR csR ih =>
    obtain ⟨-, hlen, -, -, -, hup⟩ := hc
    by_cases hne : ksR = []
    · subst hne
      simpa using ih hup
    · obtain ⟨I, z, -, heq⟩ := Ctx.after_starts hlen hne
      exact .inr ⟨z, I ++ up.right, by rw [Ctx.right_frame, heq, List.cons_append]⟩

variable [LinearOrder K]

/-- `x` may come before `y` in the sequence. -/
def Below (keys : L → List K) : Item A K L → Item A K L → Prop
  | .inl s, .inl s' => s < s'
  | .inl s, .inr l => ∀ x ∈ keys l.body, s ≤ x
  | .inr l, .inl s => ∀ x ∈ keys l.body, x < s
  | .inr l, .inr l' => ∀ x ∈ keys l.body, ∀ y ∈ keys l'.body, x < y

@[simp] theorem below_inl_inl (s s' : K) :
    Below keys (.inl s : Item A K L) (.inl s') ↔ s < s' := Iff.rfl
@[simp] theorem below_inl_inr (s : K) (l : Tip A L) :
    Below keys (.inl s) (.inr l) ↔ ∀ x ∈ keys l.body, s ≤ x := Iff.rfl
@[simp] theorem below_inr_inl (l : Tip A L) (s : K) :
    Below keys (.inr l) (.inl s) ↔ ∀ x ∈ keys l.body, x < s := Iff.rfl
@[simp] theorem below_inr_inr (l l' : Tip A L) :
    Below keys (.inr l : Item A K L) (.inr l') ↔
      ∀ x ∈ keys l.body, ∀ y ∈ keys l'.body, x < y := Iff.rfl

/-- The sequence of a search tree. -/
structure SearchOrder (keys : L → List K) (I : List (Item A K L)) : Prop where
  below : I.Pairwise (Below keys)
  sorted : ∀ l ∈ tips I, (keys l.body).Pairwise (· < ·)

theorem SearchOrder.seps_sorted {I : List (Item A K L)} (h : SearchOrder keys I) :
    (seps I).Pairwise (· < ·) := by
  obtain ⟨h, -⟩ := h
  induction I with
  | nil => simp
  | cons x I ih =>
    obtain ⟨hx, hI⟩ := List.pairwise_cons.mp h
    cases x with
    | inl s => exact List.pairwise_cons.mpr ⟨fun s' hs' => hx _ (mem_seps.mp hs'), ih hI⟩
    | inr l => exact ih hI

/-- Keys that increase in every leaf and from leaf to leaf increase. -/
theorem allKeys_sorted {R : Item A K L → Item A K L → Prop} {I : List (Item A K L)}
    (h : I.Pairwise R)
    (hR : ∀ l l', R (.inr l) (.inr l') → ∀ x ∈ keys l.body, ∀ y ∈ keys l'.body, x < y)
    (hs : ∀ l ∈ tips I, (keys l.body).Pairwise (· < ·)) : (allKeys keys I).Pairwise (· < ·) := by
  induction I with
  | nil => simp
  | cons x I ih =>
    obtain ⟨hx, hI⟩ := List.pairwise_cons.mp h
    cases x with
    | inl s => exact ih hI hs
    | inr l =>
      rw [allKeys_inr, List.pairwise_append]
      refine ⟨hs l (by simp), ih hI fun l' hl' => hs l' (by simp [hl']), fun x hx' y hy => ?_⟩
      obtain ⟨l', hl', hy'⟩ := mem_allKeys.mp hy
      exact hR _ _ (hx _ hl') x hx' y hy'

theorem SearchOrder.keys_sorted {I : List (Item A K L)} (h : SearchOrder keys I) :
    (allKeys keys I).Pairwise (· < ·) :=
  allKeys_sorted h.below (fun _ _ h => h) h.sorted

theorem SearchOrder.append {I J : List (Item A K L)} :
    SearchOrder keys (I ++ J) ↔ SearchOrder keys I ∧ SearchOrder keys J ∧
      ∀ x ∈ I, ∀ y ∈ J, Below keys x y := by
  constructor
  · rintro ⟨h, hs⟩
    obtain ⟨hI, hJ, hIJ⟩ := List.pairwise_append.mp h
    exact ⟨⟨hI, fun l hl => hs l (by simp [hl])⟩, ⟨hJ, fun l hl => hs l (by simp [hl])⟩, hIJ⟩
  · rintro ⟨⟨hI, hsI⟩, ⟨hJ, hsJ⟩, hIJ⟩
    refine ⟨List.pairwise_append.mpr ⟨hI, hJ, hIJ⟩, fun l hl => ?_⟩
    rw [tips_append] at hl
    rcases List.mem_append.mp hl with hl | hl
    · exact hsI l hl
    · exact hsJ l hl

/-- There is room for the key `k` between `I` and `J`. -/
structure Fits (keys : L → List K) (I J : List (Item A K L)) (k : K) : Prop where
  seps_le : ∀ s ∈ seps I, s ≤ k
  keys_lt : ∀ x ∈ allKeys keys I, x < k
  lt_seps : ∀ s ∈ seps J, k < s
  lt_keys : ∀ x ∈ allKeys keys J, k < x

theorem searchOrder_middle {I J : List (Item A K L)} {x : Item A K L} :
    SearchOrder keys (I ++ x :: J) ↔ SearchOrder keys (I ++ J) ∧ SearchOrder keys [x] ∧
      (∀ y ∈ I, Below keys y x) ∧ ∀ y ∈ J, Below keys x y := by
  rw [← List.singleton_append, SearchOrder.append, SearchOrder.append, SearchOrder.append]
  simp only [List.mem_append, List.mem_singleton]
  constructor
  · rintro ⟨hI, ⟨hx, hJ, hxJ⟩, hIxJ⟩
    exact ⟨⟨hI, hJ, fun a ha b hb => hIxJ a ha b (.inr hb)⟩, hx, fun a ha => hIxJ a ha x (.inl rfl),
      hxJ x rfl⟩
  · rintro ⟨⟨hI, hJ, hIJ⟩, hx, hIx, hxJ⟩
    refine ⟨hI, ⟨hx, hJ, ?_⟩, ?_⟩
    · rintro a rfl
      exact hxJ
    · rintro a ha b (rfl | hb)
      · exact hIx a ha
      · exact hIJ a ha b hb

/-- A leaf in a search tree: its keys are in order and fit where it stands. -/
theorem searchOrder_leaf {I J : List (Item A K L)} {l : Tip A L} :
    SearchOrder keys (I ++ .inr l :: J) ↔ SearchOrder keys (I ++ J) ∧
      (keys l.body).Pairwise (· < ·) ∧ ∀ k ∈ keys l.body, Fits keys I J k := by
  rw [searchOrder_middle]
  have hone : SearchOrder keys [(.inr l : Item A K L)] ↔ (keys l.body).Pairwise (· < ·) :=
    ⟨fun h => h.sorted l (by simp), fun h => ⟨by simp, by simpa using h⟩⟩
  rw [hone]
  refine and_congr_right fun _ => and_congr_right fun _ => ?_
  constructor
  · rintro ⟨hI, hJ⟩ k hk
    refine ⟨fun s hs => hI _ (mem_seps.mp hs) k hk, fun x hx => ?_,
      fun s hs => hJ _ (mem_seps.mp hs) k hk, fun x hx => ?_⟩
    · obtain ⟨m, hm, hx⟩ := mem_allKeys.mp hx
      exact hI _ hm x hx k hk
    · obtain ⟨m, hm, hx⟩ := mem_allKeys.mp hx
      exact hJ _ hm k hk x hx
  · intro h
    refine ⟨fun y hy => ?_, fun y hy => ?_⟩
    · cases y with
      | inl s => exact fun k hk => (h k hk).seps_le s (mem_seps.mpr hy)
      | inr m => exact fun x hx k hk => (h k hk).keys_lt x (mem_allKeys.mpr ⟨m, hy, hx⟩)
    · cases y with
      | inl s => exact fun k hk => (h k hk).lt_seps s (mem_seps.mpr hy)
      | inr m => exact fun k hk x hx => (h k hk).lt_keys x (mem_allKeys.mpr ⟨m, hy, hx⟩)

theorem searchOrder_sep {I J : List (Item A K L)} {s : K} :
    SearchOrder keys (I ++ .inl s :: J) ↔ SearchOrder keys (I ++ J) ∧
      (∀ z ∈ seps I, z < s) ∧ (∀ x ∈ allKeys keys I, x < s) ∧
      (∀ z ∈ seps J, s < z) ∧ ∀ x ∈ allKeys keys J, s ≤ x := by
  rw [searchOrder_middle]
  refine and_congr_right fun _ => ?_
  constructor
  · rintro ⟨-, hI, hJ⟩
    refine ⟨fun z hz => hI _ (mem_seps.mp hz), fun x hx => ?_, fun z hz => hJ _ (mem_seps.mp hz),
      fun x hx => ?_⟩
    · obtain ⟨m, hm, hx⟩ := mem_allKeys.mp hx
      exact hI _ hm x hx
    · obtain ⟨m, hm, hx⟩ := mem_allKeys.mp hx
      exact hJ _ hm x hx
  · rintro ⟨h1, h2, h3, h4⟩
    refine ⟨⟨by simp, by simp⟩, fun y hy => ?_, fun y hy => ?_⟩
    · cases y with
      | inl z => exact h1 z (mem_seps.mpr hy)
      | inr m => exact fun x hx => h2 x (mem_allKeys.mpr ⟨m, hy, hx⟩)
    · cases y with
      | inl z => exact h3 z (mem_seps.mpr hy)
      | inr m => exact fun x hx => h4 x (mem_allKeys.mpr ⟨m, hy, hx⟩)

/-- Two leaves with the first key of the second between them, in the place of a leaf. -/
theorem SearchOrder.split {I J : List (Item A K L)} {l l' : Tip A L} {k : K}
    (h : SearchOrder keys (I ++ J)) (hsort : (keys l.body ++ keys l'.body).Pairwise (· < ·))
    (hfit : ∀ x ∈ keys l.body ++ keys l'.body, Fits keys I J x) (hne : keys l.body ≠ [])
    (hk : k ∈ (keys l'.body).head?) :
    SearchOrder keys (I ++ .inr l :: .inl k :: .inr l' :: J) := by
  obtain ⟨hl, hl', hll'⟩ := List.pairwise_append.mp hsort
  obtain ⟨x, hx⟩ := List.exists_mem_of_ne_nil _ hne
  have hk' := List.mem_of_mem_head? hk
  have hkl' : ∀ y ∈ keys l'.body, k ≤ y := by
    obtain ⟨ks, hks⟩ : ∃ ks, keys l'.body = k :: ks := by
      cases hkl : keys l'.body with
      | nil => simp [hkl] at hk
      | cons z zs =>
        obtain rfl : z = k := by simpa [hkl] using hk
        exact ⟨zs, rfl⟩
    rw [hks] at hl' ⊢
    intro y hy
    rcases List.mem_cons.mp hy with rfl | hy
    · exact le_refl _
    · exact le_of_lt ((List.pairwise_cons.mp hl').1 y hy)
  have hfx := hfit x (List.mem_append_left _ hx)
  have hfk := hfit k (List.mem_append_right _ hk')
  have h1 : SearchOrder keys (I ++ .inr l' :: J) :=
    searchOrder_leaf.mpr ⟨h, hl', fun y hy => hfit y (List.mem_append_right _ hy)⟩
  have h2 : SearchOrder keys (I ++ .inl k :: .inr l' :: J) := by
    refine searchOrder_sep.mpr ⟨h1, fun z hz => ?_, hfk.keys_lt, fun z hz => ?_, fun y hy => ?_⟩
    · exact lt_of_le_of_lt (hfx.seps_le z hz) (hll' x hx k hk')
    · exact hfk.lt_seps z (by simpa using hz)
    · rw [allKeys_inr] at hy
      rcases List.mem_append.mp hy with hy | hy
      · exact hkl' y hy
      · exact le_of_lt (hfk.lt_keys y hy)
  refine searchOrder_leaf.mpr ⟨h2, hl, fun y hy => ?_⟩
  have hfy := hfit y (List.mem_append_left _ hy)
  refine ⟨hfy.seps_le, hfy.keys_lt, fun z hz => ?_, fun z hz => ?_⟩
  · rw [seps_inl, seps_inr] at hz
    rcases List.mem_cons.mp hz with rfl | hz
    · exact hll' y hy z hk'
    · exact hfy.lt_seps z hz
  · rw [allKeys_inl, allKeys_inr] at hz
    rcases List.mem_append.mp hz with hz | hz
    · exact hll' y hy z hz
    · exact hfy.lt_keys z hz

/-- A leaf may lose keys. -/
theorem SearchOrder.shrink {I J : List (Item A K L)} {l m : Tip A L}
    (h : SearchOrder keys (I ++ .inr l :: J)) (hm : (keys m.body).Sublist (keys l.body)) :
    SearchOrder keys (I ++ .inr m :: J) := by
  obtain ⟨hIJ, hsort, hfit⟩ := searchOrder_leaf.mp h
  exact searchOrder_leaf.mpr ⟨hIJ, hsort.sublist hm, fun k hk => hfit k (hm.subset hk)⟩

/-- Two neighbouring leaves and the separator between them. -/
theorem SearchOrder.neighbours {I J : List (Item A K L)} {l l' : Tip A L} {s : K}
    (h : SearchOrder keys (I ++ .inr l :: .inl s :: .inr l' :: J)) :
    SearchOrder keys (I ++ J) ∧ (keys l.body ++ keys l'.body).Pairwise (· < ·) ∧
      ∀ x ∈ keys l.body ++ keys l'.body, Fits keys I J x := by
  obtain ⟨h1, hl, hfit⟩ := searchOrder_leaf.mp h
  obtain ⟨h2, -, -, -, hs⟩ := searchOrder_sep.mp h1
  obtain ⟨h3, hl', hfit'⟩ := searchOrder_leaf.mp h2
  refine ⟨h3, List.pairwise_append.mpr ⟨hl, hl', fun x hx y hy => ?_⟩, fun x hx => ?_⟩
  · have hxs : x < s := (hfit x hx).lt_seps s (by simp)
    exact lt_of_lt_of_le hxs (hs y (by simp [hy]))
  · rcases List.mem_append.mp hx with hx | hx
    · have hfx := hfit x hx
      exact ⟨hfx.seps_le, hfx.keys_lt, fun z hz => hfx.lt_seps z (by simp [hz]),
        fun y hy => hfx.lt_keys y (by simp [hy])⟩
    · exact hfit' x hx

/-- One leaf in the place of two. -/
theorem SearchOrder.join {I J : List (Item A K L)} {l l' m : Tip A L} {s : K}
    (h : SearchOrder keys (I ++ .inr l :: .inl s :: .inr l' :: J))
    (hm : (keys m.body).Sublist (keys l.body ++ keys l'.body)) :
    SearchOrder keys (I ++ .inr m :: J) := by
  obtain ⟨hIJ, hsort, hfit⟩ := h.neighbours
  exact searchOrder_leaf.mpr ⟨hIJ, hsort.sublist hm, fun k hk => hfit k (hm.subset hk)⟩

/-- Keys move between two neighbouring leaves. -/
theorem SearchOrder.shift {I J : List (Item A K L)} {l l' m m' : Tip A L} {s k : K}
    (h : SearchOrder keys (I ++ .inr l :: .inl s :: .inr l' :: J))
    (hm : keys m.body ++ keys m'.body = keys l.body ++ keys l'.body) (hne : keys m.body ≠ [])
    (hk : k ∈ (keys m'.body).head?) : SearchOrder keys (I ++ .inr m :: .inl k :: .inr m' :: J) := by
  obtain ⟨hIJ, hsort, hfit⟩ := h.neighbours
  exact hIJ.split (hm ▸ hsort) (hm ▸ hfit) hne hk

/-! ## The trace of a search -/

section Route

variable {n : Nat} {c : Ctx A K L n} {t : Tree A K L n} {k : K}

theorem Ctx.Routes.seps_le (hc : c.Paired) (hr : c.Routes k)
    (h : SearchOrder keys (c.left ++ t.inorder ++ c.right)) : ∀ s ∈ seps c.left, s ≤ k := by
  rw [List.append_assoc] at h
  have := (SearchOrder.append.mp h).1.seps_sorted
  exact Ctx.Routes.left_le hc hr (this.imp le_of_lt)

theorem Ctx.Routes.lt_seps (hc : c.Paired) (hr : c.Routes k)
    (h : SearchOrder keys (c.left ++ t.inorder ++ c.right)) : ∀ s ∈ seps c.right, k < s := by
  have := (SearchOrder.append.mp h).2.1.seps_sorted
  exact Ctx.Routes.lt_right hc hr (this.imp le_of_lt)

/-- Every key on the left of the trace is smaller than the key searched for. -/
theorem Ctx.Routes.keys_lt (hc : c.Paired) (hr : c.Routes k)
    (h : SearchOrder keys (c.left ++ t.inorder ++ c.right)) : ∀ x ∈ allKeys keys c.left, x < k := by
  intro x hx
  rcases left_ends hc with hnil | ⟨I, s, heq⟩
  · simp [hnil] at hx
  · have hs := Ctx.Routes.seps_le hc hr h s (by simp [heq])
    rw [List.append_assoc] at h
    have hleft := (SearchOrder.append.mp h).1
    rw [heq] at hleft hx
    obtain ⟨l, hl, hx⟩ := mem_allKeys.mp hx
    have hl' : .inr l ∈ I := by simpa using hl
    exact lt_of_lt_of_le ((SearchOrder.append.mp hleft).2.2 _ hl' (.inl s) (by simp) x hx) hs

/-- Every key on the right of the trace is greater than the key searched for. -/
theorem Ctx.Routes.lt_keys (hc : c.Paired) (hr : c.Routes k)
    (h : SearchOrder keys (c.left ++ t.inorder ++ c.right)) :
    ∀ x ∈ allKeys keys c.right, k < x := by
  intro x hx
  rcases right_starts hc with hnil | ⟨s, I, heq⟩
  · simp [hnil] at hx
  · have hs := Ctx.Routes.lt_seps hc hr h s (by simp [heq])
    have hright := (SearchOrder.append.mp h).2.1
    rw [heq] at hright hx
    obtain ⟨l, hl, hx⟩ := mem_allKeys.mp hx
    have hl' : .inr l ∈ I := by simpa using hl
    exact lt_of_lt_of_le hs ((List.pairwise_cons.mp hright.below).1 _ hl' x hx)

theorem Ctx.Routes.fits (hc : c.Paired) (hr : c.Routes k)
    (h : SearchOrder keys (c.left ++ t.inorder ++ c.right)) : Fits keys c.left c.right k where
  seps_le := Ctx.Routes.seps_le hc hr h
  keys_lt := Ctx.Routes.keys_lt hc hr h
  lt_seps := Ctx.Routes.lt_seps hc hr h
  lt_keys := Ctx.Routes.lt_keys hc hr h

/-- A key that is stored anywhere is stored where its search ends. -/
theorem Ctx.Routes.mem_iff (hc : c.Paired) (hr : c.Routes k)
    (h : SearchOrder keys (c.left ++ t.inorder ++ c.right)) :
    k ∈ allKeys keys (c.left ++ t.inorder ++ c.right) ↔ k ∈ allKeys keys t.inorder := by
  simp only [allKeys_append, List.mem_append]
  constructor
  · rintro ((hk | hk) | hk)
    · exact absurd (Ctx.Routes.keys_lt hc hr h k hk) (lt_irrefl k)
    · exact hk
    · exact absurd (Ctx.Routes.lt_keys hc hr h k hk) (lt_irrefl k)
  · exact fun hk => .inl (.inr hk)

end Route

end NwtBTree
