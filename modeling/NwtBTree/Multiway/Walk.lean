import NwtBTree.Multiway.Lead
import Mathlib.Data.List.Chain

/-!
# A search that walks on

A search descends to a leaf and may then walk on to the right: it passes a leaf
that lets it pass (`pass`) and has only smaller keys. Keys that were stored after
such a walk lie on the wrong side of separators, so the order of the sequence is
weaker than that of a search tree; `WalkOrder` is what is left of it, with the
fact that every stored key is where the search for it ends.
-/

namespace NwtBTree

/-! ## Lists split at two places -/

section Lists

variable {α : Type} {A B X Y : List α} {l n : α}

theorem split_cases (h : A ++ l :: B = X ++ n :: Y) :
    (A = X ∧ l = n ∧ B = Y) ∨ (∃ C, A = X ++ n :: C ∧ Y = C ++ l :: B) ∨
      ∃ C, X = A ++ l :: C ∧ B = C ++ n :: Y := by
  rcases List.append_eq_append_iff.mp h with ⟨C, hX, hC⟩ | ⟨C, hA, hC⟩
  · cases C with
    | nil =>
      obtain ⟨rfl, rfl⟩ := List.cons_eq_cons.mp (by simpa using hC)
      exact .inl ⟨by simpa using hX.symm, rfl, rfl⟩
    | cons c C =>
      obtain ⟨rfl, rfl⟩ := List.cons_eq_cons.mp (by simpa using hC)
      exact .inr (.inr ⟨C, hX, rfl⟩)
  · cases C with
    | nil =>
      obtain ⟨rfl, rfl⟩ := List.cons_eq_cons.mp (by simpa using hC)
      exact .inl ⟨by simpa using hA, rfl, rfl⟩
    | cons c C =>
      obtain ⟨rfl, rfl⟩ := List.cons_eq_cons.mp (by simpa using hC)
      exact .inr (.inl ⟨C, hA, rfl⟩)

theorem cons_append_cases {V W : List α} (h : A ++ l :: B = V ++ W) :
    (∃ C, V = A ++ l :: C ∧ B = C ++ W) ∨ ∃ C, A = V ++ C ∧ W = C ++ l :: B := by
  rcases List.append_eq_append_iff.mp h with ⟨C, hV, hC⟩ | ⟨C, hA, hC⟩
  · cases C with
    | nil => exact .inr ⟨[], by simpa using hV.symm, by simpa using hC.symm⟩
    | cons c C =>
      obtain ⟨rfl, rfl⟩ := List.cons_eq_cons.mp hC
      exact .inl ⟨C, hV, rfl⟩
  · exact .inr ⟨C, hA, hC⟩

theorem pairwise_mid {R : α → α → Prop} :
    (A ++ l :: B).Pairwise R ↔ (A ++ B).Pairwise R ∧ (∀ a ∈ A, R a l) ∧ ∀ b ∈ B, R l b := by
  simp only [List.pairwise_append, List.pairwise_cons, List.mem_cons]
  constructor
  · rintro ⟨hA, ⟨hl, hB⟩, h⟩
    exact ⟨⟨hA, hB, fun a ha b hb => h a ha b (.inr hb)⟩, fun a ha => h a ha l (.inl rfl), hl⟩
  · rintro ⟨⟨hA, hB, h⟩, hAl, hl⟩
    refine ⟨hA, ⟨hl, hB⟩, ?_⟩
    rintro a ha b (rfl | hb)
    · exact hAl a ha
    · exact h a ha b hb

/-- An element between two halves of a list in order. -/
theorem pairwise_insert {R : α → α → Prop} (htrans : ∀ {a b c}, R a b → R b c → R a c)
    (h : (A ++ B).Pairwise R) (hA : ∀ a ∈ A, R a l) (hB : ∀ b ∈ B.head?, R l b) :
    (A ++ l :: B).Pairwise R := by
  refine pairwise_mid.mpr ⟨h, hA, ?_⟩
  obtain ⟨-, hsort, -⟩ := List.pairwise_append.mp h
  cases B with
  | nil => simp
  | cons b B =>
    have hb : R l b := hB b rfl
    exact List.forall_mem_cons.mpr ⟨hb,
      fun z hz => htrans hb ((List.pairwise_cons.mp hsort).1 z hz)⟩

end Lists

variable {A K L : Type}

/-- A leaf of a sequence, with its place. -/
theorem tips_split {I : List (Item A K L)} {M R : List (Tip A L)} {n : Tip A L}
    (h : tips I = M ++ n :: R) : ∃ X Y, I = X ++ .inr n :: Y ∧ tips X = M := by
  induction I generalizing M with
  | nil => simp at h
  | cons x I ih =>
    cases x with
    | inl s =>
      obtain ⟨X, Y, rfl, hX⟩ := ih h
      exact ⟨.inl s :: X, Y, rfl, hX⟩
    | inr l =>
      cases M with
      | nil =>
        obtain ⟨rfl, -⟩ := List.cons_eq_cons.mp h
        exact ⟨[], I, rfl, rfl⟩
      | cons m M =>
        obtain ⟨rfl, hM⟩ := List.cons_eq_cons.mp h
        obtain ⟨X, Y, rfl, hX⟩ := ih hM
        exact ⟨.inr l :: X, Y, rfl, by simp [hX]⟩

theorem tips_split_unique {X Y V W : List (Item A K L)} {n : Tip A L}
    (hnd : (tips (X ++ .inr n :: Y)).Nodup) (h : V ++ .inr n :: W = X ++ .inr n :: Y) :
    V = X ∧ W = Y := by
  rcases split_cases h with ⟨hV, -, hW⟩ | ⟨C, rfl, rfl⟩ | ⟨C, rfl, rfl⟩
  · exact ⟨hV, hW⟩
  · simp [List.nodup_append] at hnd
  · simp [List.nodup_append] at hnd

/-! ## Leaves and separators alternate -/

/-- No leaf comes right after a leaf. -/
def Alternates (I : List (Item A K L)) : Prop := I.IsChain fun x y => ¬(x.isRight ∧ y.isRight)

theorem Alternates.sep_between {I J Y : List (Item A K L)} {l n : Tip A L}
    (h : Alternates (I ++ .inr l :: (J ++ .inr n :: Y))) : ∃ s, s ∈ seps J := by
  have h' : Alternates (.inr l :: (J ++ .inr n :: Y)) := List.IsChain.right_of_append h
  cases J with
  | nil => exact absurd (List.isChain_cons_cons.mp h').1 (by simp)
  | cons x J =>
    cases x with
    | inl s => exact ⟨s, by simp⟩
    | inr m => exact absurd (List.isChain_cons_cons.mp h').1 (by simp)

theorem Tree.alternates {n : Nat} {t : Tree A K L n} (h : t.Paired) : Alternates t.inorder := by
  induction n with
  | zero => exact List.IsChain.singleton _
  | succ n ih =>
    obtain ⟨a, ks, cs⟩ := t
    obtain ⟨-, hlen, hcs⟩ := h
    rw [inorder_node]
    replace hcs : ∀ c ∈ cs, c.Paired := hcs
    -- the subtrees behind the first one, each behind its separator
    have hafter : ∀ {ks : List K} {cs : List (Tree A K L n)}, ks.length = cs.length →
        (∀ c ∈ cs, c.Paired) → Alternates (after .inl inorder ks cs) ∧
          ∀ x ∈ (after .inl inorder ks cs).head?, ∃ s, x = .inl s := by
      intro ks
      induction ks with
      | nil => exact fun _ _ => ⟨by simp [Alternates], by simp⟩
      | cons k ks ihk =>
        intro cs hlen hcs
        cases cs with
        | nil => simp at hlen
        | cons c cs =>
          obtain ⟨h1, h2⟩ := @ihk cs (by simpa using hlen) fun d hd => hcs d (by simp [hd])
          refine ⟨?_, by simp⟩
          rw [after_cons]
          have hc := ih (hcs c (by simp))
          refine List.isChain_cons.mpr ⟨by simp, List.isChain_append.mpr
            ⟨hc, h1, fun x _ y hy => ?_⟩⟩
          obtain ⟨s, rfl⟩ := h2 y hy
          simp
    cases cs with
    | nil => simp at hlen
    | cons c cs =>
      obtain ⟨h1, h2⟩ := @hafter ks cs (by simpa using hlen.symm) fun d hd => hcs d (by simp [hd])
      rw [interleave_cons]
      refine List.isChain_append.mpr ⟨ih (hcs c (by simp)), h1, fun x _ y hy => ?_⟩
      obtain ⟨s, rfl⟩ := h2 y hy
      simp

/-! ## Walking -/

variable [LinearOrder K] {keys : L → List K} {pass pass' : Tip A L → Prop}

/-- The walk for `k` goes on behind `l`. -/
def Passes (keys : L → List K) (pass : Tip A L → Prop) (k : K) (l : Tip A L) : Prop :=
  pass l ∧ ∀ x ∈ keys l.body, x < k

theorem Passes.mono {x k : K} {l : Tip A L} (h : Passes keys pass x l) (hle : x ≤ k) :
    Passes keys pass k l :=
  ⟨h.1, fun y hy => lt_of_lt_of_le (h.2 y hy) hle⟩

/-- The search for `k` gets to the leaf between `X` and `Y`: it descends to the leaf behind
`V` and passes the leaves of `W`. -/
structure Walk (keys : L → List K) (pass : Tip A L → Prop) (X Y : List (Item A K L)) (k : K)
    (V W : List (Item A K L)) : Prop where
  eq : X = V ++ W
  starts : ∀ y ∈ W.head?, y.isRight
  seps_le : ∀ s ∈ seps V, s ≤ k
  lt_seps : ∀ s ∈ seps W ++ seps Y, k < s
  passes : ∀ l ∈ tips W, Passes keys pass k l

/-- The search for `k` gets to the leaf between `X` and `Y`. -/
def Reaches (keys : L → List K) (pass : Tip A L → Prop) (X Y : List (Item A K L)) (k : K) : Prop :=
  ∃ V W, Walk keys pass X Y k V W

section Reaches

variable {X Y Y' C V W : List (Item A K L)} {n m : Tip A L} {x k : K}

/-- Only the separators behind the leaf and the leaves in front of it play a part. -/
theorem Reaches.congr (h : Reaches keys pass X Y k) (hpass : ∀ l ∈ tips X, pass' l ↔ pass l)
    (hY : ∀ s ∈ seps Y', s ∈ seps Y ∨ k < s) : Reaches keys pass' X Y' k := by
  obtain ⟨V, W, rfl, hstart, hle, hlt, hW⟩ := h
  refine ⟨V, W, rfl, hstart, hle, fun s hs => ?_, fun l hl => ⟨?_, (hW l hl).2⟩⟩
  · rcases List.mem_append.mp hs with hs | hs
    · exact hlt s (List.mem_append_left _ hs)
    · exact (hY s hs).elim (fun hs => hlt s (List.mem_append_right _ hs)) id
  · exact (hpass l (by simp [hl])).mpr (hW l hl).1

/-- Between a leaf in front of `V ++ W` and the leaf that the search lands at there is a
separator. -/
theorem Walk.sep_between (h : Walk keys pass (X ++ .inr n :: (C ++ W)) Y k V W)
    (halt : Alternates (X ++ .inr n :: (C ++ W) ++ .inr m :: Y)) : ∃ s, s ∈ seps C := by
  cases W with
  | nil => exact Alternates.sep_between (I := X) (J := C) (n := m) (Y := Y) (by simpa using halt)
  | cons w W =>
    obtain ⟨l, rfl⟩ : ∃ l, w = .inr l := by
      have := h.starts w (by simp)
      cases w with
      | inl s => simp at this
      | inr l => exact ⟨l, rfl⟩
    exact Alternates.sep_between (I := X) (J := C) (n := l) (Y := W ++ .inr m :: Y)
      (by simpa using halt)

/-- A search that gets further to the right than the search for a greater key does passes the
leaf where that one stands. -/
theorem Reaches.passes (halt : Alternates (X ++ .inr n :: (C ++ .inr m :: Y)))
    (hx : Reaches keys pass (X ++ .inr n :: C) Y x)
    (hk : Reaches keys pass X (C ++ .inr m :: Y) k) (hle : x ≤ k) : Passes keys pass x n := by
  obtain ⟨V, W, hw⟩ := hx
  obtain ⟨V', W', hw'⟩ := hk
  rcases cons_append_cases hw.eq with ⟨C', rfl, rfl⟩ | ⟨C', rfl, rfl⟩
  · obtain ⟨s, hs⟩ := hw.sep_between (m := m) (by simpa using halt)
    have h1 : s ≤ x := hw.seps_le s (by simp [hs])
    have h2 : k < s := hw'.lt_seps s (by simp [hs])
    exact absurd (lt_of_le_of_lt (le_trans h1 hle) h2) (lt_irrefl s)
  · exact hw.passes n (by simp)

end Reaches

/-! ## The order that is left -/

/-- What two entries of the sequence may be in front of each other. -/
def Loose (keys : L → List K) : Item A K L → Item A K L → Prop
  | .inl s, .inl s' => s ≤ s'
  | .inl _, .inr _ => True
  | .inr l, .inl s => ∀ x ∈ keys l.body, x < s
  | .inr l, .inr l' => ∀ x ∈ keys l.body, ∀ y ∈ keys l'.body, x < y

section Loose

variable {X Y : List (Item A K L)}

theorem loose_leaf {l : Tip A L} :
    (X ++ .inr l :: Y).Pairwise (Loose keys) ↔ (X ++ Y).Pairwise (Loose keys) ∧
      ∀ k ∈ keys l.body, (∀ x ∈ allKeys keys X, x < k) ∧ (∀ s ∈ seps Y, k < s) ∧
        ∀ x ∈ allKeys keys Y, k < x := by
  rw [pairwise_mid]
  refine and_congr_right fun _ => ⟨?_, fun h => ⟨fun y hy => ?_, fun y hy => ?_⟩⟩
  · rintro ⟨hX, hY⟩ k hk
    refine ⟨fun x hx => ?_, fun s hs => hY _ (mem_seps.mp hs) k hk, fun x hx => ?_⟩
    · obtain ⟨m, hm, hx⟩ := mem_allKeys.mp hx
      exact hX _ hm x hx k hk
    · obtain ⟨m, hm, hx⟩ := mem_allKeys.mp hx
      exact hY _ hm k hk x hx
  · cases y with
    | inl s => trivial
    | inr m => exact fun x hx k hk => (h k hk).1 x (mem_allKeys.mpr ⟨m, hy, hx⟩)
  · cases y with
    | inl s => exact fun k hk => (h k hk).2.1 s (mem_seps.mpr hy)
    | inr m => exact fun k hk x hx => (h k hk).2.2 x (mem_allKeys.mpr ⟨m, hy, hx⟩)

theorem loose_sep {s : K} :
    (X ++ .inl s :: Y).Pairwise (Loose keys) ↔ (X ++ Y).Pairwise (Loose keys) ∧
      (∀ z ∈ seps X, z ≤ s) ∧ (∀ x ∈ allKeys keys X, x < s) ∧ ∀ z ∈ seps Y, s ≤ z := by
  rw [pairwise_mid]
  refine and_congr_right fun _ => ⟨?_, fun h => ⟨fun y hy => ?_, fun y hy => ?_⟩⟩
  · rintro ⟨hX, hY⟩
    refine ⟨fun z hz => hX _ (mem_seps.mp hz), fun x hx => ?_, fun z hz => hY _ (mem_seps.mp hz)⟩
    obtain ⟨m, hm, hx⟩ := mem_allKeys.mp hx
    exact hX _ hm x hx
  · cases y with
    | inl z => exact h.1 z (mem_seps.mpr hy)
    | inr m => exact fun x hx => h.2.1 x (mem_allKeys.mpr ⟨m, hy, hx⟩)
  · cases y with
    | inl z => exact h.2.2 z (mem_seps.mpr hy)
    | inr m => trivial

end Loose

/-- The order of a sequence in which the search for every stored key gets to its leaf. -/
structure WalkOrder (keys : L → List K) (pass : Tip A L → Prop) (I : List (Item A K L)) :
    Prop where
  loose : I.Pairwise (Loose keys)
  sorted : ∀ l ∈ tips I, (keys l.body).Pairwise (· < ·)
  reaches : ∀ {X l Y}, I = X ++ .inr l :: Y → ∀ x ∈ keys l.body, Reaches keys pass X Y x

namespace WalkOrder

variable {X Y : List (Item A K L)} {n n' ln lp : Tip A L} {k kp : K}

/-- The leaf where a search stands is the place of its key. -/
theorem place (h : WalkOrder keys pass (X ++ .inr n :: Y)) (halt : Alternates (X ++ .inr n :: Y))
    (hr : Reaches keys pass X Y k) (hstop : ¬Passes keys pass k n) :
    (∀ x ∈ allKeys keys X, x < k) ∧ (∀ s ∈ seps Y, k < s) ∧ ∀ x ∈ allKeys keys Y, k < x := by
  refine ⟨fun x hx => ?_, ?_, fun x hx => ?_⟩
  · obtain ⟨m, hm, hxm⟩ := mem_allKeys.mp hx
    obtain ⟨B, C, rfl⟩ := List.append_of_mem hm
    obtain ⟨V, W, hw⟩ := hr
    rcases cons_append_cases hw.eq with ⟨C', rfl, rfl⟩ | ⟨C', rfl, rfl⟩
    · obtain ⟨s, hs⟩ := hw.sep_between (m := n) (by simpa using halt)
      have h1 : s ≤ k := hw.seps_le s (by simp [hs])
      refine lt_of_lt_of_le ?_ h1
      have := h.loose
      rw [List.append_assoc, List.cons_append] at this
      exact (List.pairwise_cons.mp (List.pairwise_append.mp this).2.1).1 (.inl s)
        (by simp [mem_seps.mp hs]) x hxm
    · exact (hw.passes m (by simp)).2 x hxm
  · obtain ⟨V, W, hw⟩ := hr
    exact fun s hs => hw.lt_seps s (List.mem_append_right _ hs)
  · obtain ⟨m, hm, hxm⟩ := mem_allKeys.mp hx
    obtain ⟨B, C, rfl⟩ := List.append_of_mem hm
    by_contra hle
    have hreach := h.reaches (X := X ++ .inr n :: B) (Y := C) (l := m) (by simp) x hxm
    exact hstop ((Reaches.passes halt hreach hr (not_lt.mp hle)).mono (not_lt.mp hle))

theorem seps_sorted {I : List (Item A K L)} (h : WalkOrder keys pass I) :
    (seps I).Pairwise (· ≤ ·) := by
  obtain ⟨h, -, -⟩ := h
  induction I with
  | nil => simp
  | cons x I ih =>
    obtain ⟨hx, hI⟩ := List.pairwise_cons.mp h
    cases x with
    | inl s => exact List.pairwise_cons.mpr ⟨fun s' hs' => hx _ (mem_seps.mp hs'), ih hI⟩
    | inr l => exact ih hI

/-- A key that is stored is in the leaf where the search for it stops. -/
theorem mem_iff (h : WalkOrder keys pass (X ++ .inr n :: Y)) (halt : Alternates (X ++ .inr n :: Y))
    (hr : Reaches keys pass X Y k) (hstop : ¬Passes keys pass k n) :
    k ∈ allKeys keys (X ++ .inr n :: Y) ↔ k ∈ keys n.body := by
  obtain ⟨hX, -, hY⟩ := h.place halt hr hstop
  rw [allKeys_append, allKeys_inr, List.mem_append, List.mem_append]
  constructor
  · rintro (hk | hk | hk)
    · exact absurd (hX k hk) (lt_irrefl k)
    · exact hk
    · exact absurd (hY k hk) (lt_irrefl k)
  · exact fun hk => .inr (.inl hk)

theorem keys_sorted {I : List (Item A K L)} (h : WalkOrder keys pass I) :
    (allKeys keys I).Pairwise (· < ·) :=
  allKeys_sorted h.loose (fun _ _ h => h) h.sorted

/-- A search for something behind `n` that does not pass `n` does not depend on it: `Z` stands
in its place. -/
theorem reaches_right {C Z : List (Item A K L)} {m : Tip A L} {x : K}
    (halt : Alternates (X ++ .inr n :: (C ++ .inr m :: Y)))
    (hx : Reaches keys pass (X ++ .inr n :: C) Y x)
    (hnot : (∀ s ∈ seps C ++ seps Y, x < s) → ¬Passes keys pass x n)
    (hZ : ∀ z ∈ seps Z, ∀ s ∈ seps C, z ≤ s)
    (hpass : ∀ l ∈ tips C, pass' l ↔ pass l) : Reaches keys pass' (X ++ (Z ++ C)) Y x := by
  obtain ⟨V, W, hw⟩ := hx
  rcases cons_append_cases hw.eq with ⟨C', rfl, rfl⟩ | ⟨C', rfl, rfl⟩
  · obtain ⟨s, hs⟩ := hw.sep_between (m := m) (by simpa using halt)
    refine ⟨X ++ (Z ++ C'), W, by simp, hw.starts, fun z hz => ?_, hw.lt_seps, fun l hl => ?_⟩
    · simp only [seps_append, List.mem_append] at hz
      obtain hz | hz | hz := hz
      · exact hw.seps_le z (by simp [hz])
      · exact le_trans (hZ z hz s (by simp [hs])) (hw.seps_le s (by simp [hs]))
      · exact hw.seps_le z (by simp [hz])
    · exact ⟨(hpass l (by simp [hl])).mpr (hw.passes l hl).1, (hw.passes l hl).2⟩
  · refine absurd (hw.passes n (by simp)) (hnot fun s hs => hw.lt_seps s ?_)
    rcases List.mem_append.mp hs with hs | hs <;> simp [hs]

/-- A new key goes into the leaf where its search stops, if that leaf has room. -/
theorem room (h : WalkOrder keys pass (X ++ .inr n :: Y)) (halt : Alternates (X ++ .inr n :: Y))
    (hr : Reaches keys pass X Y k) (hroom : ¬pass n)
    (hmem : ∀ x, x ∈ keys n'.body ↔ x = k ∨ x ∈ keys n.body)
    (hsort : (keys n'.body).Pairwise (· < ·))
    (hpass : ∀ l ∈ tips X ++ tips Y, pass' l ↔ pass l) :
    WalkOrder keys pass' (X ++ .inr n' :: Y) := by
  obtain ⟨hX, hsY, hY⟩ := h.place halt hr fun hp => hroom hp.1
  have hpX : ∀ l ∈ tips X, pass' l ↔ pass l := fun l hl => hpass l (List.mem_append_left _ hl)
  have hpY : ∀ l ∈ tips Y, pass' l ↔ pass l := fun l hl => hpass l (List.mem_append_right _ hl)
  obtain ⟨hXY, hn⟩ := loose_leaf.mp h.loose
  refine ⟨loose_leaf.mpr ⟨hXY, fun x hx => ?_⟩, fun l hl => ?_, ?_⟩
  · rcases (hmem x).mp hx with rfl | hx
    · exact ⟨hX, hsY, hY⟩
    · exact hn x hx
  · simp only [tips_append, tips_inr, List.mem_append, List.mem_cons] at hl
    obtain hl | rfl | hl := hl
    · exact h.sorted l (by simp [hl])
    · exact hsort
    · exact h.sorted l (by simp [hl])
  · intro X₁ m Y₁ heq x hx
    rcases split_cases heq with ⟨rfl, hm, rfl⟩ | ⟨C, rfl, rfl⟩ | ⟨C, rfl, rfl⟩
    · obtain rfl := Sum.inr.inj hm
      refine Reaches.congr ?_ hpX fun s hs => .inl hs
      rcases (hmem x).mp hx with rfl | hx
      · exact hr
      · exact h.reaches rfl x hx
    · -- a leaf in front of `n`
      exact (h.reaches (Y := C ++ .inr n :: Y) (by simp) x hx).congr
        (fun l hl => hpX l (by simp [hl])) fun s hs => .inl (by simpa using hs)
    · -- a leaf behind `n`
      rw [← List.singleton_append]
      exact reaches_right halt (h.reaches (X := X ++ .inr n :: C) (by simp) x hx)
        (fun _ hp => hroom hp.1) (by simp) fun l hl => hpY l (by simp [hl])

/-- Two leaves take the place of a leaf that only searches for its own keys and for the new key
land at. -/
theorem split (h : WalkOrder keys pass (X ++ .inr n :: Y)) (halt : Alternates (X ++ .inr n :: Y))
    (hr : Reaches keys pass X Y k) (hstop : ¬Passes keys pass k n)
    (hmem : ∀ x, x ∈ keys ln.body ++ keys lp.body ↔ x = k ∨ x ∈ keys n.body)
    (hsort : (keys ln.body ++ keys lp.body).Pairwise (· < ·))
    (hkp : kp ∈ (keys lp.body).head?) (hle : ∀ s ∈ seps X, s ≤ kp)
    (hge : ∃ y ∈ keys n.body, kp ≤ y)
    (hpass : ∀ l ∈ tips X ++ tips Y, pass' l ↔ pass l)
    (halone : ∀ x ∈ allKeys keys (X ++ Y), (∀ s ∈ seps X, s ≤ x) → ¬∀ s ∈ seps Y, x < s) :
    WalkOrder keys pass' (X ++ .inr ln :: .inl kp :: .inr lp :: Y) := by
  obtain ⟨hX, hsY, hY⟩ := h.place halt hr hstop
  have hpX : ∀ l ∈ tips X, pass' l ↔ pass l := fun l hl => hpass l (List.mem_append_left _ hl)
  have hpY : ∀ l ∈ tips Y, pass' l ↔ pass l := fun l hl => hpass l (List.mem_append_right _ hl)
  obtain ⟨hXY, hn⟩ := loose_leaf.mp h.loose
  obtain ⟨hln, hlp, hlnlp⟩ := List.pairwise_append.mp hsort
  have hkp' := List.mem_of_mem_head? hkp
  have hkplp : ∀ x ∈ keys lp.body, kp ≤ x := by
    obtain ⟨ks, hks⟩ : ∃ ks, keys lp.body = kp :: ks := List.head?_eq_some_iff.mp hkp
    rw [hks] at hlp ⊢
    exact List.forall_mem_cons.mpr ⟨le_rfl,
      fun x hx => le_of_lt ((List.pairwise_cons.mp hlp).1 x hx)⟩
  -- every key of the two leaves fits where `n` stands
  have hfit : ∀ x ∈ keys ln.body ++ keys lp.body, (∀ y ∈ allKeys keys X, y < x) ∧
      (∀ s ∈ seps Y, x < s) ∧ ∀ y ∈ allKeys keys Y, x < y := by
    intro x hx
    rcases (hmem x).mp hx with rfl | hx
    · exact ⟨hX, hsY, hY⟩
    · exact hn x hx
  have hln' : ∀ x ∈ keys ln.body, x ∈ keys ln.body ++ keys lp.body := fun x hx => by simp [hx]
  have hlp' : ∀ x ∈ keys lp.body, x ∈ keys ln.body ++ keys lp.body := fun x hx => by simp [hx]
  obtain ⟨hXkp, hkpY, -⟩ := hfit kp (hlp' kp hkp')
  refine ⟨?_, fun l hl => ?_, ?_⟩
  · refine loose_leaf.mpr ⟨loose_sep.mpr ⟨loose_leaf.mpr ⟨hXY, fun x hx => hfit x (hlp' x hx)⟩,
      hle, hXkp, fun z hz => le_of_lt (hkpY z (by simpa using hz))⟩, fun x hx => ?_⟩
    obtain ⟨h1, h2, h3⟩ := hfit x (hln' x hx)
    simp only [seps_inl, seps_inr, allKeys_inl, allKeys_inr, List.mem_cons, List.mem_append]
    refine ⟨h1, ?_, ?_⟩
    · rintro s (rfl | hs)
      · exact hlnlp x hx _ hkp'
      · exact h2 s hs
    · rintro y (hy | hy)
      · exact hlnlp x hx y hy
      · exact h3 y hy
  · simp only [tips_append, tips_inr, tips_inl, List.mem_append, List.mem_cons] at hl
    obtain hl | rfl | rfl | hl := hl
    · exact h.sorted l (by simp [hl])
    · exact hln
    · exact hlp
    · exact h.sorted l (by simp [hl])
  · intro X₁ m Y₁ heq x hx
    rcases split_cases heq with ⟨rfl, hm, rfl⟩ | ⟨C, rfl, rfl⟩ | ⟨C, rfl, hC⟩
    · obtain rfl := Sum.inr.inj hm
      have hxkp : x < kp := hlnlp x hx kp hkp'
      have hr' : Reaches keys pass X Y x := by
        rcases (hmem x).mp (hln' x hx) with rfl | hx
        · exact hr
        · exact h.reaches rfl x hx
      refine hr'.congr hpX fun s hs => ?_
      simp only [seps_inl, seps_inr, List.mem_cons] at hs
      obtain rfl | hs := hs
      · exact .inr hxkp
      · exact .inl hs
    · -- a leaf in front of `n`
      have hr' := h.reaches (X := X₁) (Y := C ++ .inr n :: Y) (by simp) x hx
      refine hr'.congr (fun l hl => hpX l (by simp [hl])) fun s hs => ?_
      simp only [seps_append, seps_inl, seps_inr, List.mem_append, List.mem_cons] at hs ⊢
      obtain hs | rfl | hs := hs
      · exact .inl (.inl hs)
      · exact .inr (hXkp x (mem_allKeys.mpr ⟨m, by simp, hx⟩))
      · exact .inl (.inr hs)
    · obtain ⟨C', rfl, hC'⟩ : ∃ C', C = .inl kp :: C' ∧ .inr lp :: Y = C' ++ .inr m :: Y₁ :=
        (List.cons_eq_append_iff.mp hC).resolve_left (by simp)
      rcases List.cons_eq_append_iff.mp hC' with ⟨rfl, hm⟩ | ⟨C, rfl, rfl⟩
      · obtain ⟨hm', rfl⟩ := List.cons_eq_cons.mp hm
        obtain rfl := Sum.inr.inj hm'
        refine ⟨X ++ [.inr ln, .inl kp], [], by simp, by simp, fun z hz => ?_, ?_, by simp⟩
        · have hz' : z ∈ seps X ∨ z = kp := by simpa using hz
          obtain hz' | rfl := hz'
          · exact le_trans (hle z hz') (hkplp x hx)
          · exact hkplp x hx
        · simpa using (hfit x (hlp' x hx)).2.1
      · -- a leaf behind `n`
        have hx' := h.reaches (X := X ++ .inr n :: C) (Y := Y₁) (by simp) x hx
        refine reaches_right (Z := [.inr ln, .inl kp, .inr lp]) halt hx' (fun hlt hp => ?_)
          (fun z hz s hs => ?_) fun l hl => hpY l (by simp [hl])
        · by_cases hall : ∀ s ∈ seps X, s ≤ x
          · exact halone x (mem_allKeys.mpr ⟨m, by simp, hx⟩) hall (by simpa using hlt)
          · -- the search lands in front of `n`, so `x` is smaller than a key of `n`
            simp only [not_forall, not_le] at hall
            obtain ⟨s, hs, hxs⟩ := hall
            obtain ⟨y, hy, hkpy⟩ := hge
            have hyx : y < x := hp.2 y hy
            exact lt_irrefl x (calc x < s := hxs
              _ ≤ kp := hle s hs
              _ ≤ y := hkpy
              _ < x := hyx)
        · obtain rfl : z = kp := by simpa using hz
          exact le_of_lt (hkpY s (by simp [hs]))

end WalkOrder

end NwtBTree
