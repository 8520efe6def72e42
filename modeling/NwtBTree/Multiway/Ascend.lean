import NwtBTree.Multiway.Even
import NwtBTree.Multiway.Lead

/-!
# Repeated keys

In a sequence with repeated keys the separators and the keys of the leaves still
ascend, but a separator can be found on both of its sides. A search turns right at
a separator that is equal to its key, so it may end behind leaves that have the key
at a leaf that has not.
-/

namespace NwtBTree

variable {A K L : Type} {keys : L → List K} {I J : List (Item A K L)}

/-- The separators and the keys of a sequence in one list. -/
def keyRow (keys : L → List K) (I : List (Item A K L)) : List K :=
  I.flatMap (Sum.elim (fun s => [s]) fun l => keys l.body)

@[simp] theorem keyRow_nil : keyRow keys ([] : List (Item A K L)) = [] := rfl

@[simp] theorem keyRow_inl (s : K) (I : List (Item A K L)) :
    keyRow keys (.inl s :: I) = s :: keyRow keys I := rfl

@[simp] theorem keyRow_inr (l : Tip A L) (I : List (Item A K L)) :
    keyRow keys (.inr l :: I) = keys l.body ++ keyRow keys I := rfl

@[simp] theorem keyRow_append (I J : List (Item A K L)) :
    keyRow keys (I ++ J) = keyRow keys I ++ keyRow keys J := by
  simp [keyRow]

theorem seps_sublist_keyRow (I : List (Item A K L)) : (seps I).Sublist (keyRow keys I) := by
  induction I with
  | nil => exact .slnil
  | cons x I ih =>
    cases x with
    | inl s => exact ih.cons_cons s
    | inr l => exact ih.trans (List.sublist_append_right _ _)

theorem allKeys_sublist_keyRow (I : List (Item A K L)) :
    (allKeys keys I).Sublist (keyRow keys I) := by
  induction I with
  | nil => exact .slnil
  | cons x I ih =>
    cases x with
    | inl s => exact ih.cons s
    | inr l => exact ih.append_left _

variable [LinearOrder K]

/-- The order of a sequence in which keys may be repeated. -/
def Ascends (keys : L → List K) (I : List (Item A K L)) : Prop := (keyRow keys I).Pairwise (· ≤ ·)

namespace Ascends

theorem seps (h : Ascends keys I) : (NwtBTree.seps I).Pairwise (· ≤ ·) :=
  h.sublist (seps_sublist_keyRow I)

theorem append (h : Ascends keys (I ++ J)) : Ascends keys I ∧ Ascends keys J ∧
    ∀ x ∈ keyRow keys I, ∀ y ∈ keyRow keys J, x ≤ y := by
  rw [Ascends, keyRow_append] at h
  exact List.pairwise_append.mp h

/-- A leaf may lose keys. -/
theorem shrink {l m : Tip A L} (h : Ascends keys (I ++ .inr l :: J))
    (hm : (keys m.body).Sublist (keys l.body)) : Ascends keys (I ++ .inr m :: J) := by
  refine h.sublist ?_
  rw [keyRow_append, keyRow_append, keyRow_inr, keyRow_inr]
  exact (hm.append_right _).append_left _

/-- A separator is put between two leaves, which is the first key of the second one. -/
theorem part {m m' : Tip A L} {k : K}
    (h : (keyRow keys I ++ (keys m.body ++ keys m'.body ++ keyRow keys J)).Pairwise (· ≤ ·))
    (hk : k ∈ (keys m'.body).head?) : Ascends keys (I ++ .inr m :: .inl k :: .inr m' :: J) := by
  obtain ⟨ks, hks⟩ : ∃ ks, keys m'.body = k :: ks := List.head?_eq_some_iff.mp hk
  rw [hks, List.append_assoc, ← List.append_assoc, List.cons_append] at h
  obtain ⟨hA, hB, hle⟩ := List.pairwise_append.mp h
  obtain ⟨hkB, -⟩ := List.pairwise_cons.mp hB
  -- a key may be repeated
  have hall : (keyRow keys I ++ keys m.body ++ k :: k :: (ks ++ keyRow keys J)).Pairwise
      (· ≤ ·) := by
    refine List.pairwise_append.mpr ⟨hA, List.pairwise_cons.mpr ⟨?_, hB⟩, fun x hx y hy => ?_⟩
    · exact List.forall_mem_cons.mpr ⟨le_refl k, hkB⟩
    · exact hle x hx y (by simpa using hy)
  rw [Ascends]
  simpa only [keyRow_append, keyRow_inr, keyRow_inl, hks, List.append_assoc,
    List.cons_append] using hall

/-- Keys move between two neighbouring leaves, and the separator becomes the first key of the
second one. -/
theorem shift {l l' m m' : Tip A L} {s k : K}
    (h : Ascends keys (I ++ .inr l :: .inl s :: .inr l' :: J))
    (hm : keys m.body ++ keys m'.body = keys l.body ++ keys l'.body)
    (hk : k ∈ (keys m'.body).head?) : Ascends keys (I ++ .inr m :: .inl k :: .inr m' :: J) := by
  refine part (h.sublist ?_) hk
  rw [hm]
  simp only [keyRow_append, keyRow_inr, keyRow_inl, List.append_assoc]
  exact ((List.sublist_cons_self s _).append_left _).append_left _

end Ascends

/-- Evening out neighbouring leaves keeps the order. -/
theorem Evened.ascends {I' : List (Item A K L)} {l : Tip A L} {lo hi : Nat} {lost : Prop}
    (h : Evened keys lo hi lost I l J I') (ho : Ascends keys (I ++ .inr l :: J)) :
    Ascends keys I' := by
  cases h with
  | keep h => exact ho
  | joinLeft hm hlo hhi =>
    refine ho.sublist ?_
    simp only [keyRow_append, keyRow_inr, keyRow_inl, List.append_assoc, List.cons_append,
      List.nil_append]
    refine List.Sublist.append_left ?_ _
    rcases hm with hm | ⟨-, hm⟩
    · rw [hm, List.append_assoc]
      exact (List.sublist_cons_self ..).append_left _
    · rw [hm]
      exact (((List.sublist_append_right ..).cons _)).append_left _
  | joinRight hm hlo hhi =>
    refine ho.sublist ?_
    simp only [keyRow_append, keyRow_inr, keyRow_inl, hm, List.append_assoc]
    exact ((List.sublist_cons_self ..).append_left _).append_left _
  | shiftRight hm hk hlo hhi =>
    rw [List.append_assoc] at ho
    exact ho.shift hm hk
  | shiftLeft hm hk hlo hhi => exact ho.shift hm hk

/-! ## Where a search ends -/

section Route

variable {c : Ctx A K L 0} {l : Tip A L} {k : K}

theorem Ascends.seps_le {n : Nat} {c : Ctx A K L n} (h : Ascends keys (c.left ++ J)) (hc : c.Paired)
    (hr : c.Routes k) : ∀ s ∈ NwtBTree.seps c.left, s ≤ k :=
  Ctx.Routes.left_le hc hr h.append.1.seps

theorem Ascends.lt_seps {n : Nat} {c : Ctx A K L n} (h : Ascends keys (J ++ c.right))
    (hc : c.Paired) (hr : c.Routes k) : ∀ s ∈ NwtBTree.seps c.right, k < s :=
  Ctx.Routes.lt_right hc hr h.append.2.1.seps

/-- No key in front of the leaf is greater. -/
theorem Ascends.keys_le {n : Nat} {c : Ctx A K L n} (h : Ascends keys (c.left ++ J)) (hc : c.Paired)
    (hr : c.Routes k) : ∀ x ∈ keyRow keys c.left, x ≤ k := by
  intro x hx
  have hle := h.seps_le hc hr
  rcases left_ends hc with hnil | ⟨I, s, heq⟩
  · simp [hnil] at hx
  · have ho := h.append.1
    rw [heq] at ho hx hle
    rw [keyRow_append, List.mem_append] at hx
    rcases hx with hx | hx
    · exact le_trans (ho.append.2.2 x hx s (by simp)) (hle s (by simp))
    · obtain rfl : x = s := by simpa using hx
      exact hle x (by simp)

/-- Every key behind the leaf is greater. -/
theorem Ascends.lt_keys {n : Nat} {c : Ctx A K L n} (h : Ascends keys (J ++ c.right))
    (hc : c.Paired) (hr : c.Routes k) : ∀ x ∈ keyRow keys c.right, k < x := by
  intro x hx
  have hlt := h.lt_seps hc hr
  rcases right_starts hc with hnil | ⟨s, I, heq⟩
  · simp [hnil] at hx
  · have ho := h.append.2.1
    rw [heq] at ho hx hlt
    rw [keyRow_inl, List.mem_cons] at hx
    rcases hx with rfl | hx
    · exact hlt x (by simp)
    · exact lt_of_lt_of_le (hlt s (by simp)) ((List.pairwise_cons.mp ho).1 x hx)

/-- There is one place where a search can end: a separator lies between any two leaves. -/
theorem Ctx.Routes.place (hc : c.Paired) {X Y : List (Item A K L)} {m : Tip A L}
    (heq : c.left ++ .inr l :: c.right = X ++ .inr m :: Y)
    (hL : ∀ s ∈ seps c.left, s ≤ k) (hR : ∀ s ∈ seps c.right, k < s)
    (hX : ∀ s ∈ seps X, s ≤ k) (hY : ∀ s ∈ seps Y, k < s) : c.left = X ∧ l = m ∧ c.right = Y := by
  rcases List.append_eq_append_iff.mp heq with ⟨Z, hZ, hrest⟩ | ⟨Z, hZ, hrest⟩
  · cases Z with
    | nil =>
      obtain ⟨hlm, hJ⟩ := List.cons_eq_cons.mp hrest
      exact ⟨by simpa using hZ.symm, Sum.inr.inj hlm, hJ⟩
    | cons z Z =>
      -- the separator behind `l` is in front of `m`
      exfalso
      obtain ⟨rfl, hJ⟩ := List.cons_eq_cons.mp hrest
      rcases right_starts hc with hnil | ⟨s, I, hs⟩
      · simp [hnil] at hJ
      · rw [hs] at hJ
        have hmem : s ∈ seps X := by
          cases Z with
          | nil => simp at hJ
          | cons y Z =>
            obtain ⟨rfl, -⟩ := List.cons_eq_cons.mp hJ
            simp [hZ]
        exact absurd (hX s hmem) (not_le.mpr (hR s (by simp [hs])))
  · cases Z with
    | nil =>
      obtain ⟨hlm, hJ⟩ := List.cons_eq_cons.mp hrest
      exact ⟨by simpa using hZ, (Sum.inr.inj hlm).symm, hJ.symm⟩
    | cons z Z =>
      exfalso
      obtain ⟨rfl, hJ⟩ := List.cons_eq_cons.mp hrest
      rcases left_ends hc with hnil | ⟨I, s, hs⟩
      · simp [hnil] at hZ
      · have hmem : s ∈ seps Y := by
          rw [hs] at hZ
          rcases List.eq_nil_or_concat Z with rfl | ⟨Z, y, rfl⟩
          · have := congrArg List.getLast? hZ
            simp at this
          · have := congrArg List.getLast? hZ
            rw [List.concat_eq_append, ← List.cons_append, ← List.append_assoc] at this
            simp only [List.getLast?_concat, Option.some.injEq] at this
            rw [hJ, ← this]
            simp
        exact absurd (hL s (by simp [hs])) (not_le.mpr (hY s hmem))

/-! ## The leaf that has the key -/

/-- The search for `k` ends at a leaf that has it if a leaf in front does. The leaves in front are
small. -/
def Lodged (keys : L → List K) (n : Nat) (k : K) (I : List (Item A K L)) : Prop :=
  ∃ X l Y, I = X ++ .inr l :: Y ∧ (∀ s ∈ seps X, s ≤ k) ∧ (∀ s ∈ seps Y, k < s) ∧
    (k ∈ allKeys keys X → k ∈ keys l.body) ∧ ∀ m ∈ tips X, (keys m.body).length < n

theorem Lodged.here {n : Nat} (hc : c.Paired) (hr : c.Routes k)
    (ho : Ascends keys (c.left ++ .inr l :: c.right))
    (h : Lodged keys n k (c.left ++ .inr l :: c.right)) :
    (k ∈ allKeys keys c.left → k ∈ keys l.body) ∧ ∀ m ∈ tips c.left, (keys m.body).length < n := by
  obtain ⟨X, m, Y, heq, hX, hY, hk⟩ := h
  obtain ⟨rfl, rfl, -⟩ := Ctx.Routes.place hc heq (ho.seps_le hc hr)
    (Ascends.lt_seps (J := c.left ++ [.inr l]) (by simpa using ho) hc hr) hX hY
  exact hk

/-- Where every separator is a first key the search for a stored key finds it. -/
theorem Leads.lodged {n : Nat} (h : Leads keys (c.left ++ .inr l :: c.right)) (hc : c.Paired)
    (hr : c.Routes k) (ho : Ascends keys (c.left ++ .inr l :: c.right))
    (hsmall : ∀ m ∈ tips c.left, (keys m.body).length < n) :
    Lodged keys n k (c.left ++ .inr l :: c.right) := by
  have hle := ho.seps_le hc hr
  refine ⟨c.left, l, c.right, rfl, hle,
    Ascends.lt_seps (J := c.left ++ [.inr l]) (by simpa using ho) hc hr, fun hk => ?_, hsmall⟩
  rcases left_ends hc with hnil | ⟨I, s, heq⟩
  · simp [hnil] at hk
  · rw [heq] at h ho hk hle
    rw [List.append_assoc] at h
    obtain ⟨⟨m, M, hm, hs⟩, -⟩ := h.of_append
    obtain ⟨rfl, -⟩ : l = m ∧ c.right = M := by simpa using hm
    -- the key is not greater than the separator
    have hks : k ≤ s := by
      have hk' : k ∈ keyRow keys I := (allKeys_sublist_keyRow I).subset (by simpa using hk)
      exact ho.append.1.append.2.2 k hk' s (by simp)
    obtain rfl : k = s := le_antisymm hks (hle s (by simp))
    exact List.mem_of_mem_head? hs

end Route

end NwtBTree
