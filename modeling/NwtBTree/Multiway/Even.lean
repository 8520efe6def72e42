import NwtBTree.Multiway.Order

/-!
# Evening out neighbouring leaves

`Evened` says what becomes of the sequence of a tree when a leaf that has become
too small is joined with a neighbour or gets a key from it. The order survives.
-/

namespace NwtBTree

variable {A K L : Type} {keys : L → List K} {I J I' : List (Item A K L)} {l l' m : Tip A L}
  {s : K}

/-- What becomes of a leaf `l` between `I` and `J` and of its neighbours. New leaves have
from `lo` to `hi` keys; the keys of `l` may only be lost if `lost`. -/
inductive Evened (keys : L → List K) (lo hi : Nat) (lost : Prop) :
    List (Item A K L) → Tip A L → List (Item A K L) → List (Item A K L) → Prop
  | keep {I J : List (Item A K L)} {l : Tip A L}
      (h : lo ≤ (keys l.body).length ∨ I = [] ∧ J = []) :
      Evened keys lo hi lost I l J (I ++ .inr l :: J)
  | joinLeft {X J : List (Item A K L)} {p l m : Tip A L} {s : K}
      (hm : keys m.body = keys p.body ++ keys l.body ∨ lost ∧ keys m.body = keys p.body)
      (hlo : lo ≤ (keys m.body).length) (hhi : (keys m.body).length ≤ hi) :
      Evened keys lo hi lost (X ++ [.inr p, .inl s]) l J (X ++ .inr m :: J)
  | joinRight {I Y : List (Item A K L)} {l q m : Tip A L} {s : K}
      (hm : keys m.body = keys l.body ++ keys q.body) (hlo : lo ≤ (keys m.body).length)
      (hhi : (keys m.body).length ≤ hi) :
      Evened keys lo hi lost I l (.inl s :: .inr q :: Y) (I ++ .inr m :: Y)
  | shiftRight {X J : List (Item A K L)} {p l m m' : Tip A L} {s k : K}
      (hm : keys m.body ++ keys m'.body = keys p.body ++ keys l.body)
      (hk : k ∈ (keys m'.body).head?)
      (hlo : lo ≤ (keys m.body).length ∧ lo ≤ (keys m'.body).length)
      (hhi : (keys m.body).length ≤ hi ∧ (keys m'.body).length ≤ hi) :
      Evened keys lo hi lost (X ++ [.inr p, .inl s]) l J (X ++ .inr m :: .inl k :: .inr m' :: J)
  | shiftLeft {I Y : List (Item A K L)} {l q m m' : Tip A L} {s k : K}
      (hm : keys m.body ++ keys m'.body = keys l.body ++ keys q.body)
      (hk : k ∈ (keys m'.body).head?)
      (hlo : lo ≤ (keys m.body).length ∧ lo ≤ (keys m'.body).length)
      (hhi : (keys m.body).length ≤ hi ∧ (keys m'.body).length ≤ hi) :
      Evened keys lo hi lost I l (.inl s :: .inr q :: Y) (I ++ .inr m :: .inl k :: .inr m' :: Y)

namespace Evened

variable {lo hi : Nat} {lost : Prop}

/-- Nothing is stored that was not stored before. -/
theorem keys_sublist (h : Evened keys lo hi lost I l J I') :
    (allKeys keys I').Sublist (allKeys keys (I ++ .inr l :: J)) := by
  cases h with
  | keep h => exact .refl _
  | joinLeft hm hlo hhi =>
    simp only [allKeys_append, allKeys_inr, allKeys_inl, allKeys_nil, List.append_assoc,
      List.append_nil]
    refine List.Sublist.append_left ?_ _
    rcases hm with hm | ⟨-, hm⟩
    · rw [hm, List.append_assoc]
    · rw [hm]
      exact List.Sublist.append_left (List.sublist_append_right ..) _
  | joinRight hm hlo hhi => simp [hm]
  | shiftRight hm hk hlo hhi =>
    simp only [allKeys_append, allKeys_inr, allKeys_inl, allKeys_nil, List.append_assoc,
      List.append_nil]
    rw [← List.append_assoc (keys _) (keys _), hm, List.append_assoc]
  | shiftLeft hm hk hlo hhi =>
    simp only [allKeys_append, allKeys_inr, allKeys_inl]
    rw [← List.append_assoc (keys _) (keys _), hm, List.append_assoc]

/-- Everything stays stored, if nothing may be lost. -/
theorem allKeys_eq (h : Evened keys lo hi lost I l J I') (hlost : ¬lost) :
    allKeys keys I' = allKeys keys (I ++ .inr l :: J) := by
  cases h with
  | keep h => rfl
  | joinLeft hm hlo hhi =>
    rw [or_iff_left fun h => hlost h.1] at hm
    simp [hm]
  | joinRight hm hlo hhi => simp [hm]
  | shiftRight hm hk hlo hhi =>
    simp only [allKeys_append, allKeys_inr, allKeys_inl, allKeys_nil, List.append_assoc,
      List.append_nil]
    rw [← List.append_assoc (keys _) (keys _), hm, List.append_assoc]
  | shiftLeft hm hk hlo hhi =>
    simp only [allKeys_append, allKeys_inr, allKeys_inl]
    rw [← List.append_assoc (keys _) (keys _), hm, List.append_assoc]

/-- A new separator is a stored key. -/
theorem seps_cases (h : Evened keys lo hi lost I l J I') {s : K} (hs : s ∈ seps I') :
    s ∈ seps (I ++ .inr l :: J) ∨ s ∈ allKeys keys I' := by
  cases h with
  | keep h => exact .inl hs
  | joinLeft hm hlo hhi =>
    left
    simp only [seps_append, seps_inr, seps_inl, List.mem_append, List.mem_cons] at hs ⊢
    tauto
  | joinRight hm hlo hhi =>
    left
    simp only [seps_append, seps_inr, seps_inl, List.mem_append, List.mem_cons] at hs ⊢
    tauto
  | shiftRight hm hk hlo hhi =>
    have hk' := List.mem_of_mem_head? hk
    simp only [seps_append, seps_inr, seps_inl, allKeys_append, allKeys_inr, allKeys_inl,
      List.mem_append, List.mem_cons] at hs ⊢
    rcases hs with hs | rfl | hs <;> tauto
  | shiftLeft hm hk hlo hhi =>
    have hk' := List.mem_of_mem_head? hk
    simp only [seps_append, seps_inr, seps_inl, allKeys_append, allKeys_inr, allKeys_inl,
      List.mem_append, List.mem_cons] at hs ⊢
    rcases hs with hs | rfl | hs <;> tauto

/-- Every leaf was there or has a size between `lo` and `hi`. -/
theorem tips_cases (h : Evened keys lo hi lost I l J I') {m : Tip A L} (hm : m ∈ tips I') :
    m ∈ tips I ∨ m ∈ tips J ∨ lo ≤ (keys m.body).length ∨ I' = [.inr m] := by
  cases h with
  | keep h =>
    simp only [tips_append, tips_inr, List.mem_append, List.mem_cons] at hm
    rcases hm with hm | rfl | hm
    · exact .inl hm
    · rcases h with h | ⟨rfl, rfl⟩
      · exact .inr (.inr (.inl h))
      · exact .inr (.inr (.inr rfl))
    · exact .inr (.inl hm)
  | joinLeft _ hlo hhi =>
    simp only [tips_append, tips_inr, tips_inl, tips_nil, List.mem_append, List.mem_cons] at hm ⊢
    rcases hm with hm | rfl | hm <;> tauto
  | joinRight _ hlo hhi =>
    simp only [tips_append, tips_inr, tips_inl, List.mem_append, List.mem_cons] at hm ⊢
    rcases hm with hm | rfl | hm <;> tauto
  | shiftRight _ _ hlo hhi =>
    simp only [tips_append, tips_inr, tips_inl, tips_nil, List.mem_append, List.mem_cons] at hm ⊢
    rcases hm with hm | rfl | rfl | hm <;> tauto
  | shiftLeft _ _ hlo hhi =>
    simp only [tips_append, tips_inr, tips_inl, List.mem_append, List.mem_cons] at hm ⊢
    rcases hm with hm | rfl | rfl | hm <;> tauto

/-- No leaf but the last grows beyond `hi`. -/
theorem dropLast_cases (h : Evened keys lo hi lost I l J I') {m : Tip A L}
    (hm : m ∈ (tips I').dropLast) :
    m ∈ (tips (I ++ .inr l :: J)).dropLast ∨ (keys m.body).length ≤ hi := by
  have hlast : ∀ {B : List (Tip A L)} {x y : Tip A L}, x ∈ (y :: B).dropLast →
      x = y ∨ x ∈ B.dropLast := by
    intro B x y hx
    cases B with
    | nil => simp at hx
    | cons b B => simpa using hx
  have hpush : ∀ {B : List (Tip A L)} {x y : Tip A L}, x ∈ B.dropLast → x ∈ (y :: B).dropLast := by
    intro B x y hx
    cases B with
    | nil => simp at hx
    | cons b B => simp [hx]
  cases h with
  | keep h => exact .inl hm
  | joinLeft _ hlo hhi =>
    simp only [tips_append, tips_inr, tips_inl, List.append_assoc, List.cons_append,
      List.nil_append, List.dropLast_append_cons, List.mem_append] at hm ⊢
    rcases hm with hm | hm
    · exact .inl (.inl hm)
    · rcases hlast hm with rfl | hm
      · exact .inr hhi
      · exact .inl (.inr (hpush (hpush hm)))
  | joinRight _ hlo hhi =>
    simp only [tips_append, tips_inr, tips_inl, List.dropLast_append_cons, List.mem_append] at hm ⊢
    rcases hm with hm | hm
    · exact .inl (.inl hm)
    · rcases hlast hm with rfl | hm
      · exact .inr hhi
      · exact .inl (.inr (hpush (hpush hm)))
  | shiftRight _ _ hlo hhi =>
    simp only [tips_append, tips_inr, tips_inl, List.append_assoc, List.cons_append,
      List.nil_append, List.dropLast_append_cons, List.mem_append] at hm ⊢
    rcases hm with hm | hm
    · exact .inl (.inl hm)
    · rcases hlast hm with rfl | hm
      · exact .inr hhi.1
      · rcases hlast hm with rfl | hm
        · exact .inr hhi.2
        · exact .inl (.inr (hpush (hpush hm)))
  | shiftLeft _ _ hlo hhi =>
    simp only [tips_append, tips_inr, tips_inl, List.dropLast_append_cons, List.mem_append] at hm ⊢
    rcases hm with hm | hm
    · exact .inl (.inl hm)
    · rcases hlast hm with rfl | hm
      · exact .inr hhi.1
      · rcases hlast hm with rfl | hm
        · exact .inr hhi.2
        · exact .inl (.inr (hpush (hpush hm)))

variable [LinearOrder K]

/-- The leaves stay in order, and so do the separators. -/
theorem searchOrder (hpos : 0 < lo) (h : Evened keys lo hi lost I l J I')
    (ho : SearchOrder keys (I ++ .inr l :: J)) : SearchOrder keys I' := by
  have hne : ∀ {m : Tip A L}, lo ≤ (keys m.body).length → keys m.body ≠ [] := by
    rintro m hm hnil
    rw [hnil, List.length_nil] at hm
    omega
  cases h with
  | keep h => exact ho
  | joinLeft hm hlo hhi =>
    rw [List.append_assoc] at ho
    refine ho.join ?_
    rcases hm with hm | ⟨-, hm⟩
    · rw [hm]
    · rw [hm]
      exact List.sublist_append_left ..
  | joinRight hm hlo hhi =>
    refine ho.join ?_
    rw [hm]
  | shiftRight hm hk hlo hhi =>
    rw [List.append_assoc] at ho
    exact ho.shift hm (hne hlo.1) hk
  | shiftLeft hm hk hlo hhi => exact ho.shift hm (hne hlo.1) hk

end Evened

end NwtBTree
