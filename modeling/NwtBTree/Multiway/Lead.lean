import Mathlib.Order.Bounds.Defs
import NwtBTree.Multiway.Order

/-!
# Separators that are first keys

In a tree that was only filled, every separator is the first key of the leaf
right after it in the in-order sequence. In a search tree it is then the least
key of the subtree on its right.
-/

namespace NwtBTree

variable {A K L : Type} {keys : L → List K}

/-- Every separator is followed by a leaf that starts with it. -/
def Leads (keys : L → List K) : List (Item A K L) → Prop
  | [] => True
  | .inl s :: I => (∃ l J, I = .inr l :: J ∧ s ∈ (keys l.body).head?) ∧ Leads keys I
  | .inr _ :: I => Leads keys I

@[simp] theorem leads_nil : Leads keys ([] : List (Item A K L)) := trivial

@[simp] theorem leads_inl (s : K) (I : List (Item A K L)) :
    Leads keys (.inl s :: I) ↔
      (∃ l J, I = .inr l :: J ∧ s ∈ (keys l.body).head?) ∧ Leads keys I := Iff.rfl

@[simp] theorem leads_inr (l : Tip A L) (I : List (Item A K L)) :
    Leads keys (.inr l :: I) ↔ Leads keys I := Iff.rfl

theorem Leads.of_append {I J : List (Item A K L)} (h : Leads keys (I ++ J)) : Leads keys J := by
  induction I with
  | nil => exact h
  | cons x I ih =>
    cases x with
    | inl s => exact ih h.2
    | inr l => exact ih h

/-- What comes after a leaf, and its keys but the first, play no part before it. -/
theorem Leads.replace {I J J' : List (Item A K L)} {l l' : Tip A L}
    (h : Leads keys (I ++ .inr l :: J)) (hhead : (keys l'.body).head? = (keys l.body).head?)
    (hJ : Leads keys J') : Leads keys (I ++ .inr l' :: J') := by
  induction I with
  | nil => exact hJ
  | cons x I ih =>
    cases x with
    | inr m => exact ih h
    | inl s =>
      obtain ⟨⟨m, M, heq, hs⟩, hI⟩ := h
      refine ⟨?_, ih hI⟩
      cases I with
      | nil =>
        obtain ⟨rfl, -⟩ : m = l ∧ M = J := by simpa [eq_comm] using heq
        exact ⟨l', J', rfl, by rwa [hhead]⟩
      | cons y I =>
        obtain ⟨rfl, -⟩ : y = .inr m ∧ I ++ .inr l :: J = M := by simpa using heq
        exact ⟨m, I ++ .inr l' :: J', rfl, hs⟩

/-- The sequence of a tree starts with a leaf. -/
theorem Tree.inorder_starts {n : Nat} {t : Tree A K L n} (h : t.Paired) :
    ∃ l I, t.inorder = .inr l :: I := by
  induction n with
  | zero => exact ⟨t, [], rfl⟩
  | succ n ih =>
    obtain ⟨a, ks, cs⟩ := t
    obtain ⟨-, hlen, hcs⟩ := h
    cases cs with
    | nil => simp at hlen
    | cons c cs =>
      obtain ⟨l, I, heq⟩ := ih (hcs c (by simp))
      exact ⟨l, I ++ after .inl inorder ks cs, by simp [inorder_node, heq]⟩

/-- The sequence of a tree ends with a leaf. -/
theorem Tree.inorder_ends {n : Nat} {t : Tree A K L n} (h : t.Paired) :
    ∃ I l, t.inorder = I ++ [.inr l] := by
  induction n with
  | zero => exact ⟨[], t, rfl⟩
  | succ n ih =>
    obtain ⟨a, ks, cs⟩ := t
    obtain ⟨-, hlen, hcs⟩ := h
    rcases List.eq_nil_or_concat cs with rfl | ⟨cs, c, rfl⟩
    · simp at hlen
    · obtain ⟨I, l, heq⟩ := ih (hcs c (by simp))
      have hks : ks.length = cs.length := by simpa using hlen.symm
      refine ⟨before .inl inorder ks cs ++ I, l, ?_⟩
      rw [inorder_node, List.concat_eq_append, ← List.append_nil ks, interleave_split _ _ hks, heq]
      simp

/-- Only a leaf has a sequence of one item. -/
theorem Tree.height_eq_zero {n : Nat} {t : Tree A K L n} (h : t.Paired) {l : Tip A L}
    (hl : t.inorder = [.inr l]) : n = 0 := by
  cases n with
  | zero => rfl
  | succ n =>
    obtain ⟨a, ks, cs⟩ := t
    obtain ⟨hpos, hlen, -⟩ := h
    match ks, cs, hpos, hlen with
    | k :: ks, c :: d :: cs, _, _ =>
      have hmem : .inl k ∈ [(.inr l : Item A K L)] := by
        rw [← hl, inorder_node]
        simp
      simp at hmem

/-- A separator with the subtree on its right. -/
theorem interleave_at {T α : Type} (g : K → α) (f : T → List α) {ks : List K} {cs : List T}
    (hlen : cs.length = ks.length + 1) {i : Nat} {k : K} {c : T} (hk : ks[i]? = some k)
    (hc : cs[i + 1]? = some c) : ∃ X Y, interleave g f ks cs = X ++ g k :: (f c ++ Y) := by
  obtain ⟨hi, rfl⟩ := List.getElem?_eq_some_iff.mp hk
  obtain ⟨hi', rfl⟩ := List.getElem?_eq_some_iff.mp hc
  have hks : ks = ks.take i ++ [ks[i]] ++ ks.drop (i + 1) := by
    rw [List.append_assoc, List.singleton_append, ← List.drop_eq_getElem_cons hi,
      List.take_append_drop]
  have hcs : cs = cs.take (i + 1) ++ cs[i + 1] :: cs.drop (i + 2) := by
    rw [← List.drop_eq_getElem_cons hi', List.take_append_drop]
  have hlen' : (ks.take i ++ [ks[i]]).length = (cs.take (i + 1)).length := by
    simp
    omega
  refine ⟨interleave g f (ks.take i) (cs.take (i + 1)),
    after g f (ks.drop (i + 1)) (cs.drop (i + 2)), ?_⟩
  conv_lhs => rw [hks, hcs]
  rw [interleave_split _ _ hlen', before_concat _ _ (by simp; omega)]
  simp

/-- The sequence of a node has the sequence of every child in it. -/
theorem interleave_mem {T α : Type} (g : K → α) (f : T → List α) {ks : List K} {cs : List T}
    (hlen : cs.length = ks.length + 1) {c : T} (hc : c ∈ cs) :
    ∃ X Y, interleave g f ks cs = X ++ (f c ++ Y) := by
  obtain ⟨csL, csR, rfl⟩ := List.append_of_mem hc
  simp only [List.length_append, List.length_cons] at hlen
  have hlen' : (ks.take csL.length).length = csL.length := by
    simp
    omega
  refine ⟨before g f (ks.take csL.length) csL, after g f (ks.drop csL.length) csR, ?_⟩
  conv_lhs => rw [← List.take_append_drop csL.length ks]
  rw [interleave_split _ _ hlen', List.append_assoc]

variable [LinearOrder K]

/-- In a search tree without empty leaves a separator that is stored is the first key behind it. -/
theorem SearchOrder.leads {I : List (Item A K L)} (ho : SearchOrder keys I)
    (hne : ∀ l ∈ tips I, keys l.body ≠ []) (hstored : ∀ z ∈ seps I, z ∈ allKeys keys I) :
    Leads keys I := by
  induction I with
  | nil => trivial
  | cons x I ih =>
    obtain ⟨hx, hI⟩ := List.pairwise_cons.mp ho.below
    cases x with
    | inr l =>
      have ho' : SearchOrder keys I := ⟨hI, fun m hm => ho.sorted m (List.mem_cons_of_mem l hm)⟩
      refine ih ho' (fun m hm => hne m (List.mem_cons_of_mem l hm)) fun z hz => ?_
      -- the keys in front are smaller
      refine (List.mem_append.mp (hstored z hz)).resolve_left fun hl => ?_
      exact lt_irrefl z (hx _ (mem_seps.mp hz) z hl)
    | inl s =>
      have ho' : SearchOrder keys I := ⟨hI, ho.sorted⟩
      refine ⟨?_, ih ho' hne fun z hz => hstored z (List.mem_cons_of_mem s hz)⟩
      obtain ⟨m, hm, hs⟩ := mem_allKeys.mp (hstored s List.mem_cons_self)
      have hmI : .inr m ∈ I := (List.mem_cons.mp hm).resolve_left (by simp)
      cases I with
      | nil => cases hmI
      | cons y J =>
        obtain ⟨hy, -⟩ := List.pairwise_cons.mp hI
        cases y with
        | inl s' =>
          -- the key `s` lies behind the greater separator
          have hlt : s < s' := hx (.inl s') List.mem_cons_self
          have hmJ : .inr m ∈ J := (List.mem_cons.mp hmI).resolve_left (by simp)
          exact absurd (hy _ hmJ s hs) (not_le.mpr hlt)
        | inr l =>
          obtain ⟨x, xs, hkeys⟩ := List.exists_cons_of_ne_nil (hne l (by simp))
          have hle : s ≤ x := hx (.inr l) List.mem_cons_self x (by simp [hkeys])
          refine ⟨l, J, rfl, ?_⟩
          rw [hkeys, List.head?_cons, Option.mem_some_iff]
          refine le_antisymm ?_ hle
          rcases List.mem_cons.mp hmI with heq | hmJ
          · obtain rfl : m = l := Sum.inr.inj heq
            have hsort := ho.sorted m (by simp)
            rw [hkeys] at hs hsort
            rcases List.mem_cons.mp hs with rfl | hs
            · exact le_refl _
            · exact ((List.pairwise_cons.mp hsort).1 s hs).le
          · exact (hy _ hmJ x (by simp [hkeys]) s hs).le

namespace Tree

/-- Every separator is the least key of the subtree on its right. -/
def SepsLeast (keys : L → List K) : {n : Nat} → Tree A K L n → Prop
  | 0, _ => True
  | _ + 1, t =>
    (∀ i k c, (Branch.keys t)[i]? = some k → (Branch.children t)[i + 1]? = some c →
      IsLeast {x | x ∈ allKeys keys c.inorder} k) ∧
    ∀ c ∈ Branch.children t, SepsLeast keys c

theorem sepsLeast_of_leads {n : Nat} {t : Tree A K L n} (hp : t.Paired)
    (h : Leads keys t.inorder) (ho : SearchOrder keys t.inorder) : t.SepsLeast keys := by
  induction n with
  | zero => trivial
  | succ n ih =>
    obtain ⟨a, ks, cs⟩ := t
    obtain ⟨-, hlen, hcs⟩ := hp
    rw [inorder_node] at h ho
    refine ⟨fun i k c hk hc => ?_, fun c hc => ?_⟩
    · -- the leaf that starts with `k` is the first one below `c`
      obtain ⟨X, Y, heq⟩ := interleave_at .inl inorder hlen hk hc
      obtain ⟨l, I, hl⟩ := inorder_starts (hcs c (List.mem_of_getElem? hc))
      rw [heq] at h ho
      obtain ⟨⟨l', J, heq', hhead⟩, -⟩ := h.of_append
      obtain rfl : l' = l := by
        rw [hl] at heq'
        simpa [eq_comm] using (List.cons_eq_cons.mp heq').1
      have hbelow := (List.pairwise_cons.mp (SearchOrder.append.mp ho).2.1.below).1
      obtain ⟨ks', hks⟩ : ∃ ks', keys l'.body = k :: ks' := by
        cases hkl : keys l'.body with
        | nil => simp [hkl] at hhead
        | cons x xs =>
          obtain rfl : x = k := by simpa [hkl] using hhead
          exact ⟨xs, rfl⟩
      have hmem : k ∈ allKeys keys c.inorder := by simp [hl, hks]
      refine ⟨hmem, fun x hx => ?_⟩
      obtain ⟨m, hm, hx⟩ := mem_allKeys.mp hx
      exact hbelow _ (List.mem_append_left _ hm) x hx
    · obtain ⟨X, Y, heq⟩ := interleave_mem .inl inorder hlen hc
      obtain ⟨I, l, hl⟩ := inorder_ends (hcs c hc)
      rw [heq] at h ho
      have hc' : Leads keys c.inorder := by
        have := h.of_append
        rw [hl, List.append_assoc, List.singleton_append] at this
        rw [hl]
        exact this.replace rfl trivial
      exact ih (hcs c hc) hc' (SearchOrder.append.mp (SearchOrder.append.mp ho).2.1).1

end Tree

end NwtBTree
