import NwtBTree.Multiway.Growth

/-!
# How full the branches are

`Tree.Each p` bounds the number of separators in every branch of a tree;
`Tree.Bushy p` exempts the root. Growth at the right end keeps a lower bound of
half the capacity; a tree that only grew there is slanted.
-/

namespace NwtBTree

variable {A K L : Type} {p q : Nat → Prop}

namespace Tree

/-- The number of separators of every branch satisfies `p`. -/
def Each (p : Nat → Prop) : {n : Nat} → Tree A K L n → Prop
  | 0, _ => True
  | _ + 1, t => p (Branch.keys t).length ∧ ∀ c ∈ Branch.children t, Each p c

/-- The same for every branch but the root. -/
def Bushy (p : Nat → Prop) : {n : Nat} → Tree A K L n → Prop
  | 0, _ => True
  | _ + 1, t => ∀ c ∈ Branch.children t, Each p c

@[simp] theorem each_leaf (a : A) (l : L) : Each p (leaf (K := K) a l) := trivial

@[simp] theorem each_node {n : Nat} (a : A) (ks : List K) (cs : List (Tree A K L n)) :
    Each p (node a ks cs) ↔ p ks.length ∧ ∀ c ∈ cs, Each p c := Iff.rfl

@[simp] theorem bushy_leaf (a : A) (l : L) : Bushy p (leaf (K := K) a l) := trivial

@[simp] theorem bushy_node {n : Nat} (a : A) (ks : List K) (cs : List (Tree A K L n)) :
    Bushy p (node a ks cs) ↔ ∀ c ∈ cs, Each p c := Iff.rfl

theorem Each.mono (hpq : ∀ {m}, p m → q m) : {n : Nat} → {t : Tree A K L n} → t.Each p → t.Each q
  | 0, _, _ => trivial
  | _ + 1, ⟨_, _, _⟩, h => ⟨hpq h.1, fun c hc => (h.2 c hc).mono hpq⟩

theorem Each.bushy : {n : Nat} → {t : Tree A K L n} → t.Each p → t.Bushy p
  | 0, _, _ => trivial
  | _ + 1, ⟨_, _, _⟩, h => h.2

end Tree

namespace Ctx

/-- Every branch of the context but the root satisfies `p`. -/
def Bushy (p : Nat → Prop) : {n : Nat} → Ctx A K L n → Prop
  | _, top => True
  | _, frame up _ ksL csL ksR csR =>
      (up.parent.isSome → p (ksL.length + ksR.length)) ∧ (∀ c ∈ csL, c.Each p) ∧
      (∀ c ∈ csR, c.Each p) ∧ up.Bushy p

@[simp] theorem bushy_top {n : Nat} : (top : Ctx A K L n).Bushy p := trivial

@[simp] theorem bushy_frame {n : Nat} (up : Ctx A K L (n + 1)) (a : A) (ksL ksR : List K)
    (csL csR : List (Tree A K L n)) :
    (frame up a ksL csL ksR csR).Bushy p ↔
      (up.parent.isSome → p (ksL.length + ksR.length)) ∧ (∀ c ∈ csL, c.Each p) ∧
      (∀ c ∈ csR, c.Each p) ∧ up.Bushy p := Iff.rfl

theorem bushy_fill {n : Nat} {c : Ctx A K L n} {t : Tree A K L n} (hc : c.Bushy p)
    (ht : t.Bushy p) (ht' : c.parent.isSome → t.Each p) : (c.fill t).2.Bushy p := by
  induction c with
  | top => exact ht
  | frame up a ksL csL ksR csR ih =>
    obtain ⟨hp, hL, hR, hup⟩ := hc
    have hcs : ∀ c ∈ csL ++ t :: csR, c.Each p := by
      intro c hc
      simp only [List.mem_append, List.mem_cons] at hc
      obtain hc | rfl | hc := hc
      · exact hL c hc
      · exact ht' rfl
      · exact hR c hc
    exact ih hup hcs fun h => ⟨by simpa using hp h, hcs⟩

theorem bushy_of_fill {n : Nat} {c : Ctx A K L n} {t : Tree A K L n}
    (h : (c.fill t).2.Bushy p) : c.Bushy p ∧ t.Bushy p ∧ (c.parent.isSome → t.Each p) := by
  induction c with
  | top => exact ⟨trivial, h, by simp⟩
  | frame up a ksL csL ksR csR ih =>
    obtain ⟨hup, hcs, hp⟩ := ih h
    have ht : t.Each p := hcs t (by simp)
    exact ⟨⟨fun hsome => by simpa using (hp hsome).1, fun c hc => hcs c (by simp [hc]),
      fun c hc => hcs c (by simp [hc]), hup⟩, ht.bushy, fun _ => ht⟩

variable {cap : Nat} {new : Nat → A}

/-- A lower bound that half the capacity meets survives growth. -/
theorem bushy_pushUp [LE K] (hcap : 2 ≤ cap) (hmono : ∀ {i j}, i ≤ j → p i → p j)
    (hhalf : p (cap / 2)) {n : Nat} {c : Ctx A K L n} (hpair : c.Paired) (hc : c.Bushy p) {k : K}
    (he : c.AtEnd cap k) (f : Nat) {N N' : Tree A K L n} (hN : N.Each p) (hN' : N'.Each p) :
    (c.pushUp cap new f N k N').2.Bushy p := by
  induction c generalizing k f with
  | top => simp [hN, hN']
  | frame up a ksL csL ksR csR ih =>
    obtain ⟨rfl, rfl, -, hnext⟩ := he
    obtain ⟨hlen, -, -, -, -, hpup⟩ := hpair
    obtain ⟨hp, hL, -, hup⟩ := hc
    by_cases hroom : ksL.length < cap
    · rw [pushUp_room _ _ _ _ _ _ _ _ _ hroom]
      have hcs : ∀ c ∈ csL ++ [N, N'], c.Each p := by
        simp only [List.mem_append, List.mem_cons, List.not_mem_nil, or_false]
        rintro c (hc | rfl | rfl)
        · exact hL c hc
        · exact hN
        · exact hN'
      exact bushy_fill hup hcs fun h =>
        ⟨hmono (by simp) (hp h), hcs⟩
    · have hfull := Nat.not_lt.mp hroom
      obtain ⟨X, m, B, CA, CB, rfl, rfl, hX, hCA⟩ := exists_cut hlen hfull hcap
      rw [pushUp_full _ _ _ _ _ _ hfull hX hCA]
      simp only [List.length_append, List.length_cons] at hlen hfull
      refine ih hpup hup (hnext (by simpa using hfull) m (by simp [← hX])) _
        ⟨hX ▸ hhalf, fun c hc => hL c (by simp [hc])⟩ ⟨hmono (by simp; omega) hhalf, ?_⟩
      simp only [List.mem_append, List.mem_cons, List.not_mem_nil, or_false]
      rintro c (hc | rfl | rfl)
      · exact hL c (by simp [hc])
      · exact hN
      · exact hN'

end Ctx

/-! ## Trees that grew at the right end -/

namespace Tree

/-- The number of separators at the root. -/
def Stem (q : Nat → Prop) : {n : Nat} → Tree A K L n → Prop
  | 0, _ => True
  | _ + 1, t => q (Branch.keys t).length

/-- Branches off the right spine satisfy `p`, those on it below the root satisfy `q`. -/
def Slanted (p q : Nat → Prop) : {n : Nat} → Tree A K L n → Prop
  | 0, _ => True
  | _ + 1, t => (∀ c ∈ (Branch.children t).dropLast, Each p c) ∧
      ∀ c ∈ (Branch.children t).getLast?, Stem q c ∧ Slanted p q c

@[simp] theorem stem_leaf (a : A) (l : L) : Stem q (leaf (K := K) a l) := trivial

@[simp] theorem stem_node {n : Nat} (a : A) (ks : List K) (cs : List (Tree A K L n)) :
    Stem q (node a ks cs) ↔ q ks.length := Iff.rfl

@[simp] theorem slanted_leaf (a : A) (l : L) : Slanted p q (leaf (K := K) a l) := trivial

theorem slanted_node {n : Nat} (a : A) (ks : List K) (cs : List (Tree A K L n))
    (c : Tree A K L n) :
    Slanted p q (node a ks (cs ++ [c])) ↔ (∀ d ∈ cs, Each p d) ∧ Stem q c ∧ Slanted p q c := by
  simp [Slanted]

theorem Slanted.each {n : Nat} {t : Tree A K L n} (h : t.Slanted p q) (hs : t.Stem q)
    (hpq : ∀ {m}, p m → q m) : t.Each q := by
  induction n with
  | zero => trivial
  | succ n ih =>
    obtain ⟨a, ks, cs⟩ := t
    refine ⟨hs, fun c hc => ?_⟩
    rcases List.eq_nil_or_concat cs with rfl | ⟨cs, d, rfl⟩
    · simp at hc
    · rw [List.concat_eq_append] at h hc
      obtain ⟨hcs, hd, hd'⟩ := (slanted_node ..).mp h
      simp only [List.mem_append, List.mem_singleton] at hc
      obtain hc | rfl := hc
      · exact (hcs c hc).mono hpq
      · exact ih hd' hd

theorem Slanted.bushy {n : Nat} {t : Tree A K L n} (h : t.Slanted p q)
    (hpq : ∀ {m}, p m → q m) : t.Bushy q := by
  cases n with
  | zero => trivial
  | succ n =>
    obtain ⟨a, ks, cs⟩ := t
    rcases List.eq_nil_or_concat cs with rfl | ⟨cs, d, rfl⟩
    · simp [Bushy]
    · rw [List.concat_eq_append] at h
      obtain ⟨hcs, hd, hd'⟩ := (slanted_node ..).mp h
      intro c hc
      simp only [List.concat_eq_append, List.mem_append, List.mem_singleton] at hc
      obtain hc | rfl := hc
      · exact (hcs c hc).mono hpq
      · exact hd'.each hd hpq

end Tree

namespace Ctx

/-- The hole is on the right spine of a slanted tree. -/
def Slanted (p q : Nat → Prop) : {n : Nat} → Ctx A K L n → Prop
  | _, top => True
  | _, frame up _ ksL csL ksR csR =>
      csR = [] ∧ (∀ c ∈ csL, c.Each p) ∧ (up.parent.isSome → q (ksL.length + ksR.length)) ∧
      up.Slanted p q

theorem slanted_fill {n : Nat} {c : Ctx A K L n} {t : Tree A K L n} (hc : c.Slanted p q)
    (ht : t.Slanted p q) (ht' : c.parent.isSome → t.Stem q) : (c.fill t).2.Slanted p q := by
  induction c with
  | top => exact ht
  | frame up a ksL csL ksR csR ih =>
    obtain ⟨rfl, hL, hq, hup⟩ := hc
    exact ih hup ((Tree.slanted_node ..).mpr ⟨hL, ht' rfl, ht⟩) fun h => by simpa using hq h

/-- What stands in a slanted tree is slanted itself, or stands off the right spine. -/
theorem slanted_or_each {n : Nat} {c : Ctx A K L n} {t : Tree A K L n}
    (h : (c.fill t).2.Slanted p q) : t.Slanted p q ∨ t.Each p := by
  induction c with
  | top => exact .inl h
  | frame up a ksL csL ksR csR ih =>
    rcases ih h with hnode | hnode
    · rcases List.eq_nil_or_concat csR with rfl | ⟨cs, d, rfl⟩
      · exact .inl ((Tree.slanted_node ..).mp hnode).2.2
      · right
        rw [List.concat_eq_append, ← List.cons_append, ← List.append_assoc] at hnode
        exact ((Tree.slanted_node ..).mp hnode).1 t (by simp)
    · exact .inr (hnode.2 t (by simp))

theorem slanted_of_fill {n : Nat} {c : Ctx A K L n} {t : Tree A K L n} (hc : c.Paired)
    (hright : c.right = []) (h : (c.fill t).2.Slanted p q) :
    c.Slanted p q ∧ t.Slanted p q ∧ (c.parent.isSome → t.Stem q) := by
  induction c with
  | top => exact ⟨trivial, h, by simp⟩
  | frame up a ksL csL ksR csR ih =>
    obtain ⟨hksR, hcsR, hright⟩ := right_eq_nil hc hright
    subst hksR hcsR
    obtain ⟨hup, hnode, hq⟩ := ih hc.2.2.2.2.2 hright h
    obtain ⟨hL, ht', ht⟩ := (Tree.slanted_node ..).mp hnode
    exact ⟨⟨rfl, hL, fun hsome => by simpa using hq hsome, hup⟩, ht, fun _ => ht'⟩

/-- Growth at the right end leaves nodes of half the capacity behind. -/
theorem slanted_pushUp [LE K] (hcap : 2 ≤ cap) (hhalf : p (cap / 2))
    (hmore : ∀ {i}, cap / 2 ≤ i → q i) (hmono : ∀ {i j}, i ≤ j → q i → q j) {n : Nat}
    {c : Ctx A K L n} (hpair : c.Paired) (hc : c.Slanted p q) {k : K} (he : c.AtEnd cap k) (f : Nat)
    {N N' : Tree A K L n} (hN : N.Each p) (hN' : N'.Slanted p q) (hstem : N'.Stem q) :
    (c.pushUp cap new f N k N').2.Slanted p q := by
  induction c generalizing k f with
  | top => exact (Tree.slanted_node _ _ [N] N').mpr ⟨by simpa using hN, hstem, hN'⟩
  | frame up a ksL csL ksR csR ih =>
    obtain ⟨rfl, rfl, -, hnext⟩ := he
    obtain ⟨hlen, -, -, -, -, hpup⟩ := hpair
    obtain ⟨-, hL, hq, hup⟩ := hc
    have hnode : ∀ (b : A) (ks : List K) (cs : List (Tree A K L _)), (∀ c ∈ cs, c.Each p) →
        (Tree.node b ks (cs ++ [N, N'])).Slanted p q := by
      intro b ks cs hcs
      rw [← List.singleton_append (l := [N']), ← List.append_assoc, Tree.slanted_node]
      refine ⟨?_, hstem, hN'⟩
      simp only [List.mem_append, List.mem_singleton]
      rintro c (hc | rfl)
      · exact hcs c hc
      · exact hN
    by_cases hroom : ksL.length < cap
    · rw [pushUp_room _ _ _ _ _ _ _ _ _ hroom]
      exact slanted_fill hup (hnode a _ csL hL) fun h => hmono (by simp) (hq h)
    · have hfull := Nat.not_lt.mp hroom
      obtain ⟨X, m, B, CA, CB, rfl, rfl, hX, hCA⟩ := exists_cut hlen hfull hcap
      rw [pushUp_full _ _ _ _ _ _ hfull hX hCA]
      simp only [List.length_append, List.length_cons] at hlen hfull
      refine ih hpup hup (hnext (by simpa using hfull) m (by simp [← hX])) _
        ⟨hX ▸ hhalf, fun c hc => hL c (by simp [hc])⟩
        (hnode _ _ CB fun c hc => hL c (by simp [hc])) (hmore ?_)
      simp only [List.length_append, List.length_singleton]
      omega

end Ctx

end NwtBTree
