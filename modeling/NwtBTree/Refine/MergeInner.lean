import NwtBTree.Refine.RemoveChild

/-!
# Merging and redistributing inner nodes

A merge moves the children of one node over to its neighbour one by one. Each is
joined to the child it comes to lie next to, but the children of the moved node
were joined already: only the seam between the two families changes.
-/

namespace NwtBTree

variable {K D : Type} {P : Template K D}

namespace Links

/-- The last of `as` is joined to the first of `bs`. -/
def bridge (l : Links) (lf : Bool) (as bs : List Addr) : Links :=
  if lf then
    match as.getLast?, bs.head? with
    | some a, some b => l.link a b
    | _, _ => l
  else l

@[simp] theorem bridge_false (l : Links) (as bs : List Addr) : l.bridge false as bs = l := rfl

theorem around_nil_left (l : Links) (lf : Bool) (as bs : List Addr) (x : Addr) :
    l.around lf [] x bs = l.bridge lf (as ++ [x]) bs := by
  cases lf with
  | false => rfl
  | true => cases bs <;> simp [around_true, bridge]

theorem around_nil_right (l : Links) (lf : Bool) (as bs : List Addr) (x : Addr) :
    l.around lf as x [] = l.bridge lf as (x :: bs) := by
  cases lf with
  | false => rfl
  | true =>
    rcases List.eq_nil_or_concat as with rfl | ⟨as, d, rfl⟩
    · rfl
    · simp [around_true, bridge]

/-- Both sides of the seam stay what they are. -/
theorem bridge_of_not_mem {l : Links} {lf : Bool} {as bs : List Addr} {c : Addr}
    (hc : c ∉ as ++ bs) : (l.bridge lf as bs).nxt c = l.nxt c ∧
    (l.bridge lf as bs).prv c = l.prv c := by
  cases lf with
  | false => exact ⟨rfl, rfl⟩
  | true =>
    rcases List.eq_nil_or_concat as with rfl | ⟨as, a, rfl⟩
    · exact ⟨rfl, rfl⟩
    · cases bs with
      | nil => simp [bridge]
      | cons b bs =>
        simp only [List.concat_eq_append, List.mem_append, List.mem_cons, not_or] at hc
        simp [bridge, hc]

theorem relinks_bridge (l : Links) (lf : Bool) (as bs : List Addr) :
    Relinks (as ++ bs) l (l.bridge lf as bs) := by
  cases lf with
  | false => exact .refl l
  | true =>
    rcases List.eq_nil_or_concat as with rfl | ⟨as, a, rfl⟩
    · exact .refl l
    · cases bs with
      | nil => simpa [bridge] using .refl l
      | cons b bs =>
        have : l.bridge true (as.concat a) (b :: bs) = l.link a b := by simp [bridge]
        rw [this]
        exact .one ⟨as, bs, by simp⟩

theorem isChain_bridge {l : Links} {as bs : List Addr} (hnd : (as ++ bs).Nodup)
    (ha : as.IsChain l.Joined) (hb : bs.IsChain l.Joined) :
    (as ++ bs).IsChain (l.bridge true as bs).Joined := by
  have hrel := relinks_bridge l true as bs
  rw [List.isChain_append]
  refine ⟨?_, ?_, ?_⟩
  · rw [List.isChain_iff_forall_rel_of_append_cons_cons] at ha ⊢
    exact fun {x y X Y} heq => hrel.joined hnd (Adjacent.append_right ⟨X, Y, heq⟩ _) (ha heq)
  · rw [List.isChain_iff_forall_rel_of_append_cons_cons] at hb ⊢
    exact fun {x y X Y} heq => hrel.joined hnd (Adjacent.append_left ⟨X, Y, heq⟩ _) (hb heq)
  · intro x hx y hy
    rw [bridge, if_pos rfl, hx, hy]
    exact joined_link l x y

end Links

/-- The nodes `cs` get the parent `q`. -/
def View.adopt (v : View K D) (q : Addr) (cs : List Addr) : View K D :=
  { v with par := fun b => if b ∈ cs then some q else v.par b }

namespace View

variable (v : View K D) (q : Addr) (cs : List Addr)

@[simp] theorem body_adopt : (v.adopt q cs).body = v.body := rfl
@[simp] theorem par_adopt (b : Addr) :
    (v.adopt q cs).par b = if b ∈ cs then some q else v.par b := rfl
@[simp] theorem flag_adopt : (v.adopt q cs).flag = v.flag := rfl
@[simp] theorem links_adopt : (v.adopt q cs).links = v.links := rfl
@[simp] theorem adopt_nil : v.adopt q [] = v := by simp [adopt]

theorem adopt_setPar (x : Addr) :
    (v.setPar x (some q)).adopt q cs = v.adopt q (cs ++ [x]) := by
  simp only [adopt, setPar, View.mk.injEq, true_and, and_true]
  funext b
  by_cases hx : b = x <;> simp [hx]

theorem adopt_cons (x : Addr) :
    (v.setPar x (some q)).adopt q cs = v.adopt q (x :: cs) := by
  simp only [adopt, setPar, View.mk.injEq, true_and, and_true]
  funext b
  by_cases hx : b = x <;> simp [hx]

end View

namespace BTree

variable {t : BTree K D} {N q : Addr} {s s' : InnerSlots K} {lf : Bool} {ksA ksB ks kn : List K}
  {csA csB cs cn : List Addr} {sep : K}

/-- A key in front of all others. -/
theorem prependKey_spec (hq : t.view.body q = some (.inner s')) (hs' : InnerHas P s' kn cn)
    (hroom : kn.length < P.innernodemax) (k : K) :
    ∃ s'' t', t.insertKeyAt q k 0 = .ok t' ∧ InnerHas P s'' (k :: kn) cn ∧
      t'.view = t.view.setBody q (.inner s'') := by
  have h : InnerHas P s' ([] ++ kn) cn := hs'
  exact insertKeyAt_spec hq h hroom k

/-- A child in front of all others. -/
theorem prependChild_spec {x : Addr} (hq : t.view.body q = some (.inner s'))
    (hs' : InnerHas P s' kn cn) (hroom : cn.length ≤ P.innernodemax)
    (hkind : ∀ b ∈ x :: cn, t.view.IsKind lf b) :
    ∃ s'' t', t.insertChildAt q (some x) 0 = .ok t' ∧ InnerHas P s'' kn (x :: cn) ∧
      t'.view = ((t.view.setBody q (.inner s'')).setPar x (some q)).setLinks
        (t.view.links.around lf [] x cn) := by
  have h : InnerHas P s' kn ([] ++ cn) := hs'
  exact insertChildAt_spec hq h hroom hkind

/-- The loop puts the pairs of `N` in front of those of `q`, from the last to the first. -/
theorem prependAll_spec (hN : t.view.body N = some (.inner s))
    (hs : InnerHas P s (ksA ++ ksB) (csA ++ csB)) (hlen : ksA.length = csA.length)
    (hq : t.view.body q = some (.inner s')) (hs' : InnerHas P s' kn cn) (hNq : N ≠ q)
    (hkeys : ksA.length + kn.length ≤ P.innernodemax)
    (hroom : csA.length + cn.length ≤ P.innernodemax + 1) (hcs : ∀ b ∈ csA, b ≠ q)
    (hkind : ∀ b ∈ csA ++ cn, t.view.IsKind lf b)
    (hchain : lf = true → (csA ++ cn.take 1).IsChain t.view.links.Joined) :
    ∃ s'' t', t.prependAll N q csA.length = .ok t' ∧ InnerHas P s'' (ksA ++ kn) (csA ++ cn) ∧
      t'.view = (t.view.setBody q (.inner s'')).adopt q csA := by
  induction csA using List.reverseRecOn generalizing t s' ksA ksB csB kn cn with
  | nil =>
    obtain rfl := List.eq_nil_of_length_eq_zero hlen
    exact ⟨s', t, rfl, by simpa using hs', by simp [View.setBody_self hq]⟩
  | append_singleton csA x ih =>
    obtain ⟨ksA, k, rfl⟩ := List.eq_nil_or_concat ksA |>.resolve_left (by rintro rfl; simp at hlen)
    rw [List.concat_eq_append] at *
    have hlen' : ksA.length = csA.length := by simpa using hlen
    simp only [List.length_append, List.length_singleton] at hkeys hroom
    rw [List.append_assoc, List.append_assoc, List.singleton_append, List.singleton_append] at hs
    have hk : load s.keySlots csA.length = .ok k := hs.load_keyAt hlen'.symm
    have hx : load s.firstChild csA.length = .ok (some x) := hs.load_childAt rfl
    obtain ⟨s1, t1, e1, hs1, v1⟩ := prependKey_spec hq hs' (by omega) k
    have hq1 : t1.view.body q = some (.inner s1) := by
      rw [v1]
      simp
    have hkind1 : ∀ b ∈ csA ++ x :: cn, t1.view.IsKind lf b := by
      intro b hb
      rw [v1]
      exact View.isKind_setBody hq s1 (hkind b (by simpa using hb))
    obtain ⟨s2, t2, e2, hs2, v2⟩ := prependChild_spec hq1 hs1 (by omega)
      (fun b hb => hkind1 b (by simp at hb ⊢; tauto))
    -- `x` was joined to the first child of `q`
    have hlinks : t1.view.links.around lf [] x cn = t1.view.links := by
      cases lf with
      | false => rfl
      | true =>
        cases cn with
        | nil => rfl
        | cons c cn =>
          have hxc := hchain rfl
          rw [List.append_assoc, List.singleton_append, List.take_succ_cons, List.take_zero,
            List.isChain_append_cons_cons] at hxc
          rw [v1]
          exact Links.link_eq_self hxc.2.1
    rw [hlinks] at v2
    have hN2 : t2.view.body N = some (.inner s) := by
      rw [v2, v1]
      simpa [hNq] using hN
    have hq2 : t2.view.body q = some (.inner s2) := by
      rw [v2]
      simp
    obtain ⟨s3, t3, e3, hs3, v3⟩ := ih hN2 hs hlen' hq2 hs2 (by simp; omega) (by simp; omega)
      (fun b hb => hcs b (by simp [hb]))
      (fun b hb => by
        have := View.isKind_setBody hq1 s2 (hkind1 b hb)
        rw [v2]
        cases lf <;> exact this)
      (fun hlf => by
        have := hchain hlf
        rw [v2, v1]
        exact (this.left_of_append : _))
    refine ⟨s3, t3, ?_, by simpa using hs3, ?_⟩
    · rw [List.length_append, List.length_singleton, prependAll, inner_eq hN, ok_bind]
      simp only [hk, hx, ok_bind, e1, e2, e3]
    · rw [v3, v2, v1, ← View.adopt_setPar]
      simp [View.setBody, View.setPar, View.setLinks, View.adopt]

/-- The merge into the right neighbour, up to the recursive call. -/
theorem mergeIntoNext_spec (hN : t.view.body N = some (.inner s)) (hs : InnerHas P s ks csA)
    (hlen : csA.length = ks.length + 1) (hq : t.view.body q = some (.inner s'))
    (hs' : InnerHas P s' kn cn) (hlen' : cn.length = kn.length + 1) (hNq : N ≠ q)
    (hroom : csA.length + cn.length ≤ P.innernodemax + 1) (hcs : ∀ b ∈ csA, b ≠ q)
    (hkind : ∀ b ∈ csA ++ cn, t.view.IsKind lf b) (hnd : (csA ++ cn).Nodup)
    (hchain : lf = true → csA.IsChain t.view.links.Joined) :
    ∃ s'' t', t.mergeIntoNext sep N q = .ok t' ∧ InnerHas P s'' (ks ++ sep :: kn) (csA ++ cn) ∧
      t'.view = ((t.view.setBody q (.inner s'')).adopt q csA).setLinks
        (t.view.links.bridge lf csA cn) := by
  obtain ⟨cs, x, rfl⟩ := List.eq_nil_or_concat csA |>.resolve_left (by rintro rfl; simp at hlen)
  rw [List.concat_eq_append] at *
  have hlen1 : ks.length = cs.length := by simpa using hlen.symm
  simp only [List.length_append, List.length_singleton] at hroom
  obtain ⟨s1, t1, e1, hs1, v1⟩ := prependKey_spec hq hs' (by omega) sep
  have hq1 : t1.view.body q = some (.inner s1) := by
    rw [v1]
    simp
  have hkind1 : ∀ b ∈ cs ++ x :: cn, t1.view.IsKind lf b := by
    intro b hb
    rw [v1]
    exact View.isKind_setBody hq s1 (hkind b (by simpa using hb))
  obtain ⟨s2, t2, e2, hs2, v2⟩ := prependChild_spec hq1 hs1 (by omega)
    (fun b hb => hkind1 b (by simp at hb ⊢; tauto))
  have hlinks : t1.view.links.around lf [] x cn = t.view.links.bridge lf (cs ++ [x]) cn := by
    rw [v1, Links.around_nil_left]
    cases lf with
    | false => rfl
    | true => simp [Links.bridge]
  rw [hlinks] at v2
  have hN2 : t2.view.body N = some (.inner s) := by
    rw [v2, v1]
    simpa [hNq] using hN
  have hq2 : t2.view.body q = some (.inner s2) := by
    rw [v2]
    simp
  have hkind2 : ∀ b ∈ cs ++ x :: cn, t2.view.IsKind lf b := by
    intro b hb
    have := View.isKind_setBody hq1 s2 (hkind1 b hb)
    rw [v2]
    cases lf <;> exact this
  have hs0 : InnerHas P s (ks ++ []) (cs ++ [x]) := by simpa using hs
  obtain ⟨s3, t3, e3, hs3, v3⟩ := prependAll_spec hN2 hs0 hlen1 hq2 hs2 hNq (by simp; omega)
    (by simp; omega) (fun b hb => hcs b (by simp [hb])) hkind2
    (fun hlf => by
      subst hlf
      have hseam := Links.relinks_bridge t.view.links true (cs ++ [x]) cn
      rw [v2, View.links_setLinks, List.take_succ_cons, List.take_zero]
      have hch := hchain rfl
      rw [List.isChain_iff_forall_rel_of_append_cons_cons] at hch ⊢
      exact fun {a b X Y} heq =>
        hseam.joined hnd (Adjacent.append_right ⟨X, Y, heq⟩ cn) (hch heq))
  refine ⟨s3, t3, ?_, by simpa using hs3, ?_⟩
  · have hnum : s.numChildren = cs.length + 1 := by simpa using hs.num
    have hget : getChild s ((s.numChildren : Int) - 1) = .ok (some x) := by
      rw [getChild, if_neg (by rw [hs.inuse, hnum]; omega), hnum]
      exact hs.load_childAt (by omega)
    rw [mergeIntoNext, inner_eq hN, ok_bind]
    simp only [e1, ok_bind, hget, e2, hs.inuse, hlen1, e3]
  · rw [v3, v2, v1, ← View.adopt_setPar]
    simp [View.setBody, View.setPar, View.setLinks, View.adopt]

/-- A key and a child go to the end of `q`. -/
theorem appendPair_spec {k : K} {x : Addr} (hq : t.view.body q = some (.inner s'))
    (hs' : InnerHas P s' kn cn) (hkeys : kn.length < P.innernodemax)
    (hroom : cn.length ≤ P.innernodemax) (hkind : ∀ b ∈ cn ++ [x], t.view.IsKind lf b) :
    ∃ s'' t', t.appendPair q k (some x) = .ok t' ∧ InnerHas P s'' (kn ++ [k]) (cn ++ [x]) ∧
      t'.view = ((t.view.setBody q (.inner s'')).setPar x (some q)).setLinks
        (t.view.links.around lf cn x []) := by
  obtain ⟨s1, t1, e1, hs1, v1⟩ := appendKey_spec hq hs' hkeys k hs'.inuse
  have hq1 : t1.view.body q = some (.inner s1) := by
    rw [v1]
    simp
  have hkind1 : ∀ b ∈ cn ++ [x], t1.view.IsKind lf b := by
    intro b hb
    rw [v1]
    exact View.isKind_setBody hq s1 (hkind b hb)
  obtain ⟨s2, t2, e2, hs2, v2⟩ := appendChild_spec hq1 hs1 hroom hkind1 hs'.num
  refine ⟨s2, t2, ?_, hs2, ?_⟩
  · rw [appendPair, inner_eq hq, ok_bind]
    simp only [e1, ok_bind, e2]
  · rw [v2, v1]
    simp [View.setBody, View.setPar, View.setLinks]

/-- The loop puts the rest of the pairs of `N` at the end of `q`, from the first to the last. -/
theorem appendAll_spec (hN : t.view.body N = some (.inner s))
    (hs : InnerHas P s (ksA ++ ksB) (csA ++ csB)) (hlen : csA.length = ksA.length + 1)
    (hlen' : ksB.length = csB.length) (hq : t.view.body q = some (.inner s'))
    (hs' : InnerHas P s' kn cn) (hNq : N ≠ q) (hkeys : kn.length + csB.length ≤ P.innernodemax)
    (hroom : cn.length + csB.length ≤ P.innernodemax + 1) (hcs : ∀ b ∈ csB, b ≠ q)
    (hkind : ∀ b ∈ cn ++ csB, t.view.IsKind lf b)
    (hchain : lf = true → csB.IsChain t.view.links.Joined)
    (hseam : lf = true → ∀ p ∈ cn.getLast?, ∀ c ∈ csB.head?, t.view.links.Joined p c) :
    ∃ s'' t', t.appendAll N q ksA.length csB.length = .ok t' ∧
      InnerHas P s'' (kn ++ ksB) (cn ++ csB) ∧
      t'.view = (t.view.setBody q (.inner s'')).adopt q csB := by
  induction csB generalizing t s' ksA ksB csA kn cn with
  | nil =>
    obtain rfl := List.eq_nil_of_length_eq_zero hlen'
    exact ⟨s', t, rfl, by simpa using hs', by simp [View.setBody_self hq]⟩
  | cons x csB ih =>
    obtain ⟨k, ksB, rfl⟩ := List.exists_cons_of_length_eq_add_one hlen'
    simp only [List.length_cons] at hkeys hroom
    have hk : load s.keySlots ksA.length = .ok k := hs.load_keyAt rfl
    have hx : load s.firstChild (ksA.length + 1) = .ok (some x) := hs.load_childAt hlen.symm
    obtain ⟨s1, t1, e1, hs1, v1⟩ := appendPair_spec (k := k) hq hs' (by omega) (by omega)
      (fun b hb => hkind b (by simp at hb ⊢; tauto))
    have hlinks : t.view.links.around lf cn x [] = t.view.links := by
      cases lf with
      | false => rfl
      | true =>
        rcases List.eq_nil_or_concat cn with rfl | ⟨cn, d, rfl⟩
        · rfl
        · have hdx := hseam rfl d (by simp) x rfl
          simpa [Links.around_true] using Links.link_eq_self hdx
    rw [hlinks] at v1
    have hN1 : t1.view.body N = some (.inner s) := by
      rw [v1]
      simpa [hNq] using hN
    have hq1 : t1.view.body q = some (.inner s1) := by
      rw [v1]
      simp
    have hs0 : InnerHas P s ((ksA ++ [k]) ++ ksB) ((csA ++ [x]) ++ csB) := by simpa using hs
    obtain ⟨s2, t2, e2, hs2, v2⟩ := ih hN1 hs0 (by simp [hlen]) (by simpa using hlen') hq1 hs1
      (by simp; omega) (by simp; omega) (fun b hb => hcs b (by simp [hb]))
      (fun b hb => by
        have := View.isKind_setBody hq s1 (hkind b (by simpa using hb))
        rw [v1]
        cases lf <;> exact this)
      (fun hlf => by
        rw [v1]
        exact (hchain hlf).tail)
      (fun hlf p hp c hc => by
        rw [v1]
        obtain rfl : x = p := by simpa using hp
        obtain ⟨csB, rfl⟩ : ∃ B, csB = c :: B := ⟨csB.tail, List.eq_cons_of_mem_head? hc⟩
        exact (List.isChain_cons_cons.mp (hchain hlf)).1)
    refine ⟨s2, t2, ?_, by simpa using hs2, ?_⟩
    · rw [List.length_append, List.length_singleton] at e2
      rw [List.length_cons, appendAll, inner_eq hN, ok_bind]
      simp only [hk, hx, ok_bind, e1, e2]
    · rw [v2, v1, ← View.adopt_cons]
      simp [View.setBody, View.setPar, View.setLinks, View.adopt]

/-- The merge into the left neighbour, up to the recursive call. -/
theorem mergeIntoPrev_spec (hN : t.view.body N = some (.inner s)) (hs : InnerHas P s ks csB)
    (hlen : csB.length = ks.length + 1) (hq : t.view.body q = some (.inner s'))
    (hs' : InnerHas P s' kn cn) (hlen' : cn.length = kn.length + 1) (hNq : N ≠ q)
    (hroom : cn.length + csB.length ≤ P.innernodemax + 1) (hcs : ∀ b ∈ csB, b ≠ q)
    (hkind : ∀ b ∈ cn ++ csB, t.view.IsKind lf b) (hnd : (cn ++ csB).Nodup)
    (hchain : lf = true → csB.IsChain t.view.links.Joined) :
    ∃ s'' t', t.mergeIntoPrev sep N q = .ok t' ∧ InnerHas P s'' (kn ++ sep :: ks) (cn ++ csB) ∧
      t'.view = ((t.view.setBody q (.inner s'')).adopt q csB).setLinks
        (t.view.links.bridge lf cn csB) := by
  obtain ⟨x, cs, rfl⟩ := List.exists_cons_of_length_eq_add_one hlen
  have hlen1 : ks.length = cs.length := by simpa using hlen.symm
  simp only [List.length_cons] at hroom
  have hx : load s.firstChild 0 = .ok (some x) := hs.load_firstChild
  obtain ⟨s1, t1, e1, hs1, v1⟩ := appendPair_spec (k := sep) hq hs' (by omega) (by omega)
    (fun b hb => hkind b (by simp at hb ⊢; tauto))
  rw [Links.around_nil_right t.view.links lf cn cs x] at v1
  have hjoin : lf = true → (x :: cs).IsChain (t.view.links.bridge lf cn (x :: cs)).Joined := by
    intro hlf
    have hseam := Links.relinks_bridge t.view.links lf cn (x :: cs)
    have hch := hchain hlf
    rw [List.isChain_iff_forall_rel_of_append_cons_cons] at hch ⊢
    exact fun {a b X Y} heq => hseam.joined hnd (Adjacent.append_left ⟨X, Y, heq⟩ cn) (hch heq)
  have hN1 : t1.view.body N = some (.inner s) := by
    rw [v1]
    simpa [hNq] using hN
  have hq1 : t1.view.body q = some (.inner s1) := by
    rw [v1]
    simp
  have hs0 : InnerHas P s ([] ++ ks) ([x] ++ cs) := hs
  have hkind1 : ∀ b ∈ cn ++ [x] ++ cs, t1.view.IsKind lf b := by
    intro b hb
    have := View.isKind_setBody hq s1 (hkind b (by simpa using hb))
    rw [v1]
    cases lf <;> exact this
  obtain ⟨s2, t2, e2, hs2, v2⟩ := appendAll_spec hN1 hs0 rfl hlen1 hq1 hs1 hNq (by simp; omega)
    (by simp; omega) (fun b hb => hcs b (by simp [hb])) hkind1
    (fun hlf => by
      rw [v1]
      exact (hjoin hlf).tail)
    (fun hlf p hp c hc => by
      rw [v1]
      obtain rfl : x = p := by simpa using hp
      obtain ⟨cs, rfl⟩ : ∃ B, cs = c :: B := ⟨cs.tail, List.eq_cons_of_mem_head? hc⟩
      exact (List.isChain_cons_cons.mp (hjoin hlf)).1)
  refine ⟨s2, t2, ?_, by simpa using hs2, ?_⟩
  · rw [List.length_nil] at e2
    rw [mergeIntoPrev, inner_eq hN, ok_bind]
    simp only [hx, ok_bind, e1, hs.inuse, hlen1, e2]
  · rw [v2, v1, ← View.adopt_cons]
    simp [View.setBody, View.setPar, View.setLinks, View.adopt]

variable [LinearOrder K]

/-- The first child of the right neighbour goes to the end of `N`. -/
theorem redistributeFromNext_spec {g d : Addr} {sg : InnerSlots K} {kL kR : List K}
    {cg : List Addr} {z : K} (hN : t.view.body N = some (.inner s)) (hs : InnerHas P s ks csA)
    (hroom : csA.length ≤ P.innernodemax) (hkeys : ks.length < P.innernodemax)
    (hq : t.view.body q = some (.inner s')) (hs' : InnerHas P s' (z :: kn) (d :: cn))
    (hlen' : cn.length = kn.length + 1) (hg : t.view.body g = some (.inner sg))
    (hsg : InnerHas P sg (kL ++ sep :: kR) cg) (hsep : sep ∉ kL) (hpar : t.view.par q = some g)
    (hNq : N ≠ q) (hNg : N ≠ g) (hqg : q ≠ g) (hdq : d ≠ q)
    (hkind : ∀ b ∈ csA ++ [d], t.view.IsKind lf b) :
    ∃ s1 s2 s3 t', t.redistributeFromNext sep N q = .ok t' ∧
      InnerHas P s1 (ks ++ [sep]) (csA ++ [d]) ∧
      InnerHas P s2 (kL ++ z :: kR) cg ∧ InnerHas P s3 kn cn ∧
      t'.view = (((((t.view.setBody N (.inner s1)).setPar d (some N)).setLinks
        (t.view.links.bridge lf csA (d :: cn))).setBody g (.inner s2)).setBody q (.inner s3)) := by
  have hd0 : load s'.firstChild 0 = .ok (some d) := hs'.load_firstChild
  have hz0 : load s'.keySlots 0 = .ok z := hs'.load_firstKey
  obtain ⟨s1, t1, e1, hs1, v1⟩ := appendPair_spec (k := sep) hN hs hkeys hroom hkind
  rw [Links.around_nil_right t.view.links lf csA cn d] at v1
  have hq1 : t1.view.body q = some (.inner s') := by
    rw [v1]
    simpa [hNq.symm] using hq
  have hg1 : t1.view.body g = some (.inner sg) := by
    rw [v1]
    simpa [hNg.symm] using hg
  have hpar1 : t1.view.par q = some g := by
    rw [v1]
    simpa [hdq.symm] using hpar
  obtain ⟨s2, t2, e2, hs2, v2⟩ := replaceKey_spec hg1 hsg hsep z
  have hq2 : t2.view.body q = some (.inner s') := by
    rw [v2]
    simpa [hqg] using hq1
  obtain ⟨hslots, hin, hnum, ⟨r, hr⟩, ⟨w, hw⟩, hkc, hcc⟩ := id hs'
  simp only [List.length_cons] at hin hnum
  have hn : s'.slotsinuse - 1 = kn.length := by omega
  -- the keys and children of the right neighbour move down
  obtain ⟨y, hy⟩ : ∃ y, shiftDown s'.keySlots 0 kn.length = .ok (kn ++ y :: r) := by
    rw [hr]
    exact ⟨_, shiftDown_spec [] kn r z⟩
  obtain ⟨cn', c, rfl⟩ := List.eq_nil_or_concat cn |>.resolve_left (by rintro rfl; simp at hlen')
  rw [List.concat_eq_append] at *
  have hlen1 : kn.length = cn'.length := by simpa using hlen'.symm
  obtain ⟨y', hy'⟩ : ∃ y', shiftDown s'.firstChild 0 kn.length =
      .ok (cn'.map some ++ y' :: some c :: w) := by
    have hsplit : s'.firstChild = some d :: (cn'.map some ++ some c :: w) := by
      rw [hw]
      simp
    have := shiftDown_spec [] (cn'.map some) (some c :: w) (some d)
    rw [hsplit, hlen1]
    simp only [List.length_map, List.length_nil, List.nil_append] at this
    exact ⟨_, this⟩
  have hlast : load (cn'.map some ++ y' :: some c :: w) (kn.length + 1) = .ok (some c) := by
    rw [hlen1]
    exact load_of_getElem? (by simp)
  have hstore : store (cn'.map some ++ y' :: some c :: w) kn.length (some c) =
      .ok (cn'.map some ++ some c :: some c :: w) := store_append (some c) (by simp [hlen1])
  let s3 : InnerSlots K := { s' with
    keySlots := kn ++ y :: r, firstChild := cn'.map some ++ some c :: some c :: w
    slotsinuse := dec16 s'.slotsinuse, numChildren := s'.numChildren - 1 }
  obtain ⟨t3, e3, v3⟩ := setInner_view hq2 s3
  refine ⟨s1, s2, s3, t3, ?_, hs1, hs2, ⟨hslots, ?_, ?_, ⟨y :: r, rfl⟩, ⟨some c :: w, ?_⟩, ?_, ?_⟩,
    ?_⟩
  · rw [redistributeFromNext, inner_eq hq, ok_bind]
    simp only [hd0, ok_bind, e1, inner_eq hq1, hpar1, hz0, e2, inner_eq hq2, hn, hy, hy', hlast,
      hstore]
    rw [if_pos (by rw [hin, hnum]; simp [hlen1]), ok_bind]
    exact e3
  · have hcap := innernodemax_lt P
    have hle : kn.length + 1 ≤ P.innernodemax := by
      rw [← hkc, hr]
      simp
    simp only [s3, hin]
    rw [dec16_of_pos (by omega) (by omega)]
    omega
  · simp only [s3, hnum]
    omega
  · simp [s3]
  · simp only [hr, List.length_append, List.length_cons] at hkc
    simp only [s3, List.length_append, List.length_cons]
    omega
  · simp only [hw, List.length_append, List.length_cons, List.length_map] at hcc
    simp only [s3, List.length_append, List.length_cons, List.length_map]
    simp at hcc
    omega
  · rw [v3, v2, v1]

end BTree

end NwtBTree
