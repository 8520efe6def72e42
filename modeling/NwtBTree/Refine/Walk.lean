import NwtBTree.Refine.Lookup

/-!
# `find` as a walk

In a tree whose leaf chain only ever leads to the right neighbour, `find` takes
the first leaf, from the one the descent ends at on, that stops the walk.
-/

namespace NwtBTree

variable {K D : Type} {P : Template K D}

/-- A leaf links to its right neighbour or to nothing. -/
def Forward (nxt : Addr → Option Addr) : List Addr → Prop
  | [] => True
  | a :: L => (∀ b ∈ nxt a, b ∈ L.head?) ∧ Forward nxt L

section Forward

variable {nxt nxt' : Addr → Option Addr}

@[simp] theorem forward_nil : Forward nxt [] := trivial

@[simp] theorem forward_cons (a : Addr) (L : List Addr) :
    Forward nxt (a :: L) ↔ (∀ b ∈ nxt a, b ∈ L.head?) ∧ Forward nxt L := Iff.rfl

theorem Forward.of_append {A B : List Addr} (h : Forward nxt (A ++ B)) : Forward nxt B := by
  induction A with
  | nil => exact h
  | cons a A ih => exact ih h.2

theorem Forward.congr {L : List Addr} (h : Forward nxt L) (heq : ∀ a ∈ L, nxt' a = nxt a) :
    Forward nxt' L := by
  induction L with
  | nil => trivial
  | cons a L ih =>
    refine ⟨fun b hb => h.1 b ?_, ih h.2 fun c hc => heq c (by simp [hc])⟩
    rwa [heq a (by simp)] at hb

/-- The chain up to an address does not depend on what comes after it. -/
theorem Forward.replace {A L L' : List Addr} {z : Addr} (h : Forward nxt (A ++ z :: L))
    (heq : ∀ a ∈ A, nxt' a = nxt a) (h' : Forward nxt' (z :: L')) :
    Forward nxt' (A ++ z :: L') := by
  induction A with
  | nil => exact h'
  | cons a A ih =>
    refine ⟨fun b hb => ?_, ih h.2 fun c hc => heq c (by simp [hc])⟩
    rw [heq a (by simp)] at hb
    have := h.1 b hb
    cases A <;> simpa using this

theorem Links.grow_concat {l : Links} {A : List Addr} {z x y : Addr} :
    l.grow true (A ++ [z]) x y = (l.link z x).link x y := by
  simp [Links.grow, Links.around_true]

/-- A leaf in front of the new ones keeps its successor or gets another one. -/
theorem Links.grow_nxt_eq_none {l : Links} {A : List Addr} {x y b : Addr}
    (hnd : (A ++ [x, y]).Nodup) (hb : b ∈ A) (hlast : ∀ z ∈ A.getLast?, l.nxt z ≠ none) :
    (l.grow true A x y).nxt b = none ↔ l.nxt b = none := by
  rcases List.eq_nil_or_concat A with rfl | ⟨A, z, rfl⟩
  · simp at hb
  · rw [List.concat_eq_append] at *
    have hbx : b ≠ x := fun h => (List.nodup_append.mp hnd).2.2 b hb x (by simp) h
    rw [Links.grow_concat, Links.nxt_link, if_neg hbx, Links.nxt_link]
    by_cases hbz : b = z
    · subst hbz
      simp [hlast b (by simp)]
    · rw [if_neg hbz]

/-- Two joined leaves take the place of a leaf. -/
theorem Forward.grow {l : Links} {A B : List Addr} {n x y : Addr}
    (h : Forward l.nxt (A ++ n :: B)) (hnd : (A ++ [x, y]).Nodup)
    (hB : ∀ b ∈ B, b ∉ A ++ [x, y]) (hy : l.nxt y = none) :
    Forward (l.grow true A x y).nxt (A ++ x :: y :: B) := by
  have hlast : (l.grow true A x y).nxt y = none := by rw [Links.grow_nxt_last hnd, hy]
  have hrest : Forward (l.grow true A x y).nxt (y :: B) := by
    refine ⟨by simp [hlast], h.of_append.2.congr fun b hb => ?_⟩
    exact (Links.grow_of_not_mem (hB b hb)).1
  rcases List.eq_nil_or_concat A with rfl | ⟨A, z, rfl⟩
  · refine ⟨?_, hrest⟩
    simp [Links.grow, Links.around_true]
  · rw [List.concat_eq_append] at *
    have hgrow : l.grow true (A ++ [z]) x y = (l.link z x).link x y := Links.grow_concat
    simp only [List.append_assoc, List.cons_append, List.nil_append] at h hnd ⊢
    have hne : ∀ a ∈ A ++ [z], a ≠ x := by
      rintro a ha rfl
      have : (A ++ [z] ++ [a, y]).Nodup := by simpa using hnd
      exact (List.nodup_append.mp this).2.2 a ha a (by simp) rfl
    refine h.replace (fun a ha => ?_) ⟨?_, ?_, hrest⟩
    · have haz : a ≠ z := fun haz => (List.nodup_append.mp hnd).2.2 a ha z (by simp) haz
      simp [hgrow, haz, hne a (by simp [ha])]
    · simp [hgrow, hne z (by simp)]
    · simp [hgrow]

end Forward

variable [LinearOrder K]

/-- The walk for `k` ends at this leaf if it gets there. -/
def Stops (P : Template K D) (v : View K D) (k : K) (l : Tip Addr (LeafSlots K D)) : Bool :=
  l.body.keys.any (decide <| k ≤ ·) || !l.body.isfull P || (v.links.nxt l.addr).isNone

theorem stops_iff {v : View K D} {k : K} {l : Tip Addr (LeafSlots K D)} (h : LeafOK P l.body) :
    Stops P v k l = true ↔ (∃ e ∈ l.body.entries, k ≤ e.1) ∨
      l.body.entries.length < P.leafnodemax ∨ v.links.nxt l.addr = none := by
  have hs := h.leafIs
  have hfull : l.body.isfull P = false ↔ l.body.entries.length < P.leafnodemax := by
    rw [← Bool.not_eq_true, hs.isfull_iff]
    have := hs.length_le
    omega
  simp [Stops, hs.keys_eq, hfull, or_assoc]

variable {t : BTree K D} {k : K}

/-- The walk along the leaves `S`. -/
theorem leafWalk_eq {l n : Tip Addr (LeafSlots K D)} {S : List (Tip Addr (LeafSlots K D))}
    (hbody : ∀ m ∈ l :: S, t.view.body m.addr = some (.leaf m.body) ∧ LeafOK P m.body)
    (hfwd : Forward t.view.links.nxt ((l :: S).map Tip.addr))
    (hfind : (l :: S).find? (Stops P t.view k) = some n) {fuel : Nat} (hfuel : S.length < fuel) :
    t.leafWalk P k fuel l.addr = .ok n.addr := by
  induction S generalizing l fuel with
  | nil =>
    obtain ⟨f, rfl⟩ : ∃ f, fuel = f + 1 := ⟨fuel - 1, by simp at hfuel; omega⟩
    obtain ⟨hb, hok⟩ := hbody l (by simp)
    have hlast : t.view.links.nxt l.addr = none := by
      rw [Option.eq_none_iff_forall_not_mem]
      intro b hb
      simpa using hfwd.1 b hb
    have hstop : Stops P t.view k l = true := (stops_iff hok).mpr (.inr (.inr hlast))
    obtain rfl : l = n := by simpa [hstop] using hfind
    exact BTree.leafWalk_stay hb hok.leafIs ((stops_iff hok).mp hstop) f
  | cons m S ih =>
    obtain ⟨f, rfl⟩ : ∃ f, fuel = f + 1 := ⟨fuel - 1, by simp at hfuel; omega⟩
    obtain ⟨hb, hok⟩ := hbody l (by simp)
    by_cases hstop : Stops P t.view k l = true
    · obtain rfl : l = n := by simpa [hstop] using hfind
      exact BTree.leafWalk_stay hb hok.leafIs ((stops_iff hok).mp hstop) f
    · have hpass := mt (stops_iff hok).mpr hstop
      simp only [not_or, not_exists, not_and, not_lt, not_le] at hpass
      obtain ⟨hlt, hfull, hnext⟩ := hpass
      obtain ⟨b, hnb⟩ := Option.ne_none_iff_exists'.mp hnext
      obtain rfl : b = m.addr := by simpa [eq_comm] using hfwd.1 b hnb
      rw [BTree.leafWalk_step hb hok.leafIs hlt
        (le_antisymm hok.leafIs.length_le hfull) hnb f]
      refine ih (fun x hx => hbody x (by simp [hx])) hfwd.2 ?_ (by simpa using hfuel)
      rwa [List.find?_cons_of_neg hstop] at hfind

/-- Some leaf stops the walk, the last one at the latest. -/
theorem exists_stop {l : Tip Addr (LeafSlots K D)} {S : List (Tip Addr (LeafSlots K D))}
    {v : View K D} (hok : ∀ m ∈ l :: S, LeafOK P m.body)
    (hfwd : Forward v.links.nxt ((l :: S).map Tip.addr)) (k : K) :
    ∃ n ∈ l :: S, (l :: S).find? (Stops P v k) = some n := by
  cases hf : (l :: S).find? (Stops P v k) with
  | some n => exact ⟨n, List.mem_of_find?_eq_some hf, rfl⟩
  | none =>
    obtain ⟨S', m, hm⟩ : ∃ S' m, l :: S = S' ++ [m] := by
      rcases List.eq_nil_or_concat (l :: S) with h | ⟨S', m, h⟩
      · simp at h
      · exact ⟨S', m, by simpa using h⟩
    rw [hm, List.map_append] at hfwd
    rw [hm] at hf hok
    have hlast : v.links.nxt m.addr = none := by
      rw [Option.eq_none_iff_forall_not_mem]
      intro b hb
      simpa using hfwd.of_append.1 b hb
    have := List.find?_eq_none.mp hf m (by simp)
    exact absurd ((stops_iff (hok m (by simp))).mpr (.inr (.inr hlast))) this

variable {T : (n : Nat) × MTree K D n}

/-- `find` in any tree with a chain that leads to the right. -/
theorem find_walk (h : Stands P t.view T.2)
    (hfwd : Forward t.view.links.nxt ((tips T.2.inorder).map Tip.addr)) (k : K) :
    ∃ (c : MCtx K D 0) (l n : Tip Addr (LeafSlots K D)), T = c.fill l ∧ c.Paired ∧ c.Routes k ∧
      (l :: tips c.right).find? (Stops P t.view k) = some n ∧ t.find P k = .ok (some n.addr) := by
  obtain ⟨c, l, rfl, hc, hr⟩ := Ctx.exists_tip k T h.paired
  have hin := Ctx.inorder_fill hc l
  have htips : tips (c.fill l).2.inorder = tips c.left ++ l :: tips c.right := by
    simp [hin, Tree.inorder]
  have hbody : ∀ m ∈ l :: tips c.right,
      t.view.body m.addr = some (.leaf m.body) ∧ LeafOK P m.body :=
    fun m hm => h.holds.tip h.paired (by rw [htips]; exact List.mem_append_right _ hm)
  rw [htips, List.map_append] at hfwd
  obtain ⟨n, -, hn⟩ := exists_stop (fun m hm => (hbody m hm).2) hfwd.of_append k
  refine ⟨c, l, n, rfl, hc, hr, hn, BTree.find_eq h hc hr (leafWalk_eq hbody hfwd.of_append hn ?_)⟩
  have h1 := (Tree.tips_sublist h.paired).length_le
  have h2 : (c.fill l).2.addrs.length ≤ t.nodes.size :=
    length_le_of_nodup h.nodup fun a ha => h.lt_size ha
  rw [List.length_map, htips, List.length_append, List.length_cons] at h1
  simp only [BTree.fuel]
  omega

end NwtBTree
