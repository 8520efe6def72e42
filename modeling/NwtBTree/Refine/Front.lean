import NwtBTree.Multiway.Lead
import NwtBTree.Refine.Spare

/-!
# Taking the least key away

The leaf with the least key is the first child at every level. It has no left sibling, which
is where removals fail or lose a key, and it can take a pair from the right one as long as
the separators are stored keys.
-/

namespace NwtBTree

variable {K D : Type} [LinearOrder K] {P : Template K D} {t t' : BTree K D}
  {T T' : (n : Nat) × MTree K D n} {c : MCtx K D 0} {a : Addr} {s s' : LeafSlots K D} {k : K}

/-- A search tree whose separators are stored keys. -/
structure Backed (P : Template K D) (t : BTree K D) (T : (n : Nat) × MTree K D n) : Prop
    extends Kept P t T where
  stored : ∀ z ∈ seps T.2.inorder, z ∈ allKeys LeafSlots.keys T.2.inorder

/-- Only a leaf that is the whole tree may be empty. -/
theorem Kept.keys_ne_nil (h : Kept P t T) {l : Tip Addr (LeafSlots K D)}
    (hl : l ∈ tips T.2.inorder) : l.body.keys ≠ [] ∨ T.2.inorder = [.inr l] := by
  refine (h.least l hl).imp_left fun hhalf hnil => ?_
  obtain ⟨-, hok⟩ := h.rep.holds.tip h.rep.paired hl
  rw [← hok.length_keys, hnil] at hhalf
  exact absurd hhalf (by simp)

/-- Every separator is the first key behind it. -/
theorem Backed.leads (h : Backed P t T) : Leads LeafSlots.keys T.2.inorder := by
  by_cases hone : ∃ l, T.2.inorder = [.inr l]
  · obtain ⟨l, hl⟩ := hone
    rw [hl]
    trivial
  · exact h.order.leads (fun l hl => (h.keys_ne_nil hl).resolve_right fun hl => hone ⟨l, hl⟩)
      h.stored

/-- The least key is in the first leaf. -/
theorem Kept.left_eq_nil (h : Kept P t (c.fill (.leaf a s))) (hc : c.Paired) (hk : k ∈ s.keys)
    (hleast : ∀ x ∈ allKeys LeafSlots.keys (c.fill (.leaf a s)).2.inorder, k ≤ x) :
    c.left = [] := by
  have hin := Ctx.inorder_fill_leaf hc (Tree.leaf (K := K) a s)
  obtain ⟨l, I, hstart⟩ := Tree.inorder_starts h.rep.paired
  rw [hin] at hstart hleast
  by_contra hne
  obtain ⟨x, X, hleft⟩ := List.exists_cons_of_ne_nil hne
  obtain rfl : x = .inr l := by
    rw [hleft, List.cons_append] at hstart
    exact (List.cons.inj hstart).1
  -- the first leaf has a smaller key
  have hl : l ∈ tips c.left := by simp [hleft]
  obtain ⟨-, hok⟩ := h.rep.holds.tip h.rep.paired (l := l) (by rw [hin]; simp [hl])
  have hmany := ((h.beside hc).1 l hl).1
  obtain ⟨x, hx⟩ : ∃ x, x ∈ l.body.keys := by
    refine List.exists_mem_of_length_pos ?_
    rw [hok.length_keys]
    exact Nat.lt_of_lt_of_le Nat.two_pos hmany
  have hmem : x ∈ allKeys LeafSlots.keys c.left := mem_allKeys.mpr ⟨l, mem_tips.mp hl, hx⟩
  have ho := h.order
  rw [hin] at ho
  have hlt : x < k := ((searchOrder_leaf.mp ho).2.2 k hk).keys_lt x hmem
  refine absurd (hleast x ?_) (not_le.mpr hlt)
  rw [allKeys_append]
  exact List.mem_append_left _ hmem

/-- The first leaf can be balanced. -/
theorem Backed.recovers (h : Backed P t (c.fill (.leaf a s))) (hc : c.Paired)
    (hleft : c.left = []) : c.Recovers P := by
  cases c with
  | top => trivial
  | frame up b ksL csL ksR csR =>
    obtain ⟨rfl, rfl, hup⟩ := Ctx.left_eq_nil hc hleft
    obtain ⟨-, hR, -, -, -, hpaired⟩ := id hc
    cases csR with
    | nil => trivial
    | cons q csR =>
      obtain ⟨q, sq⟩ := q
      obtain ⟨sep, ksR, rfl⟩ := List.exists_cons_of_length_eq_add_one hR
      change if sq.slotsinuse < 3 then _ else _
      split
      · exact Ctx.settles_of_left_nil hpaired hup _
      · -- the separator is the first key behind it
        have hleads := h.leads
        rw [Ctx.inorder_fill_leaf hc] at hleads
        obtain ⟨⟨q', J, hq, hsep⟩, -⟩ := hleads.of_append
        obtain rfl := Sum.inr.inj (List.cons.inj hq).1
        exact hsep.symm

omit [LinearOrder K] in
/-- Without a left sibling there is none to lose a pair to. -/
theorem Ctx.not_loses_of_left_nil (hc : c.Paired) (hleft : c.left = []) : ¬c.Loses s := by
  cases c with
  | top => exact id
  | frame up b ksL csL ksR csR =>
    obtain ⟨-, rfl, -⟩ := Ctx.left_eq_nil hc hleft
    rintro ⟨p, hp, -⟩
    cases hp

/-- The tree without its least key. -/
theorem Backed.removal (hP : P.Four) (h : Backed P t (c.fill (.leaf a s))) (hc : c.Paired)
    (hleft : c.left = []) (hk : k ∈ s.keys) (hkeys : s'.keys = s.keys.erase k)
    (hr : Removal P t t' c a s s' T') : Backed P t' T' ∧ allKeys LeafSlots.keys T'.2.inorder =
      (allKeys LeafSlots.keys (c.fill (.leaf a s)).2.inorder).erase k := by
  have hall := h.removal_keys hP hc hr hk hkeys (Ctx.not_loses_of_left_nil hc hleft)
  refine ⟨⟨h.toKept.removal hP hc hr, fun z hz => ?_⟩, hall⟩
  rcases (h.stocked.evened hP hc hr).seps_cases hz with hz | hz
  · -- an old separator is another key
    have hin := Ctx.inorder_fill_leaf hc (Tree.leaf (K := K) a s)
    have ho := h.order
    have hstored := h.stored z (by rw [hin]; simpa using hz)
    rw [hin, hleft] at ho
    rw [hleft, List.nil_append, seps_inr] at hz
    have hlt := ((searchOrder_leaf.mp ho).2.2 k hk).lt_seps z hz
    rw [hall]
    exact (List.mem_erase_of_ne hlt.ne').mpr hstored
  · exact hz

/-- Where the search for the least key ends. -/
theorem Backed.find_least (hP : P.Four) (h : Backed P t T)
    (hk : k ∈ allKeys LeafSlots.keys T.2.inorder)
    (hleast : ∀ x ∈ allKeys LeafSlots.keys T.2.inorder, k ≤ x) :
    ∃ (c : MCtx K D 0) (a : Addr) (s : LeafSlots K D), T = c.fill (.leaf a s) ∧ c.Paired ∧
      c.left = [] ∧ t.find P k = .ok (some a) ∧ k ∈ s.keys := by
  obtain ⟨c, a, s, rfl, hc, hfind, hmem⟩ := h.find hP k
  exact ⟨c, a, s, rfl, hc, h.left_eq_nil hc (hmem hk) hleast, hfind, hmem hk⟩

variable [DecidableEq D]

theorem Backed.erase_least (hP : P.Four) (h : Backed P t T)
    (hk : k ∈ allKeys LeafSlots.keys T.2.inorder)
    (hleast : ∀ x ∈ allKeys LeafSlots.keys T.2.inorder, k ≤ x) :
    ∃ (i : Nat) (t' : BTree K D) (T' : (m : Nat) × MTree K D m),
      t.erase P k = .ok ((i : Int), t') ∧ Backed P t' T' ∧
      allKeys LeafSlots.keys T'.2.inorder = (allKeys LeafSlots.keys T.2.inorder).erase k := by
  obtain ⟨c, a, s, rfl, hc, hleft, hfind, hks⟩ := h.find_least hP hk hleast
  obtain ⟨i, t', s', T', e, hkeys, hr⟩ :=
    h.erase_live hP hc hfind hks fun _ => h.recovers hc hleft
  exact ⟨i, t', T', e, h.removal hP hc hleft hks hkeys hr⟩

theorem Backed.deletePair_least (hP : P.Four) (h : Backed P t T)
    (hk : k ∈ allKeys LeafSlots.keys T.2.inorder)
    (hleast : ∀ x ∈ allKeys LeafSlots.keys T.2.inorder, k ≤ x) (d : D) :
    ∃ (i : Nat) (t' : BTree K D) (T' : (m : Nat) × MTree K D m),
      t.deletePair P k d = .ok ((i : Int), t') ∧ Backed P t' T' ∧
      allKeys LeafSlots.keys T'.2.inorder = (allKeys LeafSlots.keys T.2.inorder).erase k := by
  obtain ⟨c, a, s, rfl, hc, hleft, hfind, hks⟩ := h.find_least hP hk hleast
  obtain ⟨i, t', s', T', e, hkeys, hr⟩ :=
    h.deletePair_live hP hc hfind hks (fun _ => h.recovers hc hleft) d
  exact ⟨i, t', T', e, h.removal hP hc hleft hks hkeys hr⟩

/-- The separators do not stand in the way of a key behind all stored ones. -/
theorem Backed.push (hP : P.Four) (h : Backed P t T)
    (hk : ∀ x ∈ allKeys LeafSlots.keys T.2.inorder, x < k) (d : D) :
    ∃ t' T', t.insert P k d = .ok (1, t') ∧ Backed P t' T' ∧
      allKeys LeafSlots.keys T'.2.inorder = allKeys LeafSlots.keys T.2.inorder ++ [k] := by
  obtain ⟨t', T', e, hx⟩ := h.toKept.push hP hk (fun z hz => hk z (h.stored z hz)) d
  refine ⟨t', T', e, ⟨hx.kept, fun z hz => ?_⟩, hx.keys⟩
  rcases hx.seps z hz with hz | hz
  · rw [hx.keys]
    exact List.mem_append_left _ (h.stored z hz)
  · exact hz

/-- The first insert. -/
theorem backed_first (hP : P.Four) (hroot : t.root = none) (hzero : t.totalkeycount = 0) (k : K)
    (d : D) : ∃ t' T', t.insert P k d = .ok (1, t') ∧ Backed P t' T' ∧
      allKeys LeafSlots.keys T'.2.inorder = [k] := by
  obtain ⟨t', T', e, hx⟩ := kept_first (P := P) (by rw [hP.leafnodemax]; decide) hroot hzero k d
  refine ⟨t', T', e, ⟨hx.kept, fun z hz => ?_⟩, hx.keys⟩
  rw [hx.seps] at hz
  cases hz

end NwtBTree
