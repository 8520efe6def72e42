import NwtBTree.Refine.Front
import NwtBTree.Runs.KeySet

/-!
# The tree as a queue

Runs that insert keys greater than all stored ones and remove the least key, by `erase` or by
`delete_pair`. Nothing is asked of the keys that were stored before: once they are removed
they no longer stand in the way.
-/

namespace NwtBTree

variable {K D : Type} [LinearOrder K] {P : Template K D} {t t' : BTree K D} {S : Finset K}
  {q : Request K D}

/-- The insert of a key behind all others, the removal of the least one, or a lookup. -/
def QueueCall (S : Finset K) : Request K D → Prop
  | .insert k _ => ∀ x ∈ S, x < k
  | .erase k | .deletePair k _ => k ∈ S ∧ ∀ x ∈ S, k ≤ x
  | .existsKey _ | .get _ => True

instance : DecidablePred (QueueCall S : Request K D → Prop)
  | .insert k _ => inferInstanceAs (Decidable (∀ x ∈ S, x < k))
  | .erase k | .deletePair k _ => inferInstanceAs (Decidable (k ∈ S ∧ ∀ x ∈ S, k ≤ x))
  | .existsKey _ | .get _ => isTrue trivial

/-- The state while the keys `S` are in the queue. -/
inductive Queued (P : Template K D) : Finset K → BTree K D → Prop
  | new {t : BTree K D} (hroot : t.root = none) (hcount : t.totalkeycount = 0) : Queued P ∅ t
  | backed {t : BTree K D} {T : (n : Nat) × MTree K D n} (h : Backed P t T) :
      Queued P (allKeys LeafSlots.keys T.2.inorder).toFinset t

theorem Queued.hasKeys (h : Queued P S t) : t.HasKeys S := by
  cases h with
  | new hroot hcount => exact ⟨[], by rw [BTree.content, hroot], by simp⟩
  | backed h => exact h.hasKeys_iff.mpr rfl

theorem Backed.queued {T : (n : Nat) × MTree K D n} (h : Backed P t T)
    (hS : (allKeys LeafSlots.keys T.2.inorder).toFinset = S) : Queued P S t :=
  hS ▸ .backed h

variable [DecidableEq D]

/-- The first key. -/
theorem queued_new (hP : P.Four) (hroot : t.root = none) (hcount : t.totalkeycount = 0)
    (hcall : QueueCall ∅ q) : ∃ r t', t.perform P q = .ok (r, t') ∧ q.Returns P ∅ r ∧
      Queued P (q.effect ∅) t' := by
  have hfind (k : K) : t.find P k = .ok none := BTree.find_none hroot
  cases q with
  | insert k d =>
    obtain ⟨t', T', e, h', hkeys⟩ := backed_first hP hroot hcount k d
    refine ⟨.code 1, t', by rw [BTree.perform, e]; rfl, rfl, h'.queued ?_⟩
    rw [hkeys]
    rfl
  | existsKey k =>
    exact ⟨.found false, t, by simp only [BTree.perform, BTree.existsKey, hfind]; rfl, rfl,
      .new hroot hcount⟩
  | get k =>
    exact ⟨.data P.emptyData false, t, by simp only [BTree.perform, BTree.get, hfind]; rfl, rfl,
      .new hroot hcount⟩
  | erase k | deletePair k d => cases hcall.1

theorem Backed.perform {T : (n : Nat) × MTree K D n} (hP : P.Four) (h : Backed P t T)
    (hcall : QueueCall (allKeys LeafSlots.keys T.2.inorder).toFinset q) :
    ∃ r t', t.perform P q = .ok (r, t') ∧
      q.Returns P (allKeys LeafSlots.keys T.2.inorder).toFinset r ∧
      Queued P (q.effect (allKeys LeafSlots.keys T.2.inorder).toFinset) t' := by
  have hS := h.hasKeys_iff.mpr rfl
  cases q with
  | insert k d =>
    have hlt : ∀ x ∈ allKeys LeafSlots.keys T.2.inorder, x < k :=
      fun x hx => hcall x (List.mem_toFinset.mpr hx)
    obtain ⟨t', T', e, h', hkeys⟩ := h.push hP hlt d
    have hnot : k ∉ allKeys LeafSlots.keys T.2.inorder := fun hk => lt_irrefl k (hlt k hk)
    refine ⟨.code 1, t', by rw [BTree.perform, e]; rfl, by simp [Request.Returns, hnot],
      h'.queued ?_⟩
    rw [hkeys, List.toFinset_append]
    rfl
  | erase k =>
    obtain ⟨hk, hleast⟩ := hcall
    obtain ⟨i, t', T', e, h', hkeys⟩ := h.erase_least hP (List.mem_toFinset.mp hk)
      fun x hx => hleast x (List.mem_toFinset.mpr hx)
    refine ⟨.code i, t', by rw [BTree.perform, e]; rfl, ?_,
      h'.queued (hkeys ▸ h.toFinset_erase k)⟩
    rw [Request.Returns, if_pos hk]
    exact ⟨i, rfl⟩
  | deletePair k d =>
    obtain ⟨hk, hleast⟩ := hcall
    obtain ⟨i, t', T', e, h', hkeys⟩ := h.deletePair_least hP (List.mem_toFinset.mp hk)
      (fun x hx => hleast x (List.mem_toFinset.mpr hx)) d
    refine ⟨.code i, t', by rw [BTree.perform, e]; rfl, ?_,
      h'.queued (hkeys ▸ h.toFinset_erase k)⟩
    rw [Request.Returns, if_pos hk]
    exact ⟨i, rfl⟩
  | existsKey k =>
    obtain ⟨r, e, hr, -⟩ := h.lookup hP hS (.inl ⟨k, rfl⟩)
    exact ⟨r, t, e, hr, .backed h⟩
  | get k =>
    obtain ⟨r, e, hr, -⟩ := h.lookup hP hS (.inr ⟨k, rfl⟩)
    exact ⟨r, t, e, hr, .backed h⟩

theorem Queued.perform (hP : P.Four) (h : Queued P S t) (hcall : QueueCall S q) :
    ∃ r t', t.perform P q = .ok (r, t') ∧ q.Returns P S r ∧ Queued P (q.effect S) t' := by
  cases h with
  | new hroot hcount => exact queued_new hP hroot hcount hcall
  | backed h => exact h.perform hP hcall

/-- In every run of such calls each of them succeeds, and the tree is the queue after each. -/
theorem queue_followed (hinner : P.nodeslots = 4) (hleaf : P.leafslots = 4)
    {qs : List (Request K D)} (hcalls : Along Request.effect QueueCall ∅ qs) :
    Tracks (BTree.perform P) Request.effect (Request.Returns P) BTree.HasKeys ∅ BTree.init qs :=
  tracks_sim Queued.hasKeys (Queued.perform ⟨hinner, hleaf⟩) (.new rfl rfl) hcalls

/-- Keys leave the queue while others join it, and it is empty once in between. -/
def shifts : List (Request Nat Nat) :=
  [.insert 4 40, .insert 5 50, .insert 6 60, .insert 7 70, .insert 8 80, .erase 4, .deletePair 5 0,
    .insert 9 90, .erase 6, .get 7, .erase 7, .erase 8, .existsKey 8, .deletePair 9 90,
    .insert 1 10, .insert 2 20, .erase 1]

theorem queue_followed_shifts :
    Tracks (BTree.perform (Template.plain 4)) Request.effect (Request.Returns (Template.plain 4))
      BTree.HasKeys ∅ BTree.init shifts :=
  queue_followed rfl rfl (by decide)

end NwtBTree
