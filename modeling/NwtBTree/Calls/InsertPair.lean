import NwtBTree.Calls.Lookup
import NwtBTree.Refine.EraseLeaf
import NwtBTree.Refine.Scatter

/-!
# Inserting into one leaf

`insertleafpair` moves the keys behind the new one up by a slot, and leaves the payloads
where they are.
-/

namespace NwtBTree

variable {K D : Type} [LinearOrder K]

/-- The keys from the lower bound on make the same pairs with the payloads one slot further. -/
def LeafSlots.ShiftsAlike (s : LeafSlots K D) (k : K) : Prop :=
  (s.keys.drop (s.lowerBound k)).zip (s.dataSlots.drop (s.lowerBound k + 1)) =
    s.entries.drop (s.lowerBound k)

variable [DecidableEq D] {P : Template K D} {t : BTree K D} {a : Addr} {l : LeafNode K D}
  {k : K} {d : D}

namespace BTree

/-- Where all keys of the leaf are smaller, its first unused slot still holds the key and the next
leaf is empty, the scan for the pair goes on from there without finding it. -/
def ScanEnds (t : BTree K D) (l : LeafNode K D) (k : K) (d : D) : Prop :=
  (∀ x ∈ l.keys, x < k) → l.beyond = some k → ∀ b m, l.nextLeaf = some b → t.leaf b = .ok m →
    m.keys = [] → t.duplicateScan k d t.nodes.size (some b) 0 = .ok false

/-- The pairs of the leaf afterwards are the old ones with the new pair in its place. -/
def InsertsPair (P : Template K D) (t : BTree K D) (a : Addr) (l : LeafNode K D) (k : K) (d : D) :
    Prop :=
  ∃ t' l', t.insertLeafPair P a k d = .ok (1, t') ∧ t'.leaf a = .ok l' ∧
    l'.entries = l.entries.take (l.lowerBound k) ++ (k, d) :: l.entries.drop (l.lowerBound k)

end BTree

/-- A leaf in use that starts with another key ends the scan. -/
theorem duplicateScan_first {b : Addr} {m : LeafNode K D} (hm : t.leaf b = .ok m) {x : K}
    {xs : List K}
    (hkeys : m.keys = x :: xs) (hx : x ≠ k) {n : Nat} :
    t.duplicateScan k d (n + 1) (some b) 0 = .ok false := by
  have hload : load m.keySlots 0 = .ok x := by
    refine load_of_getElem? ?_
    have hpre : m.keys.IsPrefix m.keySlots := List.take_prefix ..
    obtain ⟨r, hr⟩ := hkeys ▸ hpre
    rw [← hr]
    rfl
  have hne : ¬keyequal x k = true := by rwa [keyequal_iff]
  simp only [BTree.duplicateScan, hm, ok_bind, hload, if_neg hne]
  rfl

theorem duplicateScan_iff (hl : t.leaf a = .ok l) (hok : LeafOK P l.toLeafSlots)
    (hfull : l.slotsinuse < P.leafnodemax) (hk : k ∉ l.keys)
    (hnext : ∀ b ∈ l.nextLeaf, ∃ m, t.leaf b = .ok m ∧ k ∉ m.keys) :
    t.duplicateScan k d t.fuel (some a) (l.lowerBound k) = .ok false ↔ t.ScanEnds l k d := by
  obtain ⟨n, hn⟩ : ∃ n, t.nodes.size = n + 1 :=
    Nat.exists_eq_succ_of_ne_zero (Nat.ne_zero_of_lt (BTree.body_lt_size (BTree.body_of_leaf hl).1))
  have hlen : l.lowerBound k ≤ l.keys.length := (List.takeWhile_sublist _).length_le
  have hcount : l.keys.length = l.slotsinuse := hok.length_keys
  have hlt : l.lowerBound k < l.keySlots.length := by
    rw [hok.keyCap]
    omega
  obtain ⟨y, hy⟩ : ∃ y, l.keySlots[l.lowerBound k]? = some y :=
    ⟨_, List.getElem?_eq_getElem hlt⟩
  have hload : load l.keySlots (l.lowerBound k) = .ok y := load_of_getElem? hy
  by_cases hyk : y = k
  · -- the slot is an unused one
    subst hyk
    have hall : l.lowerBound y = l.slotsinuse := by
      by_contra hne
      refine hk (List.mem_of_getElem? (i := l.lowerBound y) ?_)
      rw [LeafSlots.keys, List.getElem?_take_of_lt (by omega), hy]
    have hsmall : ∀ x ∈ l.keys, x < y := by
      have hwhole : l.keys.takeWhile (decide <| · < y) = l.keys :=
        (List.takeWhile_prefix _).eq_of_length (by rw [hcount]; exact hall)
      intro x hx
      rw [← hwhole] at hx
      simpa using List.mem_takeWhile_imp hx
    have hbeyond : l.beyond = some y := by rw [LeafSlots.beyond, ← hall, hy]
    have hrefl : keyequal y y = true := (keyequal_iff y y).mpr rfl
    have hstep : t.duplicateScan y d t.fuel (some a) (l.lowerBound y) =
        t.duplicateScan y d t.nodes.size l.nextLeaf 0 := by
      rw [hall] at hload
      rw [BTree.fuel, BTree.duplicateScan]
      simp only [hl, ok_bind, hload, hrefl, if_true, hall, Nat.sub_self, duplicateIn,
        Bool.false_eq_true,
        if_false]
    rw [hstep]
    cases hlnext : l.nextLeaf with
    | none => simp [BTree.ScanEnds, hlnext, hn, BTree.duplicateScan]
    | some b =>
      obtain ⟨m, hm, hkm⟩ := hnext b hlnext
      refine ⟨fun h _ _ b' m' hb' _ _ => ?_, fun h => ?_⟩
      · obtain rfl : b = b' := Option.some.inj (hlnext.symm.trans hb')
        exact h
      · cases hkeys : m.keys with
        | nil => exact h hsmall hbeyond b m hlnext hm hkeys
        | cons x xs =>
          rw [hn]
          exact duplicateScan_first hm hkeys (fun he => hkm (by simp [hkeys, he]))
  · have hne : ¬keyequal y k = true := by rwa [keyequal_iff]
    have hends : t.ScanEnds l k d := by
      intro hsmall hbeyond
      have hwhole : l.keys.takeWhile (decide <| · < k) = l.keys := by
        rw [List.takeWhile_eq_self_iff]
        simpa using hsmall
      rw [LeafSlots.lowerBound, hwhole, hcount] at hy
      exact absurd (Option.some.inj (hy.symm.trans hbeyond)) hyk
    refine iff_of_true ?_ hends
    rw [BTree.fuel, BTree.duplicateScan]
    simp only [hl, ok_bind, hload, if_neg hne]
    rfl

theorem inserts_pair (hl : t.leaf a = .ok l) (hok : LeafOK P l.toLeafSlots)
    (hfull : l.isfull P = false) (hk : k ∉ l.keys)
    (hnext : ∀ b ∈ l.nextLeaf, ∃ m, t.leaf b = .ok m ∧ k ∉ m.keys) (d : D) :
    t.InsertsPair P a l k d ↔ l.ShiftsAlike k ∧ t.ScanEnds l k d := by
  have hroom : l.slotsinuse < P.leafnodemax := by
    refine lt_of_le_of_ne hok.inuse fun heq => ?_
    simp [LeafSlots.isfull, heq] at hfull
  have hbody := (BTree.body_of_leaf hl).1
  obtain ⟨as, bs, hcut, hlt, hge, hbound, htake, hdrop⟩ := hok.exists_cut k
  have hs := hok.leafIs
  rw [hcut] at hs
  have hlen : (as ++ bs).length < P.leafnodemax := hs.inuse ▸ hroom
  obtain ⟨s', es', e₁, hs', hkeys, hdata⟩ := insertLeafSlotsAt_spec hs hlen k d
  -- the pairs of the leaf after the insertion
  have hentries : s'.entries = l.entries.take (l.lowerBound k) ++ (k, d) ::
      (l.keys.drop (l.lowerBound k)).zip (l.dataSlots.drop (l.lowerBound k + 1)) :=
    LeafSlots.entries_moved hok hroom (by rw [htake, hdrop, hs'.keys_eq, hkeys]) (hbound ▸ hdata)
  have hscan := duplicateScan_iff (d := d) hl hok hroom hk hnext
  rw [hbound] at hscan
  constructor
  · rintro ⟨t', l', e, hl', hes⟩
    cases hdup : t.duplicateScan k d t.fuel (some a) as.length with
    | error f =>
      simp only [BTree.insertLeafPair, hl, ok_bind, hfull, findKeyLoc_spec hs hlt hge, hdup,
        Bool.false_eq_true, if_false, error_bind] at e
      cases e
    | ok found =>
      cases found with
      | true =>
        rw [insertLeafPair_duplicate hbody hs hlen hlt hge hdup] at e
        cases e
      | false =>
        obtain ⟨t₁, e₂, hview⟩ := insertLeafPair_room hbody hs hlen hlt hge hdup e₁
        obtain ⟨-, rfl⟩ := Prod.mk.inj (Except.ok.inj (e₂.symm.trans e))
        have hbody' : t₁.view.body a = some (.leaf s') := by rw [hview]; simp
        obtain rfl := Except.ok.inj ((BTree.leaf_eq hbody').symm.trans hl')
        rw [hentries] at hes
        exact ⟨(List.cons.inj (List.append_cancel_left hes)).2, hscan.mp hdup⟩
  · rintro ⟨halike, hends⟩
    obtain ⟨t', e, hview⟩ := insertLeafPair_room hbody hs hlen hlt hge (hscan.mpr hends) e₁
    have hbody' : t'.view.body a = some (.leaf s') := by rw [hview]; simp
    refine ⟨t', _, e, BTree.leaf_eq hbody', ?_⟩
    change s'.entries = _
    rw [hentries, halike]

/-- The second leaf of the sample tree. -/
def sampleLast : LeafNode Nat String :=
  ⟨⟨4, 2, [10, 20, 0, 0], ["j", "t", "", ""]⟩, false, some 0, none, some 1⟩

theorem inserts_pair_last : sampleTree.InsertsPair Template.strings 2 sampleLast 25 "y" := by
  refine (inserts_pair rfl ⟨rfl, by decide, rfl, rfl⟩ (by decide) (by decide) ?_ "y").mpr ⟨?_, ?_⟩
  · rintro b ⟨⟩
  · unfold LeafSlots.ShiftsAlike
    decide
  · intro _ hbeyond
    cases hbeyond

/-- A key in the middle takes the payload of the next one, which gets what its new slot had. -/
theorem not_inserts_pair : ¬sampleTree.InsertsPair Template.strings 2 sampleLast 15 "o" := by
  rintro ⟨t', l', e, hl', hes⟩
  have h : (sampleTree.insertLeafPair Template.strings 2 15 "o" >>= fun r => do
      return (← r.2.leaf 2).entries) = .ok [(10, "j"), (15, "o"), (20, "")] := by
    decide +kernel
  rw [e, ok_bind, hl', ok_bind, hes] at h
  revert h
  decide

end NwtBTree
