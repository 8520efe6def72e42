import NwtBTree.Refine.Insert
import NwtBTree.Refine.Walk

/-!
# The duplicate scan

The scan of `insertleafpair` starts at the lower bound in one leaf and goes on
along the chain. `equalRun` is what it looks at.
-/

namespace NwtBTree

variable {K D : Type} {P : Template K D}

variable [LinearOrder K]

/-- The pairs with key `k` that the leaf chain has from slot `j` of the leaf `p` on, as long as
every leaf goes on with `k`. -/
def BTree.equalRun (t : BTree K D) (k : K) : Nat → Option Addr → Nat → List (K × D)
  | fuel + 1, some a, j =>
    match t.leaf a with
    | .ok l =>
      if l.keySlots[j]? = some k then
        ((l.entries.drop j).takeWhile fun e => keyequal e.1 k) ++ t.equalRun k fuel l.nextLeaf 0
      else []
    | .error _ => []
  | _, _, _ => []

variable [DecidableEq D] {t : BTree K D} {k : K} {d : D}

/-- In one leaf the scan sees the pairs from slot `j` on while the key is `k`. -/
theorem duplicateIn_eq {s : LeafSlots K D} {es : List (K × D)} {r : List K} (hs : LeafIs P s es r)
    {m j : Nat} (hm : m = es.length - j) :
    duplicateIn s k d m j =
      .ok (decide ((k, d) ∈ (es.drop j).takeWhile fun e => keyequal e.1 k)) := by
  induction m generalizing j with
  | zero => simp [duplicateIn, List.drop_eq_nil_of_le (show es.length ≤ j by omega)]
  | succ m ih =>
    have hj : j < es.length := by omega
    rw [duplicateIn, hs.load_key hj, ok_bind, hs.load_data hj, ok_bind, ih (by omega),
      List.drop_eq_getElem_cons hj]
    by_cases hk : es[j].1 = k
    · rw [if_pos (by simpa using hk), List.takeWhile_cons_of_pos (by simpa using hk)]
      by_cases hd : d = es[j].2
      · have : es[j] = (k, d) := Prod.ext hk hd.symm
        simp [hd, ← hk]
      · have : (k, d) ≠ es[j] := fun h => hd (congrArg Prod.snd h)
        simp [hd, this]
    · rw [if_neg (by simpa using hk), List.takeWhile_cons_of_neg (by simpa using hk)]
      simp

/-- One leaf of the scan. -/
theorem duplicateScan_leaf {a : Addr} {s : LeafSlots K D} (ha : t.view.body a = some (.leaf s))
    (hok : LeafOK P s) {j : Nat} (hj : j < P.leafnodemax) {fuel : Nat}
    (hrest : t.duplicateScan k d fuel (t.view.links.nxt a) 0 =
      .ok (decide ((k, d) ∈ t.equalRun k fuel (t.view.links.nxt a) 0))) :
    t.duplicateScan k d (fuel + 1) (some a) j =
      .ok (decide ((k, d) ∈ t.equalRun k (fuel + 1) (some a) j)) := by
  have hs := hok.leafIs
  have hlt : j < s.keySlots.length := by rw [hok.keyCap]; exact hj
  have hget : s.keySlots[j]? = some s.keySlots[j] := List.getElem?_eq_getElem hlt
  have hload : load s.keySlots j = .ok s.keySlots[j] := load_of_getElem? hget
  simp only [BTree.duplicateScan, BTree.equalRun, BTree.leaf_eq ha, ok_bind, hload, hget,
    keyequal_iff, Option.some.injEq]
  by_cases hk : s.keySlots[j] = k
  · simp only [if_pos hk, duplicateIn_eq hs (show s.slotsinuse - j = _ by rw [hs.inuse]), ok_bind,
      hrest, List.mem_append, Bool.decide_or]
    by_cases hin : (k, d) ∈ (s.entries.drop j).takeWhile fun e => keyequal e.1 k
    · simp [hin]
    · simp [hin]
  · simp [if_neg hk]

/-- The scan ends and finds the run of pairs with key `k`, which are stored pairs. -/
theorem duplicateScan_eq {l : Tip Addr (LeafSlots K D)} {S : List (Tip Addr (LeafSlots K D))}
    (hbody : ∀ m ∈ l :: S, t.view.body m.addr = some (.leaf m.body) ∧ LeafOK P m.body)
    (hfwd : Forward t.view.links.nxt ((l :: S).map Tip.addr)) {j : Nat} (hj : j < P.leafnodemax)
    {fuel : Nat} (hfuel : S.length + 1 < fuel) :
    t.duplicateScan k d fuel (some l.addr) j =
        .ok (decide ((k, d) ∈ t.equalRun k fuel (some l.addr) j)) ∧
      ∀ e ∈ t.equalRun k fuel (some l.addr) j, ∃ m ∈ l :: S, e ∈ m.body.entries := by
  have hrun : ∀ {a : Addr} {s : LeafSlots K D} {f j : Nat} {e : K × D},
      t.view.body a = some (.leaf s) → e ∈ t.equalRun k (f + 1) (some a) j →
      e ∈ s.entries ∨ e ∈ t.equalRun k f (t.view.links.nxt a) 0 := by
    intro a s f j e ha he
    simp only [BTree.equalRun, BTree.leaf_eq ha] at he
    split_ifs at he with hk
    · refine (List.mem_append.mp he).imp_left fun he => ?_
      exact List.mem_of_mem_drop ((List.takeWhile_prefix _).subset he)
    · simp at he
  induction S generalizing l j fuel with
  | nil =>
    obtain ⟨f, rfl⟩ : ∃ f, fuel = f + 2 := ⟨fuel - 2, by simp at hfuel; omega⟩
    obtain ⟨hb, hok⟩ := hbody l (by simp)
    have hlast : t.view.links.nxt l.addr = none := by
      rw [Option.eq_none_iff_forall_not_mem]
      intro b hb
      simpa using hfwd.1 b hb
    refine ⟨duplicateScan_leaf hb hok hj ?_, fun e he => ⟨l, by simp, ?_⟩⟩
    · rw [hlast]
      rfl
    · refine (hrun hb he).resolve_right ?_
      simp [hlast, BTree.equalRun]
  | cons m S ih =>
    obtain ⟨f, rfl⟩ : ∃ f, fuel = f + 1 := ⟨fuel - 1, by simp at hfuel; omega⟩
    obtain ⟨hb, hok⟩ := hbody l (by simp)
    obtain ⟨hrest, hmem⟩ : t.duplicateScan k d f (t.view.links.nxt l.addr) 0 =
          .ok (decide ((k, d) ∈ t.equalRun k f (t.view.links.nxt l.addr) 0)) ∧
        ∀ e ∈ t.equalRun k f (t.view.links.nxt l.addr) 0, ∃ m' ∈ m :: S, e ∈ m'.body.entries := by
      cases hn : t.view.links.nxt l.addr with
      | none =>
        obtain ⟨g, rfl⟩ : ∃ g, f = g + 1 := ⟨f - 1, by simp at hfuel; omega⟩
        exact ⟨rfl, by simp [BTree.equalRun]⟩
      | some b =>
        obtain rfl : b = m.addr := by simpa [eq_comm] using hfwd.1 b hn
        exact ih (fun x hx => hbody x (by simp [hx])) hfwd.2
          (Nat.lt_of_le_of_lt (Nat.zero_le j) hj) (show S.length + 1 < f by simpa using hfuel)
    refine ⟨duplicateScan_leaf hb hok hj hrest, fun e he => ?_⟩
    rcases hrun hb he with he | he
    · exact ⟨l, by simp, he⟩
    · obtain ⟨m', hm', he⟩ := hmem e he
      exact ⟨m', by simp [hm'], he⟩

/-- The scan that starts in some leaf of the tree. -/
theorem Stands.scan_right {c : MCtx K D 0} {n : Tip Addr (LeafSlots K D)}
    (h : Stands P t.view (c.fill n).2)
    (hfwd : Forward t.view.links.nxt ((tips (c.fill n).2.inorder).map Tip.addr)) (hc : c.Paired)
    {j : Nat} (hj : j < P.leafnodemax) :
    t.duplicateScan k d t.fuel (some n.addr) j =
        .ok (decide ((k, d) ∈ t.equalRun k t.fuel (some n.addr) j)) ∧
      ∀ e ∈ t.equalRun k t.fuel (some n.addr) j, e ∈ pairs (.inr n :: c.right) := by
  have hin := Ctx.inorder_fill_leaf hc n
  have htips : tips (c.fill n).2.inorder = tips c.left ++ n :: tips c.right := by simp [hin]
  have hmem : ∀ m ∈ n :: tips c.right, m ∈ tips (c.fill n).2.inorder :=
    fun m hm => htips ▸ List.mem_append_right _ hm
  rw [htips, List.map_append] at hfwd
  have hfuel : (tips c.right).length + 1 < t.fuel := by
    have h1 := (Tree.tips_sublist h.paired).length_le
    have h2 : (c.fill n).2.addrs.length ≤ t.nodes.size :=
      length_le_of_nodup h.nodup fun a ha => h.lt_size ha
    rw [List.length_map, htips, List.length_append, List.length_cons] at h1
    simp only [BTree.fuel]
    omega
  obtain ⟨e, hrun⟩ := duplicateScan_eq (k := k) (d := d)
    (fun m hm => h.holds.tip h.paired (hmem m hm)) hfwd.of_append hj hfuel
  refine ⟨e, fun x hx => ?_⟩
  obtain ⟨m, hm, hx⟩ := hrun x hx
  exact List.mem_flatMap.mpr ⟨m, hm, hx⟩

theorem Stands.scan {c : MCtx K D 0} {n : Tip Addr (LeafSlots K D)}
    (h : Stands P t.view (c.fill n).2)
    (hfwd : Forward t.view.links.nxt ((tips (c.fill n).2.inorder).map Tip.addr)) (hc : c.Paired)
    {j : Nat} (hj : j < P.leafnodemax) :
    t.duplicateScan k d t.fuel (some n.addr) j =
        .ok (decide ((k, d) ∈ t.equalRun k t.fuel (some n.addr) j)) ∧
      ∀ e ∈ t.equalRun k t.fuel (some n.addr) j, e ∈ pairs (c.fill n).2.inorder := by
  obtain ⟨e, hrun⟩ := h.scan_right (k := k) (d := d) hfwd hc hj
  refine ⟨e, fun x hx => ?_⟩
  rw [Ctx.inorder_fill_leaf hc, pairs_append]
  exact List.mem_append_right _ (hrun x hx)

end NwtBTree
