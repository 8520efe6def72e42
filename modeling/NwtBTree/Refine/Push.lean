import NwtBTree.Refine.Chain
import NwtBTree.Refine.Insert

/-!
# Inserting behind everything

A key that is routed to the last leaf and is greater than the keys there goes to
its end. Where the leaf is full it is split, and so are the full nodes above it.
-/

namespace NwtBTree

variable {K D : Type} {P : Template K D} [LinearOrder K] {t t' : BTree K D} {c : MCtx K D 0}
  {a : Addr} {s sln slp : LeafSlots K D} {k : K} {d : D} {e : K × D}

omit [LinearOrder K] in
theorem Rep.root_ne {n : Nat} {T : MTree K D n} (h : Rep P t.view T) : t.root ≠ none := by
  have := h.root
  rw [show t.root = some T.addr from this]
  simp

/-- What a split of the last leaf leaves behind; `e` is the first pair of the upper half. -/
structure Divided (P : Template K D) (t t' : BTree K D) (c : MCtx K D 0) (a : Addr)
    (s sln slp : LeafSlots K D) (k : K) (d : D) (e : K × D) : Prop where
  done : LeafSplitDone P t t' c a sln slp e.1
  lower : LeafIs P sln ((s.entries ++ [(k, d)]).take (P.leafnodemax / 2))
    ((LeafNode.fresh (D := D) P t.nodes.size).keySlots.drop (P.leafnodemax / 2))
  upper : LeafIs P slp ((s.entries ++ [(k, d)]).drop (P.leafnodemax / 2))
    ((LeafNode.fresh (D := D) P (t.nodes.size + 1)).keySlots.drop
      (P.leafnodemax + 1 - P.leafnodemax / 2))
  up : e ∈ ((s.entries ++ [(k, d)]).drop (P.leafnodemax / 2)).head?
  atEnd : c.AtEnd P.innernodemax e.1
  seq : (c.pushUp P.innernodemax id (t.nodes.size + 2) (.leaf t.nodes.size sln) e.1
    (.leaf (t.nodes.size + 1) slp)).2.inorder =
      c.left ++ [.inr ⟨t.nodes.size, sln⟩, .inl e.1, .inr ⟨t.nodes.size + 1, slp⟩]

/-- The same in a search tree. -/
structure Pushed (P : Template K D) (t t' : BTree K D) (c : MCtx K D 0) (a : Addr)
    (s sln slp : LeafSlots K D) (k : K) (d : D) (e : K × D) : Prop
    extends Divided P t t' c a s sln slp k d e where
  order : SearchOrder LeafSlots.keys
    (c.left ++ [.inr ⟨t.nodes.size, sln⟩, .inl e.1, .inr ⟨t.nodes.size + 1, slp⟩])

variable [DecidableEq D]

/-- The leaf has room. -/
theorem insert_last_room (h : Rep P t.view (c.fill (.leaf a s)).2) (hc : c.Paired)
    (hr : c.Routes k) (hnext : t.view.links.nxt a = none) (hlt : ∀ x ∈ s.keys, x < k)
    (hroom : s.slotsinuse < P.leafnodemax) :
    ∃ t' s' r, t.insert P k d = .ok (1, t') ∧ LeafIs P s' (s.entries ++ [(k, d)]) r ∧
      t'.view = { t.view.setBody a (.leaf s') with count := t.upkeycount.totalkeycount } := by
  obtain ⟨-, hbody, hok⟩ := (holds_fill c (.leaf a s)).mp h.holds
  have hs := hok.leafIs
  have hlen : s.entries.length < P.leafnodemax := hs.inuse ▸ hroom
  rw [hs.keys_eq] at hlt
  replace hlt : ∀ e ∈ s.entries, e.1 < k := fun e he => hlt e.1 (List.mem_map_of_mem he)
  have hfind := BTree.find_stay h.stands hc hr hs (.inr (.inl hlen))
  obtain ⟨s', e2, hs'⟩ := insertLeafSlotsAt_end hs hlen k d rfl
  have hscan := duplicateScan_fresh (d := d) hbody hs hlen (fun e he => ne_of_lt (hlt e he))
    (fun b hb => by rw [hnext] at hb; simp at hb) (le_refl _)
  obtain ⟨t', e1, v'⟩ := insert_room (d := d) h.root_ne hfind hbody
    (show LeafIs P s (s.entries ++ []) _ by simpa using hs) (by simpa using hlen) hlt (by simp)
    hscan e2
  exact ⟨t', s', _, e1, hs', v'⟩

omit [DecidableEq D] in
/-- The keys of the leaf and the new one behind them. -/
theorem pairwise_push (hlt : ∀ x ∈ s.keys, x < k)
    (hsort : s.keys.Pairwise (· < ·)) : (s.keys ++ [k]).Pairwise (· < ·) := by
  refine List.pairwise_append.mpr ⟨hsort, by simp, fun x hx y hy => ?_⟩
  obtain rfl : y = k := by simpa using hy
  exact hlt x hx

/-- The leaf is full and is split. -/
theorem insert_last_divide (hcap : 2 ≤ P.innernodemax) (hgrow : c.Growable P.innernodemax)
    (hsame : P.leafnodemax = P.innernodemax)
    (h : Rep P t.view (c.fill (.leaf a s)).2) (hc : c.Paired) (hr : c.Routes k)
    (hright : c.right = []) (hseps : (seps c.left).Pairwise (· ≤ ·))
    (hle : ∀ z ∈ seps c.left, ∀ x ∈ s.keys ++ [k], z ≤ x)
    (hnext : t.view.links.nxt a = none) (hlt : ∀ x ∈ s.keys, x ≤ k)
    (hfull : s.slotsinuse = P.leafnodemax) :
    ∃ t' sln slp e, t.insert P k d = .ok (1, t') ∧ Divided P t t' c a s sln slp k d e := by
  obtain ⟨-, hbody, hok⟩ := (holds_fill c (.leaf a s)).mp h.holds
  have hs := hok.leafIs
  have hlen : s.entries.length = P.leafnodemax := hs.inuse ▸ hfull
  have hfind := BTree.find_stay h.stands hc hr hs (.inr (.inr hnext))
  have hall : (s.entries ++ [(k, d)]).length = P.leafnodemax + 1 := by simp [hlen]
  have hkeysAll : (s.entries ++ [(k, d)]).map Prod.fst = s.keys ++ [k] := by
    rw [hs.keys_eq]
    simp
  -- the upper half starts with the key that moves up
  have hcut : splitPoint P s.entries = P.leafnodemax / 2 := if_neg (by omega)
  obtain ⟨e, hupper⟩ : ∃ e, e ∈ ((s.entries ++ [(k, d)]).drop (P.leafnodemax / 2)).head? := by
    refine Option.ne_none_iff_exists'.mp fun hnil => ?_
    rw [List.head?_eq_none_iff, List.drop_eq_nil_iff] at hnil
    omega
  have he : e.1 ∈ s.keys ++ [k] := by
    rw [← hkeysAll]
    exact List.mem_map_of_mem (List.mem_of_mem_drop (List.mem_of_mem_head? hupper))
  have hend : c.AtEnd P.innernodemax e.1 :=
    Ctx.atEnd_of_right_nil hc hright hseps fun z hz => hle z hz e.1 he
  rw [hs.keys_eq] at hlt
  obtain ⟨t', sln, slp, e1, hln, hlp, hdone⟩ := splitLeaf_spec (d := d) hcap hgrow hsame h hc
    (show LeafIs P s (s.entries ++ []) _ by simpa using hs) (by simpa using hlen) (by omega)
    (fun e he => hlt e.1 (List.mem_map_of_mem he)) (by simp) (by rwa [hcut]) hend
  rw [hcut] at hln hlp
  refine ⟨t', sln, slp, e, insert_split h.root_ne hsame hfind hbody hs hlen e1, hdone, hln, hlp,
    hupper, hend, ?_⟩
  have hseq := @Ctx.inorder_pushUp _ _ _ _ id _ (show 2 ≤ P.innernodemax by omega) _ _ hc _ hend
    (t.nodes.size + 2) (.leaf t.nodes.size sln) (.leaf (t.nodes.size + 1) slp)
  rw [hright] at hseq
  simpa only [Tree.inorder_leaf, List.append_nil, List.append_assoc, List.cons_append,
    List.nil_append] using hseq

namespace Divided

variable (hp : Divided P t t' c a s sln slp k d e)
include hp

omit [DecidableEq D] in
theorem keys_eq (hok : LeafOK P s) : sln.keys ++ slp.keys = s.keys ++ [k] := by
  rw [hp.lower.keys_eq, hp.upper.keys_eq, ← List.map_append, List.take_append_drop,
    hok.leafIs.keys_eq]
  simp

omit [DecidableEq D] in
/-- The key that moves up is the first one of the upper half. -/
theorem head_upper : e.1 ∈ slp.keys.head? := by
  rw [hp.upper.keys_eq, List.head?_map, hp.up]
  rfl

omit [DecidableEq D] in
theorem lower_ne_nil (hcap : 2 ≤ P.leafnodemax) : sln.keys ≠ [] := by
  intro hnil
  rw [hp.lower.keys_eq, List.map_eq_nil_iff, List.take_eq_nil_iff] at hnil
  rcases hnil with hnil | hnil
  · omega
  · simp at hnil

end Divided

/-- In a search tree the two halves are in order. -/
theorem insert_last_split (hcap : 2 ≤ P.innernodemax) (hgrow : c.Growable P.innernodemax)
    (hsame : P.leafnodemax = P.innernodemax)
    (h : Rep P t.view (c.fill (.leaf a s)).2) (hc : c.Paired) (hr : c.Routes k)
    (hright : c.right = []) (ho : SearchOrder LeafSlots.keys (c.fill (.leaf a s)).2.inorder)
    (hnext : t.view.links.nxt a = none) (hlt : ∀ x ∈ s.keys, x < k)
    (hfull : s.slotsinuse = P.leafnodemax) :
    ∃ t' sln slp e, t.insert P k d = .ok (1, t') ∧ Pushed P t t' c a s sln slp k d e := by
  obtain ⟨-, -, hok⟩ := (holds_fill c (.leaf a s)).mp h.holds
  have hfits : Fits LeafSlots.keys c.left [] k := by
    have := Ctx.Routes.fits (t := .leaf a s) hc hr (by
      rw [← Ctx.inorder_fill hc]
      exact ho)
    rwa [hright] at this
  rw [Ctx.inorder_fill_leaf hc, hright] at ho
  obtain ⟨hoI, hsort, hfit⟩ := searchOrder_leaf.mp ho
  have hfitAll : ∀ x ∈ s.keys ++ [k], Fits LeafSlots.keys c.left [] x := by
    intro x hx
    rcases List.mem_append.mp hx with hx | hx
    · exact hfit x hx
    · obtain rfl : x = k := by simpa using hx
      exact hfits
  have hseps := ho.seps_sorted
  simp only [seps_append, seps_inr, seps_nil, List.append_nil] at hseps
  obtain ⟨t', sln, slp, e, e1, hd⟩ := insert_last_divide (d := d) hcap hgrow hsame h hc hr hright
    (hseps.imp le_of_lt) (fun z hz x hx => (hfitAll x hx).seps_le z hz) hnext
    (fun x hx => (hlt x hx).le) hfull
  have hkeys := hd.keys_eq hok
  refine ⟨t', sln, slp, e, e1, hd, SearchOrder.split (J := []) hoI ?_ (fun x hx => ?_)
    (hd.lower_ne_nil (hsame ▸ hcap)) hd.head_upper⟩
  · show (sln.keys ++ slp.keys).Pairwise (· < ·)
    rw [hkeys]
    exact pairwise_push hlt hsort
  · replace hx : x ∈ sln.keys ++ slp.keys := hx
    exact hfitAll x (hkeys ▸ hx)

omit [DecidableEq D] [LinearOrder K] in
/-- The addresses of the leaves, the last two of which are new. -/
theorem tips_fresh (hc : c.Paired) (h : Rep P t.view (c.fill (.leaf a s)).2)
    (hright : c.right = []) :
    ((tips c.left).map Tip.addr ++ [t.nodes.size, t.nodes.size + 1]).Nodup ∧
      a ∉ (tips c.left).map Tip.addr ++ [t.nodes.size, t.nodes.size + 1] := by
  have hsub := Tree.tips_sublist h.paired
  rw [Ctx.inorder_fill_leaf hc, hright] at hsub
  simp only [tips_append, tips_inr, tips_nil, List.map_append, List.map_cons, List.map_nil] at hsub
  have hnd := hsub.nodup h.nodup
  have hlt : ∀ b ∈ (tips c.left).map Tip.addr ++ [a], b < t.nodes.size :=
    fun b hb => h.lt_size (hsub.subset hb)
  obtain ⟨hndI, -, hdisj⟩ := List.nodup_append.mp hnd
  refine ⟨nodup_fresh hndI fun b hb => hlt b (List.mem_append_left _ hb), ?_⟩
  rw [List.mem_append, not_or]
  exact ⟨fun hb => hdisj a hb a (by simp) rfl, not_mem_fresh (hlt a (by simp))⟩

namespace Divided

variable (hp : Divided P t t' c a s sln slp k d e) (hc : c.Paired)
include hp

omit [DecidableEq D] in
theorem pairs_eq : sln.entries ++ slp.entries = s.entries ++ [(k, d)] := by
  rw [hp.lower.entries_eq, hp.upper.entries_eq, List.take_append_drop]

include hc

omit [DecidableEq D] in
/-- A complete chain stays complete. -/
theorem chained (h : Rep P t.view (c.fill (.leaf a s)).2) (hright : c.right = [])
    (hchain : Chained t.view.links ((tips c.left).map Tip.addr ++ [a])) :
    Chained t'.view.links ((tips c.left).map Tip.addr ++ [t.nodes.size, t.nodes.size + 1]) := by
  obtain ⟨hnd, hna⟩ := tips_fresh hc h hright
  have hgrow := Chained.grow (l := t.view.links) (x := t.nodes.size) (y := t.nodes.size + 1) hchain
    hnd (BTree.links_new (le_refl _)).2 (BTree.links_new (Nat.le_succ _)).1
  refine hgrow.congr fun b hb => ?_
  have hba : b ≠ a := by
    rintro rfl
    exact hna hb
  rw [hp.done.nxt b hba, hp.done.prv b hba, grow_lefts hc hp.atEnd]
  exact ⟨rfl, rfl⟩

omit [DecidableEq D] in
/-- There is nothing behind the upper half. -/
theorem nxt_last (h : Rep P t.view (c.fill (.leaf a s)).2) (hright : c.right = []) :
    t'.view.links.nxt (t.nodes.size + 1) = none := by
  obtain ⟨hnd, hna⟩ := tips_fresh hc h hright
  have hne : t.nodes.size + 1 ≠ a := by
    rintro rfl
    simp at hna
  rw [hp.done.nxt _ hne, grow_lefts hc hp.atEnd, Links.grow_nxt_last hnd]
  exact (BTree.links_new (Nat.le_succ _)).1

end Divided

end NwtBTree
