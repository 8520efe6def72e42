import NwtBTree.Multiway.Lead
import NwtBTree.Multiway.Shape
import NwtBTree.Refine.Push

/-!
# Loading in ascending order

`Loaded` is what holds of a tree that only grew, and shrank, at its right end:
the separators are first keys, the leaves but the last are half full and were
never written beyond that, the branches off the right spine are half full, and
the leaf chain is complete. A key greater than all stored ones goes to the last
leaf, and inserting it keeps all of this.
-/

namespace NwtBTree

variable {K D : Type} {P : Template K D}

/-- A leaf that a split left behind: half full, and never written beyond that. -/
def Settled (P : Template K D) (l : Tip Addr (LeafSlots K D)) : Prop :=
  ∃ es, es.length = P.leafnodemax / 2 ∧ LeafIs P l.body es
    ((LeafNode.fresh (D := D) P l.addr).keySlots.drop (P.leafnodemax / 2))

section Order

variable [LinearOrder K]

/-- What holds of a tree that changed at its right end only; `I` is its sequence up to
the last leaf `l`. -/
structure Loaded (P : Template K D) (t : BTree K D) (T : (n : Nat) × MTree K D n)
    (I : List (Item Addr K (LeafSlots K D))) (l : Tip Addr (LeafSlots K D)) : Prop where
  rep : Rep P t.view T.2
  seq : T.2.inorder = I ++ [.inr l]
  order : SearchOrder LeafSlots.keys T.2.inorder
  leads : Leads LeafSlots.keys T.2.inorder
  settled : ∀ x ∈ tips I, Settled P x
  half : I ≠ [] → P.leafnodemax / 2 ≤ l.body.slotsinuse
  slanted : T.2.Slanted (· = P.innernodemax / 2) (P.innernodemax / 2 ≤ ·)
  chain : Chained t.view.links ((tips T.2.inorder).map Tip.addr)
  count : t.totalkeycount = (pairs T.2.inorder).length % 4294967296

/-- The search for a key that no stored one exceeds ends at the last leaf. -/
theorem Loaded.route_le {t : BTree K D} {T : (n : Nat) × MTree K D n}
    {I : List (Item Addr K (LeafSlots K D))} {l : Tip Addr (LeafSlots K D)} (h : Loaded P t T I l)
    {k : K} (hk : ∀ e ∈ pairs T.2.inorder, e.1 ≤ k) :
    ∃ c : MCtx K D 0, T = c.fill l ∧ c.Paired ∧ c.Routes k ∧ c.left = I ∧ c.right = [] := by
  obtain ⟨c, l', rfl, hc, hr⟩ := Ctx.exists_tip k T h.rep.paired
  have heq := Ctx.inorder_fill hc l'
  have hright : c.right = [] := by
    rcases right_starts hc with hnil | ⟨s, J, hs⟩
    · exact hnil
    · -- the next separator is a stored key
      have ho := h.order
      have hleads := h.leads
      rw [heq] at ho hleads
      have hlt : k < s := Ctx.Routes.lt_seps hc hr ho s (by simp [hs])
      rw [hs] at hleads
      obtain ⟨⟨m, M, hm, hsm⟩, -⟩ := hleads.of_append
      have hmem : s ∈ allKeys LeafSlots.keys (c.fill l').2.inorder := by
        rw [heq, hs, hm]
        simp [List.mem_of_mem_head? hsm]
      rw [h.rep.allKeys_eq] at hmem
      obtain ⟨e, he, rfl⟩ := List.mem_map.mp hmem
      exact absurd (hk e he) (not_le.mpr hlt)
  have hsplit : c.left ++ [.inr l'] = I ++ [.inr l] := by
    rw [← h.seq, heq, hright]
    simp [Tree.inorder]
  obtain ⟨hI, hl⟩ := List.append_inj' hsplit rfl
  obtain rfl : l' = l := by simpa using hl
  exact ⟨c, rfl, hc, hr, hI, hright⟩

theorem Loaded.route {t : BTree K D} {T : (n : Nat) × MTree K D n}
    {I : List (Item Addr K (LeafSlots K D))} {l : Tip Addr (LeafSlots K D)} (h : Loaded P t T I l)
    {k : K} (hk : ∀ e ∈ pairs T.2.inorder, e.1 < k) :
    ∃ c : MCtx K D 0, T = c.fill l ∧ c.Paired ∧ c.Routes k ∧ c.left = I ∧ c.right = [] :=
  h.route_le fun e he => (hk e he).le

variable [DecidableEq D] {t : BTree K D} {T : (n : Nat) × MTree K D n}
  {I : List (Item Addr K (LeafSlots K D))} {l : Tip Addr (LeafSlots K D)} {k : K} {d : D}

/-- The last leaf has room. -/
theorem Loaded.push_room (hcap : 2 ≤ P.leafnodemax) (h : Loaded P t T I l)
    (hk : ∀ e ∈ pairs T.2.inorder, e.1 < k)
    (hroom : l.body.slotsinuse < P.leafnodemax) :
    ∃ t' T' l', t.insert P k d = .ok (1, t') ∧ Loaded P t' T' I l' ∧
      l'.body.entries = l.body.entries ++ [(k, d)] ∧
      t'.tailleaf = t.tailleaf ∧ t'.headleaf = t.headleaf := by
  obtain ⟨c, rfl, hc, hr, hleft, hright⟩ := h.route hk
  obtain ⟨a, s⟩ := l
  obtain ⟨hbody, hok⟩ := h.rep.holds.tip h.rep.paired (l := ⟨a, s⟩) (by simp [h.seq])
  have hs := hok.leafIs
  have hchain := h.chain
  rw [h.seq] at hchain hk
  have hnext : t.view.links.nxt a = none := hchain.last a (by simp)
  have hlt : ∀ x ∈ s.keys, x < k := by
    rw [hs.keys_eq]
    intro x hx
    obtain ⟨e, he, rfl⟩ := List.mem_map.mp hx
    exact hk e (by simp [he])
  obtain ⟨t', s'', r, e1, hs'', v'⟩ := insert_last_room (d := d) h.rep hc hr hnext hlt hroom
  have hentries := hs''.entries_eq
  have hseq : (c.fill (.leaf a s'')).2.inorder = I ++ [.inr ⟨a, s''⟩] := by
    rw [Ctx.inorder_fill hc, hleft, hright]
    simp
  have hkeys : s''.keys = s.keys ++ [k] := by
    rw [hs''.keys_eq, hs.keys_eq]
    simp
  refine ⟨t', c.fill (.leaf a s''), ⟨a, s''⟩, e1, ?_, hentries, ?_, ?_⟩
  · have ho := h.order
    rw [h.seq] at ho
    obtain ⟨hoI, hsort, hfit⟩ := searchOrder_leaf.mp ho
    have hfit' : Fits LeafSlots.keys I [] k := by
      have := Ctx.Routes.fits (t := .leaf a s) hc hr (by
        rw [← Ctx.inorder_fill hc]
        exact h.order)
      rwa [hleft, hright] at this
    refine ⟨?_, hseq, ?_, ?_, h.settled, ?_, ?_, ?_, ?_⟩
    · rw [v']
      exact (h.rep.setLeaf hc hs''.ok).congr rfl (fun _ _ => rfl) (fun _ _ => rfl) (fun _ _ => rfl)
        (fun _ _ => ⟨rfl, rfl⟩)
    · rw [hseq]
      refine searchOrder_leaf.mpr ⟨hoI, ?_, ?_⟩
      · exact hkeys ▸ pairwise_push hlt hsort
      · intro x hx
        rw [hkeys] at hx
        rcases List.mem_append.mp hx with hx | hx
        · exact hfit x hx
        · obtain rfl : x = k := by simpa using hx
          exact hfit'
    · have hleads := h.leads
      rw [h.seq] at hleads
      rw [hseq]
      by_cases hI : I = []
      · simp [hI]
      · refine hleads.replace ?_ trivial
        have hne : s.keys ≠ [] := by
          intro hnil
          have hpos := h.half hI
          rw [hs.keys_eq] at hnil
          rw [hs.inuse, List.map_eq_nil_iff.mp hnil, List.length_nil] at hpos
          omega
        show s''.keys.head? = s.keys.head?
        rw [hkeys, List.head?_append_of_ne_nil _ hne]
    · intro hI
      have := h.half hI
      have hin := hs''.inuse
      rw [List.length_append, ← hs.inuse] at hin
      show _ ≤ s''.slotsinuse
      simp only [List.length_singleton] at hin this
      omega
    · obtain ⟨hslant, -, -⟩ := Ctx.slanted_of_fill hc hright h.slanted
      exact Ctx.slanted_fill hslant trivial fun _ => trivial
    · rw [hseq, v']
      simpa using hchain
    · rw [← BTree.count_view, v', hseq]
      have := h.count
      rw [h.seq] at this
      simp only [pairs_append, pairs_inr, pairs_nil, List.append_nil, List.length_append] at this
      simp only [BTree.upkeycount, this, pairs_append, pairs_inr, pairs_nil, List.append_nil,
        List.length_append, hentries, List.length_singleton]
      omega
  · rw [← BTree.tailleaf_view, v']
    rfl
  · rw [← BTree.headleaf_view, v']
    rfl

/-- The last leaf is full and is split. -/
theorem Loaded.split_last {c : MCtx K D 0} {a : Addr} {s : LeafSlots K D}
    (hcap : 2 ≤ P.innernodemax) (hgrow : c.Growable P.innernodemax)
    (hsame : P.leafnodemax = P.innernodemax) (h : Loaded P t (c.fill (.leaf a s)) I ⟨a, s⟩)
    (hc : c.Paired) (hr : c.Routes k) (hleft : c.left = I) (hright : c.right = [])
    (hk : ∀ e ∈ pairs (c.fill (.leaf a s)).2.inorder, e.1 < k)
    (hfull : s.slotsinuse = P.leafnodemax) :
    ∃ t' sln slp e, t.insert P k d = .ok (1, t') ∧ Pushed P t t' c a s sln slp k d e ∧
      Loaded P t' (c.pushUp P.innernodemax id (t.nodes.size + 2) (.leaf t.nodes.size sln) e.1
        (.leaf (t.nodes.size + 1) slp)) (I ++ [.inr ⟨t.nodes.size, sln⟩, .inl e.1])
        ⟨t.nodes.size + 1, slp⟩ ∧
      pairs (c.pushUp P.innernodemax id (t.nodes.size + 2) (.leaf t.nodes.size sln) e.1
        (.leaf (t.nodes.size + 1) slp)).2.inorder =
          pairs (c.fill (.leaf a s)).2.inorder ++ [(k, d)] := by
  obtain ⟨hbody, hok⟩ := h.rep.holds.tip h.rep.paired (l := ⟨a, s⟩) (by simp [h.seq])
  have hs := hok.leafIs
  have hlen : s.entries.length = P.leafnodemax := hs.inuse ▸ hfull
  have hchain := h.chain
  rw [h.seq] at hchain hk
  have hnext : t.view.links.nxt a = none := hchain.last a (by simp)
  have hlt : ∀ x ∈ s.keys, x < k := by
    rw [hs.keys_eq]
    intro x hx
    obtain ⟨e, he, rfl⟩ := List.mem_map.mp hx
    exact hk e (by simp [he])
  obtain ⟨t', sln, slp, e, e1, hp⟩ :=
    insert_last_split (d := d) hcap hgrow hsame h.rep hc hr hright h.order hnext hlt hfull
  have hall : (s.entries ++ [(k, d)]).length = P.leafnodemax + 1 := by simp [hlen]
  have hkeys := hp.keys_eq hok
  have hseq := hp.seq
  have hhead : e.1 ∈ slp.keys.head? := by
    rw [hp.upper.keys_eq, List.head?_map, hp.up]
    rfl
  have hpairs : pairs (c.pushUp P.innernodemax id (t.nodes.size + 2) (.leaf t.nodes.size sln) e.1
      (.leaf (t.nodes.size + 1) slp)).2.inorder = pairs (c.fill (.leaf a s)).2.inorder ++
        [(k, d)] := by
    have := hp.pairs_eq
    rw [hseq, h.seq, hleft]
    simp only [pairs_append, pairs_inr, pairs_inl, pairs_nil, List.append_nil, this,
      List.append_assoc]
  refine ⟨t', sln, slp, e, e1, hp, ⟨hp.done.rep, ?_, ?_, ?_, ?_, ?_, ?_, ?_, ?_⟩, hpairs⟩
  · rw [hseq, hleft]
    simp
  · rw [hseq]
    exact hp.order
  · have hleads := h.leads
    rw [h.seq] at hleads
    rw [hseq, hleft]
    refine hleads.replace ?_ ⟨⟨_, [], rfl, hhead⟩, trivial⟩
    have hs0 : s.keys ≠ [] := by
      intro hnil
      rw [hs.keys_eq, List.map_eq_nil_iff] at hnil
      rw [hnil, List.length_nil] at hlen
      omega
    have hne : sln.keys ≠ [] := by
      intro hnil
      rw [hp.lower.keys_eq, List.map_eq_nil_iff, List.take_eq_nil_iff] at hnil
      rcases hnil with hnil | hnil
      · omega
      · simp at hnil
    show sln.keys.head? = s.keys.head?
    rw [← List.head?_append_of_ne_nil _ hne, hkeys, List.head?_append_of_ne_nil _ hs0]
  · intro x hx
    simp only [tips_append, tips_inr, tips_inl, tips_nil, List.mem_append, List.mem_singleton] at hx
    obtain hx | rfl := hx
    · exact h.settled x hx
    · exact ⟨_, by simp; omega, hp.lower⟩
  · intro _
    have := hp.upper.inuse
    simp only [List.length_drop, hall] at this
    show _ ≤ slp.slotsinuse
    omega
  · obtain ⟨hslant, -, -⟩ := Ctx.slanted_of_fill hc hright h.slanted
    exact Ctx.slanted_pushUp (p := (· = P.innernodemax / 2)) (by omega) rfl id
      (fun h1 h2 => le_trans h2 h1) hc hslant hp.atEnd _ trivial trivial trivial
  · rw [hseq]
    simpa using hp.chained hc h.rep hright (by simpa [hleft] using hchain)
  · rw [hp.done.count, hpairs, BTree.upkeycount, h.count]
    rw [List.length_append, List.length_singleton]
    exact Nat.mod_add_mod _ _ _

theorem Loaded.push_split (hcap : 3 ≤ P.innernodemax) (hsame : P.leafnodemax = P.innernodemax)
    (h : Loaded P t T I l) (hk : ∀ e ∈ pairs T.2.inorder, e.1 < k)
    (hfull : l.body.slotsinuse = P.leafnodemax) :
    ∃ t' T' I' l', t.insert P k d = .ok (1, t') ∧ Loaded P t' T' I' l' ∧
      pairs T'.2.inorder = pairs T.2.inorder ++ [(k, d)] ∧
      t'.tailleaf = t.tailleaf ∧ t'.headleaf = t.headleaf := by
  obtain ⟨c, rfl, hc, hr, hleft, hright⟩ := h.route hk
  obtain ⟨t', sln, slp, e, e1, hp, h', hpairs⟩ := h.split_last (d := d) (by omega)
    (Ctx.growable_of_three hcap c) hsame hc hr hleft hright hk hfull
  exact ⟨t', _, _, _, e1, h', hpairs, hp.done.tailleaf, hp.done.headleaf⟩

/-- Inserting a key greater than all stored ones. -/
theorem Loaded.push (hcap : 3 ≤ P.innernodemax) (hsame : P.leafnodemax = P.innernodemax)
    (h : Loaded P t T I l) (hk : ∀ e ∈ pairs T.2.inorder, e.1 < k) :
    ∃ t' T' I' l', t.insert P k d = .ok (1, t') ∧ Loaded P t' T' I' l' ∧
      pairs T'.2.inorder = pairs T.2.inorder ++ [(k, d)] ∧
      t'.tailleaf = t.tailleaf ∧ t'.headleaf = t.headleaf := by
  rcases Nat.lt_or_ge l.body.slotsinuse P.leafnodemax with hroom | hfull
  · obtain ⟨t', T', l', e, h', hentries, htail, hhead⟩ :=
      h.push_room (d := d) (by omega) hk hroom
    refine ⟨t', T', I, l', e, h', ?_, htail, hhead⟩
    rw [h'.seq, h.seq]
    simp [hentries]
  · obtain ⟨-, hok⟩ := h.rep.holds.tip h.rep.paired (l := l) (by simp [h.seq])
    exact h.push_split hcap hsame hk (le_antisymm hok.inuse hfull)

/-- The first key. -/
theorem loaded_first (hcap : 0 < P.leafnodemax) (hroot : t.root = none)
    (hcount : t.totalkeycount = 0) :
    ∃ t' T l, t.insert P k d = .ok (1, t') ∧ Loaded P t' T [] l ∧ pairs T.2.inorder = [(k, d)] ∧
      t'.tailleaf = t.tailleaf ∧ t'.headleaf = some t.nodes.size := by
  obtain ⟨t', s, e, hs, hrep, hlinks, hcnt, htail, hhead⟩ :=
    insert_first (d := d) (k := k) hroot hcap
  have hpairs : pairs (Tree.leaf t.nodes.size s : MTree K D 0).inorder = [(k, d)] := by
    simp [hs.entries_eq]
  refine ⟨t', ⟨0, .leaf t.nodes.size s⟩, ⟨t.nodes.size, s⟩, e,
    ⟨hrep, rfl, ?_, trivial, by simp, fun h => absurd rfl h, trivial, ?_, ?_⟩, hpairs, htail, hhead⟩
  · refine (searchOrder_leaf (I := []) (J := [])).mpr ⟨⟨by simp, by simp⟩, ?_, fun x _ =>
      ⟨by simp, by simp, by simp, by simp⟩⟩
    show s.keys.Pairwise (· < ·)
    rw [hs.keys_eq]
    simp
  · obtain ⟨hn, hp⟩ := BTree.links_new (t := t) (le_refl t.nodes.size)
    refine ⟨by simp, fun a ha => ?_, fun a ha => ?_⟩
    · obtain rfl : a = t.nodes.size := by simpa [eq_comm] using ha
      rw [hlinks, hp]
    · obtain rfl : a = t.nodes.size := by simpa [eq_comm] using ha
      rw [hlinks, hn]
  · rw [hcnt, hpairs, BTree.upkeycount, hcount]
    rfl

end Order

end NwtBTree
