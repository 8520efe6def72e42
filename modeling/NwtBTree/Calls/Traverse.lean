import NwtBTree.Calls.Lookup
import NwtBTree.Machine.Repeat
import NwtBTree.Refine.Chain
import NwtBTree.Source.Iterator

/-!
# Walking a leaf chain

The places of a chain of leaves are its live slots, leaf after leaf. `operator++`
and `operator--` step between neighbouring places in opposite directions; the
iterator behind the last place is left by `operator--` only.
-/

namespace NwtBTree

variable {K D : Type} {P : Template K D} {t : BTree K D}

/-- The live slots of a leaf, as iterators. -/
def row (l : Tip Addr (LeafSlots K D)) : List Iterator :=
  (List.range l.body.slotsinuse).map fun i => ⟨some l.addr, i⟩

/-- The live slots of all leaves. -/
def places (L : List (Tip Addr (LeafSlots K D))) : List Iterator := L.flatMap row

/-- The slot behind the last live one. -/
def behind (l : Tip Addr (LeafSlots K D)) : Iterator := ⟨some l.addr, l.body.slotsinuse⟩

namespace BTree

/-- The leaves `L` of `t` hold pairs and are linked in both directions from end to end. -/
structure LeafChain (P : Template K D) (t : BTree K D) (L : List (Tip Addr (LeafSlots K D))) :
    Prop where
  body : ∀ l ∈ L, t.view.body l.addr = some (.leaf l.body)
  ok : ∀ l ∈ L, LeafOK P l.body
  filled : ∀ l ∈ L, 0 < l.body.slotsinuse
  chained : Chained t.view.links (L.map Tip.addr)

/-- `operator++` leads from `a` to `b`, and `operator--` back. -/
def Steps (t : BTree K D) (a b : Iterator) : Prop := t.next a = .ok b ∧ t.prev b = .ok a

/-! ## The branches -/

section Branches

variable {a b : Addr} {s s' : LeafSlots K D} {i : Nat}

theorem steps_slot (h : t.view.body a = some (.leaf s)) (hi : i + 1 < s.slotsinuse) :
    t.Steps ⟨some a, i⟩ ⟨some a, i + 1⟩ := by
  constructor
  · simp [next, NwtBTree.deref, leaf_eq h, hi]
  · simp [prev, NwtBTree.deref, leaf_eq h]

/-- The last slot of a leaf and the first slot of the next leaf. -/
theorem steps_leaf (h : t.view.body a = some (.leaf s)) (h' : t.view.body b = some (.leaf s'))
    (hj : t.view.links.Joined a b) (hi : i + 1 = s.slotsinuse) (hmax : s.slotsinuse < 65536) :
    t.Steps ⟨some a, i⟩ ⟨some b, 0⟩ := by
  obtain ⟨hn, hp⟩ := hj
  have hdec : dec16 s.slotsinuse = i := by
    unfold dec16
    omega
  constructor
  · simp [next, NwtBTree.deref, leaf_eq h, hi, hn]
  · simp [prev, NwtBTree.deref, leaf_eq h, leaf_eq h', hp, hdec]

theorem steps_behind (h : t.view.body a = some (.leaf s)) (hn : t.view.links.nxt a = none)
    (hi : i + 1 = s.slotsinuse) : t.Steps ⟨some a, i⟩ ⟨some a, s.slotsinuse⟩ := by
  rw [← hi]
  constructor
  · simp [next, NwtBTree.deref, leaf_eq h, hn, hi]
  · simp [prev, NwtBTree.deref, leaf_eq h]

theorem next_behind (h : t.view.body a = some (.leaf s)) (hn : t.view.links.nxt a = none) :
    t.next ⟨some a, s.slotsinuse⟩ = .ok ⟨some a, s.slotsinuse⟩ := by
  simp [next, NwtBTree.deref, leaf_eq h, hn]

theorem prev_first (h : t.view.body a = some (.leaf s)) (hp : t.view.links.prv a = none) :
    t.prev ⟨some a, 0⟩ = .ok ⟨some a, 0⟩ := by
  simp [prev, NwtBTree.deref, leaf_eq h, hp]

end Branches

/-! ## The chain of places -/

section Places

variable {l m : Tip Addr (LeafSlots K D)} {L : List (Tip Addr (LeafSlots K D))}

@[simp] theorem places_cons : places (l :: L) = row l ++ places L := rfl

theorem head_row (h : 0 < l.body.slotsinuse) : (row l).head? = some ⟨some l.addr, 0⟩ := by
  obtain ⟨n, hn⟩ : ∃ n, l.body.slotsinuse = n + 1 := ⟨_, (Nat.succ_pred_eq_of_pos h).symm⟩
  simp [row, hn, List.range_succ_eq_map]

theorem last_row {it : Iterator} (h : it ∈ (row l).getLast?) :
    ∃ i, it = ⟨some l.addr, i⟩ ∧ i + 1 = l.body.slotsinuse := by
  cases hn : l.body.slotsinuse with
  | zero => simp [row, hn] at h
  | succ n =>
    refine ⟨n, ?_, rfl⟩
    simpa [row, hn, List.range_succ, eq_comm] using h

theorem row_chain (h : t.view.body l.addr = some (.leaf l.body)) : (row l).IsChain t.Steps := by
  rw [List.isChain_iff_getElem]
  intro i hi
  have hlt : i + 1 < l.body.slotsinuse := by simpa [row] using hi
  simpa [row] using steps_slot h hlt

theorem places_chain (hbody : ∀ l ∈ L, t.view.body l.addr = some (.leaf l.body))
    (hfill : ∀ l ∈ L, 0 < l.body.slotsinuse) (hmax : ∀ l ∈ L, l.body.slotsinuse < 65536)
    (hj : (L.map Tip.addr).IsChain t.view.links.Joined) (hlast : L.getLast? = some m)
    (hend : t.view.links.nxt m.addr = none) :
    (places L ++ [behind m]).IsChain t.Steps := by
  induction L with
  | nil => simp at hlast
  | cons l L ih =>
    have hl := hbody l (by simp)
    rw [places_cons, List.append_assoc, List.isChain_append]
    cases L with
    | nil =>
      obtain rfl : l = m := by simpa using hlast
      refine ⟨row_chain hl, by simp [places], ?_⟩
      intro it hit it' hit'
      obtain ⟨i, rfl, hi⟩ := last_row hit
      obtain rfl : behind l = it' := by simpa [places] using hit'
      exact steps_behind hl hend hi
    | cons l' L =>
      obtain ⟨hll, hj⟩ : t.view.links.Joined l.addr l'.addr ∧ _ := List.isChain_cons_cons.mp hj
      have hl' := hbody l' (by simp)
      have hpos' := hfill l' (by simp)
      refine ⟨row_chain hl, ?_, ?_⟩
      · apply ih
        · exact fun n hn => hbody n (List.mem_cons_of_mem l hn)
        · exact fun n hn => hfill n (List.mem_cons_of_mem l hn)
        · exact fun n hn => hmax n (List.mem_cons_of_mem l hn)
        · exact hj
        · simpa using hlast
      · intro it hit it' hit'
        obtain ⟨i, rfl, hi⟩ := last_row hit
        have hhead : (places (l' :: L) ++ [behind m]).head? = some ⟨some l'.addr, 0⟩ := by
          simp [List.head?_append, head_row hpos']
        obtain rfl : ⟨some l'.addr, 0⟩ = it' := Option.some.inj (hhead.symm.trans hit')
        exact steps_leaf hl hl' hll hi (hmax l (by simp))

/-- Dereferencing along a row reads the pairs of the leaf. -/
theorem deref_row (h : t.view.body l.addr = some (.leaf l.body)) (hok : LeafOK P l.body) :
    List.Forall₂ (fun it e => t.deref it = .ok e) (row l) l.body.entries := by
  have hs := hok.leafIs
  refine List.forall₂_iff_get.mpr ⟨by simp [row, ← hs.inuse], fun i hi hi' => ?_⟩
  have hkey := hs.load_key hi'
  have hdata := hs.load_data hi'
  simp [row, deref, NwtBTree.deref, leaf_eq h, hkey, hdata]

theorem deref_places (hbody : ∀ l ∈ L, t.view.body l.addr = some (.leaf l.body))
    (hok : ∀ l ∈ L, LeafOK P l.body) :
    List.Forall₂ (fun it e => t.deref it = .ok e) (places L)
      (L.flatMap fun l => l.body.entries) := by
  induction L with
  | nil => exact .nil
  | cons l L ih =>
    rw [places_cons, List.flatMap_cons]
    apply List.rel_append
    · exact deref_row (hbody l (by simp)) (hok l (by simp))
    · exact ih (fun n hn => hbody n (List.mem_cons_of_mem l hn))
        fun n hn => hok n (List.mem_cons_of_mem l hn)

end Places

/-! ## The walk -/

/-- The postfix forms return the iterator as it was and move it as the prefix forms do. -/
theorem nextPost_eq (t : BTree K D) (it : Iterator) :
    t.nextPost it = (t.next it).map fun it' => (it, it') := by
  unfold nextPost next
  cases NwtBTree.deref it.currnode with
  | error e => rfl
  | ok a =>
    cases hl : t.leaf a with
    | error e => simp [hl, Except.map]
    | ok l =>
      simp only [ok_bind, hl]
      split_ifs
      · rfl
      · cases l.nextLeaf <;> rfl

theorem prevPost_eq (t : BTree K D) (it : Iterator) :
    t.prevPost it = (t.prev it).map fun it' => (it, it') := by
  unfold prevPost prev
  cases NwtBTree.deref it.currnode with
  | error e => rfl
  | ok a =>
    cases hl : t.leaf a with
    | error e => simp [hl, Except.map]
    | ok l =>
      simp only [ok_bind, hl]
      split_ifs
      · rfl
      · cases l.prevLeaf with
        | none => rfl
        | some b => cases hb : t.leaf b <;> simp [hb, Except.map]

/-- The two walks over the places `its` with the pairs `es` in them, between the
first place and the iterator behind the last one. -/
structure Walks (t : BTree K D) (its : List Iterator) (es : List (K × D)) (first last : Iterator) :
    Prop where
  forward : ∀ (j : Nat) (h : j < es.length),
    ∃ it, its[j]? = some it ∧ times t.next j first = .ok it ∧ t.deref it = .ok es[j]
  forward_end : ∀ j, es.length ≤ j → times t.next j first = .ok last
  turn : ∀ it ∈ its, ∃ it', t.next it = .ok it' ∧ t.prev it' = .ok it
  backward : ∀ (j : Nat) (h : j < es.reverse.length),
    ∃ it, its.reverse[j]? = some it ∧ times t.prev (j + 1) last = .ok it ∧
      t.deref it = .ok es.reverse[j]
  backward_end : ∀ j, es.length < j → times t.prev j last = .ok first
  post : ∀ it, t.nextPost it = (t.next it).map (fun it' => (it, it')) ∧
    t.prevPost it = (t.prev it).map (fun it' => (it, it'))

/-- Every chain of leaves is walked from end to end in both directions. -/
theorem iterator_walks {L : List (Tip Addr (LeafSlots K D))} (h : LeafChain P t L)
    {l m : Tip Addr (LeafSlots K D)} (hfirst : L.head? = some l) (hlast : L.getLast? = some m) :
    t.Walks (places L) (L.flatMap fun l => l.body.entries) ⟨some l.addr, 0⟩ (behind m) := by
  obtain ⟨hbody, hok, hfill, hc⟩ := h
  have hl : l ∈ L := List.mem_of_mem_head? hfirst
  have hm : m ∈ L := List.mem_of_mem_getLast? hlast
  have hend : t.view.links.nxt m.addr = none := hc.last m.addr (by simp [hlast])
  have hbegin : t.view.links.prv l.addr = none := hc.first l.addr (by simp [hfirst])
  have hmax : ∀ l ∈ L, l.body.slotsinuse < 65536 := fun l hl =>
    Nat.lt_of_le_of_lt (hok l hl).inuse (Nat.mod_lt _ (by decide))
  have hchain := places_chain hbody hfill hmax hc.joined hlast hend
  have hread := deref_places hbody hok
  have hlen := hread.length_eq
  obtain ⟨its, hits⟩ : ∃ its, places L = ⟨some l.addr, 0⟩ :: its := by
    cases L with
    | nil => simp at hfirst
    | cons l' L =>
      obtain rfl : l' = l := by simpa using hfirst
      obtain ⟨r, hr⟩ := List.head?_eq_some_iff.mp (head_row (hfill l' hl))
      exact ⟨r ++ places L, by rw [places_cons, hr, List.cons_append]⟩
  have hnext : (places L ++ [behind m]).IsChain fun a b => t.next a = .ok b :=
    hchain.imp fun _ _ hs => hs.1
  have hprev : (behind m :: (places L).reverse).IsChain fun a b => t.prev a = .ok b := by
    have := List.isChain_reverse.mpr (hchain.imp fun _ _ hs => hs.2)
    simpa using this
  constructor
  case forward =>
    intro j hj
    have hj' : j < (places L).length := hlen ▸ hj
    refine ⟨(places L)[j], List.getElem?_eq_getElem hj', ?_, hread.get hj' hj⟩
    refine times_chain hnext (by simp [hits]) ?_
    rw [List.getElem?_append_left hj', List.getElem?_eq_getElem hj']
  case forward_end =>
    intro j hj
    exact times_past hnext (next_behind (hbody m hm) hend) (by simp [hits]) (hlen ▸ hj)
  case turn =>
    intro it hit
    obtain ⟨A, B, hAB⟩ := List.append_of_mem hit
    obtain ⟨b, B', hB⟩ : ∃ b B', B ++ [behind m] = b :: B' := by cases B <;> simp
    rw [hAB, List.append_assoc, List.cons_append, hB] at hchain
    obtain ⟨h1, h2⟩ := (List.isChain_append.mp hchain).2.1.rel
    exact ⟨b, h1, h2⟩
  case backward =>
    intro j hj
    have hj' : j < (places L).reverse.length := by simpa [hlen] using hj
    refine ⟨(places L).reverse[j], List.getElem?_eq_getElem hj', ?_, ?_⟩
    · exact times_chain hprev rfl (List.getElem?_eq_getElem hj')
    · have hread' := List.rel_reverse hread
      exact hread'.get hj' hj
  case backward_end =>
    intro j hj
    have hpast : ((behind m :: its.reverse) ++ [(⟨some l.addr, 0⟩ : Iterator)]).IsChain
        fun a b => t.prev a = Except.ok b := by
      simpa [hits] using hprev
    have hs : ((behind m :: its.reverse) ++ [(⟨some l.addr, 0⟩ : Iterator)])[0]? =
        some (behind m) := rfl
    refine times_past hpast (prev_first (hbody l hl) hbegin) hs ?_
    rw [← hlen, hits] at hj
    simp only [List.length_cons, List.length_reverse] at hj ⊢
    omega
  case post => exact fun it => ⟨nextPost_eq t it, prevPost_eq t it⟩

theorem sample_chain : LeafChain Template.strings sampleTree sampleLeaves where
  body := by
    intro l hl
    obtain rfl | rfl : l = _ ∨ l = _ := by simpa [sampleLeaves] using hl
    all_goals rfl
  ok := by
    intro l hl
    obtain rfl | rfl : l = _ ∨ l = _ := by simpa [sampleLeaves] using hl
    all_goals exact ⟨rfl, by decide, rfl, rfl⟩
  filled := by decide
  chained := ⟨.cons_cons ⟨rfl, rfl⟩ (.singleton 2), by decide, by decide⟩

theorem iterator_walks_sample : sampleTree.Walks (places sampleLeaves)
    [(1, "a"), (2, "b"), (3, "c"), (4, "d"), (10, "j"), (20, "t")] ⟨some 1, 0⟩ ⟨some 2, 2⟩ :=
  iterator_walks sample_chain rfl rfl

end BTree

end NwtBTree
