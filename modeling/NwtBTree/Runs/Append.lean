import NwtBTree.Machine.Run
import NwtBTree.Refine.Load

/-!
# Append-only load

Keys inserted in strictly ascending order, for every capacity that the counters
can hold.
-/

namespace NwtBTree

variable {K D : Type} [LinearOrder K] [DecidableEq D] {P : Template K D} {c : Nat}

/-- `insert` of a pair. -/
def BTree.insertStep (P : Template K D) (t : BTree K D) (e : K × D) :
    Except Fault (Int × BTree K D) :=
  t.insert P e.1 e.2

/-- The tree is in the heap, balanced and linked, and holds the pairs `es`. -/
structure Balanced (P : Template K D) (c : Nat) (t : BTree K D) (es : List (K × D)) {n : Nat}
    (T : MTree K D n) : Prop where
  rep : Rep P t.view T
  leafMost : ∀ l ∈ tips T.inorder, l.body.slotsinuse ≤ c
  leafLeast : 0 < n → ∀ l ∈ tips T.inorder, c / 2 ≤ l.body.slotsinuse
  children : T.Paired
  innerMost : T.Each (· ≤ c)
  innerLeast : T.Bushy (c / 2 ≤ ·)
  separators : T.SepsLeast LeafSlots.keys
  parents : ParOK t.view.par none T
  chain : t.leaves = .ok (tips T.inorder)
  links : Chained t.view.links ((tips T.inorder).map Tip.addr)
  pairs : pairs T.inorder = es

omit [LinearOrder K] [DecidableEq D] in
theorem Holds.each {body : Addr → Option (Body K D)} {n : Nat} {T : MTree K D n}
    (h : Holds P body T) : T.Each (· ≤ P.innernodemax) := by
  induction n with
  | zero => trivial
  | succ n ih =>
    obtain ⟨a, ks, cs⟩ := T
    obtain ⟨⟨s, -, hs⟩, hcs⟩ := h
    obtain ⟨r, hr⟩ := hs.keys
    refine ⟨?_, fun c hc => ih (hcs c hc)⟩
    have := hs.keyCap
    simp only [hr, List.length_append] at this
    show ks.length ≤ _
    omega

section Loaded

variable {t : BTree K D} {T : (n : Nat) × MTree K D n} {I : List (Item Addr K (LeafSlots K D))}
  {l : Tip Addr (LeafSlots K D)}

omit [DecidableEq D] in
/-- Settled leaves are half full, so only the last one can be full. -/
theorem Loaded.fullLast (hcap : 2 ≤ P.leafnodemax) (h : Loaded P t T I l) :
    FullLast P t.view T.2.inorder := by
  intro m hm
  rw [h.seq] at hm
  simp only [tips_append, tips_inr, tips_nil, List.mem_append, List.mem_singleton] at hm
  obtain hm | rfl := hm
  · obtain ⟨es, hlen, hs⟩ := h.settled m hm
    rw [hs.inuse]
    omega
  · exact .inr (h.chain.last m.addr (by simp [h.seq]))

omit [DecidableEq D] in
theorem Loaded.balanced (hinner : P.innernodemax = c) (hleaf : P.leafnodemax = c)
    (h : Loaded P t T I l) : Balanced P c t (pairs T.2.inorder) T.2 where
  rep := h.rep
  leafMost m hm := hleaf ▸ (h.rep.holds.tip h.rep.paired hm).2.inuse
  leafLeast hpos m hm := by
    rw [h.seq] at hm
    simp only [tips_append, tips_inr, tips_nil, List.mem_append, List.mem_singleton] at hm
    obtain hm | rfl := hm
    · obtain ⟨es, hlen, hs⟩ := h.settled m hm
      rw [hs.inuse, hlen, hleaf]
    · rw [← hleaf]
      refine h.half ?_
      rintro rfl
      exact Nat.ne_of_gt hpos (Tree.height_eq_zero h.rep.paired h.seq)
  children := h.rep.paired
  innerMost := hinner ▸ h.rep.holds.each
  innerLeast := by
    have := h.slanted.bushy (fun {m} (hm : m = P.innernodemax / 2) => ge_of_eq hm)
    rwa [hinner] at this
  separators := Tree.sepsLeast_of_leads h.rep.paired h.leads h.order
  parents := h.rep.par
  chain := leaves_eq h.rep h.chain
  links := h.chain
  pairs := rfl

end Loaded

/-- What an ascending load leaves behind. -/
theorem load_spec (hcap : 3 ≤ P.innernodemax) (hsame : P.leafnodemax = P.innernodemax)
    {es : List (K × D)} (hne : es ≠ []) (hasc : es.Pairwise (fun a b => a.1 < b.1)) :
    ∃ t T I l, run (BTree.insertStep P) BTree.init es = .ok (List.replicate es.length 1, t) ∧
      Loaded P t T I l ∧ pairs T.2.inorder = es ∧ t.tailleaf = none ∧ t.headleaf = some 0 := by
  induction es using List.reverseRecOn with
  | nil => exact absurd rfl hne
  | append_singleton es e ih =>
    obtain ⟨hes, -, hlast⟩ := List.pairwise_append.mp hasc
    by_cases hnil : es = []
    · subst hnil
      obtain ⟨t, T, l, e1, hl, hp, ht, hh⟩ := loaded_first (P := P) (t := BTree.init) (k := e.1)
        (d := e.2) (by omega) rfl rfl
      exact ⟨t, T, [], l, run_cons e1 (run_nil t), hl, hp, ht, hh⟩
    · obtain ⟨t, T, I, l, e1, hl, hp, ht, hh⟩ := ih hnil hes
      obtain ⟨t', T', I', l', e2, hl', hp', ht', hh'⟩ := hl.push (d := e.2) (k := e.1) hcap hsame
        (fun x hx => hlast x (hp ▸ hx) e (by simp))
      refine ⟨t', T', I', l', ?_, hl', by rw [hp', hp], ht'.trans ht, hh'.trans hh⟩
      have := @run_concat _ _ _ _ _ _ _ _ e _ _ _ e1 e2
      rw [← List.replicate_succ'] at this
      simpa using this

/-- Every insert of the load returns `1`, and it leaves a balanced tree in which every
lookup answers for the pairs inserted. -/
def LoadsWell (P : Template K D) (c : Nat) (es : List (K × D)) : Prop :=
  ∃ t, run (BTree.insertStep P) BTree.init es = .ok (List.replicate es.length 1, t) ∧
    (es ≠ [] → ∃ (n : Nat) (T : MTree K D n), Balanced P c t es T) ∧ t.size = es.length ∧
    (∀ e ∈ es, t.get P e.1 = .ok (e.2, true)) ∧
    ∀ k, k ∉ es.map Prod.fst → t.get P k = .ok (P.emptyData, false)

theorem append_only (hcap : 3 ≤ c) (hmax : c < 65536) (hinner : P.nodeslots = c)
    (hleaf : P.leafslots = c) {es : List (K × D)} (hasc : es.Pairwise (fun a b => a.1 < b.1))
    (hlen : es.length < 2147483648) : LoadsWell P c es := by
  have hinner' : P.innernodemax = c := by rw [Template.innernodemax, hinner, Nat.mod_eq_of_lt hmax]
  have hleaf' : P.leafnodemax = c := by rw [Template.leafnodemax, hleaf, Nat.mod_eq_of_lt hmax]
  by_cases hne : es = []
  · subst hne
    exact ⟨BTree.init, rfl, fun h => absurd rfl h, rfl, by simp, fun k _ => rfl⟩
  · obtain ⟨t, T, I, l, hrun, h, rfl, -, -⟩ :=
      load_spec (P := P) (by omega) (by omega) hne hasc
    have hfull := h.fullLast (by omega)
    refine ⟨t, hrun, fun _ => ⟨T.1, T.2, h.balanced hinner' hleaf'⟩, ?_,
      fun e he => get_mem h.rep h.order hfull he, fun k hk => get_not_mem h.rep h.order hfull hk⟩
    rw [BTree.size, h.count, Nat.mod_eq_of_lt (by omega), if_pos hlen]

/-- Integer keys and payloads; never-written slots read as `0`. -/
def Template.plain (c : Nat) : Template Nat Nat where
  nodeslots := c
  leafslots := c
  junkKey _ _ := 0
  newData := 0
  emptyData := 0

theorem append_only_three : LoadsWell (Template.plain 3) 3 [(1, 10), (2, 20), (5, 50), (9, 90)] :=
  append_only (by decide) (by decide) rfl rfl (by decide) (by decide)

/-- A capacity of `65536` is `0` as an `unsigned short`. -/
theorem not_loadsWell_too_wide : ¬LoadsWell (Template.plain 65536) 65536 [(1, 10)] := by
  rintro ⟨t, hrun, -, -, hget, -⟩
  have h : (do
      let (_, t) ← run (BTree.insertStep (Template.plain 65536)) BTree.init [(1, 10)]
      t.get (Template.plain 65536) 1) = .ok (0, false) := by decide +kernel
  rw [hrun] at h
  have := (hget (1, 10) (by simp)).symm.trans h
  simp at this

end NwtBTree
