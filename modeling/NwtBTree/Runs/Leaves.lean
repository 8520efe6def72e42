import Mathlib.Algebra.Ring.Int.Defs
import NwtBTree.Refine.Tidy
import NwtBTree.Runs.Mixed
import NwtBTree.Source.Iterator

/-!
# Calls in any order

Keys in any order, and as often as one likes: the tree can then lose keys, and search for
them in the wrong leaf. What is left in every run is the order inside the leaves, the
count of the inserts and removals that succeed, and the two ends of the chain, which the
calls never set again.
-/

namespace NwtBTree

variable {K D : Type} [LinearOrder K] {P : Template K D}

/-- The call is an `erase` that finds its key in an empty leaf. -/
def BTree.wrapsAround (P : Template K D) (t : BTree K D) : Request K D → Except Fault Bool
  | .erase k => t.wraps P k
  | _ => .ok false

omit [LinearOrder K] in
/-- How many keys more there are after a call that returned `r`. -/
def Request.change : Request K D → Reply D → Int
  | .insert _ _, .code i => if i = 1 then 1 else 0
  | .erase _, .code i => if 0 ≤ i then -1 else 0
  | .deletePair _ _, .code i => if 0 ≤ i then -1 else 0
  | _, _ => 0

/-- The state after inserts of the keys `g`, when `c` keys more were stored than removed. -/
inductive Reached (P : Template K D) : List K → Int → BTree K D → Prop
  | new : Reached P [] 0 BTree.init
  | started {g : List K} {c : Int} {t : BTree K D} (h : Tidy P g t) (hg : g ≠ [])
      (hroot : t.root ≠ none) (hcount : (t.totalkeycount : Int) = c % 4294967296)
      (hhead : t.headleaf = some 0) (htail : t.tailleaf = none) : Reached P g c t

section Step

variable [DecidableEq D] {g : List K} {c : Int} {t t' : BTree K D} {q : Request K D} {r : Reply D}

omit [DecidableEq D] in
theorem reached_counted {e : Int} (hg : g ≠ []) (hroot : t.root ≠ none)
    (hcount : (t.totalkeycount : Int) = c % 4294967296) (hhead : t.headleaf = some 0)
    (htail : t.tailleaf = none) (h : Counted P g e t t') : Reached P g (c + e) t' := by
  refine .started h.tidy hg (h.root hroot) ?_ (h.head.trans hhead) (h.tail.trans htail)
  rw [h.count, hcount]
  omega

theorem reached_first (k : K) (d : D)
    (e : (BTree.init : BTree K D).perform P (.insert k d) = .ok (r, t')) :
    Reached P [k] 1 t' ∧ (Request.insert k d).change r = 1 := by
  obtain ⟨⟨i, u⟩, hi, e⟩ := bind_eq_ok.mp e
  cases e
  obtain ⟨v, hv, hi⟩ := bind_eq_ok.mp hi
  cases hi
  have htidy : Tidy P [k] (BTree.init : BTree K D) :=
    ⟨fun {a s} hs => by simp [BTree.view, BTree.init, Store.get, Store.init] at hs,
      show 0 < 4294967296 by decide⟩
  obtain ⟨h, hroot, hhead, htail, hcount⟩ := tidy_makeRoot htidy List.mem_cons_self v hv
  refine ⟨.started h.upkeycount (by simp) hroot ?_ hhead htail, rfl⟩
  show ((v.totalkeycount + 1) % 4294967296 : Nat) = (1 : Int) % 4294967296
  rw [hcount]
  rfl

theorem Reached.perform (hleaf : P.leafnodemax = 4) (hinner : P.innernodemax = 4)
    (h : Reached P g c t) (hwrap : t.wrapsAround P q ≠ .ok true)
    (e : t.perform P q = .ok (r, t')) : Reached P (g ++ q.newKey.toList) (c + q.change r) t' := by
  cases h with
  | new =>
    have hfind (k : K) : (BTree.init : BTree K D).find P k = .ok none := BTree.find_none rfl
    cases q with
    | insert k d =>
      obtain ⟨h, hone⟩ := reached_first k d e
      rw [hone]
      exact h
    | existsKey k | get k | erase k | deletePair k d =>
      simp [BTree.perform, BTree.existsKey, BTree.get, BTree.erase, BTree.deletePair, hfind] at e
      obtain ⟨rfl, rfl⟩ := e
      exact .new
  | started h hg hroot hcount hhead htail =>
    cases q with
    | insert k d =>
      obtain ⟨⟨i, u⟩, hi, e⟩ := bind_eq_ok.mp e
      cases e
      have h' : Tidy P (g ++ [k]) t := h.mono (List.subset_append_left g [k])
      exact reached_counted (by simp [Request.newKey]) hroot hcount hhead htail
        (counted_insert hleaf hinner h' hroot (by simp) _ hi)
    | existsKey k | get k =>
      obtain ⟨b, -, e⟩ := bind_eq_ok.mp e
      cases e
      simpa [Request.newKey, Request.change] using Reached.started h hg hroot hcount hhead htail
    | erase k =>
      obtain ⟨⟨i, u⟩, hi, e⟩ := bind_eq_ok.mp e
      cases e
      rw [show g ++ (Request.erase k : Request K D).newKey.toList = g from List.append_nil g]
      exact reached_counted hg hroot hcount hhead htail (counted_erase h hwrap _ hi)
    | deletePair k d =>
      obtain ⟨⟨i, u⟩, hi, e⟩ := bind_eq_ok.mp e
      cases e
      rw [show g ++ (Request.deletePair k d).newKey.toList = g from List.append_nil g]
      exact reached_counted hg hroot hcount hhead htail (counted_deletePair h _ hi)

/-- The run induction; the conditions of the calls are checked along the run. -/
theorem Reached.run (hleaf : P.leafnodemax = 4) (hinner : P.innernodemax = 4)
    {qs : List (Request K D)} {rs : List (Reply D)} (h : Reached P g c t)
    (hwrap : Meets (BTree.perform P) (fun (_ : Unit) _ => ())
      (fun _ t q => t.wrapsAround P q ≠ .ok true) () t qs)
    (e : NwtBTree.run (BTree.perform P) t qs = .ok (rs, t')) :
    Reached P (g ++ qs.filterMap Request.newKey)
      (c + (List.zipWith Request.change qs rs).sum) t' := by
  induction qs generalizing g c t rs with
  | nil =>
    cases e
    simpa using h
  | cons q qs ih =>
    obtain ⟨r, t₁, rs, e₁, e₂, rfl⟩ := run_cons_inv e
    have h' := ih (h.perform hleaf hinner hwrap.1 e₁) (hwrap.2 r t₁ e₁) e₂
    rw [List.zipWith_cons_cons, List.sum_cons, ← Int.add_assoc]
    have hkeys : g ++ (q :: qs).filterMap Request.newKey =
        g ++ q.newKey.toList ++ qs.filterMap Request.newKey := by
      cases hq : q.newKey <;> simp [hq]
    rwa [hkeys]

/-- No `erase` of the run finds its key in an empty leaf. -/
def NeverWraps (P : Template K D) (qs : List (Request K D)) : Prop :=
  EachCall P (fun t q => t.wrapsAround P q ≠ .ok true) qs

theorem reached_run (hinner : P.nodeslots = 4) (hleaf : P.leafslots = 4) {qs : List (Request K D)}
    {rs : List (Reply D)} (h : NeverWraps P qs)
    (e : NwtBTree.run (BTree.perform P) BTree.init qs = .ok (rs, t)) :
    Reached P (qs.filterMap Request.newKey) (List.zipWith Request.change qs rs).sum t := by
  have hP : P.Four := ⟨hinner, hleaf⟩
  have := Reached.new.run hP.leafnodemax hP.innernodemax h e
  rwa [List.nil_append, Int.zero_add] at this

/-- After every run each leaf has at most four keys, in ascending order, all of them inserted. -/
theorem leaves_ordered (hinner : P.nodeslots = 4) (hleaf : P.leafslots = 4)
    {qs : List (Request K D)} {rs : List (Reply D)} (h : NeverWraps P qs)
    (e : NwtBTree.run (BTree.perform P) BTree.init qs = .ok (rs, t)) (a : Addr) (l : LeafNode K D)
    (hl : t.leaf a = .ok l) : l.slotsinuse ≤ 4 ∧ l.keys.length = l.slotsinuse ∧
      l.keys.Pairwise (· ≤ ·) ∧ ∀ k ∈ l.keys, k ∈ qs.filterMap Request.newKey := by
  have hP : P.Four := ⟨hinner, hleaf⟩
  have hr := reached_run hinner hleaf h e
  generalize qs.filterMap Request.newKey = g at hr ⊢
  generalize (List.zipWith Request.change qs rs).sum = c at hr
  cases hr with
  | new => cases hl
  | started h =>
    obtain ⟨hok, hsort, hmem⟩ := h.leaf (BTree.body_of_leaf hl).1
    exact ⟨hP.leafnodemax ▸ hok.inuse, hok.length_keys, hsort, hmem⟩

end Step

/-- Keys in no order, some of them twice, and removals. -/
def stirred : List (Request Nat Nat) :=
  [.insert 5 50, .insert 9 90, .insert 3 30, .insert 7 70, .insert 3 31, .insert 6 60, .erase 9,
    .erase 3, .deletePair 3 0, .erase 4, .insert 6 60]

theorem neverWraps_stirred : NeverWraps (Template.plain 4) stirred := by
  unfold NeverWraps EachCall
  decide +kernel

theorem run_stirred : ∃ rs t, run (BTree.perform (Template.plain 4)) BTree.init stirred =
    .ok (rs, t) := by
  have h : (run (BTree.perform (Template.plain 4)) BTree.init stirred).toOption.isSome = true := by
    decide +kernel
  cases hrun : run (BTree.perform (Template.plain 4)) BTree.init stirred with
  | error e =>
    rw [hrun] at h
    cases h
  | ok r => exact ⟨r.1, r.2, rfl⟩

theorem leaves_ordered_stirred : ∃ rs t,
    run (BTree.perform (Template.plain 4)) BTree.init stirred = .ok (rs, t) ∧
      ∀ a l, t.leaf a = .ok l → l.slotsinuse ≤ 4 ∧ l.keys.length = l.slotsinuse ∧
        l.keys.Pairwise (· ≤ ·) ∧ ∀ k ∈ l.keys, k ∈ stirred.filterMap Request.newKey := by
  obtain ⟨rs, t, e⟩ := run_stirred
  exact ⟨rs, t, e, leaves_ordered rfl rfl neverWraps_stirred e⟩

section Step

variable [DecidableEq D] {t : BTree K D}

/-- After every run the counter is the number of pairs that were inserted less those that were
removed, `empty()` holds until the first insert, `begin()` is the leaf of the first insert from then
on, and `end()` is `NULL`. -/
theorem counts_calls (hinner : P.nodeslots = 4) (hleaf : P.leafslots = 4)
    {qs : List (Request K D)} {rs : List (Reply D)} (h : NeverWraps P qs)
    (e : NwtBTree.run (BTree.perform P) BTree.init qs = .ok (rs, t)) :
    (t.totalkeycount : Int) = (List.zipWith Request.change qs rs).sum % 4294967296 ∧
      (t.empty = true ↔ qs.filterMap Request.newKey = []) ∧
      t.beginIter = ⟨if t.empty then none else some 0, 0⟩ ∧ t.endIter = .ok ⟨none, 0⟩ := by
  have hr := reached_run hinner hleaf h e
  generalize qs.filterMap Request.newKey = g at hr ⊢
  generalize (List.zipWith Request.change qs rs).sum = c at hr ⊢
  cases hr with
  | new => exact ⟨rfl, by simp [BTree.empty, BTree.init], rfl, rfl⟩
  | started h hg hroot hcount hhead htail =>
    have hempty : t.empty = false := by simpa [BTree.empty, Option.isNone_eq_false_iff,
      Option.isSome_iff_ne_none] using hroot
    refine ⟨hcount, by simp [hempty, hg], ?_, ?_⟩
    · rw [BTree.beginIter, hhead, hempty]
      rfl
    · rw [BTree.endIter, htail]
      rfl

end Step

theorem counts_calls_stirred : ∃ rs t,
    run (BTree.perform (Template.plain 4)) BTree.init stirred = .ok (rs, t) ∧
      (t.totalkeycount : Int) = (List.zipWith Request.change stirred rs).sum % 4294967296 ∧
      (t.empty = true ↔ stirred.filterMap Request.newKey = []) ∧
      t.beginIter = ⟨if t.empty then none else some 0, 0⟩ ∧ t.endIter = .ok ⟨none, 0⟩ := by
  obtain ⟨rs, t, e⟩ := run_stirred
  exact ⟨rs, t, e, counts_calls rfl rfl neverWraps_stirred e⟩

end NwtBTree
