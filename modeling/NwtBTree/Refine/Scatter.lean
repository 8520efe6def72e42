import Mathlib.Data.List.TakeWhile
import NwtBTree.Multiway.Walk
import NwtBTree.Refine.Content
import NwtBTree.Refine.Scan

/-!
# Inserting in any order

What an insert does to the tree when every node it splits is the last child of
its parent and no separator there is greater than the key pushed up. Nothing is
assumed about the order of keys across leaves.
-/

namespace NwtBTree

variable {K D : Type} {P : Template K D}

/-! ## Overflow at the right end -/

/-- `x` is the last child of `p` and no key of `p` is greater than `k`; if `p` is full, the same
holds of `p` and the key that moves up from it. -/
def BTree.overflowsAtEnd [LinearOrder K] (P : Template K D) (t : BTree K D) :
    Nat → Option Addr → Addr → K → Bool
  | fuel + 1, some p, x, k =>
    match t.inner p with
    | .ok n =>
      decide (n.firstChild[n.numChildren - 1]? = some (some x)) &&
      (n.keySlots.take n.slotsinuse).all (decide <| · ≤ k) &&
      (decide (n.numChildren ≤ P.innernodemax) ||
        match n.keySlots[P.innernodemax / 2]? with
        | some m => t.overflowsAtEnd P fuel n.parent p m
        | none => true)
    | .error _ => true
  | _, _, _, _ => true

theorem atEnd_of_overflowsAtEnd [LinearOrder K] {t : BTree K D} {n : Nat} {c : MCtx K D n}
    {x : Addr} {k : K}
    (h : Hole P t.view c x) (hnd : (c.addrs ++ [x]).Nodup) {fuel : Nat} (hfuel : c.depth < fuel)
    (he : t.overflowsAtEnd P fuel c.parent x k = true) : c.AtEnd P.innernodemax k := by
  induction c generalizing x k fuel with
  | top => trivial
  | frame up a ksL csL ksR csR ih =>
    obtain ⟨f, rfl⟩ : ∃ f, fuel = f + 1 := ⟨fuel - 1, by omega⟩
    obtain ⟨⟨s, hs, hin⟩, -, -, hup⟩ := h.holds
    obtain ⟨hpar, -, -, hpup⟩ := h.par
    obtain ⟨-, hlenR, -⟩ := h.paired
    obtain ⟨q, hq⟩ := hin.children
    obtain ⟨r, hr⟩ := hin.keys
    simp only [Ctx.parent_frame, BTree.overflowsAtEnd, BTree.inner_eq hs, hin.num,
      hin.inuse, hq, hr,
      Bool.and_eq_true, Bool.or_eq_true, decide_eq_true_eq, hpar, List.length_append,
      List.length_cons, List.length_map] at he
    obtain ⟨⟨hlast, hle⟩, hfull⟩ := he
    have hcs : csR = [] := by
      rcases List.eq_nil_or_concat csR with hnil | ⟨cs, y, rfl⟩
      · exact hnil
      · have hy : y.addr = x := by
          simpa [List.getElem?_append_left] using hlast
        have hmem : x ∈ (Ctx.frame up a ksL csL ksR (cs.concat y)).addrs := by
          rw [← hy]
          simp [y.addr_mem_addrs]
        exact absurd (by simp) ((List.nodup_append'.mp hnd).2.2 hmem)
    subst hcs
    obtain rfl : ksR = [] := List.eq_nil_of_length_eq_zero hlenR
    simp only [List.append_nil, List.length_nil, Nat.add_zero] at hle hfull
    refine ⟨rfl, rfl, fun y hy => ?_, fun hcap m hm => ?_⟩
    · rw [List.take_left' rfl] at hle
      simpa using List.all_eq_true.mp hle y hy
    · have hlenL := h.paired.1
      have hm' : (ksL ++ r)[P.innernodemax / 2]? = some m := by
        rw [List.head?_drop] at hm
        rw [List.getElem?_append_left (List.getElem?_eq_some_iff.mp hm).1]
        exact hm
      have hrec := hfull.resolve_left (by omega)
      rw [hm'] at hrec
      simp only [Ctx.depth] at hfuel
      refine ih h.up ?_ (by omega) hrec
      simp only [Ctx.addrs_frame, List.cons_append, List.nodup_cons, List.mem_append] at hnd
      obtain ⟨ha, hnd⟩ := hnd
      refine List.nodup_append.mpr ⟨?_, by simp, ?_⟩
      · exact (List.nodup_append.mp (List.nodup_append.mp hnd).1).2.1
      · rintro b hb b' hb' rfl
        obtain rfl : b = a := by simpa using hb'
        exact ha (.inl (.inr hb))

/-! ## The leaf that is split -/

/-- The number of keys smaller than `k`. -/
def LeafSlots.lowerBound [LinearOrder K] (s : LeafSlots K D) (k : K) : Nat :=
  (s.keys.takeWhile (decide <| · < k)).length

theorem zip_take {α β : Type} : ∀ (n : Nat) (xs : List α) (ys : List β),
    (xs.zip ys).take n = (xs.take n).zip ys
  | 0, _, _ => by simp
  | _ + 1, [], _ => by simp
  | _ + 1, _ :: _, [] => by simp
  | n + 1, x :: xs, y :: ys => by simp [zip_take n xs ys]

theorem LeafSlots.entries_eq_zip (s : LeafSlots K D) : s.entries = s.keys.zip s.dataSlots :=
  zip_take ..

/-- The pairs of a leaf after a new key has moved keys up, but no payloads. -/
theorem LeafSlots.entries_moved [LinearOrder K] {s s' : LeafSlots K D} {k : K} {d : D}
    (hok : LeafOK P s)
    (hroom : s.slotsinuse < P.leafnodemax)
    (hkeys : s'.keys = s.keys.takeWhile (decide <| · < k) ++ k ::
      s.keys.dropWhile (decide <| · < k))
    (hdata : s'.dataSlots = s.dataSlots.set (s.lowerBound k) d) :
    s'.entries = s.entries.take (s.lowerBound k) ++ (k, d) ::
      (s.keys.drop (s.lowerBound k)).zip (s.dataSlots.drop (s.lowerBound k + 1)) := by
  obtain ⟨as, has⟩ : ∃ as, as = s.keys.takeWhile (decide <| · < k) := ⟨_, rfl⟩
  obtain ⟨bs, hbs⟩ : ∃ bs, bs = s.keys.dropWhile (decide <| · < k) := ⟨_, rfl⟩
  have hcut : s.keys = as ++ bs := by rw [has, hbs, List.takeWhile_append_dropWhile]
  have hlb : s.lowerBound k = as.length := by rw [LeafSlots.lowerBound, ← has]
  have hlt : as.length < s.dataSlots.length := by
    have h1 : as.length ≤ s.keys.length := by simp [hcut]
    have h2 : s.keys.length ≤ s.slotsinuse := List.length_take_le ..
    rw [hok.dataCap]
    omega
  have hzip : as.zip (s.dataSlots.take as.length) = as.zip s.dataSlots := by
    have h1 : (as.zip s.dataSlots).take as.length = _ := zip_take ..
    have h2 : (as.zip s.dataSlots).take as.length = _ := List.take_zipWith
    rw [List.take_length] at h1 h2
    exact h2.symm.trans h1
  rw [← has, ← hbs] at hkeys
  rw [LeafSlots.entries_eq_zip, LeafSlots.entries_eq_zip, hkeys, hdata, hlb, hcut, List.drop_left,
    List.set_eq_take_append_cons_drop, if_pos hlt, List.zip_append (by simp; omega), zip_take,
    List.take_left, hzip]
  rfl

/-- The pairs of a leaf cut at the lower bound. -/
theorem LeafOK.exists_cut [LinearOrder K] {s : LeafSlots K D} (h : LeafOK P s) (k : K) :
    ∃ as bs, s.entries = as ++ bs ∧ (∀ e ∈ as, e.1 < k) ∧ (∀ e ∈ bs.head?, k ≤ e.1) ∧
      s.lowerBound k = as.length ∧ s.keys.takeWhile (decide <| · < k) = as.map Prod.fst ∧
      s.keys.dropWhile (decide <| · < k) = bs.map Prod.fst := by
  have htake : s.keys.takeWhile (decide <| · < k) =
      (s.entries.takeWhile fun e => decide (e.1 < k)).map Prod.fst := by
    rw [h.leafIs.keys_eq, List.takeWhile_map]
    rfl
  refine ⟨s.entries.takeWhile fun e => decide (e.1 < k),
    s.entries.dropWhile fun e => decide (e.1 < k),
    List.takeWhile_append_dropWhile.symm, fun e he => ?_, fun e he => ?_, ?_, htake, ?_⟩
  · simpa using List.mem_takeWhile_imp he
  · have := List.head?_dropWhile_not (fun e : K × D => decide (e.1 < k)) s.entries
    rw [Option.mem_def.mp he] at this
    simpa using this
  · rw [LeafSlots.lowerBound, htake, List.length_map]
  · rw [h.leafIs.keys_eq, List.dropWhile_map]
    rfl

/-- The first key of the upper half when `k` joins the keys of a full leaf. -/
def LeafSlots.splitKey [LinearOrder K] (P : Template K D) (s : LeafSlots K D) (k : K) : Option K :=
  let as := s.keys.takeWhile (decide <| · ≤ k)
  (as ++ k :: s.keys.drop as.length)[if as.length < P.leafnodemax / 2 then P.leafnodemax / 2 + 1
    else P.leafnodemax / 2]?

/-- The two leaves that a full leaf is split into. -/
structure Halves [LinearOrder K] (P : Template K D) (s : LeafSlots K D) (k : K) (d : D)
    (sln slp : LeafSlots K D) (kp : K) : Prop where
  splitKey : s.splitKey P k = some kp
  left : LeafOK P sln
  right : LeafOK P slp
  sortedLeft : sln.keys.Pairwise (· ≤ ·)
  sortedRight : slp.keys.Pairwise (· ≤ ·)
  first : kp ∈ slp.keys.head?
  two : 2 ≤ slp.keys.length
  /-- Unless the new key is smaller than all others the leaves share the merged pairs. -/
  merged : (∀ x ∈ s.keys.head?, x ≤ k) → sln.entries ++ slp.entries =
    (s.entries.takeWhile fun e => decide (e.1 ≤ k)) ++ (k, d) ::
      s.entries.dropWhile fun e => decide (e.1 ≤ k)

theorem exists_halves [LinearOrder K] (hcap : P.leafnodemax = 4) {s ln lp : LeafSlots K D}
    {rn rp : List K} (hok : LeafOK P s) (hfull : s.slotsinuse = P.leafnodemax)
    (hsort : s.keys.Pairwise (· ≤ ·)) (k : K) (d : D) (hln : LeafIs P ln [] rn)
    (hlp : LeafIs P lp [] rp) :
    ∃ sln slp kp, leafSplit P s ln lp k d = .ok (sln, slp) ∧ Halves P s k d sln slp kp := by
  have hs := hok.leafIs
  have hlen : s.entries.length = 4 := by rw [← hs.inuse, hfull, hcap]
  obtain ⟨as, has⟩ : ∃ as, as = s.entries.takeWhile fun e => decide (e.1 ≤ k) := ⟨_, rfl⟩
  obtain ⟨bs, hbs⟩ : ∃ bs, bs = s.entries.dropWhile fun e => decide (e.1 ≤ k) := ⟨_, rfl⟩
  have hcut : s.entries = as ++ bs := by rw [has, hbs, List.takeWhile_append_dropWhile]
  have hkeys : s.keys.takeWhile (decide <| · ≤ k) = as.map Prod.fst := by
    rw [has, hs.keys_eq, List.takeWhile_map]
    rfl
  have hdrop : s.keys.drop as.length = bs.map Prod.fst := by
    rw [hs.keys_eq, hcut, ← List.map_drop, List.drop_left]
  have hle : ∀ e ∈ as, e.1 ≤ k := by
    intro e he
    rw [has] at he
    simpa using List.mem_takeWhile_imp he
  have hgt : ∀ e ∈ bs.head?, k < e.1 := by
    intro e he
    have := List.head?_dropWhile_not (fun e : K × D => decide (e.1 ≤ k)) s.entries
    rw [← hbs, Option.mem_def.mp he] at this
    simpa using this
  have hlen' : as.length + bs.length = 4 := by
    rw [← hlen, hcut, List.length_append]
  -- the merged keys are in order
  have hmerge : (as.map Prod.fst ++ k :: bs.map Prod.fst).Pairwise (· ≤ ·) := by
    rw [hs.keys_eq, hcut, List.map_append] at hsort
    refine pairwise_insert le_trans hsort (by simpa using hle) fun y hy => ?_
    rw [List.head?_map] at hy
    obtain ⟨e, he, rfl⟩ := Option.map_eq_some_iff.mp hy
    exact le_of_lt (hgt e he)
  have hsplit : s.splitKey P k =
      (as.map Prod.fst ++ k :: bs.map Prod.fst)[splitPoint P as]? := by
    simp only [LeafSlots.splitKey, hkeys, List.length_map, hdrop, splitPoint]
  by_cases hnil : as = []
  · -- the new key is smaller than all others
    subst hnil
    obtain ⟨e₀, e₁, e₂, e₃, rfl⟩ : ∃ e₀ e₁ e₂ e₃, bs = [e₀, e₁, e₂, e₃] := by
      match bs, (show bs.length = 4 by simpa using hlen') with
      | [e₀, e₁, e₂, e₃], _ => exact ⟨e₀, e₁, e₂, e₃, rfl⟩
    rw [List.nil_append] at hcut
    rw [hcut] at hs
    have hk₀ : k < e₀.1 := hgt e₀ (by simp)
    simp only [List.map_nil, List.nil_append, List.map_cons, List.pairwise_cons] at hmerge
    obtain ⟨-, h₀, -, h₂, -⟩ := hmerge
    have hk₁ : k < e₁.1 := lt_of_lt_of_le hk₀ (h₀ _ (by simp))
    obtain ⟨sln, slp, e, h1, h2⟩ := leafSplit_front (d := d) hs hcap hk₀ hk₁ hln hlp
    refine ⟨sln, slp, e₂.1, e, ⟨?_, h1.ok, h2.ok, ?_, ?_, ?_, ?_, fun hx => ?_⟩⟩
    · rw [hsplit]
      simp [splitPoint, hcap]
    · rw [h1.keys_eq]
      simp [le_of_lt hk₁]
    · rw [h2.keys_eq]
      simpa using h₂
    · rw [h2.keys_eq]
      simp
    · rw [h2.keys_eq]
      simp
    · rw [hs.keys_eq] at hx
      exact absurd (hx e₀.1 (by simp)) (not_le.mpr hk₀)
  · have hpos : 0 < as.length := List.length_pos_iff.mpr hnil
    rw [hcut] at hs
    obtain ⟨sln, slp, e, h1, h2⟩ := leafSplit_spec (d := d) hs hfull hpos hle hgt (by omega) hln hlp
    have hpoint : splitPoint P as = 2 ∨ splitPoint P as = 3 := by
      unfold splitPoint
      split <;> omega
    have hall : (as ++ (k, d) :: bs).length = 5 := by
      rw [List.length_append, List.length_cons]
      omega
    have hmerge' : ((as ++ (k, d) :: bs).map Prod.fst).Pairwise (· ≤ ·) := by simpa using hmerge
    have hlt : splitPoint P as < (as ++ (k, d) :: bs).length := by omega
    refine ⟨sln, slp, (as ++ (k, d) :: bs)[splitPoint P as].1, e,
      ⟨?_, h1.ok, h2.ok, ?_, ?_, ?_, ?_, fun _ => ?_⟩⟩
    · rw [hsplit, show as.map Prod.fst ++ k :: bs.map Prod.fst =
        (as ++ (k, d) :: bs).map Prod.fst by simp, List.getElem?_map, List.getElem?_eq_getElem hlt]
      rfl
    · rw [h1.keys_eq, List.map_take]
      exact hmerge'.sublist (List.take_sublist _ _)
    · rw [h2.keys_eq, List.map_drop]
      exact hmerge'.sublist (List.drop_sublist _ _)
    · rw [h2.keys_eq, List.drop_eq_getElem_cons hlt, List.map_cons, List.head?_cons]
      rfl
    · rw [h2.keys_eq, List.length_map, List.length_drop]
      omega
    · rw [h1.entries_eq, h2.entries_eq, List.take_append_drop, ← has, ← hbs]

section Halves

variable [LinearOrder K] {s sln slp : LeafSlots K D} {k kp : K} {d : D}

theorem Halves.perm (h : Halves P s k d sln slp kp) (hfirst : ∀ x ∈ s.keys.head?, x ≤ k) :
    (sln.entries ++ slp.entries).Perm ((k, d) :: s.entries) := by
  rw [h.merged hfirst]
  refine List.perm_middle.trans ?_
  rw [List.takeWhile_append_dropWhile]

theorem Halves.keys_perm (h : Halves P s k d sln slp kp) (hok : LeafOK P s)
    (hfirst : ∀ x ∈ s.keys.head?, x ≤ k) : (sln.keys ++ slp.keys).Perm (k :: s.keys) := by
  rw [h.left.leafIs.keys_eq, h.right.leafIs.keys_eq, hok.leafIs.keys_eq, ← List.map_append]
  exact (h.perm hfirst).map Prod.fst

theorem Halves.keys_sorted (h : Halves P s k d sln slp kp) (hok : LeafOK P s)
    (hsort : s.keys.Pairwise (· ≤ ·)) (hfirst : ∀ x ∈ s.keys.head?, x ≤ k) :
    (sln.keys ++ slp.keys).Pairwise (· ≤ ·) := by
  have hkeys : sln.keys ++ slp.keys = s.keys.takeWhile (decide <| · ≤ k) ++
      k :: s.keys.dropWhile (decide <| · ≤ k) := by
    rw [h.left.leafIs.keys_eq, h.right.leafIs.keys_eq, ← List.map_append, h.merged hfirst,
      hok.leafIs.keys_eq, List.takeWhile_map, List.dropWhile_map, List.map_append, List.map_cons]
    rfl
  rw [hkeys]
  refine pairwise_insert le_trans ?_ (fun x hx => by simpa using List.mem_takeWhile_imp hx)
    fun y hy => ?_
  · rwa [List.takeWhile_append_dropWhile]
  · have := List.head?_dropWhile_not (decide <| · ≤ k) s.keys
    rw [Option.mem_def.mp hy] at this
    exact le_of_lt (by simpa using this)

/-- The separator does not exceed the old keys. -/
theorem Halves.exists_le (h : Halves P s k d sln slp kp)
    (hperm : (sln.keys ++ slp.keys).Perm (k :: s.keys))
    (hlt : (sln.keys ++ slp.keys).Pairwise (· < ·)) : ∃ y ∈ s.keys, kp ≤ y := by
  obtain ⟨z, zs, hz⟩ : ∃ z zs, slp.keys = kp :: z :: zs := by
    have hfst := h.first
    have htwo := h.two
    match hslp : slp.keys, htwo with
    | x :: z :: zs, _ =>
      obtain rfl : x = kp := by simpa [hslp] using hfst
      exact ⟨z, zs, rfl⟩
  have hmem : ∀ x ∈ slp.keys, x = k ∨ x ∈ s.keys := fun x hx =>
    List.mem_cons.mp (hperm.subset (List.mem_append_right _ hx))
  have hlt' := (List.pairwise_append.mp hlt).2.1
  rw [hz] at hlt'
  have hkpz : kp < z := (List.pairwise_cons.mp hlt').1 z (by simp)
  rcases hmem z (by simp [hz]) with rfl | hz'
  · exact ⟨kp, (hmem kp (by simp [hz])).resolve_left (ne_of_lt hkpz), le_rfl⟩
  · exact ⟨z, hz', le_of_lt hkpz⟩

end Halves

section Target

variable [LinearOrder K] (P : Template K D) (t : BTree K D) (k : K)

/-- The full leaf that an insert of `k` has to split. -/
def BTree.splitTarget : Option (Addr × LeafNode K D) :=
  match t.find P k with
  | .ok (some a) =>
    match t.leaf a with
    | .ok l => if l.isfull P then some (a, l) else none
    | .error _ => none
  | _ => none

/-- If an insert of `k` splits nodes, each of them is the last child of its parent. -/
def BTree.splitsAtEnd : Bool :=
  match t.splitTarget P k with
  | some (a, l) =>
    match l.splitKey P k with
    | some kp => t.overflowsAtEnd P t.fuel l.parent a kp
    | none => true
  | none => true

end Target

/-! ## Any order of inserts -/

/-- A tree with chain links that lead to the right and leaves in order. -/
structure Standing [LE K] (P : Template K D) (t : BTree K D) (T : (n : Nat) × MTree K D n) :
    Prop where
  rep : Rep P t.view T.2
  forward : Forward t.view.links.nxt ((tips T.2.inorder).map Tip.addr)
  sorted : ∀ l ∈ tips T.2.inorder, l.body.keys.Pairwise (· ≤ ·)

/-- The walk of `find` goes on behind a full leaf that has a successor. -/
def Lets (P : Template K D) (v : View K D) (l : Tip Addr (LeafSlots K D)) : Prop :=
  l.body.slotsinuse = P.leafnodemax ∧ v.links.nxt l.addr ≠ none

section Standing

variable [LinearOrder K] {t t' : BTree K D} {T : (n : Nat) × MTree K D n} {k : K}
  {c : MCtx K D 0} {n : Tip Addr (LeafSlots K D)}

theorem stops_iff_not_passes {v : View K D} (h : LeafOK P n.body) :
    Stops P v k n = true ↔ ¬Passes LeafSlots.keys (Lets P v) k n := by
  rw [stops_iff h, Passes, Lets, h.leafIs.keys_eq, ← h.leafIs.inuse]
  constructor
  · rintro (⟨e, he, hk⟩ | hroom | hlast) ⟨⟨hfull, hnext⟩, hlt⟩
    · exact absurd (hlt e.1 (List.mem_map_of_mem he)) (not_lt.mpr hk)
    · omega
    · exact hnext hlast
  · intro hnot
    by_contra hall
    simp only [not_or, not_exists, not_and, not_lt, not_le] at hall
    obtain ⟨hlt, hfull, hnext⟩ := hall
    refine hnot ⟨⟨le_antisymm h.inuse hfull, hnext⟩, fun x hx => ?_⟩
    obtain ⟨e, he, rfl⟩ := List.mem_map.mp hx
    exact hlt e he

/-- Where `find` ends, and how it gets there when the separators are in order. -/
theorem Standing.find (h : Standing P t T) (k : K) :
    ∃ (c : MCtx K D 0) (n : Tip Addr (LeafSlots K D)), T = c.fill n ∧ c.Paired ∧
      t.find P k = .ok (some n.addr) ∧ ¬Passes LeafSlots.keys (Lets P t.view) k n ∧
      ((seps T.2.inorder).Pairwise (· ≤ ·) →
        Reaches LeafSlots.keys (Lets P t.view) c.left c.right k) := by
  obtain ⟨c, l, n, rfl, hc, hr, hfind, e⟩ := find_walk h.rep.stands h.forward k
  have hin := Ctx.inorder_fill_leaf hc l
  have hok : ∀ m ∈ l :: tips c.right, LeafOK P m.body := fun m hm =>
    (h.rep.holds.tip h.rep.paired (by
      rw [hin, tips_append, tips_inr]
      exact List.mem_append_right _ hm)).2
  obtain ⟨hn, M, R, hsplit, hM⟩ := List.find?_eq_some_iff_append.mp hfind
  have hpass : ∀ m ∈ M, Passes LeafSlots.keys (Lets P t.view) k m := by
    intro m hm
    have := hM m hm
    rw [Bool.not_eq_true', ← Bool.not_eq_true, stops_iff_not_passes (hok m (by simp [hsplit, hm])),
      not_not] at this
    exact this
  have hsides : (seps (c.fill l).2.inorder).Pairwise (· ≤ ·) →
      (∀ s ∈ seps c.left, s ≤ k) ∧ ∀ s ∈ seps c.right, k < s := by
    intro hs
    rw [hin, seps_append, seps_inr] at hs
    obtain ⟨hL, hR, -⟩ := List.pairwise_append.mp hs
    exact ⟨hr.left_le hc hL, hr.lt_right hc hR⟩
  have hstop := (stops_iff_not_passes (hok n (by simp [hsplit]))).mp hn
  cases M with
  | nil =>
    obtain ⟨rfl, -⟩ := List.cons_eq_cons.mp hsplit
    refine ⟨c, l, rfl, hc, e, hstop, fun hs => ?_⟩
    obtain ⟨hL, hR⟩ := hsides hs
    exact ⟨c.left, [], by simp, by simp, hL, by simpa using hR, by simp⟩
  | cons m M =>
    obtain ⟨rfl, htips⟩ := List.cons_eq_cons.mp hsplit
    obtain ⟨X, Y, hY, rfl⟩ := tips_split htips
    obtain ⟨c', heq, hc'⟩ := Ctx.exists_hole .top (c.fill l).2 trivial h.rep.paired
      (show n ∈ tips (c.fill l).2.inorder by rw [hin, hY]; simp)
    have hin' : (c.fill l).2.inorder = c'.left ++ .inr n :: c'.right := by
      rw [show c.fill l = c'.fill n from heq]
      exact Ctx.inorder_fill_leaf hc' n
    have hnd := h.rep.tips_nodup
    rw [hin, hY, ← List.cons_append, ← List.append_assoc] at hnd
    obtain ⟨hleft, hright⟩ := tips_split_unique hnd (by rw [← hin', hin, hY]; simp)
    refine ⟨c', n, heq, hc', e, hstop, fun hs => ?_⟩
    obtain ⟨hL, hR⟩ := hsides hs
    rw [hY] at hR
    exact ⟨c.left, .inr l :: X, hleft, by simp,
      hL, by simpa [hright] using hR, by simpa using hpass⟩

/-- Writing the slots of one leaf. -/
theorem Standing.setLeaf {s : LeafSlots K D} {m : Nat} (h : Standing P t (c.fill n))
    (hc : c.Paired) (hok : LeafOK P s) (hsort : s.keys.Pairwise (· ≤ ·))
    (hv : t'.view = { t.view.setBody n.addr (.leaf s) with count := m }) :
    Standing P t' (c.fill (.leaf n.addr s)) := by
  have hin := Ctx.inorder_fill_leaf hc n
  have hin' := Ctx.inorder_fill_leaf hc ⟨n.addr, s⟩
  refine ⟨?_, ?_, fun l hl => ?_⟩
  · rw [hv]
    exact (h.rep.setLeaf hc hok).congr rfl (fun _ _ => rfl) (fun _ _ => rfl) (fun _ _ => rfl)
      (fun _ _ => ⟨rfl, rfl⟩)
  · have hfwd := h.forward
    rw [hin] at hfwd
    rw [hin', hv]
    simpa using hfwd
  · rw [hin', tips_append, tips_inr, List.mem_append, List.mem_cons] at hl
    obtain hl | rfl | hl := hl
    · exact h.sorted l (by simp [hin, hl])
    · exact hsort
    · exact h.sorted l (by simp [hin, hl])

theorem Standing.tip (h : Standing P t (c.fill n)) (hc : c.Paired) :
    t.view.body n.addr = some (.leaf n.body) ∧ LeafOK P n.body :=
  h.rep.holds.tip h.rep.paired (by simp [Ctx.inorder_fill_leaf hc])

theorem Standing.root_ne (h : Standing P t T) : t.root ≠ none := by
  have := h.rep.root
  intro hroot
  rw [show t.view.root = t.root from rfl, hroot] at this
  simp at this

variable [DecidableEq D] {d : D} {as bs : List (K × D)}

theorem Standing.scan (h : Standing P t (c.fill n)) (hc : c.Paired) {j : Nat}
    (hj : j < P.leafnodemax) :
    t.duplicateScan k d t.fuel (some n.addr) j =
        .ok (decide ((k, d) ∈ t.equalRun k t.fuel (some n.addr) j)) ∧
      ∀ e ∈ t.equalRun k t.fuel (some n.addr) j, e ∈ pairs (c.fill n).2.inorder :=
  h.rep.stands.scan h.forward hc hj

/-- A pair that the scan finds is not stored again. -/
theorem Standing.insert_duplicate (h : Standing P t (c.fill n)) (hc : c.Paired)
    (hfind : t.find P k = .ok (some n.addr)) (hroom : n.body.slotsinuse < P.leafnodemax)
    (hcut : n.body.entries = as ++ bs) (hlt : ∀ e ∈ as, e.1 < k) (hge : ∀ e ∈ bs.head?, k ≤ e.1)
    (hrun : (k, d) ∈ t.equalRun k t.fuel (some n.addr) as.length) :
    t.insert P k d = .ok (-2, t) := by
  obtain ⟨hbody, hok⟩ := h.tip hc
  have hs := hok.leafIs
  have hin := hs.inuse
  rw [hcut] at hs hin
  rw [hin] at hroom
  obtain ⟨hscan, -⟩ := h.scan (k := k) (d := d) hc (show as.length < P.leafnodemax by
    simp only [List.length_append] at hroom
    omega)
  rw [decide_eq_true hrun] at hscan
  exact NwtBTree.insert_duplicate h.root_ne hfind hbody hs hroom hlt hge hscan

/-- A leaf with room takes the pair at the lower bound of its key; only the keys move up. -/
theorem Standing.insert_room (h : Standing P t (c.fill n)) (hc : c.Paired)
    (hfind : t.find P k = .ok (some n.addr)) (hroom : n.body.slotsinuse < P.leafnodemax)
    (hcut : n.body.entries = as ++ bs) (hlt : ∀ e ∈ as, e.1 < k) (hge : ∀ e ∈ bs.head?, k ≤ e.1)
    (hrun : (k, d) ∉ t.equalRun k t.fuel (some n.addr) as.length) :
    ∃ t' s', t.insert P k d = .ok (1, t') ∧ Standing P t' (c.fill (.leaf n.addr s')) ∧
      t'.view.links = t.view.links ∧ s'.keys = as.map Prod.fst ++ k :: bs.map Prod.fst ∧
      s'.dataSlots = n.body.dataSlots.set as.length d := by
  obtain ⟨hbody, hok⟩ := h.tip hc
  have hs := hok.leafIs
  have hin := hs.inuse
  rw [hcut] at hs hin
  rw [hin] at hroom
  obtain ⟨hscan, -⟩ := h.scan (k := k) (d := d) hc (show as.length < P.leafnodemax by
    simp only [List.length_append] at hroom
    omega)
  rw [decide_eq_false hrun] at hscan
  obtain ⟨s', es, e1, hs', hkeys, hdata⟩ := insertLeafSlotsAt_spec hs hroom k d
  obtain ⟨t', e, hv⟩ := NwtBTree.insert_room h.root_ne hfind hbody hs hroom hlt hge hscan e1
  have hkeys' : s'.keys = as.map Prod.fst ++ k :: bs.map Prod.fst := hs'.keys_eq.trans hkeys
  refine ⟨t', s', e, h.setLeaf hc hs'.ok ?_ hv, ?_, hkeys', hdata⟩
  · have hsort := h.sorted n (by simp [Ctx.inorder_fill_leaf hc])
    rw [hs.keys_eq, List.map_append] at hsort
    rw [hkeys']
    refine pairwise_insert le_trans hsort (fun x hx => ?_) fun y hy => ?_
    · obtain ⟨e, he, rfl⟩ := List.mem_map.mp hx
      exact le_of_lt (hlt e he)
    · rw [List.head?_map] at hy
      obtain ⟨e, he, rfl⟩ := Option.map_eq_some_iff.mp hy
      exact hge e he
  · rw [hv]
    rfl

omit [DecidableEq D] in
/-- The leaf in front of a last child is its sibling. -/
theorem SibsCtx.getLast {l : Links} {c : MCtx K D 0} {x : Addr} {cap : Nat} {k : K}
    (h : SibsCtx l c x) (hc : c.Paired) (hend : c.AtEnd cap k) :
    ∀ z ∈ ((tips c.left).map Tip.addr).getLast?, l.nxt z ≠ none := by
  cases c with
  | top => simp
  | frame up a ksL csL ksR csR =>
    obtain ⟨rfl, rfl, -⟩ := hend
    obtain ⟨hlen, -, hpos, -⟩ := hc
    obtain ⟨cs, d, rfl⟩ := List.eq_nil_or_concat csL |>.resolve_left (by
      rintro rfl
      simp only [List.length_nil] at hlen hpos
      omega)
    have hlast : ((tips (Ctx.frame up a ksL (cs.concat d) [] []).left).map Tip.addr).getLast? =
        some d.addr := by
      rw [Ctx.left_frame, tips_append, tips_before _ hlen, List.concat_eq_append]
      simp [Tree.inorder, Tree.addr]
    intro z hz
    rw [hlast] at hz
    obtain rfl := Option.mem_some_iff.mp hz
    have hchain := h.1 rfl
    simp only [List.concat_eq_append, List.map_append, List.map_cons, List.map_nil,
      List.append_assoc, List.cons_append, List.nil_append] at hchain
    rw [(List.isChain_cons_cons.mp hchain.right_of_append).1.1]
    simp

/-- A full leaf is split where everything overflows at the end. -/
theorem Standing.insert_split (hcap : 3 ≤ P.innernodemax) (hsame : P.leafnodemax = P.innernodemax)
    (h : Standing P t (c.fill n)) (hc : c.Paired) (hfind : t.find P k = .ok (some n.addr))
    (hfull : n.body.slotsinuse = P.leafnodemax) {sln slp : LeafSlots K D} {kp : K}
    (e1 : leafSplit P n.body (LeafNode.fresh P t.nodes.size).toLeafSlots
      (LeafNode.fresh P (t.nodes.size + 1)).toLeafSlots k d = .ok (sln, slp))
    (hh : Halves P n.body k d sln slp kp)
    (hover : t.overflowsAtEnd P t.fuel (t.view.par n.addr) n.addr kp = true) :
    c.AtEnd P.innernodemax kp ∧ ∃ t' T', t.insert P k d = .ok (1, t') ∧ Standing P t' T' ∧
      T'.2.inorder = c.left ++ .inr ⟨t.nodes.size, sln⟩ :: .inl kp ::
        .inr ⟨t.nodes.size + 1, slp⟩ :: c.right ∧
      ∀ l ∈ tips c.left ++ tips c.right,
        t'.view.links.nxt l.addr = none ↔ t.view.links.nxt l.addr = none := by
  obtain ⟨hbody, hok⟩ := h.tip hc
  have hs := hok.leafIs
  have hin := Ctx.inorder_fill_leaf hc n
  have hpar : t.view.par n.addr = c.parent :=
    ((parOK_fill c (.leaf n.addr n.body)).mp h.rep.par).2
  rw [hpar] at hover
  have hend : c.AtEnd P.innernodemax kp := by
    refine atEnd_of_overflowsAtEnd (h.rep.hole hc) ?_ (h.rep.depth_lt_fuel) hover
    exact h.rep.nodup_fill
  have hkp : load slp.keySlots 0 = .ok kp := by
    have hlp := hh.right.leafIs
    have hfirst := hh.first
    have hpos : 0 < slp.entries.length := by
      have := hh.two
      rw [hlp.keys_eq, List.length_map] at this
      omega
    rw [hlp.keys_eq, List.head?_map, List.head?_eq_getElem?,
      List.getElem?_eq_getElem hpos] at hfirst
    rw [hlp.load_key hpos]
    simpa using hfirst
  obtain ⟨t', e2, hdone⟩ := splitLeaf_done (Ctx.growable_of_three hcap c) h.rep hc e1 hh.left
    hh.right hkp hend
  have hseq := @Ctx.inorder_pushUp _ _ _ _ id _ (show 2 ≤ P.innernodemax by omega) _ _ hc _ hend
    (t.nodes.size + 2) (.leaf t.nodes.size sln) (.leaf (t.nodes.size + 1) slp)
  simp only [Tree.inorder_leaf, List.append_assoc, List.cons_append, List.nil_append] at hseq
  -- the addresses of the leaves
  obtain ⟨A, hA⟩ : ∃ A, A = (tips c.left).map Tip.addr := ⟨_, rfl⟩
  obtain ⟨B, hB⟩ : ∃ B, B = (tips c.right).map Tip.addr := ⟨_, rfl⟩
  have hfwd := h.forward
  have hsub := Tree.tips_sublist h.rep.paired
  rw [hin] at hfwd hsub
  simp only [tips_append, tips_inr, List.map_append, List.map_cons, ← hA, ← hB] at hfwd hsub
  have hlt : ∀ b ∈ A ++ n.addr :: B, b < t.nodes.size := fun b hb => h.rep.lt_size (hsub.subset hb)
  have hnd := hsub.nodup h.rep.nodup
  obtain ⟨hndA, hndB, hdisj⟩ := List.nodup_append'.mp hnd
  have hltA : ∀ b ∈ A, b < t.nodes.size := fun b hb => hlt b (List.mem_append_left _ hb)
  have hltB : ∀ b ∈ B, b < t.nodes.size := fun b hb => hlt b (by simp [hb])
  have hnd' := nodup_fresh hndA hltA
  have hB' : ∀ b ∈ B, b ∉ A ++ [t.nodes.size, t.nodes.size + 1] := by
    intro b hb
    rw [List.mem_append, not_or]
    exact ⟨fun hbA => hdisj hbA (List.mem_cons_of_mem _ hb), not_mem_fresh (hltB b hb)⟩
  have hneA : ∀ b ∈ A, b ≠ n.addr := by
    rintro b hb rfl
    exact hdisj hb List.mem_cons_self
  have hneB : ∀ b ∈ B, b ≠ n.addr := by
    rintro b hb rfl
    exact (List.nodup_cons.mp hndB).1 hb
  have hn := hlt n.addr (by simp)
  have hnxt : ∀ b, b ≠ n.addr → t'.view.links.nxt b =
      (t.view.links.grow true A t.nodes.size (t.nodes.size + 1)).nxt b := by
    intro b hb
    rw [hdone.nxt b hb, grow_lefts hc hend, hA]
  have hfwd' := (hfwd.grow hnd' hB' (BTree.links_new (Nat.le_succ _)).1).congr
    fun b hb => hnxt b (by
      simp only [List.mem_append, List.mem_cons] at hb
      obtain hb | rfl | rfl | hb := hb
      · exact hneA b hb
      · exact (Nat.ne_of_lt hn).symm
      · exact (Nat.ne_of_lt (Nat.lt_succ_of_lt hn)).symm
      · exact hneB b hb)
  refine ⟨hend, t', _, NwtBTree.insert_split h.root_ne hsame hfind hbody hs
    (by rw [← hs.inuse, hfull]) e2, ⟨hdone.rep, ?_, ?_⟩, hseq, ?_⟩
  · rw [hseq]
    simpa [hA, hB] using hfwd'
  · intro l hl
    rw [hseq] at hl
    simp only [tips_append, tips_inr, tips_inl, List.mem_append, List.mem_cons] at hl
    obtain hl | rfl | rfl | hl := hl
    · exact h.sorted l (by simp [hin, hl])
    · exact hh.sortedLeft
    · exact hh.sortedRight
    · exact h.sorted l (by simp [hin, hl])
  · intro l hl
    rcases List.mem_append.mp hl with hl | hl
    · have hlA : l.addr ∈ A := hA ▸ List.mem_map_of_mem hl
      rw [hnxt _ (hneA _ hlA)]
      refine Links.grow_nxt_eq_none hnd' hlA ?_
      rw [hA]
      exact (h.rep.hole hc).sibs.getLast hc hend
    · have hlB : l.addr ∈ B := hB ▸ List.mem_map_of_mem hl
      rw [hnxt _ (hneB _ hlB), (Links.grow_of_not_mem (hB' _ hlB)).1]

end Standing

/-- What `insert` does at the leaf `n` that `find` gives. -/
inductive Inserted [LinearOrder K] (P : Template K D) (t : BTree K D) (k : K) (d : D)
    (c : MCtx K D 0) (n : Tip Addr (LeafSlots K D)) :
    Int → BTree K D → List (Item Addr K (LeafSlots K D)) → Prop
  | duplicate (room : n.body.slotsinuse < P.leafnodemax)
      (run : (k, d) ∈ t.equalRun k t.fuel (some n.addr) (n.body.lowerBound k))
      (stored : (k, d) ∈ pairs (c.left ++ .inr n :: c.right)) :
      Inserted P t k d c n (-2) t (c.left ++ .inr n :: c.right)
  | room {t' : BTree K D} {s : LeafSlots K D} (room : n.body.slotsinuse < P.leafnodemax)
      (run : (k, d) ∉ t.equalRun k t.fuel (some n.addr) (n.body.lowerBound k))
      (links : t'.view.links = t.view.links)
      (keys : s.keys = n.body.keys.takeWhile (decide <| · < k) ++ k ::
        n.body.keys.dropWhile (decide <| · < k))
      (data : s.dataSlots = n.body.dataSlots.set (n.body.lowerBound k) d) :
      Inserted P t k d c n 1 t' (c.left ++ .inr ⟨n.addr, s⟩ :: c.right)
  | split {t' : BTree K D} {sln slp : LeafSlots K D} {kp : K}
      (full : n.body.slotsinuse = P.leafnodemax) (halves : Halves P n.body k d sln slp kp)
      (atEnd : c.AtEnd P.innernodemax kp)
      (next : ∀ l ∈ tips c.left ++ tips c.right,
        t'.view.links.nxt l.addr = none ↔ t.view.links.nxt l.addr = none) :
      Inserted P t k d c n 1 t' (c.left ++ .inr ⟨t.nodes.size, sln⟩ :: .inl kp ::
        .inr ⟨t.nodes.size + 1, slp⟩ :: c.right)

section Insert

variable [LinearOrder K] [DecidableEq D] {t : BTree K D} {T : (n : Nat) × MTree K D n} {k : K}

/-- Every insert that splits only at the end. -/
theorem Standing.insert (hleaf : P.leafnodemax = 4) (hinner : P.innernodemax = 4)
    (h : Standing P t T) (hend : t.splitsAtEnd P k = true) (d : D) :
    ∃ (c : MCtx K D 0) (n : Tip Addr (LeafSlots K D)) (o : Int) (t' : BTree K D)
      (T' : (n : Nat) × MTree K D n), T = c.fill n ∧ c.Paired ∧ t.find P k = .ok (some n.addr) ∧
      ¬Passes LeafSlots.keys (Lets P t.view) k n ∧
      ((seps T.2.inorder).Pairwise (· ≤ ·) →
        Reaches LeafSlots.keys (Lets P t.view) c.left c.right k) ∧
      t.insert P k d = .ok (o, t') ∧ Standing P t' T' ∧ Inserted P t k d c n o t' T'.2.inorder := by
  obtain ⟨c, n, rfl, hc, hfind, hstop, hreach⟩ := h.find k
  obtain ⟨hbody, hok⟩ := h.tip hc
  have hs := hok.leafIs
  have hin := Ctx.inorder_fill_leaf hc n
  rcases Nat.lt_or_ge n.body.slotsinuse P.leafnodemax with hroom | hfull
  · -- room
    obtain ⟨as, bs, hcut, hlt, hge, hbound, htake, hdrop⟩ := hok.exists_cut k
    by_cases hrun : (k, d) ∈ t.equalRun k t.fuel (some n.addr) as.length
    · refine ⟨c, n, -2, t, _, rfl, hc, hfind, hstop, hreach,
        h.insert_duplicate hc hfind hroom hcut hlt hge hrun, h, ?_⟩
      have hlen : as.length < P.leafnodemax := by
        have := hs.inuse
        rw [hcut, List.length_append] at this
        omega
      have hstored := (h.scan (k := k) (d := d) hc hlen).2 _ hrun
      rw [hin] at hstored ⊢
      exact .duplicate hroom (hbound ▸ hrun) hstored
    · obtain ⟨t', s', e, h', hlinks, hkeys, hdata⟩ := h.insert_room hc hfind hroom hcut hlt hge hrun
      refine ⟨c, n, 1, t', _, rfl, hc, hfind, hstop, hreach, e, h', ?_⟩
      rw [show Ctx.fill c (.leaf n.addr s') = c.fill (⟨n.addr, s'⟩ : Tip Addr _) from rfl,
        Ctx.inorder_fill_leaf hc]
      exact .room hroom (hbound ▸ hrun) hlinks (by rw [htake, hdrop, hkeys]) (hbound ▸ hdata)
  · -- a split
    replace hfull := le_antisymm hok.inuse hfull
    obtain ⟨sln, slp, kp, e1, hh⟩ := exists_halves hleaf hok hfull (h.sorted n (by simp [hin])) k d
      (LeafIs.fresh P t.nodes.size) (LeafIs.fresh P (t.nodes.size + 1))
    have hover : t.overflowsAtEnd P t.fuel (t.view.par n.addr) n.addr kp = true := by
      have hisfull : n.body.isfull P = true := by simpa [LeafSlots.isfull] using hfull
      simpa [BTree.splitsAtEnd, BTree.splitTarget, hfind, BTree.leaf_eq hbody, hisfull,
        hh.splitKey] using hend
    obtain ⟨hatEnd, t', T', e, h', hseq, hnext⟩ := h.insert_split (by omega) (by omega) hc hfind
      hfull e1 hh hover
    refine ⟨c, n, 1, t', T', rfl, hc, hfind, hstop, hreach, e, h', ?_⟩
    rw [hseq]
    exact .split hfull hh hatEnd hnext

/-- The first key. -/
theorem standing_first (hcap : 0 < P.leafnodemax) (hroot : t.root = none) (k : K) (d : D) :
    ∃ t' s, t.insert P k d = .ok (1, t') ∧
      Standing P t' ⟨0, .leaf t.nodes.size s⟩ ∧ s.entries = [(k, d)] := by
  obtain ⟨t', s, e, hs, hrep, hlinks, -⟩ := insert_first (d := d) (k := k) hroot hcap
  refine ⟨t', s, e, ⟨hrep, ?_, ?_⟩, hs.entries_eq⟩
  · simp [hlinks, (BTree.links_new (t := t) (le_refl t.nodes.size)).1]
  · intro l hl
    obtain rfl : l = ⟨t.nodes.size, s⟩ := by simpa using hl
    rw [show LeafSlots.keys _ = [k] from hs.keys_eq]
    simp

end Insert

end NwtBTree
