import NwtBTree.Machine.History
import NwtBTree.Refine.Registry

/-!
# Counting the open handles

`openIndex` counts the caller before it knows whether it can serve it, and it serves
only the first one. As long as every index is opened while nobody has it open the
counters are right; the first `openIndex` that finds it open ends this.
-/

namespace NwtBTree

namespace Server

/-- The handle that a call returned for `name`. -/
def openedAs (name : String) : Call × Outcome → Option Addr
  | (.openIndex n, .returned .success (some ident)) => if n = name then some ident else none
  | _ => none

/-- The handle that a call closed. -/
def closedBy : Call × Outcome → Option Addr
  | (.closeIndex ident, .returned _ _) => some ident
  | _ => none

/-- The handles returned by the successful calls of `openIndex` on `name`. -/
def handlesOf (h : List (Call × Outcome)) (name : String) : List Addr :=
  h.filterMap (openedAs name)

def closedHandles (h : List (Call × Outcome)) : List Addr := h.filterMap closedBy

/-- The successful calls of `openIndex` on `name`, less the calls of `closeIndex` on their
handles. -/
def openCount (h : List (Call × Outcome)) (name : String) : Int :=
  (handlesOf h name).length - (closedHandles h).countP (· ∈ handlesOf h name)

/-- `closeIndex` is called on a handle that was returned, and once. -/
def ClosesOnce (h : List (Call × Outcome)) (s : Server) : Call → Prop
  | .closeIndex ident => ident < s.states.length ∧ ident ∉ closedHandles h
  | _ => True

instance ClosesOnce.decidable (h : List (Call × Outcome)) (s : Server) :
    ∀ c, Decidable (ClosesOnce h s c)
  | .create .. => isTrue trivial
  | .openIndex _ => isTrue trivial
  | .closeIndex ident =>
    inferInstanceAs (Decidable (ident < s.states.length ∧ ident ∉ closedHandles h))

/-- After the call every counter is right; an `openIndex` without success changes nothing, and on
a name of the list it has success. -/
def Accounts (h : List (Call × Outcome)) (s : Server) (c : Call) : Prop :=
  ∃ o s', s.serve c = .ok (o, s') ∧
    (∀ link ∈ s'.dbLookup, link.numOpenThreads.toInt = openCount (h ++ [(c, o)]) link.name) ∧
    ∀ name, c = .openIndex name →
      ((∀ idxState, o ≠ .returned .success idxState) → s'.dbLookup = s.dbLookup) ∧
      (name ∈ s.names → ∃ ident, o = .returned .success (some ident))

/-- An `openIndex` on a name of the list finds the mutex free and nobody who has the index open. -/
def FindsClosed (_ : List (Call × Outcome)) (s : Server) (c : Call) : Prop :=
  ∀ name, c = .openIndex name → name ∈ s.names → s.ILINK_LOCK = false ∧
    ∀ link ∈ s.dbLookup, link.name = name → link.numOpenThreads = 0

variable {s s' : Server} {c : Call} {o : Outcome} {h : List (Call × Outcome)} {name : String}
  {ident : Addr}

theorem handlesOf_concat {e : Call × Outcome} :
    handlesOf (h ++ [e]) name = handlesOf h name ++ (openedAs name e).toList := by
  cases he : openedAs name e <;> simp [handlesOf, he]

theorem closedHandles_concat {e : Call × Outcome} :
    closedHandles (h ++ [e]) = closedHandles h ++ (closedBy e).toList := by
  cases he : closedBy e <;> simp [closedHandles, he]

/-- The handles are those of the history, at most one of each index is open, and the counter says
whether one is. -/
structure Accounted (h : List (Call × Outcome)) (s : Server) : Prop where
  handles : s.HandlesKnown
  nodup : s.names.Nodup
  owner : ∀ ident name, ident ∈ handlesOf h name ↔
    ∃ state, s.states[ident]? = some state ∧ state.dbName = name
  closed : ∀ ident ∈ closedHandles h, ident < s.states.length
  unique : ∀ name, ∀ i ∈ handlesOf h name, i ∉ closedHandles h → ∀ j ∈ handlesOf h name,
    j ∉ closedHandles h → i = j
  live : ∀ link ∈ s.dbLookup, ∀ ident ∈ handlesOf h link.name, ident ∉ closedHandles h →
    link.numOpenThreads = 1
  small : ∀ link ∈ s.dbLookup, link.numOpenThreads = 0 ∨ link.numOpenThreads = 1
  count : ∀ link ∈ s.dbLookup, link.numOpenThreads.toInt = openCount h link.name

theorem accounted_init : Accounted [] init where
  handles := handlesKnown_init
  nodup := List.nodup_nil
  owner := by simp [handlesOf, init]
  closed := by simp [closedHandles]
  unique := by simp [handlesOf]
  live := by simp [init]
  small := by simp [init]
  count := by simp [init]

/-- A call that opens and closes nothing. -/
theorem Accounted.frame (ha : Accounted h s) (hopen : ∀ name, openedAs name (c, o) = none)
    (hclose : closedBy (c, o) = none) (hlinks : s'.dbLookup = s.dbLookup)
    (hstates : s'.states = s.states) : Accounted (h ++ [(c, o)]) s' := by
  have h1 : ∀ name, handlesOf (h ++ [(c, o)]) name = handlesOf h name := by
    intro name
    simp [handlesOf_concat, hopen]
  have h2 : closedHandles (h ++ [(c, o)]) = closedHandles h := by
    simp [closedHandles_concat, hclose]
  have h3 : ∀ name, openCount (h ++ [(c, o)]) name = openCount h name := by
    intro name
    simp [openCount, h1, h2]
  constructor
  · simpa [HandlesKnown, names, hlinks, hstates] using ha.handles
  · simpa [names, hlinks] using ha.nodup
  · simpa [h1, hstates] using ha.owner
  · simpa [h2, hstates] using ha.closed
  · simpa [h1, h2] using ha.unique
  · simpa [h1, h2, hlinks] using ha.live
  · simpa [hlinks] using ha.small
  · simpa [h3, hlinks] using ha.count

theorem Accounted.registered (ha : Accounted h s) (hi : ident ∈ handlesOf h name) :
    name ∈ s.names := by
  obtain ⟨state, hstate, rfl⟩ := (ha.owner ident name).mp hi
  exact ha.handles ident state hstate

/-- The other links of the list have other names. -/
theorem name_ne_of_split {pre post : List DBLink} {link l : DBLink} (hnd : s.names.Nodup)
    (hs : s.dbLookup = pre ++ link :: post) (hl : l ∈ pre ++ post) : l.name ≠ link.name := by
  have hp : (s.dbLookup.map DBLink.name).Perm ((link :: (pre ++ post)).map DBLink.name) := by
    rw [hs]
    exact List.perm_middle.map _
  intro he
  exact (List.nodup_cons.mp (hp.nodup_iff.mp hnd)).1 (List.mem_map.mpr ⟨l, hl, he⟩)

theorem Accounted.created (ha : Accounted h s) {link : DBLink} (hname : link.name ∉ s.names)
    (hzero : link.numOpenThreads = 0) (hlinks : s'.dbLookup = s.dbLookup ++ [link])
    (hstates : s'.states = s.states) (hk : s'.HandlesKnown) (hnd : s'.names.Nodup)
    (hopen : ∀ name, openedAs name (c, o) = none) (hclose : closedBy (c, o) = none) :
    Accounted (h ++ [(c, o)]) s' := by
  have h1 : ∀ name, handlesOf (h ++ [(c, o)]) name = handlesOf h name := by
    intro name
    simp [handlesOf_concat, hopen]
  have h2 : closedHandles (h ++ [(c, o)]) = closedHandles h := by
    simp [closedHandles_concat, hclose]
  have hnone : handlesOf h link.name = [] :=
    List.eq_nil_iff_forall_not_mem.mpr fun ident hi => hname (ha.registered hi)
  have h3 : ∀ name, openCount (h ++ [(c, o)]) name = openCount h name := by
    intro name
    simp [openCount, h1, h2]
  refine ⟨hk, hnd, ?_, ?_, ?_, ?_, ?_, ?_⟩
  · simpa [h1, hstates] using ha.owner
  · simpa [h2, hstates] using ha.closed
  · simpa [h1, h2] using ha.unique
  · intro l hl
    rw [hlinks] at hl
    rcases List.mem_append.mp hl with hl | hl
    · simpa [h1, h2] using ha.live l hl
    · obtain rfl := List.mem_singleton.mp hl
      simp [h1, hnone]
  · intro l hl
    rw [hlinks] at hl
    rcases List.mem_append.mp hl with hl | hl
    · exact ha.small l hl
    · obtain rfl := List.mem_singleton.mp hl
      exact .inl hzero
  · intro l hl
    rw [hlinks] at hl
    rcases List.mem_append.mp hl with hl | hl
    · rw [h3]
      exact ha.count l hl
    · obtain rfl := List.mem_singleton.mp hl
      simp [openCount, h1, hnone, hzero]

theorem mem_split_iff {pre post : List DBLink} {link l : DBLink} :
    l ∈ pre ++ link :: post ↔ l = link ∨ l ∈ pre ++ post := by
  simp only [List.mem_append, List.mem_cons]
  tauto

theorem Accounted.opened (ha : Accounted h s) {pre post : List DBLink} {link : DBLink}
    {state : STXDBState} (hs : s.dbLookup = pre ++ link :: post) (hzero : link.numOpenThreads = 0)
    (hlinks : s'.dbLookup = pre ++ { link with numOpenThreads := 1 } :: post)
    (hstates : s'.states = s.states ++ [state]) (hstate : state.dbName = link.name)
    (hk : s'.HandlesKnown) (hnd : s'.names.Nodup) :
    Accounted (h ++ [(.openIndex link.name, .returned .success (some s.states.length))]) s' := by
  have hmem : link ∈ s.dbLookup := by simp [hs]
  -- all handles of the index are closed
  have hall : ∀ i ∈ handlesOf h link.name, i ∈ closedHandles h := by
    intro i hi
    by_contra hc
    have := ha.live link hmem i hi hc
    simp [hzero] at this
  have hnew : s.states.length ∉ closedHandles h := fun hc => Nat.lt_irrefl _ (ha.closed _ hc)
  obtain ⟨h', hh'⟩ : ∃ h', h' = h ++ [(Call.openIndex link.name,
    Outcome.returned .success (some s.states.length))] := ⟨_, rfl⟩
  have h2 : closedHandles h' = closedHandles h := by
    simp [hh', closedHandles_concat, closedBy]
  have hself : handlesOf h' link.name = handlesOf h link.name ++ [s.states.length] := by
    simp [hh', handlesOf_concat, openedAs]
  have hother : ∀ name, name ≠ link.name → handlesOf h' name = handlesOf h name := by
    intro name hne
    simp [hh', handlesOf_concat, openedAs, hne.symm]
  rw [← hh']
  refine ⟨hk, hnd, ?_, ?_, ?_, ?_, ?_, ?_⟩
  · intro i name
    rw [hstates]
    by_cases hn : name = link.name
    · subst hn
      rw [hself, List.mem_append, ha.owner]
      grind
    · rw [hother name hn, ha.owner]
      grind
  · intro i hi
    rw [h2] at hi
    rw [hstates, List.length_append]
    exact Nat.lt_add_right _ (ha.closed i hi)
  · intro name i hi hic j hj hjc
    rw [h2] at hic hjc
    by_cases hn : name = link.name
    · subst hn
      rw [hself] at hi hj
      grind
    · rw [hother name hn] at hi hj
      exact ha.unique name i hi hic j hj hjc
  · intro l hl i hi hic
    rw [hlinks, mem_split_iff] at hl
    obtain rfl | hl := hl
    · rfl
    · rw [hother l.name (name_ne_of_split ha.nodup hs hl)] at hi
      rw [h2] at hic
      exact ha.live l (hs ▸ mem_split_iff.mpr (.inr hl)) i hi hic
  · intro l hl
    rw [hlinks, mem_split_iff] at hl
    obtain rfl | hl := hl
    · exact .inr rfl
    · exact ha.small l (hs ▸ mem_split_iff.mpr (.inr hl))
  · intro l hl
    rw [hlinks, mem_split_iff] at hl
    obtain rfl | hl := hl
    · have hbefore := ha.count link hmem
      rw [hzero] at hbefore
      have hclosed : (closedHandles h).countP (· ∈ handlesOf h link.name ++ [s.states.length]) =
          (closedHandles h).countP (· ∈ handlesOf h link.name) := by
        refine List.countP_congr fun i hi => ?_
        have : i ≠ s.states.length := fun he => hnew (he ▸ hi)
        simp [this]
      simp only [openCount, hself, h2, hclosed, List.length_append,
        List.length_singleton] at hbefore ⊢
      have hzero' : (0 : Int32).toInt = 0 := by decide
      have hone : (1 : Int32).toInt = 1 := by decide
      omega
    · have hne := name_ne_of_split ha.nodup hs hl
      rw [ha.count l (hs ▸ mem_split_iff.mpr (.inr hl))]
      simp [openCount, h2, hother l.name hne]

theorem Accounted.closes (ha : Accounted h s) {pre post : List DBLink} {link : DBLink}
    {state : STXDBState} (state' : STXDBState) (hs : s.dbLookup = pre ++ link :: post)
    (hstate : s.states[ident]? = some state) (hdb : state.dbName = link.name)
    (hnew : ident ∉ closedHandles h) (hdb' : state'.dbName = state.dbName)
    (hlinks : s'.dbLookup = pre ++ { link with numOpenThreads := 0 } :: post)
    (hstates : s'.states = s.states.set ident state') (hk : s'.HandlesKnown)
    (hnd : s'.names.Nodup) {code : ErrCode} {idxState : Option Addr} :
    Accounted (h ++ [(.closeIndex ident, .returned code idxState)]) s' := by
  have hmem : link ∈ s.dbLookup := by simp [hs]
  have hmine : ident ∈ handlesOf h link.name := (ha.owner ident link.name).mpr ⟨state, hstate, hdb⟩
  have hone := ha.live link hmem ident hmine hnew
  obtain ⟨h', hh'⟩ : ∃ h', h' = h ++ [(Call.closeIndex ident, Outcome.returned code idxState)] :=
    ⟨_, rfl⟩
  have h1 : ∀ name, handlesOf h' name = handlesOf h name := by
    intro name
    simp [hh', handlesOf_concat, openedAs]
  have h2 : closedHandles h' = closedHandles h ++ [ident] := by
    simp [hh', closedHandles_concat, closedBy]
  rw [← hh']
  refine ⟨hk, hnd, ?_, ?_, ?_, ?_, ?_, ?_⟩
  · intro i name
    rw [h1, ha.owner, hstates]
    grind
  · intro i hi
    rw [hstates, List.length_set]
    rw [h2] at hi
    rcases List.mem_append.mp hi with hi | hi
    · exact ha.closed i hi
    · obtain rfl := List.mem_singleton.mp hi
      exact (List.getElem?_eq_some_iff.mp hstate).1
  · intro name i hi hic j hj hjc
    rw [h1] at hi hj
    rw [h2] at hic hjc
    exact ha.unique name i hi (fun hc => hic (List.mem_append_left _ hc)) j hj
      fun hc => hjc (List.mem_append_left _ hc)
  · intro l hl i hi hic
    rw [h1] at hi
    rw [h2, List.mem_append, List.mem_singleton, not_or] at hic
    rw [hlinks, mem_split_iff] at hl
    obtain rfl | hl := hl
    · -- another open handle of the index would be this one
      exact absurd (ha.unique link.name i hi hic.1 ident hmine hnew) hic.2
    · exact ha.live l (hs ▸ mem_split_iff.mpr (.inr hl)) i hi hic.1
  · intro l hl
    rw [hlinks, mem_split_iff] at hl
    obtain rfl | hl := hl
    · exact .inl rfl
    · exact ha.small l (hs ▸ mem_split_iff.mpr (.inr hl))
  · intro l hl
    rw [hlinks, mem_split_iff] at hl
    obtain rfl | hl := hl
    · have hbefore := ha.count link hmem
      rw [hone] at hbefore
      have hzero' : (0 : Int32).toInt = 0 := by decide
      have hone' : (1 : Int32).toInt = 1 := by decide
      simp only [openCount, h1, h2, List.countP_append, List.countP_singleton, hmine,
        decide_true, if_true] at hbefore ⊢
      omega
    · have hne := name_ne_of_split ha.nodup hs hl
      have hnot : ident ∉ handlesOf h l.name := by
        intro hi
        obtain ⟨st, hst, hn⟩ := (ha.owner ident l.name).mp hi
        obtain rfl : state = st := Option.some.inj (hstate.symm.trans hst)
        exact hne (hn.symm.trans hdb)
      rw [ha.count l (hs ▸ mem_split_iff.mpr (.inr hl))]
      simp [openCount, h1, h2, hnot]

theorem Accounted.step (ha : Accounted h s) (huse : ClosesOnce h s c) (hfind : FindsClosed h s c)
    (hs : Served s c o s') : Accounted (h ++ [(c, o)]) s' := by
  have hk := hs.handlesKnown ha.handles
  have hnd := hs.nodup ha.nodup
  cases hs with
  | blocked hheld =>
    refine ha.frame (fun name => ?_) ?_ rfl rfl
    · cases c <;> rfl
    · cases c <;> rfl
  | created hlock hname hfile htype =>
    exact ha.created hname rfl rfl rfl hk hnd (fun _ => rfl) rfl
  | @opened pre post link hlock hsplit hpre hcount =>
    exact ha.opened hsplit (Int32.add_eq_right.mp hcount) rfl rfl rfl hk hnd
  | @busy pre post link hlock hsplit hpre hcount =>
    have hmem : link ∈ s.dbLookup := by simp [hsplit]
    have hzero := (hfind link.name rfl (List.mem_map_of_mem hmem)).2 link hmem rfl
    exact absurd (Int32.add_eq_right.mpr hzero) hcount
  | unknown hlock hstate hname hfile => exact absurd (ha.handles _ _ hstate) hname
  | @closed ident state pre post link hlock hstate hdb hsplit hpre =>
    have hmem : link ∈ s.dbLookup := by simp [hsplit]
    have hmine := (ha.owner ident link.name).mpr ⟨state, hstate, hdb⟩
    have hzero : closedCount link.numOpenThreads = 0 := by
      rw [ha.live link hmem ident hmine huse.2]
      decide
    exact ha.closes { state with nbt := none } hsplit hstate hdb huse.2 rfl (by rw [hzero]) rfl
      hk hnd
  | _ => exact ha.frame (fun _ => rfl) rfl rfl rfl

theorem accounts_iff (ha : Accounted h s) (huse : ClosesOnce h s c) :
    Accounts h s c ↔ FindsClosed h s c := by
  constructor
  · rintro ⟨o, s', e, -, hopen⟩ name rfl hname
    obtain ⟨ident, rfl⟩ := (hopen name rfl).2 hname
    have hs := served_iff.mp e
    cases hs with
    | @opened pre post link hlock hsplit hpre hcount =>
      refine ⟨hlock, fun l hl hn => ?_⟩
      rw [hsplit, mem_split_iff] at hl
      obtain rfl | hl := hl
      · exact Int32.add_eq_right.mp hcount
      · exact absurd hn (name_ne_of_split ha.nodup hsplit hl)
  · intro hfind
    have hclose : ∀ ident, c = .closeIndex ident → ident < s.states.length := by
      rintro ident rfl
      exact huse.1
    obtain ⟨o, s', hs⟩ := ha.handles.exists_served hclose
    refine ⟨o, s', hs.serve, (ha.step huse hfind hs).count, ?_⟩
    rintro name rfl
    cases hs with
    | blocked hheld =>
      refine ⟨fun _ => rfl, fun hname => ?_⟩
      simp [(hfind name rfl hname).1] at hheld
    | missing hlock hname => exact ⟨fun _ => rfl, fun hmem => absurd hmem hname⟩
    | opened hlock hsplit hpre hcount => exact ⟨fun hno => absurd rfl (hno _), fun _ => ⟨_, rfl⟩⟩
    | @busy pre post link hlock hsplit hpre hcount =>
      have hmem : link ∈ s.dbLookup := by simp [hsplit]
      have hzero := (hfind link.name rfl (List.mem_map_of_mem hmem)).2 link hmem rfl
      exact absurd (Int32.add_eq_right.mpr hzero) hcount

end Server

open Server

/-- In a run the open handles are counted right exactly if every `openIndex` on a name of the list
finds the mutex free and nobody who has the index open. -/
theorem counts_handles {cs : List Call} (h : Always serve ClosesOnce [] Server.init cs) :
    Always serve Accounts [] Server.init cs ↔ Always serve FindsClosed [] Server.init cs :=
  always_iff accounted_init (fun ha huse hfind e => ha.step huse hfind (served_iff.mp e))
    (fun ha huse => accounts_iff ha huse) h

theorem counts_handles_four :
    Always serve Accounts [] Server.init
        [.create .int "orders" true, .openIndex "orders", .closeIndex 0, .openIndex "orders"] ↔
      Always serve FindsClosed [] Server.init
        [.create .int "orders" true, .openIndex "orders", .closeIndex 0, .openIndex "orders"] :=
  counts_handles (by decide)

/-- The second handle of an index is refused, and stays counted. -/
theorem not_counts_handles :
    ¬Always serve Accounts [] Server.init
      [.create .int "orders" true, .openIndex "orders", .openIndex "orders"] := by
  rintro ⟨-, hrest⟩
  obtain ⟨-, hrest⟩ := hrest _ _ rfl
  obtain ⟨⟨o, s', e, -, hopen⟩, -⟩ := hrest _ _ rfl
  obtain ⟨ident, rfl⟩ := (hopen "orders" rfl).2 (by decide)
  cases e

end NwtBTree
