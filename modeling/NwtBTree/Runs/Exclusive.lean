import NwtBTree.Runs.Threads

/-!
# An index is open through one handle at a time

A second `openIndex` is refused while the first handle is open, in whatever order the
threads make their steps: the counter of the index stays above 0 until the handle is
closed. Only 2 ^ 32 calls on one name could wrap it around to 0.
-/

namespace NwtBTree

open Server Guarded

namespace Server

/-- A handle that was returned and is not closed. -/
def Open (h : List (Call × Outcome)) (name : String) (ident : Addr) : Prop :=
  ident ∈ handlesOf h name ∧ ident ∉ closedHandles h

/-- The handle that a call is to close. -/
def Call.closes : Call → Option Addr
  | .closeIndex ident => some ident
  | _ => none

/-- A handle is closed after it was returned. -/
def ClosesReturned (h : List (Call × Outcome)) (c : Call) : Prop :=
  ∀ ident, c = .closeIndex ident → ∃ name, ident ∈ handlesOf h name

/-- The calls of `openIndex` on the name that are over. -/
def openings (h : List (Call × Outcome)) (name : String) : Nat :=
  (h.map Prod.fst).count (.openIndex name)

variable {s s' : Server} {c : Call} {o : Outcome} {h : List (Call × Outcome)} {name : String}
  {ident i j : Addr}

theorem openings_concat : openings (h ++ [(c, o)]) name =
    openings h name + if c = .openIndex name then 1 else 0 := by
  simp [openings, List.count_append, List.count_singleton]

/-- While a handle of an index is open it is the only one, and the counter has counted it. -/
structure Exclusive (h : List (Call × Outcome)) (s : Server) : Prop where
  tidy : Tidy h s
  closed : ∀ ident ∈ closedHandles h, ident < s.states.length
  single : ∀ name i j, Open h name i → Open h name j → i = j
  counted : ∀ link ∈ s.dbLookup, ∀ i, Open h link.name i → ∃ k, 0 < k ∧ k ≤ openings h link.name ∧
    link.numOpenThreads = Int32.ofNat k

theorem exclusive_init : Exclusive [] Server.init where
  tidy := tidy_init
  closed := by simp [closedHandles]
  single name i j hi := absurd hi.1 (by simp [handlesOf])
  counted := by simp [Server.init]

theorem ofNat_ne_zero {k : Nat} (hpos : 0 < k) (hk : k < 2 ^ 32) : Int32.ofNat k ≠ 0 := by
  intro hzero
  have h := congrArg Int32.toInt hzero
  rw [Int32.toInt_ofNat', Int.bmod_def] at h
  have hsize : (Int32.size : Int) = 4294967296 := rfl
  have hint : (0 : Int32).toInt = 0 := by decide
  rw [hsize] at h
  split_ifs at h <;> omega

/-- A call that neither opens nor closes a handle. -/
theorem Exclusive.frame (he : Exclusive h s) (hs : Served s c o s')
    (hopen : ∀ name, openedAs name (c, o) = none) (hclose : closedBy (c, o) = none)
    (hlinks : ∀ link ∈ s'.dbLookup, link.name ∈ s.names → ∃ l ∈ s.dbLookup, l.name = link.name ∧
      (link.numOpenThreads = l.numOpenThreads ∨
        link.numOpenThreads = l.numOpenThreads + 1 ∧ c = .openIndex link.name)) :
    Exclusive (h ++ [(c, o)]) s' := by
  have hsame {name : String} {i : Addr} : Open (h ++ [(c, o)]) name i ↔ Open h name i := by
    simp [Open, handlesOf_concat, closedHandles_concat, hopen, hclose]
  refine ⟨he.tidy.step hs, ?_, ?_, ?_⟩
  · simp only [closedHandles_concat, hclose, Option.toList_none, List.append_nil]
    exact fun ident hi => (he.closed ident hi).trans_le hs.length_states
  · intro name i j hi hj
    exact he.single name i j (hsame.mp hi) (hsame.mp hj)
  · intro link hlink i hi
    have hi := hsame.mp hi
    obtain ⟨state, hstate, hname⟩ := (he.tidy.owner i link.name).mp hi.1
    obtain ⟨l, hl, hn, hcount⟩ := hlinks link hlink (hname ▸ he.tidy.handles i state hstate)
    obtain ⟨k, hpos, hle, hk⟩ := he.counted l hl i (hn ▸ hi)
    rw [hn] at hle
    rw [openings_concat]
    obtain hcount | ⟨hcount, hc⟩ := hcount
    · exact ⟨k, hpos, by omega, hcount.trans hk⟩
    · exact ⟨k + 1, by omega, by simp [hc, hle], by rw [hcount, hk, Int32.ofNat_add]; rfl⟩

/-- A call that opens a handle finds none open. -/
theorem Exclusive.opened (he : Exclusive h s) {pre post : List DBLink} {link : DBLink}
    (hs : Served s (.openIndex link.name) (.returned .success (some s.states.length)) s')
    (hsplit : s.dbLookup = pre ++ link :: post) (hzero : link.numOpenThreads = 0)
    (hlinks : s'.dbLookup = pre ++ { link with numOpenThreads := 1 } :: post)
    (hfew : openings h link.name < 2 ^ 32) :
    Exclusive (h ++ [(.openIndex link.name, .returned .success (some s.states.length))]) s' := by
  have hmem : link ∈ s.dbLookup := by simp [hsplit]
  have hnone : ∀ i, ¬Open h link.name i := fun i hi => by
    obtain ⟨k, hpos, hle, hk⟩ := he.counted link hmem i hi
    exact ofNat_ne_zero hpos (by omega) (hk.symm.trans hzero)
  -- the open handles are those of before and, of this index, the new one
  have hopen {name : String} {i : Addr} : Open (h ++ [(Call.openIndex link.name,
      Outcome.returned .success (some s.states.length))]) name i →
        name = link.name ∧ i = s.states.length ∨ name ≠ link.name ∧ Open h name i := by
    rintro ⟨hi, hc⟩
    rw [closedHandles_concat] at hc
    have hc : i ∉ closedHandles h := by simpa [closedBy] using hc
    rw [handlesOf_concat, List.mem_append] at hi
    by_cases hn : name = link.name
    · subst hn
      obtain hi | hi := hi
      · exact absurd ⟨hi, hc⟩ (hnone i)
      · exact .inl ⟨rfl, by simpa [openedAs] using hi⟩
    · exact .inr ⟨hn, hi.resolve_right (by simp [openedAs, Ne.symm hn]), hc⟩
  refine ⟨he.tidy.step hs, ?_, ?_, ?_⟩
  · intro ident hi
    have hi : ident ∈ closedHandles h := by simpa [closedHandles_concat, closedBy] using hi
    exact (he.closed ident hi).trans_le hs.length_states
  · intro name i j hi hj
    obtain ⟨hn, rfl⟩ | ⟨hn, hi⟩ := hopen hi
    · obtain ⟨-, rfl⟩ | ⟨hn', -⟩ := hopen hj
      · rfl
      · exact absurd hn hn'
    · obtain ⟨hn', -⟩ | ⟨-, hj⟩ := hopen hj
      · exact absurd hn' hn
      · exact he.single name i j hi hj
  · intro l hl i hi
    rw [hlinks, mem_split_iff] at hl
    rw [openings_concat]
    obtain rfl | hl := hl
    · exact ⟨1, Nat.one_pos, by simp, rfl⟩
    · have hn := name_ne_of_split he.tidy.nodup hsplit hl
      obtain ⟨hn', -⟩ | ⟨-, hi⟩ := hopen hi
      · exact absurd hn' hn
      · obtain ⟨k, hpos, hle, hk⟩ := he.counted l (hsplit ▸ mem_split_iff.mpr (.inr hl)) i hi
        exact ⟨k, hpos, by omega, hk⟩

/-- A call that closes a handle leaves none of the index open. -/
theorem Exclusive.closes (he : Exclusive h s) {pre post : List DBLink} {link : DBLink} {n : Int32}
    (hs : Served s (.closeIndex ident) o s') (hmine : Open h link.name ident)
    (hclosed : closedHandles (h ++ [(.closeIndex ident, o)]) = closedHandles h ++ [ident])
    (hsplit : s.dbLookup = pre ++ link :: post)
    (hlinks : s'.dbLookup = pre ++ { link with numOpenThreads := n } :: post) :
    Exclusive (h ++ [(.closeIndex ident, o)]) s' := by
  have hopen {name : String} {i : Addr} (hi : Open (h ++ [(.closeIndex ident, o)]) name i) :
      Open h name i ∧ i ≠ ident := by
    obtain ⟨hi, hc⟩ := hi
    rw [hclosed, List.mem_append, List.mem_singleton, not_or] at hc
    exact ⟨⟨by simpa [handlesOf_concat, openedAs] using hi, hc.1⟩, hc.2⟩
  refine ⟨he.tidy.step hs, ?_, ?_, ?_⟩
  · intro i hi
    rw [hclosed, List.mem_append, List.mem_singleton] at hi
    refine lt_of_lt_of_le ?_ hs.length_states
    obtain hi | rfl := hi
    · exact he.closed i hi
    · exact he.tidy.lt_length hmine.1
  · intro name i j hi hj
    exact he.single name i j (hopen hi).1 (hopen hj).1
  · intro l hl i hi
    obtain ⟨hi, hne⟩ := hopen hi
    rw [hlinks, mem_split_iff] at hl
    obtain rfl | hl := hl
    · exact absurd (he.single link.name i ident hi hmine) hne
    · obtain ⟨k, hpos, hle, hk⟩ := he.counted l (hsplit ▸ mem_split_iff.mpr (.inr hl)) i hi
      exact ⟨k, hpos, by rw [openings_concat]; omega, hk⟩

theorem Exclusive.step (he : Exclusive h s) (hs : Served s c o s') (hfree : s.ILINK_LOCK = false)
    (hfew : ∀ name, openings h name < 2 ^ 32) (huse : ClosesReturned h c)
    (honce : ∀ ident, c = .closeIndex ident → ident ∉ closedHandles h) :
    Exclusive (h ++ [(c, o)]) s' := by
  have hserved := hs
  cases hs with
  | blocked hheld => exact absurd (hfree.symm.trans hheld) nofun
  | created hlock hname hfile htype =>
    refine he.frame hserved (fun _ => rfl) rfl fun link hlink hmem => ?_
    obtain hlink | hlink := List.mem_append.mp hlink
    · exact ⟨link, hlink, rfl, .inl rfl⟩
    · obtain rfl := List.mem_singleton.mp hlink
      exact absurd hmem hname
  | @opened pre post link hlock hsplit hpre hcount =>
    exact he.opened hserved hsplit (Int32.add_eq_right.mp hcount) rfl (hfew _)
  | @busy pre post link hlock hsplit hpre hcount =>
    refine he.frame hserved (fun _ => rfl) rfl fun l hl _ => ?_
    rw [mem_split_iff] at hl
    obtain rfl | hl := hl
    · exact ⟨link, by simp [hsplit], rfl, .inr ⟨rfl, rfl⟩⟩
    · exact ⟨l, hsplit ▸ mem_split_iff.mpr (.inr hl), rfl, .inl rfl⟩
  | unknown hlock hstate hname => exact absurd (he.tidy.handles _ _ hstate) hname
  | @closed ident state pre post link hlock hstate hdb hsplit hpre =>
    have hmine : ident ∈ handlesOf h link.name :=
      (he.tidy.owner ident link.name).mpr ⟨state, hstate, hdb⟩
    exact he.closes hserved ⟨hmine, honce ident rfl⟩ (by simp [closedHandles_concat, closedBy])
      hsplit rfl
  | _ => exact he.frame hserved (fun _ => rfl) rfl fun l hl _ => ⟨l, hl, rfl, .inl rfl⟩

theorem mem_closedHandles (hi : ident ∈ closedHandles h) :
    ident ∈ (h.map Prod.fst).filterMap Call.closes := by
  obtain ⟨⟨c, o⟩, hmem, hc⟩ := List.mem_filterMap.mp hi
  refine List.mem_filterMap.mpr ⟨c, List.mem_map_of_mem hmem, ?_⟩
  cases c with
  | closeIndex => cases o <;> simp_all [closedBy, Call.closes]
  | _ => simp [closedBy] at hc

/-- The calls that left keep an index open through one handle, if each handle is closed once and
after it was returned. -/
theorem exclusive_of_serial (hs : registry.Serial Server.init h s)
    (huse : ∀ pre c o post, h = pre ++ (c, o) :: post → ClosesReturned pre c)
    (honce : ((h.map Prod.fst).filterMap Call.closes).Nodup)
    (hfew : ∀ name, openings h name < 2 ^ 32) : Exclusive h s := by
  induction hs with
  | nil => exact exclusive_init
  | @snoc h s s' c o hs hp ih =>
    obtain ⟨hfree, hserved⟩ := performs_served hp
    have hbefore : ∀ name, openings h name < 2 ^ 32 := fun name => by
      have := hfew name
      rw [openings_concat] at this
      omega
    rw [List.map_append, List.filterMap_append] at honce
    have he := ih (fun pre c' o' post e => huse pre c' o' (post ++ [(c, o)]) (by simp [e]))
      (List.nodup_append.mp honce).1 hbefore
    refine he.step hserved hfree hbefore (huse h c o [] rfl) ?_
    rintro ident rfl hi
    exact (List.nodup_append.mp honce).2.2 ident (mem_closedHandles hi) ident
      (by simp [Call.closes]) rfl

end Server

variable {T : Type} [DecidableEq T] {tr : List (Event T Call Outcome)}
  {cfg : Config T Server Call Section Outcome}

/-- However the steps of the threads are interleaved, an index is open through one handle at most,
if each handle is closed once and after it was returned. -/
theorem threads_exclusive (h : registry.Trace Server.init tr cfg) (huse : Uses ClosesReturned tr)
    (honce : ((called tr).filterMap Call.closes).Nodup)
    (hfew : ∀ name, (called tr).count (.openIndex name) < 2 ^ 32) (name : String) (i j : Addr)
    (hi : Open (served tr) name i) (hj : Open (served tr) name j) : i = j := by
  have hsub := h.served_subperm
  obtain ⟨-, hleft⟩ := h.uses (U := ClosesReturned)
    (fun hu ident hc => by
      obtain ⟨name, hi⟩ := hu ident hc
      exact ⟨name, mem_handlesOf_append hi⟩) huse
  have hser : ∃ s, registry.Serial Server.init (served tr) s := by
    cases h.serialized with
    | free hs => exact ⟨_, hs⟩
    | busy hs => exact ⟨_, hs⟩
  obtain ⟨s, hs⟩ := hser
  refine (exclusive_of_serial hs hleft ?_ fun name => ?_).single name i j hi hj
  · obtain ⟨l, hperm, hl⟩ := hsub
    exact (hperm.filterMap _).nodup_iff.mp ((hl.filterMap _).nodup honce)
  · exact (hsub.count_le _).trans_lt (hfew name)

theorem threads_exclusive_two : ∃ tr : List (Event Bool Call Outcome),
    Open (served tr) "orders" 0 ∧
      ∀ name i j, Open (served tr) name i → Open (served tr) name j → i = j := by
  obtain ⟨tr, cfg, h, rfl, -⟩ := trace_two
  refine ⟨_, ⟨by decide, by decide⟩,
    threads_exclusive h (Uses.of_forall ?_) (by decide) fun name => ?_⟩
  · rintro op hop hist ident rfl
    simp [called, Event.called, List.filterMap_cons] at hop
  · exact (List.count_le_length).trans_lt (by decide)

end NwtBTree
