import NwtBTree.Multiway.Context
import NwtBTree.Refine.View

/-!
# Which tree a state holds

`Rep P v T` says that the nodes reachable from the root of the state form exactly
the tree `T`: every node of `T` sits at its address, its live slots are the
separators and children `T` gives it, its parent pointer names its parent, and
only the root carries the root flag. A tree decomposes into a context and a
subtree, and so does the relation.
-/

namespace NwtBTree

variable {K D : Type}

/-- Trees as the heap holds them: nodes are labelled by their address and leaves
carry their slots. -/
abbrev MTree (K D : Type) (n : Nat) := Tree Addr K (LeafSlots K D) n

abbrev MCtx (K D : Type) (n : Nat) := Ctx Addr K (LeafSlots K D) n

/-- The live slots of an inner node are `ks` and `cs`. -/
structure InnerHas (P : Template K D) (s : InnerSlots K) (ks : List K) (cs : List Addr) : Prop where
  slots : s.slots = P.innernodemax
  inuse : s.slotsinuse = ks.length
  num : s.numChildren = cs.length
  keys : ∃ r, s.keySlots = ks ++ r
  children : ∃ r, s.firstChild = cs.map some ++ r
  keyCap : s.keySlots.length = P.innernodemax
  childCap : s.firstChild.length = P.innernodemax + 1

/-- The arrays of a leaf have their capacity and the counter stays below it. -/
structure LeafOK (P : Template K D) (s : LeafSlots K D) : Prop where
  slots : s.slots = P.leafnodemax
  inuse : s.slotsinuse ≤ P.leafnodemax
  keyCap : s.keySlots.length = P.leafnodemax
  dataCap : s.dataSlots.length = P.leafnodemax

namespace LeafSlots

/-- The keys in the live slots. -/
def keys (s : LeafSlots K D) : List K := s.keySlots.take s.slotsinuse

/-- The pairs in the live slots. -/
def entries (s : LeafSlots K D) : List (K × D) := (s.keySlots.zip s.dataSlots).take s.slotsinuse

end LeafSlots

section Holds

variable (P : Template K D)

def Holds (body : Addr → Option (Body K D)) : {n : Nat} → MTree K D n → Prop
  | 0, t => body (Tip.addr t) = some (.leaf (Tip.body t)) ∧ LeafOK P (Tip.body t)
  | _ + 1, t =>
    (∃ s, body (Branch.addr t) = some (.inner s) ∧
      InnerHas P s (Branch.keys t) ((Branch.children t).map Tree.addr)) ∧
    ∀ c ∈ Branch.children t, Holds body c

/-- The nodes outside the hole, when the hole holds the address `x`. -/
def HoldsCtx (body : Addr → Option (Body K D)) : {n : Nat} → MCtx K D n → Addr → Prop
  | _, .top, _ => True
  | _, .frame up a ksL csL ksR csR, x =>
    (∃ s, body a = some (.inner s) ∧
      InnerHas P s (ksL ++ ksR) (csL.map Tree.addr ++ x :: csR.map Tree.addr)) ∧
    (∀ c ∈ csL, Holds P body c) ∧ (∀ c ∈ csR, Holds P body c) ∧ HoldsCtx body up a

end Holds

/-- Every parent pointer of the tree names the node that holds the child. -/
def ParOK (par : Addr → Option Addr) : {n : Nat} → Option Addr → MTree K D n → Prop
  | 0, p, t => par (Tip.addr t) = p
  | _ + 1, p, t => par (Branch.addr t) = p ∧
    ∀ c ∈ Branch.children t, ParOK par (some (Branch.addr t)) c

def ParCtx (par : Addr → Option Addr) : {n : Nat} → MCtx K D n → Prop
  | _, .top => True
  | _, .frame up a _ csL _ csR => par a = up.parent ∧ (∀ c ∈ csL, ParOK par (some a) c) ∧
    (∀ c ∈ csR, ParOK par (some a) c) ∧ ParCtx par up

/-- Neighbouring leaves with the same parent are joined in both directions. -/
def SibsOK (l : Links) : {n : Nat} → MTree K D n → Prop
  | 0, _ => True
  | n + 1, t => (n = 0 → ((Branch.children t).map Tree.addr).IsChain l.Joined) ∧
    ∀ c ∈ Branch.children t, SibsOK l c

def SibsCtx (l : Links) : {n : Nat} → MCtx K D n → Addr → Prop
  | _, .top, _ => True
  | n, .frame up a _ csL _ csR, x =>
    (n = 0 → (csL.map Tree.addr ++ x :: csR.map Tree.addr).IsChain l.Joined) ∧
    (∀ c ∈ csL, SibsOK l c) ∧ (∀ c ∈ csR, SibsOK l c) ∧ SibsCtx l up a

/-- The state holds the tree `T`. -/
structure Rep (P : Template K D) (v : View K D) {n : Nat} (T : MTree K D n) : Prop where
  root : v.root = some T.addr
  holds : Holds P v.body T
  par : ParOK v.par none T
  sibs : SibsOK v.links T
  flag : ∀ a ∈ T.addrs, v.flag a = decide (a = T.addr)
  nodup : T.addrs.Nodup
  paired : T.Paired

/-- The nodes that the child pointers lead to from the root form the tree `T`; nothing is said
about parent pointers, root flags and the leaf chain. -/
structure Stands (P : Template K D) (v : View K D) {n : Nat} (T : MTree K D n) : Prop where
  root : v.root = some T.addr
  holds : Holds P v.body T
  nodup : T.addrs.Nodup
  paired : T.Paired

theorem Rep.stands {P : Template K D} {v : View K D} {n : Nat} {T : MTree K D n} (h : Rep P v T) :
    Stands P v T :=
  ⟨h.root, h.holds, h.nodup, h.paired⟩

/-- Whether the node at `a` is a leaf (`lf = true`) or an inner node. -/
def View.IsKind (v : View K D) (lf : Bool) (a : Addr) : Prop :=
  match lf with
  | true => ∃ s, v.body a = some (.leaf s)
  | false => ∃ s, v.body a = some (.inner s)

section Unfold

variable {P : Template K D} {body : Addr → Option (Body K D)} {par : Addr → Option Addr}

@[simp] theorem holds_leaf (a : Addr) (s : LeafSlots K D) :
    Holds P body (Tree.leaf (K := K) a s) ↔ body a = some (.leaf s) ∧ LeafOK P s := Iff.rfl

@[simp] theorem holds_node {n : Nat} (a : Addr) (ks : List K) (cs : List (MTree K D n)) :
    Holds P body (Tree.node a ks cs) ↔
      (∃ s, body a = some (.inner s) ∧ InnerHas P s ks (cs.map Tree.addr)) ∧
      ∀ c ∈ cs, Holds P body c := Iff.rfl

@[simp] theorem holdsCtx_top {n : Nat} (x : Addr) :
    HoldsCtx P body (.top : MCtx K D n) x := trivial

@[simp] theorem holdsCtx_frame {n : Nat} (up : MCtx K D (n + 1)) (a x : Addr) (ksL ksR : List K)
    (csL csR : List (MTree K D n)) :
    HoldsCtx P body (.frame up a ksL csL ksR csR) x ↔
      (∃ s, body a = some (.inner s) ∧
        InnerHas P s (ksL ++ ksR) (csL.map Tree.addr ++ x :: csR.map Tree.addr)) ∧
      (∀ c ∈ csL, Holds P body c) ∧ (∀ c ∈ csR, Holds P body c) ∧ HoldsCtx P body up a := Iff.rfl

@[simp] theorem parOK_leaf (p : Option Addr) (a : Addr) (s : LeafSlots K D) :
    ParOK par p (Tree.leaf (K := K) a s) ↔ par a = p := Iff.rfl

@[simp] theorem parOK_node {n : Nat} (p : Option Addr) (a : Addr) (ks : List K)
    (cs : List (MTree K D n)) :
    ParOK par p (Tree.node a ks cs) ↔ par a = p ∧ ∀ c ∈ cs, ParOK par (some a) c := Iff.rfl

@[simp] theorem parCtx_top {n : Nat} : ParCtx par (.top : MCtx K D n) := trivial

@[simp] theorem parCtx_frame {n : Nat} (up : MCtx K D (n + 1)) (a : Addr) (ksL ksR : List K)
    (csL csR : List (MTree K D n)) :
    ParCtx par (.frame up a ksL csL ksR csR) ↔
      par a = up.parent ∧ (∀ c ∈ csL, ParOK par (some a) c) ∧
      (∀ c ∈ csR, ParOK par (some a) c) ∧ ParCtx par up := Iff.rfl

@[simp] theorem sibsOK_leaf (l : Links) (a : Addr) (s : LeafSlots K D) :
    SibsOK l (Tree.leaf (K := K) a s) := trivial

@[simp] theorem sibsOK_node {n : Nat} (l : Links) (a : Addr) (ks : List K)
    (cs : List (MTree K D n)) :
    SibsOK l (Tree.node a ks cs) ↔
      (n = 0 → (cs.map Tree.addr).IsChain l.Joined) ∧ ∀ c ∈ cs, SibsOK l c := Iff.rfl

@[simp] theorem sibsCtx_top {n : Nat} (l : Links) (x : Addr) :
    SibsCtx l (.top : MCtx K D n) x := trivial

@[simp] theorem sibsCtx_frame {n : Nat} (l : Links) (up : MCtx K D (n + 1)) (a x : Addr)
    (ksL ksR : List K) (csL csR : List (MTree K D n)) :
    SibsCtx l (.frame up a ksL csL ksR csR) x ↔
      (n = 0 → (csL.map Tree.addr ++ x :: csR.map Tree.addr).IsChain l.Joined) ∧
      (∀ c ∈ csL, SibsOK l c) ∧ (∀ c ∈ csR, SibsOK l c) ∧ SibsCtx l up a := Iff.rfl

end Unfold

section Frame

variable {P : Template K D} {body body' : Addr → Option (Body K D)}
  {par par' : Addr → Option Addr} {l l' : Links}

theorem Holds.congr {n : Nat} {t : MTree K D n} (h : Holds P body t)
    (heq : ∀ a ∈ t.addrs, body' a = body a) : Holds P body' t := by
  induction n with
  | zero => exact ⟨by rw [heq _ (by simp [Tree.addrs])]; exact h.1, h.2⟩
  | succ n ih =>
    obtain ⟨a, ks, cs⟩ := t
    obtain ⟨⟨s, hs, hi⟩, hcs⟩ := h
    refine ⟨⟨s, by rw [heq _ (by simp)]; exact hs, hi⟩, fun c hc => ?_⟩
    exact ih (hcs c hc) (fun b hb => heq b (by
      simp only [Tree.addrs_node, List.mem_cons, List.mem_flatMap]
      exact .inr ⟨c, hc, hb⟩))

theorem ParOK.congr {n : Nat} {p : Option Addr} {t : MTree K D n} (h : ParOK par p t)
    (heq : ∀ a ∈ t.addrs, par' a = par a) : ParOK par' p t := by
  induction n generalizing p with
  | zero => exact (heq _ (by simp [Tree.addrs])).trans h
  | succ n ih =>
    obtain ⟨a, ks, cs⟩ := t
    refine ⟨(heq a (by simp)).trans h.1, fun c hc => ?_⟩
    exact ih (h.2 c hc) (fun b hb => heq b (by
      simp only [Tree.addrs_node, List.mem_cons, List.mem_flatMap]
      exact .inr ⟨c, hc, hb⟩))

theorem HoldsCtx.congr {n : Nat} {c : MCtx K D n} {x : Addr} (h : HoldsCtx P body c x)
    (heq : ∀ a ∈ c.addrs, body' a = body a) : HoldsCtx P body' c x := by
  induction c generalizing x with
  | top => trivial
  | frame up a ksL csL ksR csR ih =>
    obtain ⟨⟨s, hs, hi⟩, hL, hR, hup⟩ := h
    refine ⟨⟨s, by rw [heq _ (by simp)]; exact hs, hi⟩, ?_, ?_, ?_⟩
    · intro c hc
      refine (hL c hc).congr (fun b hb => heq b ?_)
      simp only [Ctx.addrs_frame, List.mem_cons, List.mem_append, List.mem_flatMap]
      exact .inr (.inl (.inl ⟨c, hc, hb⟩))
    · intro c hc
      refine (hR c hc).congr (fun b hb => heq b ?_)
      simp only [Ctx.addrs_frame, List.mem_cons, List.mem_append, List.mem_flatMap]
      exact .inr (.inl (.inr ⟨c, hc, hb⟩))
    · exact ih hup (fun b hb => heq b (by simp [hb]))

theorem ParCtx.congr {n : Nat} {c : MCtx K D n} (h : ParCtx par c)
    (heq : ∀ a ∈ c.addrs, par' a = par a) : ParCtx par' c := by
  induction c with
  | top => trivial
  | frame up a ksL csL ksR csR ih =>
    obtain ⟨ha, hL, hR, hup⟩ := h
    refine ⟨(heq a (by simp)).trans ha, ?_, ?_, ?_⟩
    · intro c hc
      refine (hL c hc).congr (fun b hb => heq b ?_)
      simp only [Ctx.addrs_frame, List.mem_cons, List.mem_append, List.mem_flatMap]
      exact .inr (.inl (.inl ⟨c, hc, hb⟩))
    · intro c hc
      refine (hR c hc).congr (fun b hb => heq b ?_)
      simp only [Ctx.addrs_frame, List.mem_cons, List.mem_append, List.mem_flatMap]
      exact .inr (.inl (.inr ⟨c, hc, hb⟩))
    · exact ih hup (fun b hb => heq b (by simp [hb]))

theorem Links.Joined.congr {a b : Addr} (h : l.Joined a b) (hn : l'.nxt a = l.nxt a)
    (hp : l'.prv b = l.prv b) : l'.Joined a b :=
  ⟨hn.trans h.1, hp.trans h.2⟩

/-- A chain stays a chain when the links of its members stay. -/
theorem isChain_congr {L : List Addr} (h : L.IsChain l.Joined)
    (heq : ∀ a ∈ L, l'.nxt a = l.nxt a ∧ l'.prv a = l.prv a) : L.IsChain l'.Joined := by
  induction L with
  | nil => exact .nil
  | cons a L ih =>
    cases L with
    | nil => exact .singleton a
    | cons b L =>
      obtain ⟨hab, hL⟩ := List.isChain_cons_cons.mp h
      refine List.isChain_cons_cons.mpr ⟨?_, ih hL (fun c hc => heq c (by simp [hc]))⟩
      exact hab.congr (heq a (by simp)).1 (heq b (by simp)).2

theorem SibsOK.congr {n : Nat} {t : MTree K D n} (h : SibsOK l t)
    (heq : 0 < n → ∀ a ∈ t.addrs, l'.nxt a = l.nxt a ∧ l'.prv a = l.prv a) : SibsOK l' t := by
  induction n with
  | zero => trivial
  | succ n ih =>
    obtain ⟨a, ks, cs⟩ := t
    have hmem : ∀ c ∈ cs, ∀ b ∈ c.addrs, l'.nxt b = l.nxt b ∧ l'.prv b = l.prv b := by
      intro c hc b hb
      refine heq (by omega) b ?_
      simp only [Tree.addrs_node, List.mem_cons, List.mem_flatMap]
      exact .inr ⟨c, hc, hb⟩
    refine ⟨fun hn => isChain_congr (h.1 hn) ?_, fun c hc => ih (h.2 c hc) fun _ => hmem c hc⟩
    intro b hb
    obtain ⟨c, hc, rfl⟩ := List.mem_map.mp hb
    exact hmem c hc _ c.addr_mem_addrs

theorem SibsCtx.congr {n : Nat} {c : MCtx K D n} {x : Addr} (h : SibsCtx l c x)
    (heq : ∀ a ∈ x :: c.addrs, l'.nxt a = l.nxt a ∧ l'.prv a = l.prv a) : SibsCtx l' c x := by
  induction c generalizing x with
  | top => trivial
  | frame up a ksL csL ksR csR ih =>
    obtain ⟨hch, hL, hR, hup⟩ := h
    have hmemL : ∀ c ∈ csL, ∀ b ∈ c.addrs, l'.nxt b = l.nxt b ∧ l'.prv b = l.prv b := by
      intro c hc b hb
      refine heq b ?_
      simp only [Ctx.addrs_frame, List.mem_cons, List.mem_append, List.mem_flatMap]
      exact .inr (.inr (.inl (.inl ⟨c, hc, hb⟩)))
    have hmemR : ∀ c ∈ csR, ∀ b ∈ c.addrs, l'.nxt b = l.nxt b ∧ l'.prv b = l.prv b := by
      intro c hc b hb
      refine heq b ?_
      simp only [Ctx.addrs_frame, List.mem_cons, List.mem_append, List.mem_flatMap]
      exact .inr (.inr (.inl (.inr ⟨c, hc, hb⟩)))
    refine ⟨fun hn => isChain_congr (hch hn) ?_, fun c hc => (hL c hc).congr fun _ => hmemL c hc,
      fun c hc => (hR c hc).congr fun _ => hmemR c hc, ih hup fun b hb => heq b ?_⟩
    · intro b hb
      simp only [List.mem_append, List.mem_map, List.mem_cons] at hb
      obtain ⟨c, hc, rfl⟩ | rfl | ⟨c, hc, rfl⟩ := hb
      · exact hmemL c hc _ c.addr_mem_addrs
      · exact heq _ (by simp)
      · exact hmemR c hc _ c.addr_mem_addrs
    · simp only [List.mem_cons] at hb
      obtain rfl | hb := hb
      · simp
      · simp [hb]

end Frame

section Fill

variable {P : Template K D} {body : Addr → Option (Body K D)} {par : Addr → Option Addr}

theorem holds_fill {n : Nat} (c : MCtx K D n) (t : MTree K D n) :
    Holds P body (c.fill t).2 ↔ HoldsCtx P body c t.addr ∧ Holds P body t := by
  induction c with
  | top => simp
  | frame up a ksL csL ksR csR ih =>
    rw [Ctx.fill_frame, ih]
    simp only [holds_node, holdsCtx_frame, Tree.addr_node, List.map_append, List.map_cons,
      List.mem_append, List.mem_cons]
    constructor
    · rintro ⟨hup, hs, hcs⟩
      exact ⟨⟨hs, fun c hc => hcs c (.inl hc), fun c hc => hcs c (.inr (.inr hc)), hup⟩,
        hcs t (.inr (.inl rfl))⟩
    · rintro ⟨⟨hs, hL, hR, hup⟩, ht⟩
      refine ⟨hup, hs, ?_⟩
      rintro c (hc | rfl | hc)
      · exact hL c hc
      · exact ht
      · exact hR c hc

theorem parOK_fill {n : Nat} (c : MCtx K D n) (t : MTree K D n) :
    ParOK par none (c.fill t).2 ↔ ParCtx par c ∧ ParOK par c.parent t := by
  induction c with
  | top => simp
  | frame up a ksL csL ksR csR ih =>
    rw [Ctx.fill_frame, ih]
    simp only [parOK_node, parCtx_frame, Ctx.parent_frame, List.mem_append, List.mem_cons]
    constructor
    · rintro ⟨hup, ha, hcs⟩
      exact ⟨⟨ha, fun c hc => hcs c (.inl hc), fun c hc => hcs c (.inr (.inr hc)), hup⟩,
        hcs t (.inr (.inl rfl))⟩
    · rintro ⟨⟨ha, hL, hR, hup⟩, ht⟩
      refine ⟨hup, ha, ?_⟩
      rintro c (hc | rfl | hc)
      · exact hL c hc
      · exact ht
      · exact hR c hc

theorem sibsOK_fill {l : Links} {n : Nat} (c : MCtx K D n) (t : MTree K D n) :
    SibsOK l (c.fill t).2 ↔ SibsCtx l c t.addr ∧ SibsOK l t := by
  induction c with
  | top => simp
  | frame up a ksL csL ksR csR ih =>
    rw [Ctx.fill_frame, ih]
    simp only [sibsOK_node, sibsCtx_frame, Tree.addr_node, List.map_append, List.map_cons,
      List.mem_append, List.mem_cons]
    constructor
    · rintro ⟨hup, hch, hcs⟩
      exact ⟨⟨hch, fun c hc => hcs c (.inl hc), fun c hc => hcs c (.inr (.inr hc)), hup⟩,
        hcs t (.inr (.inl rfl))⟩
    · rintro ⟨⟨hch, hL, hR, hup⟩, ht⟩
      refine ⟨hup, hch, ?_⟩
      rintro c (hc | rfl | hc)
      · exact hL c hc
      · exact ht
      · exact hR c hc

theorem Holds.isKind {v : View K D} {n : Nat} {t : MTree K D n} (h : Holds P v.body t) :
    v.IsKind (n == 0) t.addr := by
  cases n with
  | zero => exact ⟨_, h.1⟩
  | succ n =>
    obtain ⟨⟨s, hs, -⟩, -⟩ := h
    exact ⟨s, hs⟩

theorem Holds.isSome {n : Nat} {t : MTree K D n} (h : Holds P body t) {a : Addr}
    (ha : a ∈ t.addrs) : ∃ b, body a = some b := by
  induction n with
  | zero =>
    obtain ⟨b, s⟩ := t
    obtain rfl : a = b := by simpa using ha
    exact ⟨_, h.1⟩
  | succ n ih =>
    obtain ⟨b, ks, cs⟩ := t
    obtain ⟨⟨s, hs, -⟩, hcs⟩ := h
    simp only [Tree.addrs_node, List.mem_cons, List.mem_flatMap] at ha
    obtain rfl | ⟨c, hc, hac⟩ := ha
    · exact ⟨_, hs⟩
    · exact ih (hcs c hc) hac

theorem HoldsCtx.isSome {n : Nat} {c : MCtx K D n} {x : Addr} (h : HoldsCtx P body c x)
    {a : Addr} (ha : a ∈ c.addrs) : ∃ b, body a = some b := by
  induction c generalizing x with
  | top => simp at ha
  | frame up b ksL csL ksR csR ih =>
    obtain ⟨⟨s, hs, -⟩, hL, hR, hup⟩ := h
    simp only [Ctx.addrs_frame, List.mem_cons, List.mem_append, List.mem_flatMap] at ha
    obtain rfl | (⟨c, hc, hac⟩ | ⟨c, hc, hac⟩) | hup' := ha
    · exact ⟨_, hs⟩
    · exact (hL c hc).isSome hac
    · exact (hR c hc).isSome hac
    · exact ih hup hup'

theorem nodup_fill {n : Nat} (c : MCtx K D n) (t : MTree K D n) :
    (c.fill t).2.addrs.Nodup ↔ (c.addrs ++ t.addrs).Nodup :=
  (c.addrs_fill t).nodup_iff

theorem mem_addrs_fill {n : Nat} (c : MCtx K D n) (t : MTree K D n) {a : Addr} :
    a ∈ (c.fill t).2.addrs ↔ a ∈ c.addrs ∨ a ∈ t.addrs := by
  rw [(c.addrs_fill t).mem_iff, List.mem_append]

end Fill

/-! ## A tree with a hole in it -/

/-- The nodes of the context `c` are in place, with the address `x` in the hole. -/
structure Hole (P : Template K D) (v : View K D) {n : Nat} (c : MCtx K D n) (x : Addr) : Prop where
  root : v.root = some (c.rootAddr x)
  holds : HoldsCtx P v.body c x
  par : ParCtx v.par c
  sibs : SibsCtx v.links c x
  flag : ∀ a ∈ c.addrs, v.flag a = decide (a = c.rootAddr x)
  paired : c.Paired

/-- The nodes of the tree `t` are in place; nothing is said about what is above it. -/
structure Plug (P : Template K D) (v : View K D) {n : Nat} (t : MTree K D n) : Prop where
  holds : Holds P v.body t
  par : ParOK v.par (v.par t.addr) t
  sibs : SibsOK v.links t
  flag : ∀ a ∈ t.addrs, v.flag a = false
  paired : t.Paired

section Rep

variable {P : Template K D} {v v' : View K D}

theorem Rep.hole {n : Nat} {c : MCtx K D n} {t : MTree K D n} (h : Rep P v (c.fill t).2)
    (hc : c.Paired) : Hole P v c t.addr where
  root := by rw [h.root, c.addr_fill]
  holds := ((holds_fill c t).mp h.holds).1
  par := ((parOK_fill c t).mp h.par).1
  sibs := ((sibsOK_fill c t).mp h.sibs).1
  flag a ha := by rw [h.flag a ((mem_addrs_fill c t).mpr (.inl ha)), c.addr_fill]
  paired := hc

theorem Stands.nodup_fill {n : Nat} {c : MCtx K D n} {t : MTree K D n}
    (h : Stands P v (c.fill t).2) : (c.addrs ++ t.addrs).Nodup :=
  (NwtBTree.nodup_fill c t).mp h.nodup

theorem Rep.nodup_fill {n : Nat} {c : MCtx K D n} {t : MTree K D n} (h : Rep P v (c.fill t).2) :
    (c.addrs ++ t.addrs).Nodup :=
  (NwtBTree.nodup_fill c t).mp h.nodup

theorem Hole.rep {n : Nat} {c : MCtx K D n} {t : MTree K D n} (h : Hole P v c t.addr)
    (hholds : Holds P v.body t) (hpar : ParOK v.par c.parent t) (hsibs : SibsOK v.links t)
    (hflag : ∀ a ∈ t.addrs, v.flag a = decide (a = c.rootAddr t.addr))
    (hnodup : (c.addrs ++ t.addrs).Nodup) (hpaired : t.Paired) : Rep P v (c.fill t).2 where
  root := by rw [h.root, c.addr_fill]
  holds := (holds_fill c t).mpr ⟨h.holds, hholds⟩
  par := (parOK_fill c t).mpr ⟨h.par, hpar⟩
  sibs := (sibsOK_fill c t).mpr ⟨h.sibs, hsibs⟩
  flag a ha := by
    rw [c.addr_fill]
    obtain ha | ha := (mem_addrs_fill c t).mp ha
    · exact h.flag a ha
    · exact hflag a ha
  nodup := (NwtBTree.nodup_fill c t).mpr hnodup
  paired := Ctx.paired_fill h.paired hpaired

theorem Hole.congr {n : Nat} {c : MCtx K D n} {x : Addr} (h : Hole P v c x)
    (hroot : v'.root = v.root) (hbody : ∀ a ∈ c.addrs, v'.body a = v.body a)
    (hpar : ∀ a ∈ c.addrs, v'.par a = v.par a) (hflag : ∀ a ∈ c.addrs, v'.flag a = v.flag a)
    (hlinks : ∀ a ∈ x :: c.addrs,
      v'.links.nxt a = v.links.nxt a ∧ v'.links.prv a = v.links.prv a) : Hole P v' c x where
  root := hroot.trans h.root
  holds := h.holds.congr hbody
  par := h.par.congr hpar
  sibs := h.sibs.congr hlinks
  flag a ha := (hflag a ha).trans (h.flag a ha)
  paired := h.paired

theorem Plug.congr {n : Nat} {t : MTree K D n} (h : Plug P v t)
    (hbody : ∀ a ∈ t.addrs, v'.body a = v.body a)
    (hpar : ∀ a ∈ t.addrs, a ≠ t.addr → v'.par a = v.par a)
    (hflag : ∀ a ∈ t.addrs, v'.flag a = v.flag a)
    (hlinks : 0 < n → ∀ a ∈ t.addrs,
      v'.links.nxt a = v.links.nxt a ∧ v'.links.prv a = v.links.prv a)
    (hnodup : t.addrs.Nodup) : Plug P v' t where
  holds := h.holds.congr hbody
  par := by
    cases n with
    | zero => rfl
    | succ n =>
      obtain ⟨a, ks, cs⟩ := t
      refine ⟨rfl, fun c hc => (h.par.2 c hc).congr fun b hb => hpar b ?_ ?_⟩
      · simp only [Tree.addrs_node, List.mem_cons, List.mem_flatMap]
        exact .inr ⟨c, hc, hb⟩
      · rintro rfl
        simp only [Tree.addrs_node, List.nodup_cons, List.mem_flatMap] at hnodup hb
        exact hnodup.1 ⟨c, hc, hb⟩
  sibs := h.sibs.congr hlinks
  flag a ha := (hflag a ha).trans (h.flag a ha)
  paired := h.paired

theorem Hole.up {n : Nat} {up : MCtx K D (n + 1)} {a x : Addr} {ksL ksR : List K}
    {csL csR : List (MTree K D n)} (h : Hole P v (.frame up a ksL csL ksR csR) x) :
    Hole P v up a where
  root := h.root
  holds := h.holds.2.2.2
  par := h.par.2.2.2
  sibs := h.sibs.2.2.2
  flag b hb := h.flag b (by simp [hb])
  paired := h.paired.2.2.2.2.2

theorem mem_flatMap_addrs {n : Nat} {cs : List (MTree K D n)} {c : MTree K D n} {b : Addr}
    (hc : c ∈ cs) (hb : b ∈ c.addrs) : b ∈ cs.flatMap Tree.addrs :=
  List.mem_flatMap.mpr ⟨c, hc, hb⟩

/-- In a family of disjoint trees an address that is a root is only the root of its tree. -/
theorem eq_addr_of_mem {n : Nat} {cs : List (MTree K D n)} (hnd : (cs.flatMap Tree.addrs).Nodup)
    {c : MTree K D n} {b : Addr} (hc : c ∈ cs) (hb : b ∈ c.addrs) (hr : b ∈ cs.map Tree.addr) :
    b = c.addr := by
  obtain ⟨d, hd, rfl⟩ := List.mem_map.mp hr
  by_contra hne
  have hcd : c ≠ d := by
    rintro rfl
    exact hne rfl
  have hsymm : Std.Symm (Function.onFun List.Disjoint (Tree.addrs (A := Addr) (n := n) (K := K)
      (L := LeafSlots K D))) := ⟨fun _ _ h _ hb hc => h hc hb⟩
  exact (List.nodup_flatMap.mp hnd).2.forall hc hd hcd hb d.addr_mem_addrs

theorem addr_mem_flatMap {n : Nat} {cs : List (MTree K D n)} {b : Addr}
    (hb : b ∈ cs.map Tree.addr) : b ∈ cs.flatMap Tree.addrs := by
  obtain ⟨c, hc, rfl⟩ := List.mem_map.mp hb
  exact mem_flatMap_addrs hc c.addr_mem_addrs

theorem nodup_map_addr {n : Nat} {cs : List (MTree K D n)} (h : (cs.flatMap Tree.addrs).Nodup) :
    (cs.map Tree.addr).Nodup := by
  induction cs with
  | nil => simp
  | cons c cs ih =>
    obtain ⟨-, htail, hdisj⟩ := List.nodup_append'.mp h
    exact List.nodup_cons.mpr ⟨fun hc => hdisj c.addr_mem_addrs (addr_mem_flatMap hc), ih htail⟩

/-- The siblings of the hole are in place below the node `a`. -/
theorem Hole.siblings {n : Nat} {up : MCtx K D (n + 1)} {a x : Addr} {ksL ksR : List K}
    {csL csR : List (MTree K D n)} (h : Hole P v (.frame up a ksL csL ksR csR) x)
    (hnd : (Ctx.frame up a ksL csL ksR csR).addrs.Nodup) :
    ∀ c ∈ csL ++ csR, Plug P v c ∧ v.par c.addr = some a := by
  obtain ⟨-, -, -, hpL, hpR, -⟩ := h.paired
  have hroot : ∀ c ∈ csL ++ csR, ∀ b ∈ c.addrs, b ∈ (Ctx.frame up a ksL csL ksR csR).addrs ∧
      b ≠ up.rootAddr a := by
    intro c hc b hb
    have hmem : b ∈ csL.flatMap Tree.addrs ++ csR.flatMap Tree.addrs := by
      rw [← List.flatMap_append]
      exact mem_flatMap_addrs hc hb
    refine ⟨by simp only [Ctx.addrs_frame, List.mem_cons, List.mem_append] at hmem ⊢; tauto, ?_⟩
    simp only [Ctx.addrs_frame, List.nodup_cons, List.nodup_append'] at hnd
    cases hup : up.parent with
    | none =>
      cases up with
      | top =>
        rintro rfl
        exact hnd.1 (List.mem_append_left _ hmem)
      | frame => simp at hup
    | some q =>
      rintro rfl
      exact hnd.2.2.2 hmem (Ctx.rootAddr_mem hup)
  have hmem : ∀ c ∈ csL ++ csR, Holds P v.body c ∧ ParOK v.par (some a) c ∧ SibsOK v.links c ∧
      c.Paired := by
    intro c hc
    rcases List.mem_append.mp hc with hc | hc
    · exact ⟨h.holds.2.1 c hc, h.par.2.1 c hc, h.sibs.2.1 c hc, hpL c hc⟩
    · exact ⟨h.holds.2.2.1 c hc, h.par.2.2.1 c hc, h.sibs.2.2.1 c hc, hpR c hc⟩
  intro c hc
  obtain ⟨h1, h2, h3, h4⟩ := hmem c hc
  have hpar : v.par c.addr = some a := by
    cases n with
    | zero => exact h2
    | succ n => exact h2.1
  refine ⟨⟨h1, by rwa [hpar], h3, fun b hb => ?_, h4⟩, hpar⟩
  obtain ⟨hb1, hb2⟩ := hroot c hc b hb
  rw [h.flag b hb1]
  exact decide_eq_false hb2

/-- A family of disjoint trees survives writes to other nodes and to the parents of its roots. -/
theorem plugs_congr {n : Nat} {cs : List (MTree K D n)} (h : ∀ c ∈ cs, Plug P v c)
    (hnd : (cs.flatMap Tree.addrs).Nodup)
    (hbody : ∀ a ∈ cs.flatMap Tree.addrs, v'.body a = v.body a)
    (hpar : ∀ a ∈ cs.flatMap Tree.addrs, a ∉ cs.map Tree.addr → v'.par a = v.par a)
    (hflag : ∀ a ∈ cs.flatMap Tree.addrs, v'.flag a = v.flag a)
    (hlinks : 0 < n → v'.links = v.links) : ∀ c ∈ cs, Plug P v' c := by
  intro c hc
  refine (h c hc).congr (fun b hb => hbody b (mem_flatMap_addrs hc hb)) (fun b hb hne => ?_)
    (fun b hb => hflag b (mem_flatMap_addrs hc hb)) (fun hn b _ => by simp [hlinks hn])
    ((List.nodup_flatMap.mp hnd).1 c hc)
  exact hpar b (mem_flatMap_addrs hc hb) fun hr => hne (eq_addr_of_mem hnd hc hb hr)

/-- Trees below a common node form a tree. -/
theorem Plug.node {n : Nat} {a : Addr} {ks : List K} {cs : List (MTree K D n)} {s : InnerSlots K}
    (hb : v.body a = some (.inner s)) (hs : InnerHas P s ks (cs.map Tree.addr))
    (hcs : ∀ c ∈ cs, Plug P v c ∧ v.par c.addr = some a)
    (hchain : n = 0 → (cs.map Tree.addr).IsChain v.links.Joined) (hflag : v.flag a = false)
    (hpos : 0 < ks.length) (hlen : cs.length = ks.length + 1) : Plug P v (Tree.node a ks cs) where
  holds := ⟨⟨s, hb, hs⟩, fun c hc => (hcs c hc).1.holds⟩
  par := ⟨rfl, fun c hc => (hcs c hc).2 ▸ (hcs c hc).1.par⟩
  sibs := ⟨hchain, fun c hc => (hcs c hc).1.sibs⟩
  flag b hb := by
    simp only [Tree.addrs_node, List.mem_cons, List.mem_flatMap] at hb
    obtain rfl | ⟨c, hc, hb⟩ := hb
    · exact hflag
    · exact (hcs c hc).1.flag b hb
  paired := ⟨hpos, hlen, fun c hc => (hcs c hc).1.paired⟩

/-- Trees below a common node, in a hole. -/
theorem Hole.rep_node {n : Nat} {up : MCtx K D (n + 1)} {a : Addr} {ks : List K}
    {cs : List (MTree K D n)} {s : InnerSlots K} (h : Hole P v up a)
    (hb : v.body a = some (.inner s)) (hs : InnerHas P s ks (cs.map Tree.addr))
    (hcs : ∀ c ∈ cs, Plug P v c ∧ v.par c.addr = some a) (hpar : v.par a = up.parent)
    (hchain : n = 0 → (cs.map Tree.addr).IsChain v.links.Joined)
    (hflag : v.flag a = decide (a = up.rootAddr a))
    (hnd : (a :: (cs.flatMap Tree.addrs ++ up.addrs)).Nodup)
    (hpos : 0 < ks.length) (hlen : cs.length = ks.length + 1) :
    Rep P v (up.fill (Tree.node a ks cs)).2 := by
  refine Hole.rep (t := Tree.node a ks cs) h ⟨⟨s, hb, hs⟩, fun c hc => (hcs c hc).1.holds⟩
    ⟨hpar, fun c hc => (hcs c hc).2 ▸ (hcs c hc).1.par⟩
    ⟨hchain, fun c hc => (hcs c hc).1.sibs⟩ ?_ ?_ ⟨hpos, hlen, fun c hc => (hcs c hc).1.paired⟩
  · intro b hb
    simp only [Tree.addrs_node, List.mem_cons, List.mem_flatMap] at hb
    obtain rfl | ⟨c, hc, hb⟩ := hb
    · exact hflag
    · rw [(hcs c hc).1.flag b hb, eq_comm, decide_eq_false_iff_not]
      rintro rfl
      have hmem := mem_flatMap_addrs hc hb
      cases hup : up.parent with
      | none =>
        cases up with
        | top => exact (List.nodup_cons.mp hnd).1 (List.mem_append_left _ hmem)
        | frame => simp at hup
      | some q =>
        exact (List.nodup_append'.mp (List.nodup_cons.mp hnd).2).2.2 hmem (Ctx.rootAddr_mem hup)
  · refine (List.Perm.nodup_iff ?_).mpr hnd
    simpa using @List.perm_append_comm _ up.addrs (a :: cs.flatMap Tree.addrs)

theorem Rep.congr {n : Nat} {T : MTree K D n} (h : Rep P v T) (hroot : v'.root = v.root)
    (hbody : ∀ a ∈ T.addrs, v'.body a = v.body a) (hpar : ∀ a ∈ T.addrs, v'.par a = v.par a)
    (hflag : ∀ a ∈ T.addrs, v'.flag a = v.flag a)
    (hlinks : ∀ a ∈ T.addrs, v'.links.nxt a = v.links.nxt a ∧ v'.links.prv a = v.links.prv a) :
    Rep P v' T where
  root := hroot.trans h.root
  holds := h.holds.congr hbody
  par := h.par.congr hpar
  sibs := h.sibs.congr fun _ => hlinks
  flag a ha := (hflag a ha).trans (h.flag a ha)
  nodup := h.nodup
  paired := h.paired

/-- Freeing a node that is not in the tree. -/
theorem Rep.free {n : Nat} {T : MTree K D n} (h : Rep P v T) {x : Addr} (hx : x ∉ T.addrs) :
    Rep P (v.free x) T := by
  have hne : ∀ a ∈ T.addrs, a ≠ x := by
    rintro a ha rfl
    exact hx ha
  refine h.congr rfl ?_ ?_ ?_ ?_
  · intro a ha
    simp [hne a ha]
  · intro a ha
    simp [hne a ha]
  · intro a ha
    simp [hne a ha]
  · intro a ha
    simp [hne a ha]

end Rep

end NwtBTree
