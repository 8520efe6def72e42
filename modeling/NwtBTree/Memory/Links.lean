import Mathlib.Data.List.Chain
import Mathlib.Data.List.Nodup
import Mathlib.Logic.Function.Basic
import NwtBTree.Memory.Store

/-!
# Doubly linked chains

Two pointer fields seen as maps from addresses. The only writes of interest join
an address to its right neighbour in both directions; as long as the joined
addresses are neighbours in some fixed order without repetition, joining one pair
never undoes another.
-/

namespace NwtBTree

structure Links where
  nxt : Addr → Option Addr
  prv : Addr → Option Addr

/-- `b` comes right after `a` in `L`. -/
def Adjacent (L : List Addr) (a b : Addr) : Prop := ∃ A B, L = A ++ a :: b :: B

namespace Links

/-- `b->prev = a; a->next = b;` -/
def link (v : Links) (a b : Addr) : Links where
  nxt := Function.update v.nxt a (some b)
  prv := Function.update v.prv b (some a)

/-- The link for a left neighbour that may be missing. -/
def linkLeft (v : Links) : Option Addr → Addr → Links
  | some a, b => v.link a b
  | none, _ => v

/-- The link for a right neighbour that may be missing. -/
def linkRight (v : Links) (a : Addr) : Option Addr → Links
  | some b => v.link a b
  | none => v

def Joined (v : Links) (a b : Addr) : Prop := v.nxt a = some b ∧ v.prv b = some a

@[simp] theorem linkLeft_some (v : Links) (a b : Addr) : v.linkLeft (some a) b = v.link a b := rfl

@[simp] theorem linkLeft_none (v : Links) (b : Addr) : v.linkLeft none b = v := rfl

@[simp] theorem linkRight_some (v : Links) (a b : Addr) : v.linkRight a (some b) = v.link a b := rfl

@[simp] theorem linkRight_none (v : Links) (a : Addr) : v.linkRight a none = v := rfl

theorem joined_link (v : Links) (a b : Addr) : (v.link a b).Joined a b := by
  simp [Joined, link]

@[simp] theorem nxt_link (v : Links) (a b c : Addr) :
    (v.link a b).nxt c = if c = a then some b else v.nxt c := by
  simp [link, Function.update_apply]

@[simp] theorem prv_link (v : Links) (a b c : Addr) :
    (v.link a b).prv c = if c = b then some a else v.prv c := by
  simp [link, Function.update_apply]

/-- Joining neighbours again changes nothing. -/
theorem link_eq_self {v : Links} {a b : Addr} (h : v.Joined a b) : v.link a b = v := by
  cases v with
  | mk nxt prv =>
    obtain ⟨hn, hp⟩ := h
    simp only at hn hp
    simp [link, ← hn, ← hp]

end Links

theorem Adjacent.left_mem {L : List Addr} {a b : Addr} (h : Adjacent L a b) : a ∈ L := by
  obtain ⟨A, B, rfl⟩ := h
  simp

theorem Adjacent.right_mem {L : List Addr} {a b : Addr} (h : Adjacent L a b) : b ∈ L := by
  obtain ⟨A, B, rfl⟩ := h
  simp

theorem Adjacent.append_left {L : List Addr} {a b : Addr} (h : Adjacent L a b) (M : List Addr) :
    Adjacent (M ++ L) a b := by
  obtain ⟨A, B, rfl⟩ := h
  exact ⟨M ++ A, B, by simp⟩

theorem Adjacent.append_right {L : List Addr} {a b : Addr} (h : Adjacent L a b) (M : List Addr) :
    Adjacent (L ++ M) a b := by
  obtain ⟨A, B, rfl⟩ := h
  exact ⟨A, B ++ M, by simp⟩

theorem adjacent_middle (A B : List Addr) (a b : Addr) : Adjacent (A ++ a :: b :: B) a b :=
  ⟨A, B, rfl⟩

/-- In a list without repetition the right neighbour is unique. -/
theorem Adjacent.right_unique {L : List Addr} (hL : L.Nodup) {a b c : Addr}
    (h : Adjacent L a b) (h' : Adjacent L a c) : b = c := by
  obtain ⟨A, B, rfl⟩ := h
  obtain ⟨A', B', heq⟩ := h'
  have hA : A = A' := by
    induction A generalizing A' with
    | nil =>
      cases A' with
      | nil => rfl
      | cons x A' =>
        obtain ⟨rfl, h2⟩ := List.cons_eq_cons.mp heq
        simp [h2] at hL
    | cons x A ih =>
      cases A' with
      | nil =>
        obtain ⟨rfl, h2⟩ := List.cons_eq_cons.mp heq
        simp at hL
      | cons y A' =>
        obtain ⟨rfl, h2⟩ := List.cons_eq_cons.mp heq
        rw [ih (List.nodup_cons.mp hL).2 A' h2]
  subst hA
  have htail : b = c ∧ B = B' := by simpa using List.append_cancel_left heq
  exact htail.1

/-- In a list without repetition the left neighbour is unique. -/
theorem Adjacent.left_unique {L : List Addr} (hL : L.Nodup) {a b c : Addr}
    (h : Adjacent L a c) (h' : Adjacent L b c) : a = b := by
  have hrev : ∀ {x}, Adjacent L x c → Adjacent L.reverse c x := by
    rintro x ⟨A, B, rfl⟩
    exact ⟨B.reverse, A.reverse, by simp⟩
  exact (hrev h).right_unique (by simpa using hL) (hrev h')

/-- Nothing precedes the first of a list. -/
theorem not_adjacent_head {L : List Addr} {z u : Addr} (hnd : L.Nodup) (hz : z ∈ L.head?) :
    ¬Adjacent L u z := by
  rintro ⟨X, Y, rfl⟩
  cases X with
  | nil =>
    obtain rfl : u = z := by simpa using hz
    simp at hnd
  | cons y X =>
    obtain rfl : y = z := by simpa using hz
    simp at hnd

/-- And nothing follows the last. -/
theorem not_adjacent_last {L : List Addr} {z u : Addr} (hnd : L.Nodup) (hz : z ∈ L.getLast?) :
    ¬Adjacent L z u := by
  rintro ⟨X, Y, rfl⟩
  have hzY : z ∈ u :: Y := by
    rw [List.getLast?_append_of_ne_nil _ (by simp), List.getLast?_cons_cons] at hz
    exact List.mem_of_getLast? hz
  exact (List.nodup_cons.mp (List.nodup_append'.mp hnd).2.1).1 hzY

/-- `w` results from `v` by joining neighbours of `L`, in any order. -/
inductive Relinks (L : List Addr) : Links → Links → Prop
  | refl (v : Links) : Relinks L v v
  | step {v w : Links} {a b : Addr} : Relinks L v w → Adjacent L a b → Relinks L v (w.link a b)

namespace Relinks

variable {L : List Addr} {u v w : Links}

theorem trans (h : Relinks L u v) (h' : Relinks L v w) : Relinks L u w := by
  induction h' with
  | refl => exact h
  | step _ hab ih => exact ih.step hab

theorem one {a b : Addr} (hab : Adjacent L a b) : Relinks L v (v.link a b) :=
  (refl v).step hab

theorem mono {M : List Addr} (hsub : ∀ a b, Adjacent L a b → Adjacent M a b)
    (h : Relinks L v w) : Relinks M v w := by
  induction h with
  | refl => exact .refl _
  | step _ hab ih => exact ih.step (hsub _ _ hab)

/-- Neighbours that were joined stay joined. -/
theorem joined (hL : L.Nodup) (h : Relinks L v w) {a b : Addr} (hab : Adjacent L a b)
    (hj : v.Joined a b) : w.Joined a b := by
  induction h with
  | refl => exact hj
  | @step w c d _ hcd ih =>
    refine ⟨?_, ?_⟩
    · rw [Links.nxt_link]
      split_ifs with hac
      · subst hac
        rw [hab.right_unique hL hcd]
      · exact ih.1
    · rw [Links.prv_link]
      split_ifs with hbd
      · subst hbd
        rw [hab.left_unique hL hcd]
      · exact ih.2

/-- A piece of the list that was a chain stays one. -/
theorem isChain_infix {X M Y : List Addr} (hnd : (X ++ M ++ Y).Nodup)
    (h : Relinks (X ++ M ++ Y) v w) (hM : M.IsChain v.Joined) : M.IsChain w.Joined := by
  rw [List.isChain_iff_forall_rel_of_append_cons_cons] at hM ⊢
  intro u v Z W heq
  refine h.joined hnd ?_ (hM heq)
  rw [heq]
  exact ((adjacent_middle Z W u v).append_left X).append_right Y

/-- An address without a right neighbour keeps its `next`. -/
theorem nxt_eq (h : Relinks L v w) {a : Addr} (ha : ∀ b, ¬ Adjacent L a b) : w.nxt a = v.nxt a := by
  induction h with
  | refl => rfl
  | @step w c d _ hcd ih =>
    have : a ≠ c := fun hac => ha d (hac ▸ hcd)
    simp [this, ih]

/-- An address without a left neighbour keeps its `prev`. -/
theorem prv_eq (h : Relinks L v w) {b : Addr} (hb : ∀ a, ¬ Adjacent L a b) : w.prv b = v.prv b := by
  induction h with
  | refl => rfl
  | @step w c d _ hcd ih =>
    have : b ≠ d := fun hbd => hb c (hbd ▸ hcd)
    simp [this, ih]

end Relinks

end NwtBTree
