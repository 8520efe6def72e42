import NwtBTree.Memory.Slots

/-!
# A store of nodes with fresh addresses

Addresses are handed out in order and never reused, so a freed cell stays free:
following a stale pointer is then visible as a read of a freed cell.
-/

namespace NwtBTree

abbrev Addr := Nat

/-- The cells allocated so far; a freed cell is `none`. -/
structure Store (α : Type) where
  cells : List (Option α)
  deriving Repr

namespace Store

variable {α : Type}

def init : Store α := ⟨[]⟩

def size (s : Store α) : Nat := s.cells.length

def get (s : Store α) (a : Addr) : Option α := (s.cells[a]?).join

def put (s : Store α) (a : Addr) (x : α) : Store α := ⟨s.cells.set a (some x)⟩

def free (s : Store α) (a : Addr) : Store α := ⟨s.cells.set a none⟩

/-- The new cell sits at address `s.size`. -/
def alloc (s : Store α) (x : α) : Store α := ⟨s.cells ++ [some x]⟩

theorem lt_size_of_get {s : Store α} {a : Addr} {x : α} (h : s.get a = some x) : a < s.size := by
  by_contra hge
  have : s.cells[a]? = none := List.getElem?_eq_none (by simpa [size] using hge)
  simp [get, this] at h

theorem get_put {s : Store α} {a : Addr} {x y : α} (h : s.get a = some y) (b : Addr) :
    (s.put a x).get b = if b = a then some x else s.get b := by
  have ha := lt_size_of_get h
  by_cases hb : b = a
  · subst hb
    simp [get, put, List.getElem?_set_self (by simpa [size] using ha)]
  · simp [get, put, hb, List.getElem?_set_ne (Ne.symm hb)]

theorem get_free {s : Store α} (a b : Addr) :
    (s.free a).get b = if b = a then none else s.get b := by
  by_cases hb : b = a
  · subst hb
    by_cases h : b < s.cells.length
    · simp [get, free, List.getElem?_set_self h]
    · have : (s.cells.set b none)[b]? = none := List.getElem?_eq_none (by simpa using h)
      simp [get, free, this]
  · simp [get, free, hb, List.getElem?_set_ne (Ne.symm hb)]

theorem get_alloc {s : Store α} (x : α) (b : Addr) :
    (s.alloc x).get b = if b = s.size then some x else s.get b := by
  by_cases hb : b = s.size
  · subst hb
    simp [get, alloc, size]
  · by_cases hlt : b < s.cells.length
    · simp [get, alloc, hb, List.getElem?_append_left hlt]
    · have h1 : s.cells[b]? = none := List.getElem?_eq_none (Nat.le_of_not_lt hlt)
      have h2 : (s.cells ++ [some x])[b]? = none := by
        have : s.cells.length < b := Nat.lt_of_le_of_ne (Nat.le_of_not_lt hlt) (Ne.symm hb)
        exact List.getElem?_eq_none (by simpa using Nat.succ_le_of_lt this)
      simp [get, alloc, hb, h1, h2]

@[simp] theorem size_put (s : Store α) (a : Addr) (x : α) : (s.put a x).size = s.size := by
  simp [size, put]

@[simp] theorem size_free (s : Store α) (a : Addr) : (s.free a).size = s.size := by
  simp [size, free]

@[simp] theorem size_alloc (s : Store α) (x : α) : (s.alloc x).size = s.size + 1 := by
  simp [size, alloc]

end Store

end NwtBTree
