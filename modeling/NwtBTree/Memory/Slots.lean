import Mathlib.Data.List.Induction

/-!
# Fixed arrays and the loops that run over them

A C array is a list whose length is its capacity. Reading or writing outside it
is undefined behaviour and ends the run with a `Fault`. The scanning and
shifting loops below are the ones a slot array of a search tree needs; each has
one lemma that says what it leaves behind when the live slots are a prefix of
the array.
-/

namespace NwtBTree

/-- The ways a run can leave the defined behaviour of the language. -/
inductive Fault where
  | nullDeref
  | freed
  | badCast
  | outOfRange
  | uninitialized
  | assertFailed
  | diverges
  deriving DecidableEq, Repr

variable {α : Type}

@[simp] theorem ok_bind {β : Type} (a : α) (f : α → Except Fault β) :
    ((Except.ok a : Except Fault α) >>= f) = f a := rfl

@[simp] theorem error_bind {β : Type} (e : Fault) (f : α → Except Fault β) :
    ((Except.error e : Except Fault α) >>= f) = Except.error e := rfl

/-- A sequence of two steps that succeeds consists of steps that do. -/
theorem bind_eq_ok {β : Type} {x : Except Fault α} {f : α → Except Fault β} {b : β} :
    x >>= f = .ok b ↔ ∃ a, x = .ok a ∧ f a = .ok b := by
  cases x with
  | error e => simp
  | ok a => simp

@[simp] theorem pure_eq_ok (a : α) : (pure a : Except Fault α) = .ok a := rfl

/-- Read `xs[i]`. -/
def load (xs : List α) (i : Nat) : Except Fault α :=
  match xs[i]? with
  | some x => .ok x
  | none => .error .outOfRange

/-- Read `xs[i]` for an `int` index. -/
def loadInt (xs : List α) (i : Int) : Except Fault α :=
  if 0 ≤ i then load xs i.toNat else .error .outOfRange

/-- Write `xs[i] = x`. -/
def store (xs : List α) (i : Nat) (x : α) : Except Fault (List α) :=
  if i < xs.length then .ok (xs.set i x) else .error .outOfRange

/-- `for (; n > 0; i++, n--) if (p(xs[i])) return i;` with `none` after the loop. -/
def scan (p : α → Bool) (xs : List α) : Nat → Nat → Except Fault (Option Nat)
  | 0, _ => .ok none
  | n + 1, i => do
    let x ← load xs i
    if p x then return some i
    scan p xs n (i + 1)

/-- `for (; n > 0; i++, n--) if (p(xs[i])) loc = i;`, a scan that never breaks. -/
def scanLast (p : α → Bool) (xs : List α) : Nat → Nat → Option Nat → Except Fault (Option Nat)
  | 0, _, loc => .ok loc
  | n + 1, i, loc => do
    let x ← load xs i
    scanLast p xs n (i + 1) (if p x then some i else loc)

/-- `for (; i > lo; i--) xs[i] = xs[i - 1];` -/
def shiftUp (xs : List α) (lo : Nat) : Nat → Except Fault (List α)
  | 0 => .ok xs
  | i + 1 =>
    if lo < i + 1 then do
      let x ← load xs i
      let xs ← store xs (i + 1) x
      shiftUp xs lo i
    else .ok xs

/-- `for (; n > 0; i++, n--) xs[i] = xs[i + 1];` -/
def shiftDown (xs : List α) (i : Nat) : Nat → Except Fault (List α)
  | 0 => .ok xs
  | n + 1 => do
    let x ← load xs (i + 1)
    let xs ← store xs i x
    shiftDown xs (i + 1) n

/-! ## Reading and writing -/

theorem load_of_getElem? {xs : List α} {i : Nat} {x : α} (h : xs[i]? = some x) :
    load xs i = .ok x := by
  simp [load, h]

@[simp] theorem load_cons_zero (x : α) (xs : List α) : load (x :: xs) 0 = .ok x := rfl

theorem load_append {A B : List α} {x : α} {i : Nat} (hi : i = A.length) :
    load (A ++ x :: B) i = .ok x := by
  subst hi
  exact load_of_getElem? (by simp)

theorem load_left {A : List α} (B : List α) {i : Nat} (h : i < A.length) :
    load (A ++ B) i = .ok A[i] :=
  load_of_getElem? (by rw [List.getElem?_append_left h, List.getElem?_eq_getElem h])

@[simp] theorem loadInt_natCast (xs : List α) (i : Nat) : loadInt xs (i : Int) = load xs i := by
  simp [loadInt]

theorem store_append {A B : List α} {x : α} (y : α) {i : Nat} (hi : i = A.length) :
    store (A ++ x :: B) i y = .ok (A ++ y :: B) := by
  subst hi
  simp [store]

/-! ## Scans -/

theorem scan_aux (p : α → Bool) (xs rest : List α) (pre : List α) :
    scan p (pre ++ (xs ++ rest)) xs.length pre.length =
      .ok ((xs.findIdx? p).map (· + pre.length)) := by
  induction xs generalizing pre with
  | nil => rfl
  | cons x xs ih =>
    rw [List.length_cons, scan, List.cons_append, load_append rfl, ok_bind]
    by_cases hx : p x = true
    · simp [hx, List.findIdx?_cons]
    · have h := ih (pre ++ [x])
      simp only [List.append_assoc, List.cons_append, List.nil_append, List.length_append,
        List.length_cons, List.length_nil] at h
      simp only [hx, Bool.false_eq_true, if_false, h, List.findIdx?_cons, Option.map_map]
      congr 2
      funext i
      simp only [Function.comp]
      omega

/-- A scan over the live prefix is `findIdx?` on it. -/
theorem scan_live (p : α → Bool) (xs rest : List α) :
    scan p (xs ++ rest) xs.length 0 = .ok (xs.findIdx? p) := by
  simpa using scan_aux p xs rest []

/-- A scan that leaves the array has reached its end. -/
theorem length_lt_of_scan {p : α → Bool} {xs : List α} {n i : Nat} {e : Fault}
    (h : scan p xs n i = .error e) : xs.length < i + n := by
  induction n generalizing i with
  | zero => cases h
  | succ n ih =>
    by_cases hlt : i < xs.length
    · rw [scan, load_of_getElem? (List.getElem?_eq_getElem hlt), ok_bind] at h
      split at h
      · cases h
      · have := ih h
        omega
    · omega

theorem scan_none {p : α → Bool} {xs : List α} (rest : List α) (h : ∀ x ∈ xs, p x = false) :
    scan p (xs ++ rest) xs.length 0 = .ok none := by
  rw [scan_live, List.findIdx?_eq_none_iff.mpr (by simpa using h)]

theorem scan_some {p : α → Bool} {A B : List α} {x : α} (rest : List α)
    (hA : ∀ y ∈ A, p y = false) (hx : p x = true) :
    scan p (A ++ x :: B ++ rest) (A ++ x :: B).length 0 = .ok (some A.length) := by
  rw [scan_live, List.findIdx?_append, List.findIdx?_eq_none_iff.mpr (by simpa using hA)]
  simp [List.findIdx?_cons, hx]

theorem scanLast_none {p : α → Bool} (xs rest pre : List α) (acc : Option Nat)
    (h : ∀ x ∈ xs, p x = false) :
    scanLast p (pre ++ (xs ++ rest)) xs.length pre.length acc = .ok acc := by
  induction xs generalizing pre with
  | nil => rfl
  | cons x xs ih =>
    rw [List.length_cons, scanLast, List.cons_append, load_append rfl, ok_bind]
    have hx := h x (by simp)
    have h := ih (pre ++ [x]) (fun y hy => h y (by simp [hy]))
    simpa [hx] using h

/-- A scan that never breaks ends on the last element when that one satisfies the predicate. -/
theorem scanLast_last {p : α → Bool} {x : α} (xs rest pre : List α) (acc : Option Nat)
    (hx : p x = true) :
    scanLast p (pre ++ (xs ++ x :: rest)) (xs.length + 1) pre.length acc =
      .ok (some (pre.length + xs.length)) := by
  induction xs generalizing pre acc with
  | nil =>
    rw [List.length_nil, List.nil_append, scanLast, load_append rfl, ok_bind]
    simp [scanLast, hx]
  | cons y xs ih =>
    have h := ih (pre ++ [y]) (if p y then some pre.length else acc)
    rw [List.length_cons, scanLast, List.cons_append, load_append rfl, ok_bind]
    simp only [List.append_assoc, List.cons_append, List.nil_append, List.length_append,
      List.length_cons, List.length_nil] at h
    rw [h, Nat.add_assoc, Nat.add_comm 1]

/-! ## Shifts -/

theorem shiftUp_spec (A B C : List α) (z : α) :
    ∃ y, shiftUp (A ++ (B ++ z :: C)) A.length (A.length + B.length) =
      .ok (A ++ y :: (B ++ C)) := by
  induction B using List.reverseRecOn generalizing z C with
  | nil =>
    refine ⟨z, ?_⟩
    cases hA : A.length with
    | zero => simp [shiftUp]
    | succ n => simp [shiftUp]
  | append_singleton B b ih =>
    obtain ⟨y, hy⟩ := ih (b :: C) b
    refine ⟨y, ?_⟩
    have hl : load (A ++ (B ++ [b] ++ z :: C)) (A.length + B.length) = .ok b := by
      have := load_append (A := A ++ B) (B := z :: C) (x := b) (i := A.length + B.length) (by simp)
      simpa using this
    have hs : store (A ++ (B ++ [b] ++ z :: C)) (A.length + B.length + 1) b =
        .ok (A ++ (B ++ b :: b :: C)) := by
      have := store_append (A := A ++ B ++ [b]) (B := C) (x := z) b
        (i := A.length + B.length + 1) (by simp; omega)
      simpa using this
    have hlt : A.length < A.length + B.length + 1 := by omega
    have hlen : A.length + (B ++ [b]).length = A.length + B.length + 1 := by simp; omega
    rw [hlen, shiftUp, if_pos hlt, hl, ok_bind, hs, ok_bind, hy]
    simp

theorem shiftDown_spec (A B C : List α) (x : α) :
    shiftDown (A ++ x :: (B ++ C)) A.length B.length =
      .ok (A ++ (B ++ (x :: B).getLast (by simp) :: C)) := by
  induction B generalizing A x with
  | nil => simp [shiftDown]
  | cons b B ih =>
    have hl : load (A ++ x :: (b :: B ++ C)) (A.length + 1) = .ok b := by
      have := load_append (A := A ++ [x]) (B := B ++ C) (x := b) (i := A.length + 1) (by simp)
      simpa using this
    have hs : store (A ++ x :: (b :: B ++ C)) A.length b = .ok (A ++ b :: (b :: B ++ C)) :=
      store_append b rfl
    have h := ih (A ++ [b]) b
    simp only [List.length_append, List.length_cons, List.length_nil, List.append_assoc,
      List.cons_append, List.nil_append] at h
    rw [List.length_cons, shiftDown, hl, ok_bind, hs, ok_bind]
    simpa using h

end NwtBTree
