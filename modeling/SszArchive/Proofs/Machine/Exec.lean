import SszArchive.Proofs.Wire

/-!
Execution on machine words. The functions of the library count in natural numbers and take pieces
of lists, so nothing can go wrong in them that they do not report. A machine adds 64-bit words and
takes pieces of buffers. Here every such step that the program does not check is written out and
stops with `outOfRange` when an operand is not in the range of the step. `Refines` then says that
an execution does what the function says and never stops so.
-/

namespace SszArchive.Machine

open Wire (bufferBound)

/-- Why there is no result. -/
inductive Stop (ε : Type) where
  /-- The program reports a fault. -/
  | fault (cause : ε)
  /-- A step that nothing checks has left its range. -/
  | outOfRange
  /-- A byte buffer is asked for that is longer than any can be. -/
  | outOfMemory

abbrev Exec (ε α : Type) := Except (Stop ε) α

def report (e : ε) : Exec ε α := .error (.fault e)

/-- A step that checks everything itself. -/
def checked (r : Except ε α) : Exec ε α := r.mapError .fault

/-- Passes a fault on in another form. -/
def mapFault (f : ε → δ) : Exec ε α → Exec δ α
  | .ok a => .ok a
  | .error (.fault e) => .error (.fault (f e))
  | .error .outOfRange => .error .outOfRange
  | .error .outOfMemory => .error .outOfMemory

theorem ok_bind (a : α) (f : α → Except ε β) : ((.ok a : Except ε α) >>= f) = f a := rfl

theorem error_bind (e : ε) (f : α → Except ε β) :
    ((.error e : Except ε α) >>= f) = .error e := rfl

theorem of_bind_eq_ok {x : Except ε α} {f : α → Except ε β} {b : β} (h : (x >>= f) = .ok b) :
    ∃ a, x = .ok a ∧ f a = .ok b := by
  cases x with
  | ok a => exact ⟨a, rfl, h⟩
  | error e => cases h

/-! ## Steps that nothing checks -/

/-- `a`, by a step whose range is `p`. -/
def within (p : Prop) [Decidable p] (a : α) : Exec ε α := if p then .ok a else .error .outOfRange

def add (a b : Nat) : Exec ε Nat := within (a + b < UInt64.size) (a + b)

def sub (a b : Nat) : Exec ε Nat := within (b ≤ a) (a - b)

def mul (a b : Nat) : Exec ε Nat := within (a * b < UInt64.size) (a * b)

/-- The least signed word has no negative. -/
def negate (a : Int64) : Exec ε Int64 := within (a ≠ Int64.minValue) (-a)

/-- Bits moved out of the word are lost; only the distance has a range. -/
def shiftLeft (a distance : Nat) : Exec ε Nat :=
  within (distance < 64) ((a <<< distance) % UInt64.size)

def shiftRight (a distance : Nat) : Exec ε Nat := within (distance < 64) (a >>> distance)

/-- The bytes of `b` from `start` up to `stop`. -/
def piece (b : Bytes) (start stop : Nat) : Exec ε Bytes :=
  within (start ≤ stop ∧ stop ≤ b.length) ((b.take stop).drop start)

/-- `b` with its first `n` bytes replaced by `front`, which has to be as long. -/
def fill (b : Bytes) (n : Nat) (front : Bytes) : Exec ε Bytes :=
  within (n ≤ b.length ∧ front.length = n) (front ++ b.drop n)

def item (xs : List α) (i : Nat) : Exec ε α :=
  match xs[i]? with
  | some x => .ok x
  | none => .error .outOfRange

def update (xs : List α) (i : Nat) (f : α → α) : Exec ε (List α) :=
  within (i < xs.length) (xs.modify i f)

theorem within_of {p : Prop} [Decidable p] {a : α} (h : p) : (within p a : Exec ε α) = .ok a :=
  if_pos h

theorem add_of_lt {a b : Nat} (h : a + b < UInt64.size) : (add a b : Exec ε Nat) = .ok (a + b) :=
  within_of h

theorem sub_of_le {a b : Nat} (h : b ≤ a) : (sub a b : Exec ε Nat) = .ok (a - b) := within_of h

theorem mul_of_lt {a b : Nat} (h : a * b < UInt64.size) : (mul a b : Exec ε Nat) = .ok (a * b) :=
  within_of h

theorem piece_of_le {b : Bytes} {start stop : Nat} (h : start ≤ stop) (h' : stop ≤ b.length) :
    (piece b start stop : Exec ε Bytes) = .ok ((b.take stop).drop start) :=
  within_of ⟨h, h'⟩

/-- A piece by its length. -/
theorem piece_add {b : Bytes} {start n : Nat} (h : start + n ≤ b.length) :
    (piece b start (start + n) : Exec ε Bytes) = .ok ((b.drop start).take n) := by
  rw [piece_of_le (Nat.le_add_right start n) h, List.drop_take, Nat.add_sub_cancel_left]

example : (piece [1, 2] 1 3 : Exec Unit Bytes) = .error .outOfRange := rfl

theorem fill_of_le {b front : Bytes} {n : Nat} (h : n ≤ b.length) (h' : front.length = n) :
    (fill b n front : Exec ε Bytes) = .ok (front ++ b.drop n) :=
  within_of ⟨h, h'⟩

theorem item_of_getElem? {xs : List α} {i : Nat} {x : α} (h : xs[i]? = some x) :
    (item xs i : Exec ε α) = .ok x := by
  rw [item, h]

/-! ## Memory -/

/-- Room for `n` bytes. -/
def reserve (n : Nat) : Exec ε Unit := if n < bufferBound then .ok () else .error .outOfMemory

theorem reserve_of_lt {n : Nat} (h : n < bufferBound) : (reserve n : Exec ε Unit) = .ok () :=
  if_pos h

theorem reserve_of_ge {n : Nat} (h : bufferBound ≤ n) :
    (reserve n : Exec ε Unit) = .error .outOfMemory :=
  if_neg (Nat.not_lt.2 h)

/-! ## Refinement -/

/-- The execution ends as the function does, with a result that `R` relates to the function's or
with the same fault. When `scarce` it may run out of memory instead. -/
inductive Refines (scarce : Prop) (R : α → β → Prop) : Exec ε α → Except ε β → Prop
  | ok {a : α} {b : β} (h : R a b) : Refines scarce R (.ok a) (.ok b)
  | fault (e : ε) : Refines scarce R (.error (.fault e)) (.error e)
  | outOfMemory {r : Except ε β} (h : scarce) : Refines scarce R (.error .outOfMemory) r

namespace Refines

variable {scarce : Prop} {R : α → β → Prop} {x : Exec ε α} {r : Except ε β}

theorem ne_outOfRange (h : Refines scarce R x r) : x ≠ .error .outOfRange := by
  cases h <;> exact nofun

theorem of_ok {a : α} (h : Refines scarce R (.ok a) r) : ∃ b, r = .ok b ∧ R a b := by
  cases h with
  | ok h => exact ⟨_, rfl, h⟩

theorem eq_ok {b : α} (h : Refines scarce (· = ·) x (.ok b)) (hscarce : ¬ scarce) :
    x = .ok b := by
  cases h with
  | ok h => rw [h]
  | outOfMemory h => exact absurd h hscarce

/-- With memory enough there is a result exactly when the function has one. -/
theorem exists_ok_iff (h : Refines False R x r) : (∃ a, x = .ok a) ↔ ∃ b, r = .ok b := by
  cases h with
  | ok _ => exact iff_of_true ⟨_, rfl⟩ ⟨_, rfl⟩
  | fault e => exact iff_of_false (fun ⟨_, h⟩ => by cases h) (fun ⟨_, h⟩ => by cases h)
  | outOfMemory h => exact h.elim

theorem mono {scarce' : Prop} (h : Refines scarce R x r) (hscarce : scarce → scarce') :
    Refines scarce' R x r := by
  cases h with
  | ok h => exact .ok h
  | fault e => exact .fault e
  | outOfMemory h => exact .outOfMemory (hscarce h)

theorem checked (r : Except ε α) : Refines scarce (· = ·) (Machine.checked r) r := by
  cases r with
  | ok a => exact .ok rfl
  | error e => exact .fault e

theorem mapFault (h : Refines scarce R x r) (f : ε → δ) :
    Refines scarce R (Machine.mapFault f x) (r.mapError f) := by
  cases h with
  | ok h => exact .ok h
  | fault e => exact .fault (f e)
  | outOfMemory h => exact .outOfMemory h

theorem bind {S : γ → δ → Prop} {f : α → Exec ε γ} {g : β → Except ε δ}
    (h : Refines scarce R x r) (hf : ∀ a b, R a b → Refines scarce S (f a) (g b)) :
    Refines scarce S (x >>= f) (r >>= g) := by
  cases h with
  | ok h => exact hf _ _ h
  | fault e => exact .fault e
  | outOfMemory h => exact .outOfMemory h

end Refines

end SszArchive.Machine
