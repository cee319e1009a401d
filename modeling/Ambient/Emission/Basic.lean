/-
  Emissions: pieces of text written one after the other, and how the writing ended. What follows
  an error is not written (`pieces_andThen_of_error`).
-/

namespace Ambient

/-- A chain of mixins that cannot be inlined into a class. -/
inductive InclusionError
  /-- A mixin has no record in the class's view. -/
  | missing (className mixin : String)
  /-- A mixin includes itself; the chain goes from the class to the repeated name. -/
  | cycle (className : String) (chain : List String)
deriving DecidableEq, Repr

/-- The text of an inclusion error. -/
def InclusionError.message : InclusionError → String
  | .missing className mixin =>
    "class " ++ className ++ " includes mixin " ++ mixin ++
      ", which is missing from its hierarchy"
  | .cycle className chain =>
    "cyclic mixin inclusion while emitting " ++ className ++ ": " ++
      " -> ".intercalate chain

/-- Pieces of text in the order of writing, and the outcome of the writing. -/
structure Emission (α : Type) where
  pieces : List String
  outcome : Except InclusionError α

namespace Emission

variable {α β γ : Type}

/-- Writes nothing. -/
def done (a : α) : Emission α := ⟨[], .ok a⟩

/-- Writes pieces. -/
def write (pieces : List String) : Emission Unit := ⟨pieces, .ok ()⟩

/-- Ends in an error. -/
def fail (e : InclusionError) : Emission α := ⟨[], .error e⟩

/-- One emission after another, unless the first one ends in an error. -/
def andThen (m : Emission α) (f : α → Emission β) : Emission β :=
  match m.outcome with
  | .error e => ⟨m.pieces, .error e⟩
  | .ok a =>
    let next := f a
    ⟨m.pieces ++ next.pieces, next.outcome⟩

/-- All the text written. -/
def text (m : Emission α) : String := String.join m.pieces

@[simp] theorem pieces_write_andThen (pieces : List String) (f : Unit → Emission β) :
    ((write pieces).andThen f).pieces = pieces ++ (f ()).pieces := rfl

@[simp] theorem outcome_write_andThen (pieces : List String) (f : Unit → Emission β) :
    ((write pieces).andThen f).outcome = (f ()).outcome := rfl

theorem pieces_andThen_of_ok {m : Emission α} {f : α → Emission β} {a : α}
    (h : m.outcome = .ok a) : (m.andThen f).pieces = m.pieces ++ (f a).pieces := by
  rw [andThen, h]

theorem outcome_andThen_of_ok {m : Emission α} {f : α → Emission β} {a : α}
    (h : m.outcome = .ok a) : (m.andThen f).outcome = (f a).outcome := by
  rw [andThen, h]

theorem outcome_andThen_of_error {m : Emission α} {f : α → Emission β} {e : InclusionError}
    (h : m.outcome = .error e) : (m.andThen f).outcome = .error e := by
  rw [andThen, h]

theorem pieces_andThen_of_error {m : Emission α} {f : α → Emission β} {e : InclusionError}
    (h : m.outcome = .error e) : (m.andThen f).pieces = m.pieces := by
  rw [andThen, h]

@[simp] theorem pieces_andThen_done (m : Emission α) (f : α → β) :
    (m.andThen fun a => done (f a)).pieces = m.pieces := by
  unfold andThen
  cases m.outcome <;> simp [done]

theorem andThen_assoc (m : Emission α) (f : α → Emission β) (g : β → Emission γ) :
    (m.andThen f).andThen g = m.andThen fun a => (f a).andThen g := by
  unfold andThen
  cases m.outcome with
  | error e => rfl
  | ok a =>
    dsimp only
    cases (f a).outcome <;> simp

/-- Pieces are written at once or one part after the other. -/
theorem write_append_andThen (pieces later : List String) (f : Unit → Emission β) :
    (write (pieces ++ later)).andThen f =
      (write pieces).andThen fun _ => (write later).andThen f := by
  unfold andThen write
  simp

/-- A writing in two parts succeeds just when both do. -/
theorem outcome_andThen_eq_ok {m : Emission α} {f : α → Emission β} {b : β} :
    (m.andThen f).outcome = .ok b ↔ ∃ a, m.outcome = .ok a ∧ (f a).outcome = .ok b := by
  unfold andThen
  cases m.outcome <;> simp

end Emission

end Ambient
