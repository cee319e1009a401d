/-
  Sinks: receivers of bytes that may fill up, and the delivery of an emission to one. Main
  statement: `writeBounded_eq` (the bytes received are the first ones of the text).
-/
import Ambient.Emission.Basic

namespace Ambient

/-- How a sink without room answers a write. -/
inductive Refusal
  /-- By an error with a text. -/
  | error (text : String)
  /-- By accepting no byte. -/
  | nothing
deriving DecidableEq, Repr

/-- The text of a refusal. -/
def Refusal.message : Refusal → String
  | .error text => text
  | .nothing => "failed to write whole buffer"

/-- A receiver of bytes: how many it accepts and what it does then, and the text with which
its final flush fails, if it fails. -/
structure Sink where
  room : Option (Nat × Refusal)
  flushError : Option String

/-- The sink that accepts everything. -/
def Sink.unbounded : Sink := ⟨none, none⟩

/-- Why declarations could not be written. -/
inductive WriteError
  | sink (text : String)
  | inclusion (e : InclusionError)
deriving DecidableEq, Repr

/-- The text of a write error. -/
def WriteError.message : WriteError → String
  | .sink text => "failed to write declarations: " ++ text
  | .inclusion e => e.message

/-- The bytes of a piece of text. -/
def bytesOf (piece : String) : List UInt8 := piece.toUTF8.toList

/-- Writes pieces to a sink with room for so many bytes, after the bytes already received. A
piece that does not fit is cut; an empty piece never reaches the sink. -/
def writeBounded (room : Nat) (received : List UInt8) :
    List String → List UInt8 × Bool
  | [] => (received, true)
  | piece :: pieces =>
    let bytes := bytesOf piece
    if bytes.length ≤ room then
      writeBounded (room - bytes.length) (received ++ bytes) pieces
    else (received ++ bytes.take room, false)

/-- What a sink received of an emission, and how the writing ended. -/
structure Delivery (α : Type) where
  received : List UInt8
  outcome : Except WriteError α

/-- The end of a writing that the sink did not stop: the flush comes after a success only. -/
def Sink.finish {α : Type} (sink : Sink) : Except InclusionError α → Except WriteError α
  | .error e => .error (.inclusion e)
  | .ok a =>
    match sink.flushError with
    | some text => .error (.sink text)
    | none => .ok a

/-- The delivery of an emission to a sink. -/
def Sink.deliver {α : Type} (sink : Sink) (m : Emission α) : Delivery α :=
  match sink.room with
  | none => ⟨m.pieces.flatMap bytesOf, sink.finish m.outcome⟩
  | some (room, refusal) =>
    match writeBounded room [] m.pieces with
    | (received, true) => ⟨received, sink.finish m.outcome⟩
    | (received, false) => ⟨received, .error (.sink refusal.message)⟩

/-- The text that bytes encode. -/
def textOfBytes? (bytes : List UInt8) : Option String := String.fromUTF8? ⟨bytes.toArray⟩

/-- The text of received bytes; a last character that was cut is written as one replacement
character. -/
def Delivery.text {α : Type} (d : Delivery α) : String :=
  match textOfBytes? d.received with
  | some s => s
  | none =>
    let whole? := [1, 2, 3].findSome? fun cut =>
      textOfBytes? (d.received.take (d.received.length - cut))
    whole?.getD "" ++ "\ufffd"

theorem writeBounded_eq (room : Nat) (received : List UInt8) (pieces : List String) :
    writeBounded room received pieces =
      (received ++ (pieces.flatMap bytesOf).take room,
        decide ((pieces.flatMap bytesOf).length ≤ room)) := by
  induction pieces generalizing room received with
  | nil => simp [writeBounded]
  | cons p ps ih =>
    unfold writeBounded
    simp only [List.flatMap_cons, List.length_append]
    split
    · next h =>
      rw [ih, List.take_append, List.take_of_length_le h, List.append_assoc]
      congr 1
      exact decide_eq_decide.mpr (by omega)
    · next h =>
      rw [List.take_append_of_le_length (by omega)]
      congr 1
      exact (decide_eq_false (by omega)).symm

end Ambient
