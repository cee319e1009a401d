/-
  Bounded sinks: what a sink that fills up receives of a listing, and how the writing ends. A
  sink may take the bytes of a text in as many parts as it likes. Main results: the parts make
  no difference (`writePieces_eq`), a writing on a sink goes step by step and stops at the first
  step that fails (`run_andThen`), and a listing that is written text by text to a sink with too
  little room gives it as much of its bytes as there is room for and ends in a sink error
  (`Index.listing_on_bounded_sink`).
-/
import Ambient.Proofs.Offerings

namespace Ambient

/-! ## Taking bytes in parts -/

/-- How a sink takes the bytes it is offered, by what it has received, how many are offered and
how much room is left: some of them as long as there is room, never more than there is room
for. -/
structure Intake where
  take : List UInt8 → Nat → Nat → Nat
  take_pos : ∀ received {offered room}, 0 < offered → 0 < room → 0 < take received offered room
  take_le_offered : ∀ received offered room, take received offered room ≤ offered
  take_le_room : ∀ received offered room, take received offered room ≤ room

/-- A sink in the course of a writing: what it has received, and the room that is left. -/
structure Progress where
  received : List UInt8
  room : Nat

namespace Intake

variable {α β : Type}

/-- Offers bytes until all are taken or no room is left; the answer tells which. No bytes are
not offered. -/
def writeAll (k : Intake) (p : Progress) (bytes : List UInt8) : Progress × Bool :=
  if _some : bytes = [] then (p, true)
  else if _room : p.room = 0 then (p, false)
  else
    let n := k.take p.received bytes.length p.room
    k.writeAll ⟨p.received ++ bytes.take n, p.room - n⟩ (bytes.drop n)
termination_by bytes.length
decreasing_by
  have offered : 0 < bytes.length := List.length_pos_iff.mpr _some
  have taken := k.take_pos p.received offered (Nat.pos_of_ne_zero _room)
  rw [List.length_drop]
  omega

/-- Writes pieces one after the other, up to the first one that does not fit. -/
def writePieces (k : Intake) (p : Progress) : List String → Progress × Bool
  | [] => (p, true)
  | piece :: pieces =>
    match k.writeAll p (bytesOf piece) with
    | (p, true) => k.writePieces p pieces
    | (p, false) => (p, false)

/-- Runs a writing on a sink that refuses as told once its room is used up. -/
def run (k : Intake) (refusal : Refusal) (m : Emission α) (p : Progress) :
    Progress × Except WriteError α :=
  match k.writePieces p m.pieces with
  | (p, true) => (p, m.outcome.mapError .inclusion)
  | (p, false) => (p, .error (.sink refusal.message))

/-- In however many parts bytes are taken, those are taken that there is room for. -/
theorem writeAll_eq (k : Intake) (p : Progress) (bytes : List UInt8) :
    k.writeAll p bytes =
      (⟨p.received ++ bytes.take p.room, p.room - bytes.length⟩,
        decide (bytes.length ≤ p.room)) := by
  fun_induction writeAll k p bytes with
  | case1 p => simp
  | case2 p bytes some full =>
    have : ¬ bytes.length ≤ p.room := by
      have := List.length_pos_iff.mpr some
      omega
    obtain ⟨received, room⟩ := p
    obtain rfl : room = 0 := full
    simp [some]
  | case3 p bytes some room n ih =>
    have hoffered : n ≤ bytes.length := k.take_le_offered p.received bytes.length p.room
    have hroom : n ≤ p.room := k.take_le_room p.received bytes.length p.room
    have parts : bytes.take p.room = bytes.take n ++ (bytes.drop n).take (p.room - n) := by
      rw [← List.take_add, Nat.add_sub_cancel' hroom]
    have left : p.room - n - (bytes.length - n) = p.room - bytes.length := by omega
    have fits : bytes.length - n ≤ p.room - n ↔ bytes.length ≤ p.room := by omega
    rw [ih, parts, List.length_drop, List.append_assoc]
    dsimp only
    rw [left, decide_eq_decide.mpr fits]

/-- In however many parts a sink takes pieces, it receives the bytes of them that there is room
for. -/
theorem writePieces_eq (k : Intake) (p : Progress) (pieces : List String) :
    k.writePieces p pieces =
      (⟨p.received ++ (pieces.flatMap bytesOf).take p.room,
          p.room - (pieces.flatMap bytesOf).length⟩,
        decide ((pieces.flatMap bytesOf).length ≤ p.room)) := by
  induction pieces generalizing p with
  | nil => simp [writePieces]
  | cons piece pieces ih =>
    rw [writePieces, writeAll_eq, List.flatMap_cons, List.length_append]
    by_cases fits : (bytesOf piece).length ≤ p.room
    · have left : p.room - (bytesOf piece).length - (pieces.flatMap bytesOf).length =
          p.room - ((bytesOf piece).length + (pieces.flatMap bytesOf).length) := by omega
      have all_fit : (pieces.flatMap bytesOf).length ≤ p.room - (bytesOf piece).length ↔
          (bytesOf piece).length + (pieces.flatMap bytesOf).length ≤ p.room := by omega
      rw [decide_eq_true fits]
      dsimp only
      rw [ih, left, decide_eq_decide.mpr all_fit, List.take_of_length_le fits, List.append_assoc,
        List.take_append, List.take_of_length_le fits]
    · have full : p.room - (bytesOf piece).length =
          p.room - ((bytesOf piece).length + (pieces.flatMap bytesOf).length) := by omega
      rw [decide_eq_false fits, decide_eq_false (by omega), full,
        List.take_append_of_le_length (by omega)]

/-! ## A writing, step by step -/

theorem writePieces_append (k : Intake) (p : Progress) (front back : List String) :
    k.writePieces p (front ++ back) =
      match k.writePieces p front with
      | (p, true) => k.writePieces p back
      | (p, false) => (p, false) := by
  induction front generalizing p with
  | nil => rfl
  | cons piece front ih =>
    rw [List.cons_append, writePieces, writePieces]
    split
    · exact ih _
    · rfl

/-- Of two writings in a row the second one starts where the first one ends, unless the first
one fails, be it in the sink or in an inclusion. -/
theorem run_andThen (k : Intake) (refusal : Refusal) (m : Emission α) (f : α → Emission β)
    (p : Progress) :
    k.run refusal (m.andThen f) p =
      match k.run refusal m p with
      | (p, .ok a) => k.run refusal (f a) p
      | (p, .error e) => (p, .error e) := by
  unfold run Emission.andThen
  cases m.outcome with
  | error e =>
    dsimp only
    cases k.writePieces p m.pieces with
    | mk p fits => cases fits <;> rfl
  | ok a =>
    dsimp only
    rw [writePieces_append]
    cases k.writePieces p m.pieces with
    | mk p fits => cases fits <;> rfl

/-- A writing on a sink gives it all its bytes and ends as it does by itself, if there is room for
them; else it gives those that there is room for and ends in an error of the sink. -/
theorem run_eq (k : Intake) (refusal : Refusal) (m : Emission α) (p : Progress) :
    k.run refusal m p =
      if (m.pieces.flatMap bytesOf).length ≤ p.room then
        (⟨p.received ++ m.pieces.flatMap bytesOf, p.room - (m.pieces.flatMap bytesOf).length⟩,
          m.outcome.mapError .inclusion)
      else (⟨p.received ++ (m.pieces.flatMap bytesOf).take p.room, 0⟩,
        .error (.sink refusal.message)) := by
  rw [run, writePieces_eq]
  by_cases fits : (m.pieces.flatMap bytesOf).length ≤ p.room
  · rw [if_pos fits, decide_eq_true fits, List.take_of_length_le fits]
  · rw [if_neg fits, decide_eq_false fits, Nat.sub_eq_zero_of_le (by omega)]

/-! ## Sinks as receivers -/

/-- The sink as a receiver: it takes of a text what there is room for, and refuses the text unless
that is all of it. Its flush fails with a text, if one is given. -/
def receiver (k : Intake) (refusal : Refusal) (flushError : Option String) : Receiver Progress where
  put text := ExceptT.mk fun p =>
    match k.writeAll p (bytesOf text) with
    | (p, true) => (.ok (), p)
    | (p, false) => (.error (.sink refusal.message), p)
  flush :=
    match flushError with
    | some text => throw (.sink text)
    | none => pure ()

theorem run_forM_put (k : Intake) (refusal : Refusal) (flushError : Option String)
    (pieces : List String) (p : Progress) :
    (forM pieces (k.receiver refusal flushError).put).run.run p =
      match k.writePieces p pieces with
      | (p, true) => (.ok (), p)
      | (p, false) => (.error (.sink refusal.message), p) := by
  induction pieces generalizing p with
  | nil => rfl
  | cons piece pieces ih =>
    rw [List.forM_cons, writePieces, ExceptT.run_bind, StateT.run_bind]
    have offered : ((k.receiver refusal flushError).put piece).run.run p =
        match k.writeAll p (bytesOf piece) with
        | (p, true) => (.ok (), p)
        | (p, false) => (.error (.sink refusal.message), p) := rfl
    rw [offered]
    cases k.writeAll p (bytesOf piece) with
    | mk q whole =>
      cases whole with
      | false => rfl
      | true => exact ih q

/-- What the sink makes of an emission that is offered to it piece by piece. -/
theorem run_replay (k : Intake) (refusal : Refusal) (flushError : Option String)
    (m : Emission α) (p : Progress) :
    ((k.receiver refusal flushError).replay m).run.run p = (k.run refusal m p).swap := by
  rw [Receiver.replay, ExceptT.run_bind, StateT.run_bind, run_forM_put, run]
  cases k.writePieces p m.pieces with
  | mk q whole =>
    cases whole with
    | false => rfl
    | true => cases m.outcome <;> rfl

end Intake

/-- The receiver that takes everything. -/
def Receiver.everything : Receiver (List UInt8) where
  put text := modify (· ++ bytesOf text)
  flush := pure ()

theorem Receiver.run_forM_put_everything (pieces : List String) (received : List UInt8) :
    (forM pieces everything.put).run.run received =
      (.ok (), received ++ pieces.flatMap bytesOf) := by
  induction pieces generalizing received with
  | nil =>
    rw [List.flatMap_nil, List.append_nil]
    rfl
  | cons piece pieces ih =>
    rw [List.forM_cons, ExceptT.run_bind, StateT.run_bind]
    have offered : (everything.put piece).run.run received =
        (.ok (), received ++ bytesOf piece) := rfl
    rw [offered, List.flatMap_cons, ← List.append_assoc]
    exact ih (received ++ bytesOf piece)

theorem Receiver.run_replay_everything {α : Type} (m : Emission α) :
    (everything.replay m).run.run [] =
      (m.outcome.mapError .inclusion, m.pieces.flatMap bytesOf) := by
  rw [replay, ExceptT.run_bind, StateT.run_bind, run_forM_put_everything]
  cases m.outcome <;> rfl

/-! ## Delivery -/

/-- A sink that accepts everything receives all the bytes and ends as the writing does. -/
theorem Sink.deliver_unbounded {α : Type} (m : Emission α) :
    unbounded.deliver m = ⟨m.pieces.flatMap bytesOf, m.outcome.mapError .inclusion⟩ := by
  unfold deliver finish unbounded
  cases m.outcome <;> rfl

/-- A sink with a bound receives a listing that is offered to it text by text as it does one that
is delivered to it, in whatever parts it takes the texts and however its flush ends. -/
theorem Intake.deliver_eq (k : Intake) (room : Nat) (refusal : Refusal)
    (flushError : Option String) (i : Index) (settings : Settings) (time : String) :
    (⟨some (room, refusal), flushError⟩ : Sink).deliver (i.listing settings time) =
      ⟨(((k.receiver refusal flushError).putListing i settings time).run.run ⟨[], room⟩).2.received,
        (((k.receiver refusal flushError).putListing i settings time).run.run ⟨[], room⟩).1⟩ := by
  rw [Receiver.putListing_eq, ExceptT.run_bind, StateT.run_bind, run_replay, run_eq, Sink.deliver]
  dsimp only
  rw [writeBounded_eq]
  by_cases fits : ((i.listing settings time).pieces.flatMap bytesOf).length ≤ room
  · rw [if_pos fits, decide_eq_true fits, List.take_of_length_le fits]
    cases (i.listing settings time).outcome with
    | error e => rfl
    | ok stats => cases flushError <;> rfl
  · rw [if_neg fits, decide_eq_false fits]
    rfl

/-- A listing on a sink that takes so many bytes, in whatever parts, and then refuses. What the
listing gives a receiver that takes everything is its text, and how it ends there, in the
statistics or an inclusion error, is its result. With room for the text the sink receives just
that, with the same result; else it receives the first bytes of the text, as many as there is room
for, and the writing ends in a sink error. -/
theorem Index.listing_on_bounded_sink (i : Index) (settings : Settings) (time : String)
    (k : Intake) (room : Nat) (refusal : Refusal) :
    ∃ text result,
      (Receiver.everything.putListing i settings time).run.run [] = (result, text) ∧
      ((k.receiver refusal none).putListing i settings time).run.run ⟨[], room⟩ =
        (if text.length ≤ room then (result, ⟨text, room - text.length⟩)
          else (.error (.sink refusal.message), ⟨text.take room, 0⟩)) ∧
      result = (i.listing settings time).outcome.mapError .inclusion ∧
      Sink.unbounded.deliver (i.listing settings time) = ⟨text, result⟩ ∧
      ∀ flushError,
        (⟨some (room, refusal), flushError⟩ : Sink).deliver (i.listing settings time) =
          let ended :=
            ((k.receiver refusal flushError).putListing i settings time).run.run ⟨[], room⟩
          ⟨ended.2.received, ended.1⟩ := by
  refine ⟨(i.listing settings time).pieces.flatMap bytesOf, _, ?_, ?_, rfl,
    Sink.deliver_unbounded _, fun flushError => k.deliver_eq room refusal flushError i settings time⟩
  · rw [Receiver.putListing_of_flush _ rfl, Receiver.run_replay_everything]
  · rw [Receiver.putListing_of_flush _ rfl, Intake.run_replay, Intake.run_eq]
    split <;> rfl

end Ambient
