/-
  The bytes of texts: what a sink receives, and how texts are ordered. Main statements:
  `received_of_outcome_deliver`, `bytesOf_lt_of_le`. The encoding of a smaller character is
  smaller at some byte already, so what follows does not matter.
-/
import Ambient.Declaration.Listing
import Ambient.Emission.Sink
import Mathlib.Data.List.Basic
import Mathlib.Tactic.SplitIfs

namespace Ambient

/-! ## The bytes of a text -/

theorem toList_loop (bytes : ByteArray) (i : Nat) (acc : List UInt8) :
    ByteArray.toList.loop bytes i acc = acc.reverse ++ bytes.data.toList.drop i := by
  fun_induction ByteArray.toList.loop bytes i acc with
  | case1 i acc h ih =>
    have hi : i < bytes.data.toList.length := h
    have hget : bytes.get! i = bytes.data.toList[i] := getElem!_pos bytes.data i h
    rw [ih, List.drop_eq_getElem_cons hi, List.reverse_cons, List.append_assoc, hget]
    rfl
  | case2 i acc h =>
    have hi : bytes.data.toList.length ≤ i := Nat.le_of_not_lt h
    rw [List.drop_eq_nil_of_le hi, List.append_nil]

theorem bytesOf_eq (s : String) : bytesOf s = s.toList.flatMap String.utf8EncodeChar := by
  rw [bytesOf, ByteArray.toList, toList_loop, List.reverse_nil, List.nil_append, List.drop_zero,
    String.toUTF8_eq_toByteArray, ← String.utf8Encode_toList, List.utf8Encode,
    List.toList_data_toByteArray]

theorem bytesOf_join (pieces : List String) :
    bytesOf (String.join pieces) = pieces.flatMap bytesOf := by
  rw [bytesOf_eq, String.toList_join, List.flatMap_assoc]
  exact List.flatMap_congr fun s _ => (bytesOf_eq s).symm

/-- A sink that ends without an error has received the whole text. -/
theorem received_of_outcome_deliver {α : Type} {sink : Sink} {m : Emission α} {a : α}
    (h : (sink.deliver m).outcome = .ok a) :
    m.outcome = .ok a ∧ (sink.deliver m).received = bytesOf m.text := by
  have finished : ∀ {o : Except InclusionError α}, sink.finish o = .ok a → o = .ok a := by
    intro o ho
    unfold Sink.finish at ho
    grind
  rw [Emission.text, bytesOf_join]
  obtain ⟨_ | ⟨room, refusal⟩, flushError⟩ := sink
  · exact ⟨finished h, rfl⟩
  · unfold Sink.deliver at h ⊢
    simp only [writeBounded_eq, List.nil_append] at h ⊢
    by_cases fits : (m.pieces.flatMap bytesOf).length ≤ room
    · simp only [fits, decide_true] at h ⊢
      exact ⟨finished h, List.take_of_length_le fits⟩
    · simp only [fits, decide_false] at h
      exact nomatch h

/-! ## Order -/

/-- A smaller character has smaller bytes, whatever follows. -/
theorem utf8EncodeChar_append_lt {c d : Char} (h : c < d) (xs ys : List UInt8) :
    String.utf8EncodeChar c ++ xs < String.utf8EncodeChar d ++ ys := by
  have hv : c.val.toNat < d.val.toNat := h
  have hd : d.val.toNat < 1114112 := d.valid.elim (by omega) (by omega)
  unfold String.utf8EncodeChar
  dsimp only
  generalize c.val.toNat = v at *
  generalize d.val.toNat = w at *
  -- the digits in base 64 of the two characters
  have hv₁ : v / 4096 = v / 64 / 64 := by omega
  have hv₂ : v / 262144 = v / 64 / 64 / 64 := by omega
  have hw₁ : w / 4096 = w / 64 / 64 := by omega
  have hw₂ : w / 262144 = w / 64 / 64 / 64 := by omega
  rw [hv₁, hv₂, hw₁, hw₂]
  clear hv₁ hv₂ hw₁ hw₂
  split_ifs
  all_goals
    simp only [List.cons_append, List.nil_append, List.cons_lt_cons_iff, UInt8.lt_iff_toNat_lt,
      ← UInt8.toNat_inj, UInt8.toNat_ofNat']
    omega

theorem flatMap_utf8EncodeChar_lt {cs ds : List Char} (h : cs < ds) :
    cs.flatMap String.utf8EncodeChar < ds.flatMap String.utf8EncodeChar := by
  induction h with
  | @nil d ds =>
    obtain ⟨b, bs, hb⟩ := List.exists_cons_of_ne_nil (String.utf8EncodeChar_ne_nil (c := d))
    rw [List.flatMap_cons, hb]
    exact List.nil_lt_cons b _
  | rel hlt => exact utf8EncodeChar_append_lt hlt _ _
  | cons _ ih => exact List.append_left_lt ih

/-- Texts in order have their bytes in order. -/
theorem bytesOf_lt_of_le {a b : String} (h : a ≤ b) : a = b ∨ bytesOf a < bytesOf b := by
  rw [bytesOf_eq, bytesOf_eq]
  rcases (@List.le_iff_lt_or_eq Char _ _ _ _ _).mp h with hlt | heq
  · exact .inr (flatMap_utf8EncodeChar_lt hlt)
  · exact .inl (String.toList_inj.mp heq)

/-- What is sorted by texts has the bytes of the texts in order. -/
theorem pairwise_mergeSort_bytesOf {α : Type} (f : α → String) (xs : List α) :
    (xs.mergeSort fun a b => decide (f a ≤ f b)).Pairwise
      fun a b => f a = f b ∨ bytesOf (f a) < bytesOf (f b) := by
  have trans : ∀ a b c : α, decide (f a ≤ f b) = true → decide (f b ≤ f c) = true →
      decide (f a ≤ f c) = true := by
    simp only [decide_eq_true_eq]
    exact fun a b c hab hbc => List.le_trans (α := Char) hab hbc
  have total : ∀ a b : α, (decide (f a ≤ f b) || decide (f b ≤ f a)) = true := by
    simp only [Bool.or_eq_true, decide_eq_true_eq]
    exact fun a b => List.le_total (α := Char) (f a).toList (f b).toList
  refine (List.pairwise_mergeSort trans total xs).imp fun h => ?_
  exact bytesOf_lt_of_le (of_decide_eq_true h)

namespace Index

theorem perm_sortedNames (i : Index) : i.sortedNames.Perm i.names := List.mergeSort_perm _ _

/-- The names of an index are sorted by their bytes. -/
theorem pairwise_sortedNames (i : Index) :
    i.sortedNames.Pairwise fun a b => a = b ∨ bytesOf a < bytesOf b :=
  pairwise_mergeSort_bytesOf id i.names

end Index

end Ambient
