/-
  Expansion: what the passes of a vocabulary come to. Where the keys of a vocabulary are words
  and no key comes back in its own expansion, repeated passes replace every key that stands
  alone by its full expansion, in one go. The rank of the keys bounds the passes: each pass
  leaves keys of smaller rank only.
-/
import Ambient.Proofs.MaximalRuns
import Ambient.TypeText.Vocabulary

namespace Ambient.TypeText

/-! ## Keys that stand alone -/

/-- A key of the vocabulary is one of the tokens, a word that heads no generic type. -/
def Stands (v : Vocabulary) (ts : List Token) (key : String) : Prop :=
  ∃ front rest, ts = front ++ .word key.toList :: rest ∧
    rest.head? ≠ some (.mark '<') ∧ v.contains key = true

/-- Texts with every key that stands alone replaced by its full expansion: the value of the key,
with the keys that stand alone in it replaced likewise. -/
inductive Expands (v : Vocabulary) : List Token → List Char → Prop
  | nil : Expands v [] []
  | mark {c : Char} {ts : List Token} {out : List Char} (rest : Expands v ts out) :
      Expands v (.mark c :: ts) (c :: out)
  | kept {w : List Char} {ts : List Token} {out : List Char}
      (other : ts.head? = some (.mark '<') ∨ v.get? (String.ofList w) = none)
      (rest : Expands v ts out) : Expands v (.word w :: ts) (w ++ out)
  | key {w : List Char} {ts : List Token} {value : String} {full out : List Char}
      (alone : ts.head? ≠ some (.mark '<')) (found : v.get? (String.ofList w) = some value)
      (expanded : Expands v (tokenize value.toList) full) (rest : Expands v ts out) :
      Expands v (.word w :: ts) (full ++ out)

/-- A vocabulary of words with ranks up to `depth`: the keys that stand alone in the value of a
key have smaller ranks. -/
structure Ranked (v : Vocabulary) (rank : String → Nat) (depth : Nat) : Prop where
  words : ∀ key, v.contains key = true → ∀ c ∈ key.toList, isWordChar c = true
  bounds : ∀ key, v.contains key = true → 1 ≤ rank key ∧ rank key ≤ depth
  falls : ∀ key value, v.get? key = some value →
    ∀ inner, Stands v (tokenize value.toList) inner → rank inner < rank key

theorem stands_cons_iff {v : Vocabulary} {t : Token} {ts : List Token} {key : String} :
    Stands v (t :: ts) key ↔
      (t = .word key.toList ∧ ts.head? ≠ some (.mark '<') ∧ v.contains key = true) ∨
        Stands v ts key := by
  constructor
  · rintro ⟨front, rest, eq, alone, known⟩
    cases front with
    | nil =>
      obtain ⟨rfl, rfl⟩ := List.cons.inj eq
      exact .inl ⟨rfl, alone, known⟩
    | cons u front =>
      obtain ⟨rfl, rfl⟩ := List.cons.inj eq
      exact .inr ⟨front, rest, rfl, alone, known⟩
  · rintro (⟨rfl, alone, known⟩ | ⟨front, rest, rfl, alone, known⟩)
    · exact ⟨[], ts, rfl, alone, known⟩
    · exact ⟨t :: front, rest, rfl, alone, known⟩

theorem not_stands_nil {v : Vocabulary} {key : String} : ¬ Stands v [] key := by
  rintro ⟨front, rest, eq, -⟩
  simp at eq

theorem stands_mark_cons_iff {v : Vocabulary} {c : Char} {ts : List Token} {key : String} :
    Stands v (.mark c :: ts) key ↔ Stands v ts key := by
  simp [stands_cons_iff]

theorem stands_word_cons {v : Vocabulary} {w : List Char} {ts : List Token} {value : String}
    (alone : ts.head? ≠ some (.mark '<')) (found : v.get? (String.ofList w) = some value) :
    Stands v (.word w :: ts) (String.ofList w) :=
  stands_cons_iff.mpr (.inl ⟨by simp, alone, Option.isSome_of_eq_some found⟩)

/-- Behind a word that heads a generic type or is no key. -/
theorem Stands.of_word_cons {v : Vocabulary} {w : List Char} {ts : List Token} {key : String}
    (other : ts.head? = some (.mark '<') ∨ v.get? (String.ofList w) = none)
    (h : Stands v (.word w :: ts) key) : Stands v ts key := by
  rcases stands_cons_iff.mp h with ⟨same, alone, known⟩ | later
  · have unknown := other.resolve_left alone
    rw [Token.word.inj same, String.ofList_toList] at unknown
    simp [Table.contains, unknown] at known
  · exact later

theorem Stands.known {v : Vocabulary} {ts : List Token} {key : String} (h : Stands v ts key) :
    v.contains key = true := by
  obtain ⟨_, _, _, _, known⟩ := h
  exact known

theorem Stands.mem {v : Vocabulary} {ts : List Token} {key : String} (h : Stands v ts key) :
    .word key.toList ∈ ts := by
  obtain ⟨front, rest, rfl, -⟩ := h
  exact List.mem_append_right _ List.mem_cons_self

/-- A key that stands alone in two texts in a row stands alone in one of them. -/
theorem Stands.of_append {v : Vocabulary} {ts us : List Token} {key : String}
    (h : Stands v (ts ++ us) key) : Stands v ts key ∨ Stands v us key := by
  induction ts with
  | nil => exact .inr h
  | cons t ts ih =>
    rcases stands_cons_iff.mp h with ⟨rfl, alone, known⟩ | later
    · refine .inl (stands_cons_iff.mpr (.inl ⟨rfl, ?_, known⟩))
      cases ts with
      | nil => simp
      | cons u ts => exact alone
    · exact (ih later).imp_left fun h => stands_cons_iff.mpr (.inr h)

/-- A key that stands alone goes on to do so where what follows makes no generic type of it. -/
theorem Stands.append_left {v : Vocabulary} {ts us : List Token} {key : String}
    (h : Stands v ts key) (apart : us.head? ≠ some (.mark '<')) : Stands v (ts ++ us) key := by
  obtain ⟨front, rest, rfl, alone, known⟩ := h
  refine ⟨front, rest ++ us, by simp, ?_, known⟩
  cases rest with
  | nil => exact apart
  | cons _ _ => exact alone

theorem Stands.append_right {v : Vocabulary} {us : List Token} {key : String}
    (h : Stands v us key) (ts : List Token) : Stands v (ts ++ us) key := by
  obtain ⟨front, rest, rfl, alone, known⟩ := h
  exact ⟨ts ++ front, rest, by simp, alone, known⟩

namespace Expands

variable {v : Vocabulary} {ts us : List Token} {x y : List Char}

/-- A text has one expansion at most. -/
theorem unique (h : Expands v ts x) (h' : Expands v ts y) : x = y := by
  induction h generalizing y with
  | nil => cases h'; rfl
  | mark _ ih =>
    cases h' with
    | mark rest => rw [ih rest]
  | kept other _ ih =>
    cases h' with
    | kept _ rest => rw [ih rest]
    | key alone found _ _ =>
      rcases other with generic | unknown
      · exact absurd generic alone
      · simp [unknown] at found
  | key alone found _ _ ih ih' =>
    cases h' with
    | kept other _ =>
      rcases other with generic | unknown
      · exact absurd generic alone
      · simp [unknown] at found
    | key _ found' expanded rest =>
      obtain rfl := Option.some.inj (found.symm.trans found')
      rw [ih expanded, ih' rest]

/-- A text without keys that stand alone is its own expansion. -/
theorem of_not_stands (h : ∀ key, ¬ Stands v ts key) : Expands v ts (textOf ts) := by
  induction ts with
  | nil => exact .nil
  | cons t ts ih =>
    have rest := ih fun key later => h key (stands_cons_iff.mpr (.inr later))
    cases t with
    | mark c => exact .mark rest
    | word w =>
      refine .kept ?_ rest
      by_contra other
      obtain ⟨alone, known⟩ := not_or.mp other
      obtain ⟨value, found⟩ := Option.ne_none_iff_exists'.mp known
      exact h _ (stands_word_cons alone found)

/-- The expansion of texts in a row, where the second one makes no generic type of the first,
is made up of their expansions. -/
theorem of_append {out : List Char} (h : Expands v (ts ++ us) out)
    (apart : us.head? ≠ some (.mark '<')) :
    ∃ x y, out = x ++ y ∧ Expands v ts x ∧ Expands v us y := by
  induction ts generalizing out with
  | nil => exact ⟨[], out, rfl, .nil, h⟩
  | cons t ts ih =>
    have next : (ts ++ us).head? = some (.mark '<') ↔ ts.head? = some (.mark '<') := by
      cases ts with
      | nil => simpa using apart
      | cons u ts => rfl
    cases h with
    | mark rest =>
      obtain ⟨x, y, rfl, hx, hy⟩ := ih rest
      exact ⟨_ :: x, y, rfl, .mark hx, hy⟩
    | kept other rest =>
      obtain ⟨x, y, rfl, hx, hy⟩ := ih rest
      exact ⟨_ ++ x, y, by simp, .kept (other.imp_left next.mp) hx, hy⟩
    | key alone found expanded rest =>
      obtain ⟨x, y, rfl, hx, hy⟩ := ih rest
      exact ⟨_ ++ x, y, by simp, .key (fun h => alone (next.mpr h)) found expanded hx, hy⟩

end Expands

/-! ## One pass -/

/-- The tokens after a pass: a key that stands alone gives way to the tokens of its value. -/
def pass (v : Vocabulary) : List Token → List Token
  | [] => []
  | t :: ts =>
    (match replacement? v none t ts.head? with
      | some value => tokenize value.toList
      | none => [t]) ++ pass v ts

/-- A word is replaced if it heads no generic type and is a key. -/
theorem replacement?_word (v : Vocabulary) (before : Option Token) (w : List Char)
    (after : Option Token) :
    replacement? v before (.word w) after =
      if after = some (.mark '<') then none else v.get? (String.ofList w) := by
  by_cases generic : after = some (.mark '<') <;>
    simp [replacement?, standsAlone, generic]

theorem get?_of_replacement? {v : Vocabulary} {before after : Option Token} {t : Token}
    {value : String} (h : replacement? v before t after = some value) :
    v.get? (String.ofList t.text) = some value := by
  unfold replacement? at h
  split at h
  · exact h
  · simp at h

/-- A key that stands alone is something to replace. -/
theorem Stands.hasReplacement {v : Vocabulary} {ts : List Token} {key : String}
    (h : Stands v ts key) (before : Option Token) : hasReplacement v before ts = true := by
  induction ts generalizing before with
  | nil => exact absurd h not_stands_nil
  | cons t ts ih =>
    rw [TypeText.hasReplacement, Bool.or_eq_true]
    rcases stands_cons_iff.mp h with ⟨rfl, alone, known⟩ | later
    · rw [replacement?_word, if_neg alone, String.ofList_toList]
      exact .inl known
    · exact .inr (ih later _)

/-- A word is kept or it is a key that stands alone. -/
theorem kept_or_key (v : Vocabulary) (w : List Char) (ts : List Token) :
    (ts.head? = some (.mark '<') ∨ v.get? (String.ofList w) = none) ∨
      ∃ value, ts.head? ≠ some (.mark '<') ∧ v.get? (String.ofList w) = some value := by
  by_cases generic : ts.head? = some (.mark '<')
  · exact .inl (.inl generic)
  · cases found : v.get? (String.ofList w) with
    | none => exact .inl (.inr rfl)
    | some value => exact .inr ⟨value, generic, rfl⟩

theorem replacement?_kept {v : Vocabulary} {before : Option Token} {w : List Char}
    {ts : List Token}
    (other : ts.head? = some (.mark '<') ∨ v.get? (String.ofList w) = none) :
    replacement? v before (.word w) ts.head? = none := by
  rw [replacement?_word]
  split
  · rfl
  · next alone => exact other.resolve_left alone

theorem replacement?_key {v : Vocabulary} {before : Option Token} {w : List Char}
    {ts : List Token} {value : String} (alone : ts.head? ≠ some (.mark '<'))
    (found : v.get? (String.ofList w) = some value) :
    replacement? v before (.word w) ts.head? = some value := by
  rw [replacement?_word, if_neg alone, found]

theorem pass_kept {v : Vocabulary} {w : List Char} {ts : List Token}
    (other : ts.head? = some (.mark '<') ∨ v.get? (String.ofList w) = none) :
    pass v (.word w :: ts) = .word w :: pass v ts := by
  rw [pass, replacement?_kept other]
  rfl

theorem pass_key {v : Vocabulary} {w : List Char} {ts : List Token} {value : String}
    (alone : ts.head? ≠ some (.mark '<')) (found : v.get? (String.ofList w) = some value) :
    pass v (.word w :: ts) = tokenize value.toList ++ pass v ts := by
  rw [pass, replacement?_key alone found]

section Words

variable {v : Vocabulary}
  (words : ∀ key, v.contains key = true → ∀ c ∈ key.toList, isWordChar c = true)

include words

/-- No mark is a key. -/
theorem replacement?_mark {c : Char} (hc : isWordChar c = false) (before after : Option Token) :
    replacement? v before (.mark c) after = none := by
  have unknown : v.get? (String.ofList [c]) = none := by
    by_contra known
    have := words _ (Option.isSome_iff_ne_none.mpr known) c (by simp)
    simp [hc] at this
  rw [replacement?, Token.text_mark, unknown, ite_self]

theorem pass_mark {c : Char} (hc : isWordChar c = false) (ts : List Token) :
    pass v (.mark c :: ts) = .mark c :: pass v ts := by
  rw [pass, replacement?_mark words hc]
  rfl

/-- A pass keeps a mark in front. -/
theorem head?_pass {ts : List Token} (h : Maximal ts)
    (apart : ts.head?.all Token.isMark = true) : (pass v ts).head? = ts.head? := by
  cases ts with
  | nil => rfl
  | cons t ts =>
    cases t with
    | word w => simp at apart
    | mark c => rw [pass_mark words (Maximal.mark_cons_iff.mp h).1]; rfl

/-- What takes the place of a word touches no other word. -/
theorem maximal_pass {ts : List Token} (h : Maximal ts) : Maximal (pass v ts) := by
  induction ts with
  | nil => exact .nil
  | cons t ts ih =>
    cases t with
    | mark c =>
      have hc := (Maximal.mark_cons_iff.mp h).1
      rw [pass_mark words hc]
      exact Maximal.mark_cons_iff.mpr ⟨hc, ih h.tail⟩
    | word w =>
      obtain ⟨wellFormed, rest, apart⟩ := Maximal.word_cons_iff.mp h
      rw [← head?_pass words rest apart] at apart
      rcases kept_or_key v w ts with other | ⟨value, alone, found⟩
      · rw [pass_kept other]
        exact Maximal.word_cons_iff.mpr ⟨wellFormed, ih rest, apart⟩
      · rw [pass_key alone found]
        exact Maximal.append_iff.mpr ⟨maximal_tokenize _, ih rest, .inr apart⟩

/-- A pass writes the text of its tokens. -/
theorem substitute_eq_textOf_pass {ts : List Token} (h : Maximal ts) (before : Option Token) :
    substitute v before ts = textOf (pass v ts) := by
  induction ts generalizing before with
  | nil => rfl
  | cons t ts ih =>
    have rest := ih h.tail (some t)
    cases t with
    | mark c =>
      have hc := (Maximal.mark_cons_iff.mp h).1
      rw [substitute_of_none (replacement?_mark words hc _ _), rest, pass_mark words hc, textOf_cons]
    | word w =>
      rcases kept_or_key v w ts with other | ⟨value, alone, found⟩
      · rw [substitute_of_none (replacement?_kept other), rest, pass_kept other, textOf_cons]
      · rw [substitute_of_some (replacement?_key alone found), rest, pass_key alone found,
          textOf_append, textOf_tokenize]

theorem tokenize_substitute {ts : List Token} (h : Maximal ts) (before : Option Token) :
    tokenize (substitute v before ts) = pass v ts := by
  rw [substitute_eq_textOf_pass words h, tokenize_textOf (maximal_pass words h)]

/-- A pass has something to replace just when a key stands alone. -/
theorem hasReplacement_iff {ts : List Token} (h : Maximal ts) (before : Option Token) :
    hasReplacement v before ts = true ↔ ∃ key, Stands v ts key := by
  refine ⟨fun replaced => ?_, fun ⟨key, stands⟩ => stands.hasReplacement before⟩
  induction ts generalizing before with
  | nil => simp [hasReplacement] at replaced
  | cons t ts ih =>
    rw [hasReplacement, Bool.or_eq_true] at replaced
    rcases replaced with now | later
    · cases t with
      | mark c => simp [replacement?_mark words (Maximal.mark_cons_iff.mp h).1] at now
      | word w =>
        rcases kept_or_key v w ts with other | ⟨value, alone, found⟩
        · simp [replacement?_kept other] at now
        · exact ⟨_, stands_word_cons alone found⟩
    · obtain ⟨key, stands⟩ := ih h.tail _ later
      exact ⟨key, stands_cons_iff.mpr (.inr stands)⟩

/-- A key that stands alone after a pass comes from the value of a key that stood alone
before. -/
theorem Stands.of_pass {ts : List Token} (h : Maximal ts) {key : String}
    (stands : Stands v (pass v ts) key) :
    ∃ outer value, Stands v ts outer ∧ v.get? outer = some value ∧
      Stands v (tokenize value.toList) key := by
  induction ts with
  | nil => exact absurd stands not_stands_nil
  | cons t ts ih =>
    have later : Stands v (pass v ts) key → ∃ outer value, Stands v (t :: ts) outer ∧
        v.get? outer = some value ∧ Stands v (tokenize value.toList) key := by
      intro stands
      obtain ⟨outer, value, stood, found, inner⟩ := ih h.tail stands
      exact ⟨outer, value, stands_cons_iff.mpr (.inr stood), found, inner⟩
    cases t with
    | mark c =>
      rw [pass_mark words (Maximal.mark_cons_iff.mp h).1] at stands
      exact later (stands_mark_cons_iff.mp stands)
    | word w =>
      obtain ⟨-, rest, apart⟩ := Maximal.word_cons_iff.mp h
      rcases kept_or_key v w ts with other | ⟨value, alone, found⟩
      · rw [pass_kept other] at stands
        -- a kept word that is a key heads a generic type, after the pass as before
        rw [← head?_pass words rest apart] at other
        exact later (stands.of_word_cons other)
      · rw [pass_key alone found] at stands
        rcases stands.of_append with inner | stands
        · exact ⟨_, value, stands_word_cons alone found, found, inner⟩
        · exact later stands

/-- The expansion after a pass is the expansion before it. -/
theorem Expands.of_pass {ts : List Token} (h : Maximal ts) {out : List Char}
    (expands : Expands v (pass v ts) out) : Expands v ts out := by
  induction ts generalizing out with
  | nil => exact expands
  | cons t ts ih =>
    cases t with
    | mark c =>
      rw [pass_mark words (Maximal.mark_cons_iff.mp h).1] at expands
      cases expands with
      | mark rest => exact .mark (ih h.tail rest)
    | word w =>
      obtain ⟨-, rest, apart⟩ := Maximal.word_cons_iff.mp h
      have next := head?_pass words rest apart
      rcases kept_or_key v w ts with other | ⟨value, alone, found⟩
      · rw [pass_kept other] at expands
        cases expands with
        | kept _ expands => exact .kept other (ih rest expands)
        | key alone found _ _ =>
          rw [next] at alone
          simp [other.resolve_left alone] at found
      · rw [pass_key alone found] at expands
        obtain ⟨full, out, rfl, expanded, expands⟩ := expands.of_append (by rwa [next])
        exact .key alone found expanded (ih rest expands)

end Words

/-! ## All passes -/

/-- As many passes as the keys that stand alone have ranks give the expansion, and leave no key
that stands alone. -/
theorem Ranked.expands_settle {v : Vocabulary} {rank : String → Nat} {depth : Nat}
    (h : Ranked v rank depth) {n : Nat} {cs : List Char}
    (low : ∀ key, Stands v (tokenize cs) key → rank key ≤ n) :
    Expands v (tokenize cs) (settle v n cs) ∧
      ∀ key, ¬ Stands v (tokenize (settle v n cs)) key := by
  have settled : ∀ {cs}, (∀ key, ¬ Stands v (tokenize cs) key) →
      Expands v (tokenize cs) cs ∧ ∀ key, ¬ Stands v (tokenize cs) key := by
    intro cs none_stands
    have expands := Expands.of_not_stands none_stands
    rw [textOf_tokenize] at expands
    exact ⟨expands, none_stands⟩
  induction n generalizing cs with
  | zero =>
    refine settled fun key stands => ?_
    have := low key stands
    have := h.bounds key stands.known
    omega
  | succ n ih =>
    have read := maximal_tokenize cs
    rw [settle]
    split
    · have passed := tokenize_substitute h.words read none
      have lower : ∀ key, Stands v (tokenize (substitute v none (tokenize cs))) key →
          rank key ≤ n := by
        intro key stands
        rw [passed] at stands
        obtain ⟨outer, value, stood, found, inner⟩ := stands.of_pass h.words read
        have := low outer stood
        have := h.falls outer value found key inner
        omega
      obtain ⟨expands, none_stands⟩ := ih lower
      rw [passed] at expands
      exact ⟨expands.of_pass h.words read, none_stands⟩
    · next nothing =>
      exact settled fun key stands => nothing ((hasReplacement_iff h.words read none).mpr ⟨key, stands⟩)

/-- Where the ranks of a vocabulary are bounded by the number of passes, a text settles to its
full expansion, and no key stands alone in it. -/
theorem expands_iff_settle {v : Vocabulary} {rank : String → Nat} (ranked : Ranked v rank 32)
    (type : List Char) :
    (∀ out, Expands v (tokenize type) out ↔ out = settle v passLimit type) ∧
      ∀ key, ¬ Stands v (tokenize (settle v passLimit type)) key := by
  have low : ∀ key, Stands v (tokenize type) key → rank key ≤ passLimit :=
    fun key stands => (ranked.bounds key stands.known).2
  obtain ⟨expands, none_stands⟩ := ranked.expands_settle low
  refine ⟨fun out => ⟨fun h => h.unique expands, ?_⟩, none_stands⟩
  rintro rfl
  exact expands

/-- A vocabulary with a key of a key, a key that is dropped, and a head of a generic type. -/
def nestedWords : Vocabulary :=
  .ofList [("Alias", "Middle<Gone>|Middle"), ("Middle", "Target[]"), ("Gone", "")]

/-- The rank of its keys. -/
def nestedRank (key : String) : Nat := if key = "Alias" then 2 else 1

theorem ranked_nestedWords : Ranked nestedWords nestedRank 32 := by
  have keys : nestedWords.keys = ["Alias", "Middle", "Gone"] := by decide
  refine ⟨?_, ?_, ?_⟩
  · intro key known
    have chars : ∀ key ∈ ["Alias", "Middle", "Gone"], key.toList.all isWordChar = true := by decide
    rw [Table.contains_iff, keys] at known
    exact List.all_eq_true.mp (chars key known)
  · intro key known
    rw [Table.contains_iff, keys] at known
    revert key
    decide
  · intro key value found inner stands
    have falls : ∀ entry ∈ nestedWords.entries, ∀ inner ∈ nestedWords.keys,
        .word inner.toList ∈ tokenize entry.2.toList → nestedRank inner < nestedRank entry.1 := by
      decide
    exact falls (key, value) (Table.get?_eq_some_iff.mp found) inner
      (Table.contains_iff.mp stands.known) stands.mem

/-- Keys inside keys are expanded, a head of a generic type is kept, and an empty value leaves
its neighbours apart. -/
theorem expands_nestedWords :
    Ranked nestedWords nestedRank 32 ∧ ∀ out,
      Expands nestedWords (tokenize "Alias|Gone|Alias<Gone>".toList) out ↔
        out = "Middle<>|Target[]||Alias<>".toList := by
  have settled : settle nestedWords passLimit "Alias|Gone|Alias<Gone>".toList =
      "Middle<>|Target[]||Alias<>".toList := by decide
  rw [← settled]
  exact ⟨ranked_nestedWords, (expands_iff_settle ranked_nestedWords _).1⟩

end Ambient.TypeText
