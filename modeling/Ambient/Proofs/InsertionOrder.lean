/-
  Insertion order: records come into a database one after the other, and words and ignored
  members into the settings, but nothing of the order shows in what is written. Main
  statement: `Database.listing_eq_of_perm`.
-/
import Ambient.Proofs.Agreement
import Ambient.Settings.Builtin

namespace Ambient

/-! ## Tables -/

namespace Table

variable {α : Type}

/-- Tables with the same entries, in any order, answer alike. -/
theorem get?_eq_of_perm {t t' : Table α} (h : t.entries.Perm t'.entries) : t.get? = t'.get? := by
  funext k
  refine Option.ext fun v => ?_
  rw [get?_eq_some_iff, get?_eq_some_iff, h.mem_iff]

/-- A write under a new name is the last entry. -/
theorem insertEntry_of_new {k : String} (v : α) {es : List (String × α)}
    (new : k ∉ es.map (·.1)) : insertEntry k v es = es ++ [(k, v)] := by
  induction es with
  | nil => rfl
  | cons e es ih =>
    rw [List.map_cons, List.mem_cons, not_or] at new
    rw [insertEntry, if_neg (Ne.symm new.1), ih new.2, List.cons_append]

/-- Writes under distinct new names are all kept, in their order. -/
theorem entries_foldl_insert {t : Table α} {es : List (String × α)}
    (distinct : (t.keys ++ es.map (·.1)).Nodup) :
    (es.foldl (fun t e => t.insert e.1 e.2) t).entries = t.entries ++ es := by
  induction es generalizing t with
  | nil => simp
  | cons e es ih =>
    have new : e.1 ∉ t.keys := fun h => (List.nodup_append.mp distinct).2.2 _ h _ (by simp) rfl
    have entry : (t.insert e.1 e.2).entries = t.entries ++ [e] := insertEntry_of_new e.2 new
    have later : ((t.insert e.1 e.2).keys ++ es.map (·.1)).Nodup := by
      rw [keys, entry, List.map_append, List.append_assoc]
      exact distinct
    rw [List.foldl_cons, ih later, entry, List.append_assoc, List.singleton_append]

theorem entries_ofList {es : List (String × α)} (distinct : (es.map (·.1)).Nodup) :
    (ofList es).entries = es := entries_foldl_insert (t := empty) distinct

/-- Writes under distinct names leave the same entries in any order. -/
theorem perm_entries_ofList {es es' : List (String × α)} (perm : es.Perm es')
    (distinct : (es.map (·.1)).Nodup) : (ofList es).entries.Perm (ofList es').entries := by
  rw [entries_ofList distinct, entries_ofList ((perm.map _).nodup_iff.mp distinct)]
  exact perm

end Table

/-! ## Settings -/

/-- Settings whose tables have the same entries, in any order. -/
structure Settings.SameEntries (s s' : Settings) : Prop where
  output : s.output = s'.output
  workingDir : s.workingDir = s'.workingDir
  preamble : s.preamble = s'.preamble
  ignored : s.ignored.entries.Perm s'.ignored.entries
  vocabulary : s.vocabulary.entries.Perm s'.vocabulary.entries

theorem Settings.SameEntries.agrees {s s' : Settings} (h : s.SameEntries s') : s.Agrees s' where
  output := h.output
  workingDir := h.workingDir
  preamble := h.preamble
  ignores := by
    funext className member
    rw [ignores, ignores, Table.get?_eq_of_perm h.ignored]
  get? := Table.get?_eq_of_perm h.vocabulary

/-! ## Databases -/

/-- The entry that a record makes in a table, if it has a name. -/
def Record.entry? (r : Record) : Option (String × Record) := r.name.map fun name => (name, r)

namespace Database

/-- Records are written into the table one after the other. -/
theorem foldl_add (db : Database) (rs : List Record) : rs.foldl add db =
    ⟨db.root, (rs.filterMap Record.entry?).foldl (fun t e => t.insert e.1 e.2) db.records⟩ := by
  induction rs generalizing db with
  | nil => rfl
  | cons r rs ih =>
    rw [List.foldl_cons, ih, add]
    cases named : r.name with
    | none => simp [Record.entry?, named]
    | some name => simp [Record.entry?, named, insert]

theorem ofRecords_eq (root : Path) (rs : List Record) :
    ofRecords root rs = ⟨root, .ofList (rs.filterMap Record.entry?)⟩ := foldl_add (empty root) rs

theorem map_fst_entries (rs : List Record) :
    (rs.filterMap Record.entry?).map (·.1) = rs.filterMap Record.name := by
  have names : (fun r : Record => r.entry?.map (·.1)) = Record.name := by
    funext r
    rw [Record.entry?, Option.map_map]
    exact congrFun Option.map_id r.name
  rw [List.map_filterMap, names]

/-- Records with distinct names make an index that answers alike in any order. -/
theorem agrees_ofRecords (root : Path) {rs rs' : List Record} (perm : rs.Perm rs')
    (distinct : (rs.filterMap Record.name).Nodup) :
    (ofRecords root rs).index.Agrees (ofRecords root rs').index := by
  have entries : (Table.ofList (rs.filterMap Record.entry?)).entries.Perm
      (Table.ofList (rs'.filterMap Record.entry?)).entries := by
    refine Table.perm_entries_ofList (perm.filterMap _) ?_
    rwa [map_fst_entries]
  rw [ofRecords_eq, ofRecords_eq]
  exact ⟨rfl, entries.map _, Table.get?_eq_of_perm entries⟩

/-- Records with distinct names make the same listing in any order, and so do settings whose
tables have the same entries: the same text, and the same counts or the same error behind it. -/
theorem listing_eq_of_perm (root : Path) {rs rs' : List Record} (perm : rs.Perm rs')
    (distinct : (rs.filterMap Record.name).Nodup) {settings settings' : Settings}
    (same : settings.SameEntries settings') (time : String) :
    (ofRecords root rs).index.listing settings time =
      (ofRecords root rs').index.listing settings' time :=
  (agrees_ofRecords root perm distinct).listing same.agrees time

/-- A class with a mixin, a class that extends it, and the mixin. -/
def mixedPair : List Record :=
  [
   { Record.blank with name := some "a.Base", mixins := ["a.Extra"] },
   { Record.blank with name := some "a.Leaf", superClasses := ["a.Base"] },
   { Record.blank with name := some "a.Extra", kind := .mixin }]

/-- The built-in settings, their tables written from the last entry to the first. -/
def builtinBackwards : Settings :=
  { Settings.builtin with
    ignored := .ofList Settings.builtinIgnored.reverse
    vocabulary := .ofList Settings.builtinWords.reverse }

/-- The records backwards make the same listing with the tables backwards. -/
theorem listing_mixedPair_backwards :
    (mixedPair.filterMap Record.name).Nodup ∧ Settings.builtin.SameEntries builtinBackwards ∧
      (ofRecords .empty mixedPair).index.listing .builtin "T" =
        (ofRecords .empty mixedPair.reverse).index.listing builtinBackwards "T" := by
  have distinct : (mixedPair.filterMap Record.name).Nodup := by decide
  have same : Settings.builtin.SameEntries builtinBackwards :=
    { output := rfl
      workingDir := rfl
      preamble := rfl
      ignored := Table.perm_entries_ofList (List.reverse_perm _).symm (by decide +kernel)
      vocabulary := Table.perm_entries_ofList (List.reverse_perm _).symm (by decide +kernel) }
  exact ⟨distinct, same,
    listing_eq_of_perm .empty (List.reverse_perm _).symm distinct same "T"⟩

end Database

end Ambient
