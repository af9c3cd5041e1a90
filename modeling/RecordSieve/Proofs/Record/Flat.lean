import RecordSieve.Proofs.Expr.Questions
import RecordSieve.Proofs.Record.Fields
import RecordSieve.Proofs.Record.Paths

/-! # Records as plain maps

A flat key leads from an object to a member and no further. An expression with flat keys only does
not tell a record from a plain map that holds the value of each member under its key.
-/

namespace RecordSieve

/-- A key is flat if it is a single segment of a path and does not stand for the keys of the
record. -/
structure IsFlat (key : String) : Prop where
  segment : '.' ∉ key.toList
  ne : key ≠ keyListField

instance (key : String) : Decidable (IsFlat key) :=
  decidable_of_iff ('.' ∉ key.toList ∧ key ≠ keyListField)
    ⟨fun h => ⟨h.1, h.2⟩, fun h => ⟨h.segment, h.ne⟩⟩

namespace Record

variable {r : Record} {line key : String} {members : List (String × Json)} {e : Expr}
  {entries : Members Value}

theorem sorted_of_read (h : read line = .ok r) (hm : r.document = .object members) :
    Members.Sorted members := by
  have hread := readable_of_read h
  rw [hm] at hread
  cases hread with
  | object hsorted => exact hsorted

theorem view_eq_of_flat (hm : r.document = .object members) (hk : IsFlat key) :
    r.view key = View.ofMembers (Members.map Value.ofJson members) key := by
  rw [view, if_neg hk.ne, hm, Json.follow?_of_not_mem hk.segment, Json.child?,
    String.ofList_toList, View.ofMembers, Members.find?_map]

theorem view_eq_of_perm (h : read line = .ok r) (hm : r.document = .object members)
    (hp : entries.Perm (Members.map Value.ofJson members)) (hk : IsFlat key) :
    r.view key = View.ofMembers entries key := by
  have hs := (sorted_of_read h hm).map Value.ofJson
  rw [view_eq_of_flat hm hk, View.ofMembers, View.ofMembers, Members.find?_eq_of_perm hs hp]

/-- An expression whose keys are flat gives the same result on a record that is an object as on a
plain map that holds, for each member, its key and the value of its document, be the result an
error, and it asks the same questions on the way. It does not matter in which order the map has its
entries, nor in which order they were inserted. -/
theorem eval_eq_eval_entries (h : read line = .ok r) (hm : r.document = .object members)
    (he : ∀ key ∈ e.keys, IsFlat key)
    (hp : entries.Perm (Members.map Value.ofJson members)) (needed : Capability) :
    e.eval r.view needed = e.eval (View.ofMembers entries) needed ∧
      e.eval r.view needed = e.eval (View.ofMembers (Members.ofList entries)) needed := by
  have hs := (sorted_of_read h hm).map Value.ofJson
  constructor
  · apply Expr.eval_congr
    intro key hk
    exact view_eq_of_perm h hm hp (he key hk)
  · rw [Members.ofList_eq_of_perm hs hp]
    apply Expr.eval_congr
    intro key hk
    exact view_eq_of_flat hm (he key hk)

/-- A condition on a null, the empty key and an array, whose comparison fails. -/
theorem eval_eq_eval_entries_empty_key :
    let line := "\x7b\"\":\"2\",\"a\":null,\"b\":[true]\x7d"
    let members := [("", .string "2"), ("a", .null), ("b", .array [.bool true])]
    let r : Record := ⟨line, .object members⟩
    let e : Expr := .logical .and (.test "a" false .null) (.compare .less (.field "") (.field "b"))
    let entries : Members Value :=
      [("b", .array [.boolean true]), ("", .string "2"), ("a", .absent)]
    let err : EvalError := .nonNumericKind "b" "array"
    (read line = .ok r ∧ (∀ key ∈ e.keys, IsFlat key) ∧
      entries.Perm (Members.map Value.ofJson members)) ∧
    e.eval r.view .predicate = e.eval (View.ofMembers entries) .predicate ∧
    e.eval r.view .predicate = e.eval (View.ofMembers (Members.ofList entries)) .predicate ∧
    (e.eval r.view .predicate).result = .error err := by
  intro line members r e entries err
  have hread : read line = .ok r := by
    have hsorted : (Members.keys members).Pairwise (· < ·) := by decide
    have hdocument : Json.Readable Json.Reader.nestingLimit r.document := by
      refine .object hsorted ?_
      simp only [members, List.forall_mem_cons]
      exact ⟨.string "2", .null, .array (List.forall_mem_singleton.mpr (.bool true)), nofun⟩
    have htext : line = r.document.text := by decide
    have htrim : Text.trim line.toList = line.toList := by decide
    rw [read, htrim, String.ofList_toList, htext, Json.read_text hdocument]
    rfl
  have hflat : ∀ key ∈ e.keys, IsFlat key := by decide
  have hperm : entries.Perm (Members.map Value.ofJson members) := by
    exact (List.Perm.swap _ _ _).trans (.cons _ (.swap _ _ _))
  obtain ⟨hentries, hinserted⟩ := eval_eq_eval_entries hread rfl hflat hperm .predicate
  refine ⟨⟨hread, hflat, hperm⟩, hentries, hinserted, ?_⟩
  rw [hentries]
  rfl

end Record

end RecordSieve
