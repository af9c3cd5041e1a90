import RecordSieve.Filter
import RecordSieve.Proofs.Json.Reading
import RecordSieve.Proofs.Results

/-! # Fields of a record

Picking fields fails only if the keys are asked for of a record that is no object. Otherwise it
gives an object of exactly these fields, whatever their order, and what each of them holds there is
what a condition sees under it.
-/

namespace RecordSieve

variable {r : Record} {line field : String} {fields others : List String}

namespace Record

theorem readable_of_read (h : read line = .ok r) :
    Json.Readable Json.Reader.nestingLimit r.document := by
  obtain ⟨j, hj, h⟩ := bind_eq_ok_iff.mp h
  cases h
  exact Json.readable_of_read hj

/-- The fields do not ask for keys of a record that is no object. -/
def Offers (r : Record) (fields : List String) : Prop :=
  keyListField ∈ fields → ∃ members, r.document = .object members

/-- What a field holds; null if that fails. -/
def held (r : Record) (field : String) : Json := (r.select field).toOption.getD .null

theorem select_of_ne (h : field ≠ keyListField) (r : Record) :
    r.select field = .ok ((r.document.follow? field).getD .null) := if_neg h

theorem select_keyListField (r : Record) : r.select keyListField = .string <$> r.keys := if_pos rfl

theorem select_keyListField_of_object {members : List (String × Json)}
    (h : r.document = .object members) :
    r.select keyListField = .ok (.string (",".intercalate (Members.keys members))) := by
  rw [select_keyListField, keys, h]
  rfl

theorem select_keyListField_of_ne (h : ∀ members, r.document ≠ .object members) :
    r.select keyListField = .error (.keysOf r.document.kind) := by
  rw [select_keyListField, keys]
  split
  · rename_i members hm
    exact absurd hm (h members)
  · rfl

theorem held_of_ne (h : field ≠ keyListField) (r : Record) :
    r.held field = (r.document.follow? field).getD .null := by
  rw [held, select_of_ne h]
  rfl

theorem held_keyListField {members : List (String × Json)} (h : r.document = .object members) :
    r.held keyListField = .string (",".intercalate (Members.keys members)) := by
  rw [held, select_keyListField_of_object h]
  rfl

theorem select_eq_ok (h : r.Offers fields) (hf : field ∈ fields) :
    r.select field = .ok (r.held field) := by
  by_cases hk : field = keyListField
  · subst hk
    obtain ⟨members, hm⟩ := h hf
    rw [held_keyListField hm, select_keyListField_of_object hm]
  · rw [held_of_ne hk, select_of_ne hk]

/-- A condition sees under a key the value of what is selected. -/
theorem view_eq_map_select (r : Record) (field : String) :
    r.view field = Value.ofJson <$> r.select field := by
  unfold view select
  split
  · cases r.keys <;> rfl
  · cases r.document.follow? field <;> rfl

theorem pick_eq_ok (h : r.Offers fields) : r.pick fields = .ok (.object (Members.ofList
    ((fields.filter (· ≠ wholeRecord)).map fun field => (field, r.held field)))) := by
  have hpairs :
      (fields.filter (· ≠ wholeRecord)).mapM (fun field => (field, ·) <$> r.select field) =
        .ok ((fields.filter (· ≠ wholeRecord)).map fun field => (field, r.held field)) := by
    refine mapM_eq_ok_map fun field hf => ?_
    rw [select_eq_ok h (List.mem_filter.mp hf).1]
    rfl
  rw [pick, hpairs]
  rfl

theorem pick_eq_error (h : ¬ r.Offers fields) :
    r.pick fields = .error (.keysOf r.document.kind) := by
  obtain ⟨hk, hd⟩ := Classical.not_imp.mp h
  have hd : ∀ members, r.document ≠ .object members := not_exists.mp hd
  have hmem : keyListField ∈ fields.filter (· ≠ wholeRecord) :=
    List.mem_filter.mpr ⟨hk, by decide⟩
  rw [pick]
  cases hp : (fields.filter (· ≠ wholeRecord)).mapM fun field => (field, ·) <$> r.select field with
  | ok pairs =>
    obtain ⟨p, hp⟩ := exists_of_mapM_eq_ok hp _ hmem
    rw [select_keyListField_of_ne hd] at hp
    cases hp
  | error err =>
    obtain ⟨field, -, hf⟩ := exists_of_mapM_eq_error hp
    rw [map_eq_error_iff] at hf
    by_cases hkey : field = keyListField
    · rw [hkey, select_keyListField_of_ne hd] at hf
      exact hf.symm
    · rw [select_of_ne hkey] at hf
      cases hf

theorem pick_congr (h : ∀ field, field ≠ wholeRecord → (field ∈ fields ↔ field ∈ others))
    (r : Record) : r.pick fields = r.pick others := by
  have hoffers : r.Offers fields ↔ r.Offers others :=
    imp_congr_left (h keyListField (by decide))
  have hchosen (field : String) :
      field ∈ fields.filter (· ≠ wholeRecord) ↔ field ∈ others.filter (· ≠ wholeRecord) := by
    simpa [and_comm] using and_congr_right (h field)
  by_cases ho : r.Offers fields
  · rw [pick_eq_ok ho, pick_eq_ok (hoffers.mp ho), Members.ofList_congr _ hchosen]
  · rw [pick_eq_error ho, pick_eq_error (mt hoffers.mpr ho)]

theorem find?_picked (hf : field ∈ fields) (hne : field ≠ wholeRecord) :
    Members.find? field (Members.ofList
      ((fields.filter (· ≠ wholeRecord)).map fun field => (field, r.held field))) =
      some (r.held field) :=
  Members.find?_ofList_of_mem r.held (List.mem_filter.mpr ⟨hf, by simpa using hne⟩)

end Record

theorem Plan.emit_of_ne {P : Expr} (h : fields ≠ [wholeRecord]) (r : Record) :
    (Plan.mk fields P).emit r = Json.text <$> r.pick fields := by
  rw [Plan.emit, Plan.passesWhole, decide_eq_false h]
  rfl

namespace Record

/-- Picking fields of a record fails exactly if they ask for the keys of what is no object, and
with an error that the fields have no part in. Otherwise it gives an object whose keys are the
fields but for the one that stands for the whole record. At each of them it holds the keys of the
record in order, or what the field leads to, or null if that is nothing; and this is what a
condition sees under the field. So plans whose fields are the same, in whatever order and however
often, make the same of every record, if none of them passes it on as a whole. -/
theorem pick_exact (h : read line = .ok r) (fields : List String) :
    (¬ r.Offers fields → r.pick fields = .error (.keysOf r.document.kind)) ∧
    (r.Offers fields → ∃ members, r.pick fields = .ok (.object members) ∧
      Members.Sorted members ∧
      (∀ field, field ∈ Members.keys members ↔ field ∈ fields ∧ field ≠ wholeRecord) ∧
      ∀ field ∈ fields, field ≠ wholeRecord → ∃ j, Members.find? field members = some j ∧
        (field = keyListField → ∃ all, r.document = .object all ∧ Members.Sorted all ∧
          j = .string (",".intercalate (Members.keys all))) ∧
        (field ≠ keyListField → j = (r.document.follow? field).getD .null) ∧
        r.view field = .ok (Value.ofJson j)) ∧
    ∀ (others : List String) (P Q : Expr),
      (∀ field, field ≠ wholeRecord → (field ∈ fields ↔ field ∈ others)) →
      fields ≠ [wholeRecord] → others ≠ [wholeRecord] →
      (Plan.mk fields P).emit r = (Plan.mk others Q).emit r := by
  refine ⟨pick_eq_error, fun ho => ?picked, fun others P Q hsame hf hothers => ?emitted⟩
  case picked =>
    refine ⟨_, pick_eq_ok ho, Members.sorted_ofList _, fun field => ?_, fun field hf hne => ?_⟩
    · rw [Members.mem_keys_ofList_map r.held, List.mem_filter, decide_eq_true_iff]
    · refine ⟨_, find?_picked hf hne, ?_, fun hk => held_of_ne hk r, ?_⟩
      · rintro rfl
        obtain ⟨all, hall⟩ := ho hf
        have hread := readable_of_read h
        rw [hall] at hread
        cases hread with
        | object hsorted => exact ⟨all, hall, hsorted, held_keyListField hall⟩
      · rw [view_eq_map_select, select_eq_ok ho hf]
        rfl
  case emitted =>
    rw [Plan.emit_of_ne hf, Plan.emit_of_ne hothers, pick_congr hsame]

/-- Fields of `{"a":null,"b":[true]}`, asked for in two orders. -/
theorem pick_exact_nested :
    let line := "\x7b\"a\":null,\"b\":[true]\x7d"
    let r : Record := ⟨line, .object [("a", .null), ("b", .array [.bool true])]⟩
    let fields := ["b.0", "*", "[keys]"]
    let others := ["[keys]", "b.0", "b.0"]
    (read line = .ok r ∧ r.Offers fields ∧
      (∀ field, field ≠ wholeRecord → (field ∈ fields ↔ field ∈ others)) ∧
      fields ≠ [wholeRecord] ∧ others ≠ [wholeRecord]) ∧
    (∃ members, r.pick fields = .ok (.object members) ∧
      Members.find? "[keys]" members = some (.string "a,b") ∧
      Members.find? "b.0" members = some (.bool true)) ∧
    ∀ P Q, (Plan.mk fields P).emit r = (Plan.mk others Q).emit r := by
  intro line r fields others
  have hread : read line = .ok r := by
    have hdocument : Json.Readable Json.Reader.nestingLimit r.document := by
      refine .object (List.pairwise_pair.mpr (by decide)) ?_
      simp only [List.forall_mem_cons]
      exact ⟨.null, .array (List.forall_mem_singleton.mpr (.bool true)), nofun⟩
    have htext : line = r.document.text := by decide
    have htrim : Text.trim line.toList = line.toList := by decide
    rw [read, htrim, String.ofList_toList, htext, Json.read_text hdocument]
    rfl
  have hoffers : r.Offers fields := fun _ => ⟨_, rfl⟩
  have hsame : ∀ field, field ≠ wholeRecord → (field ∈ fields ↔ field ∈ others) := by
    intro field hne
    have hne : field ≠ "*" := hne
    simp [fields, others, hne, or_comm]
  have hfields : fields ≠ [wholeRecord] := by decide
  have hothers : others ≠ [wholeRecord] := by decide
  obtain ⟨-, hpick, hemit⟩ := pick_exact hread fields
  obtain ⟨members, hmembers, -, -, hfind⟩ := hpick hoffers
  refine ⟨⟨hread, hoffers, hsame, hfields, hothers⟩, ⟨members, hmembers, ?_, ?_⟩,
    fun P Q => hemit others P Q hsame hfields hothers⟩
  · obtain ⟨j, hj, hkeys, -⟩ := hfind "[keys]" (by decide) (by decide)
    obtain ⟨all, hall, -, rfl⟩ := hkeys rfl
    cases hall
    exact hj
  · obtain ⟨j, hj, -, hpath, -⟩ := hfind "b.0" (by decide) (by decide)
    rw [hj, hpath (by decide)]
    rfl

end Record

end RecordSieve
