import RecordSieve.Proofs.Filter.Composition
import RecordSieve.Proofs.Json.Reading
import RecordSieve.Proofs.Record.Fields
import RecordSieve.Proofs.Record.Paths

/-! # Projections in a row

A plan with fields keeps an object of what each record holds under them. A second plan with the same
fields keeps every one of these objects, with all its fields; only the real numbers in them are what
their texts are read as.
-/

namespace RecordSieve

variable {fields : List String} {field : String} {depth number : Nat} {j doc : Json}

namespace Json

/-- What a document holds under a field, which is null if there is nothing. -/
def held (j : Json) (field : String) : Json := (j.child? field.toList).getD .null

def project (fields : List String) (j : Json) : Json :=
  .object (Members.ofList (fields.map fun field => (field, j.held field)))

theorem mapNumbers_project (f : Number → Number) : (j.project fields).mapNumbers f =
    .object (Members.ofList (fields.map fun field => (field, (j.held field).mapNumbers f))) := by
  rw [project, mapNumbers, mapMembers_eq_map, ← Members.ofList_map, Members.map, List.map_map]
  rfl

/-- An object of some fields is the object of what it holds under them. -/
theorem project_mapNumbers_project (f : Number → Number) :
    ((j.project fields).mapNumbers f).project fields = (j.project fields).mapNumbers f := by
  rw [mapNumbers_project, project]
  congr 2
  refine List.map_congr_left fun field hf => ?_
  rw [held, child?, String.ofList_toList,
    Members.find?_ofList_of_mem (fun field => (j.held field).mapNumbers f) hf, Option.getD_some]

theorem mem_of_item? {items : List Json} {i : Int} (h : item? items i = some j) : j ∈ items := by
  unfold item? at h
  split at h
  · exact List.mem_of_getElem? h
  · split at h
    · exact List.mem_of_getElem? h
    · cases h

theorem Readable.held (h : Readable (depth + 1) j) (field : String) :
    Readable depth (j.held field) := by
  unfold Json.held
  cases hc : j.child? field.toList with
  | none => exact .null
  | some i =>
    cases h with
    | null | bool | number | string => cases hc
    | array hitems =>
      obtain ⟨k, -, hi⟩ := Option.bind_eq_some_iff.mp hc
      exact hitems i (mem_of_item? hi)
    | object _ hmembers => exact hmembers _ (Members.mem_of_find? hc)

theorem Readable.project (h : Readable (depth + 1) j) (fields : List String) :
    Readable (depth + 1) (j.project fields) := by
  refine .object (Members.sorted_ofList _) fun p hp => ?_
  obtain ⟨field, -, rfl⟩ := List.mem_map.mp (Members.mem_of_mem_ofList hp)
  exact h.held field

end Json

/-- A field that is a key or an index by itself: no path, and no field of special meaning. -/
structure PlainField (field : String) : Prop where
  not_mem_dot : '.' ∉ field.toList
  ne_wholeRecord : field ≠ wholeRecord
  ne_keyListField : field ≠ keyListField

namespace Record

variable {r : Record} {line : String}

theorem held_of_plain (h : PlainField field) : r.held field = r.document.held field := by
  rw [held_of_ne h.ne_keyListField, Json.follow?_of_not_mem h.not_mem_dot, Json.held]

theorem pick_of_plain (h : ∀ field ∈ fields, PlainField field) :
    r.pick fields = .ok (r.document.project fields) := by
  have hoffers : r.Offers fields := fun hk => absurd rfl (h _ hk).ne_keyListField
  have hfilter : fields.filter (· ≠ wholeRecord) = fields :=
    List.filter_eq_self.mpr fun field hf => by simpa using (h field hf).ne_wholeRecord
  have hheld : (fields.map fun field => (field, r.held field)) =
      fields.map fun field => (field, r.document.held field) :=
    List.map_congr_left fun field hf => by rw [held_of_plain (h field hf)]
  rw [pick_eq_ok hoffers, hfilter, hheld, Json.project]

end Record

namespace Plan

variable {P : Expr} {bytes : List UInt8} {text : String} {docs : List Json}

/-- An object that a plan with some fields can have kept. -/
def Picked (fields : List String) (doc : Json) : Prop :=
  ∃ j, Json.Readable Json.Reader.nestingLimit j ∧ doc = j.project fields

theorem ne_whole_of_plain (hne : fields ≠ []) (h : ∀ field ∈ fields, PlainField field) :
    fields ≠ [wholeRecord] := by
  rintro rfl
  exact (h wholeRecord List.mem_cons_self).ne_wholeRecord rfl

theorem emit_of_plain (hne : fields ≠ []) (h : ∀ field ∈ fields, PlainField field) (r : Record) :
    (Plan.mk fields P).emit r = .ok (r.document.project fields).text := by
  rw [emit_of_ne (ne_whole_of_plain hne h), Record.pick_of_plain h]
  rfl

theorem exists_picked_of_kept (hne : fields ≠ []) (h : ∀ field ∈ fields, PlainField field)
    (hk : (Plan.mk fields P).outcome number bytes = .kept text) :
    ∃ doc, Picked fields doc ∧ doc.text = text := by
  cases becomes_iff.mpr hk with
  | kept _ _ hf =>
    obtain ⟨r, hr, ht⟩ := filterLine_eq_some hf
    rw [emit_of_plain hne h] at ht
    exact ⟨_, ⟨_, Record.readable_of_read hr, rfl⟩, Except.ok.inj ht⟩

theorem trim_object (members : List (String × Json)) :
    Text.trim (Json.object members).text.toList = (Json.object members).text.toList := by
  have hlast : (Json.object members).text.toList.getLast? = some '\x7d' := by
    simp [Json.text, List.getLast?_cons]
  have hhead : (Json.object members).text.toList.dropWhile Text.isBlank =
      (Json.object members).text.toList := by
    rw [Json.text, String.toList_append, String.toList_append, List.append_assoc]
    rfl
  rw [Text.trim_eq_rdropWhile, hhead, List.rdropWhile_eq_self_iff]
  intro hne
  rw [List.getLast?_eq_some_getLast hne, Option.some.injEq] at hlast
  rw [hlast]
  decide

theorem read_picked (hdoc : Picked fields doc) :
    Record.read doc.text = .ok ⟨doc.text, doc.mapNumbers Json.Number.reread⟩ := by
  obtain ⟨j, hj, rfl⟩ := hdoc
  have hread := Json.read_text (hj.project fields)
  rw [Json.project] at hread ⊢
  simp only [Record.read, trim_object, String.ofList_toList, hread]
  rfl

/-- The line of a picked object becomes that object with its numbers read from their texts. -/
theorem outcome_picked (hne : fields ≠ []) (h : ∀ field ∈ fields, PlainField field)
    (hdoc : Picked fields doc) :
    (Plan.mk fields .always).outcome number (Text.encode doc.text.toList) =
      .kept (doc.mapNumbers Json.Number.reread).text := by
  have hread := read_picked hdoc
  obtain ⟨j, -, rfl⟩ := hdoc
  have hl : IsLine (j.project fields).text := isLine_object _
  refine becomes_iff.mp (.kept hl.stripReturn_eq.symm hl.not_blank ?_)
  rw [String.ofList_toList, filterLine, hread]
  simp only [Except.mapError, bind, Except.bind]
  rw [emit_of_plain hne h, Json.project_mapNumbers_project]
  rfl

theorem lines_picked (docs : List Json) :
    lines (unlines (docs.map Json.text)) = docs.map fun doc => Text.encode doc.text.toList := by
  have hsingle : ∀ text ∈ docs.map Json.text, IsSingleLine text := by
    intro text ht
    obtain ⟨doc, -, rfl⟩ := List.mem_map.mp ht
    exact Json.isSingleLine_text doc
  rw [lines_unlines hsingle, List.map_map]
  rfl

theorem kept_filter_picked (hne : fields ≠ []) (h : ∀ field ∈ fields, PlainField field)
    (docs : List Json) (hdocs : ∀ doc ∈ docs, Picked fields doc) :
    ((Plan.mk fields .always).filter (unlines (docs.map Json.text))).kept.toList =
      docs.map fun doc => (doc.mapNumbers Json.Number.reread).text := by
  rw [kept_filter, lines_picked, List.filterMap_map, ← List.filterMap_eq_map]
  refine List.filterMap_congr fun doc hdoc => ?_
  rw [Function.comp_apply, outcome_picked hne h (hdocs doc hdoc)]
  rfl

theorem tally_filter_picked (hne : fields ≠ []) (h : ∀ field ∈ fields, PlainField field)
    (hdocs : ∀ doc ∈ docs, Picked fields doc) :
    ((Plan.mk fields .always).filter (unlines (docs.map Json.text))).tally =
      ⟨docs.length, docs.length, 0, 0⟩ := by
  rw [tally_filter_eq_sum, lines_picked, List.map_map]
  induction docs with
  | nil => rfl
  | cons doc rest ih =>
    obtain ⟨hdoc, hrest⟩ := List.forall_mem_cons.mp hdocs
    rw [List.map_cons, List.sum_cons, ih hrest, Function.comp_apply, outcome_picked hne h hdoc,
      Outcome.tally, Tally.add_def]
    simp [Nat.add_comm]

/-- Two runs have one output only if they have kept the same texts. -/
theorem output_filter_eq_iff {p q : Plan} {a b : List UInt8} :
    (p.filter a).output = (q.filter b).output ↔
      (p.filter a).kept.toList = (q.filter b).kept.toList := by
  constructor
  · intro h
    have hencode : Function.Injective fun text : String => Text.encode text.toList := by
      intro s t hst
      have hdecode := congrArg Text.decode hst
      simp only [Text.decode_encode, Except.ok.injEq] at hdecode
      exact String.toList_inj.mp hdecode
    have hlines := congrArg (fun output => lines (Text.encode output)) h
    simp only [Report.encode_output] at hlines
    rw [lines_unlines fun _ ht => (isLine_of_mem_kept ht).isSingleLine,
      lines_unlines fun _ ht => (isLine_of_mem_kept ht).isSingleLine] at hlines
    exact List.map_injective_iff.mpr hencode hlines
  · exact fun h => Report.output_congr (Array.toList_inj.mp h)

theorem exists_picked (hne : fields ≠ []) (h : ∀ field ∈ fields, PlainField field)
    (input : List UInt8) : ∃ docs : List Json, (∀ doc ∈ docs, Picked fields doc) ∧
      ((Plan.mk fields P).filter input).kept.toList = docs.map Json.text := by
  rw [kept_filter]
  induction lines input with
  | nil => exact ⟨[], by simp, rfl⟩
  | cons line rest ih =>
    obtain ⟨docs, hdocs, hkept⟩ := ih
    cases ht : ((Plan.mk fields P).outcome 0 line).text? with
    | none => exact ⟨docs, hdocs, by simp only [List.filterMap_cons, ht, hkept]⟩
    | some text =>
      obtain ⟨doc, hdoc, rfl⟩ := exists_picked_of_kept hne h (Outcome.text?_eq_some_iff.mp ht)
      exact ⟨doc :: docs, List.forall_mem_cons.mpr ⟨hdoc, hdocs⟩,
        by simp only [List.filterMap_cons, ht, hkept, List.map_cons]⟩

theorem unlines_singleton (text : String) :
    unlines [text] = Text.encode (text.toList ++ ['\n']) := by
  rw [unlines, List.flatMap_singleton]

def ofNumber (field : String) (x : Json.Number) : Json := .object [(field, .number x)]

theorem picked_ofNumber {x : Json.Number} (hx : x.InRange) (field : String) :
    ∀ doc ∈ [ofNumber field x], Picked [field] doc := by
  intro doc hdoc
  obtain rfl := List.mem_singleton.mp hdoc
  refine ⟨ofNumber field x, .object (List.pairwise_singleton _ _) ?_, ?_⟩
  · rintro p hp
    obtain rfl := List.mem_singleton.mp hp
    exact .number hx
  · simp [ofNumber, Json.project, Json.held, Json.child?, Members.find?_cons, Members.ofList,
      Members.insert]

theorem filter_ofNumber {x : Json.Number} (hx : x.InRange) (h : PlainField field) :
    ((Plan.mk [field] .always).filter (unlines [(ofNumber field x).text])).output =
        (ofNumber field x.reread).text.toList ++ ['\n'] ∧
      ((Plan.mk [field] .always).filter (unlines [(ofNumber field x).text])).tally =
        ⟨1, 1, 0, 0⟩ := by
  have hne : [field] ≠ [] := List.cons_ne_nil field []
  have hplain : ∀ f ∈ [field], PlainField f := fun _ hf => List.mem_singleton.mp hf ▸ h
  constructor
  · rw [Report.output, ← List.map_singleton, kept_filter_picked hne hplain _ (picked_ofNumber hx _)]
    exact List.append_nil _
  · have htally := tally_filter_picked hne hplain (picked_ofNumber hx field)
    rwa [List.map_singleton, List.length_singleton] at htally

/-- The exponent of the numbers about 5·10³². No proof is to compute the power of it. -/
@[irreducible]
def fiveExponent : Nat := 1130

theorem fiveExponent_le : fiveExponent ≤ 2045 := by
  rw [fiveExponent]
  decide

def nearFive : Binary64 := .finite false (6938893903907228 * 2 ^ fiveExponent)
  (representable_mul_two_pow (by decide) fiveExponent_le)

def afterFive : Binary64 := .finite false (6938893903907229 * 2 ^ fiveExponent)
  (representable_mul_two_pow (by decide) fiveExponent_le)

open Json (FitsWhole product) in
theorem texts_five :
    (FitsWhole (.shortest .even (6938893903907228 * 2 ^ fiveExponent)) ∧
      product (.shortest .even (6938893903907228 * 2 ^ fiveExponent)) = afterFive ∧
      (ofNumber "a" (.real nearFive)).text.toList ++ ['\n'] = "\x7b\"a\":5e+32\x7d\n".toList) ∧
    FitsWhole (.shortest .even (6938893903907229 * 2 ^ fiveExponent)) ∧
      product (.shortest .even (6938893903907229 * 2 ^ fiveExponent)) = nearFive ∧
      (ofNumber "a" (.real afterFive)).text.toList ++ ['\n'] =
        "\x7b\"a\":5.0000000000000004e+32\x7d\n".toList := by
  decide +kernel

theorem reread_nearFive : Json.Number.reread (.real nearFive) = .real afterFive :=
  Json.Number.reread_product (s := false) texts_five.1.1 texts_five.1.2.1

theorem reread_afterFive : Json.Number.reread (.real afterFive) = .real nearFive :=
  Json.Number.reread_product (s := false) texts_five.2.1 texts_five.2.2.1

theorem plainField_a : PlainField "a" := ⟨by decide, by decide, by decide⟩

theorem filter_nearFive :
    let first := (Plan.mk ["a"] .always).filter (Text.encode "\x7b\"a\":5e+32\x7d\n".toList)
    first.output = "\x7b\"a\":5.0000000000000004e+32\x7d\n".toList ∧
      first.tally = ⟨1, 1, 0, 0⟩ := by
  have h := filter_ofNumber (show (Json.Number.real nearFive).InRange from rfl) plainField_a
  rwa [reread_nearFive, unlines_singleton, texts_five.1.2.2, texts_five.2.2.2] at h

/-- A plan with fields, and then one that takes the same fields of every record: the second keeps
all that it reads, each object with its numbers as their texts are read. So it reproduces the output
exactly where their texts stay, and it does where no real number is read as another. -/
theorem filter_projection_twice (P : Expr) (hne : fields ≠ [])
    (h : ∀ field ∈ fields, PlainField field) (input : List UInt8) :
    let first := (Plan.mk fields P).filter input
    let second := (Plan.mk fields .always).filter (Text.encode first.output)
    ∃ docs : List Json, first.kept.toList = docs.map Json.text ∧
      second.kept.toList = docs.map (fun doc => (doc.mapNumbers Json.Number.reread).text) ∧
      second.tally = ⟨first.tally.kept, first.tally.kept, 0, 0⟩ ∧
      (second.output = first.output ↔
        ∀ doc ∈ docs, (doc.mapNumbers Json.Number.reread).text = doc.text) ∧
      ((∀ doc ∈ docs, ∀ x, .real x ∈ doc.numbers →
        Json.Number.reread (.real x) = .real x) → second.output = first.output) := by
  intro first second
  obtain ⟨docs, hdocs, hfirst⟩ := exists_picked (P := P) hne h input
  have hinput : Text.encode first.output = unlines (docs.map Json.text) := by
    rw [Report.encode_output, hfirst]
  have hlength : first.tally.kept = docs.length := by
    rw [(counted_filter _ _).kept, ← Array.length_toList, hfirst, List.length_map]
  have hsecond : second.kept.toList =
      docs.map fun doc => (doc.mapNumbers Json.Number.reread).text := by
    rw [← kept_filter_picked hne h docs hdocs, ← hinput]
  have houtput : second.output = first.output ↔
      ∀ doc ∈ docs, (doc.mapNumbers Json.Number.reread).text = doc.text := by
    rw [output_filter_eq_iff, hsecond, hfirst, List.map_inj_left]
  refine ⟨docs, hfirst, hsecond, ?_, houtput, fun hreal => houtput.mpr fun doc hdoc => ?_⟩
  · rw [hlength, ← tally_filter_picked hne h hdocs, ← hinput]
  · obtain ⟨j, hj, rfl⟩ := hdocs doc hdoc
    rw [(hj.project fields).mapNumbers_reread (hreal _ hdoc)]

theorem filter_projection_twice_five :
    let fields := ["a"]
    let first := (Plan.mk fields .always).filter (Text.encode "\x7b\"a\":5e+32\x7d\n".toList)
    let second := (Plan.mk fields .always).filter (Text.encode first.output)
    (fields ≠ [] ∧ ∀ field ∈ fields, PlainField field) ∧ second.tally = ⟨1, 1, 0, 0⟩ := by
  intro fields first second
  have hne : fields ≠ [] := List.cons_ne_nil _ _
  have hplain : ∀ field ∈ fields, PlainField field := fun _ hf =>
    List.mem_singleton.mp hf ▸ plainField_a
  obtain ⟨docs, -, -, htally, -⟩ := filter_projection_twice .always hne hplain
    (Text.encode "\x7b\"a\":5e+32\x7d\n".toList)
  rw [filter_nearFive.2] at htally
  exact ⟨⟨hne, hplain⟩, htally⟩

/-- Of two numbers next to each other each is what the text of the other is read as, so that they
change places with every filter. -/
theorem filter_projection_drifts :
    let first := (Plan.mk ["a"] .always).filter (Text.encode "\x7b\"a\":5e+32\x7d\n".toList)
    let second := (Plan.mk ["a"] .always).filter (Text.encode first.output)
    first.output = "\x7b\"a\":5.0000000000000004e+32\x7d\n".toList ∧
      second.output = "\x7b\"a\":5e+32\x7d\n".toList ∧ second.output ≠ first.output := by
  intro first second
  obtain ⟨hfirst, -⟩ := filter_nearFive
  have hsecond : second.output = "\x7b\"a\":5e+32\x7d\n".toList := by
    have h := (filter_ofNumber (show (Json.Number.real afterFive).InRange from rfl) plainField_a).1
    rwa [reread_afterFive, unlines_singleton, texts_five.1.2.2, texts_five.2.2.2, ← hfirst] at h
  refine ⟨hfirst, hsecond, ?_⟩
  rw [hsecond, hfirst]
  decide

end Plan

end RecordSieve
