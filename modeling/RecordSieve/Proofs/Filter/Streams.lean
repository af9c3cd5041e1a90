import Mathlib.Data.List.DropRight
import RecordSieve.Proofs.Expr.Soundness
import RecordSieve.Proofs.Expr.Words
import RecordSieve.Proofs.Filter.Lines
import RecordSieve.Proofs.Query
import RecordSieve.Proofs.Text.SingleLine

/-! # Output and errors as lines

A kept record is one line of the output and a failure is one line of the errors, and there are no
other lines. A record that is passed on is part of a line, documents and quoted texts have their
newlines escaped, and the keys that a failure names are words of the query.
-/

namespace RecordSieve

variable {s : List Char} {line text : String} {r : Record} {number : Nat} {bytes input : List UInt8}
  {p : Plan} {o : Outcome} {f : Failure} {err : EvalError} {q : String}

namespace Text

theorem trim_eq_rdropWhile (s : List Char) : trim s = (s.dropWhile isBlank).rdropWhile isBlank :=
  rfl

theorem mem_of_mem_trim {c : Char} (h : c ∈ trim s) : c ∈ s :=
  (List.dropWhile_sublist isBlank).subset ((List.rdropWhile_prefix isBlank _).subset h)

theorem isBlank_getLast?_trim {c : Char} (h : (trim s).getLast? = some c) : isBlank c = false := by
  have hn : trim s ≠ [] := by
    rintro hn
    simp [hn] at h
  rw [List.getLast?_eq_some_getLast hn, Option.some.injEq] at h
  rw [← h]
  exact Bool.eq_false_iff.mpr (List.rdropWhile_last_not isBlank _ hn)

theorem trim_trim (s : List Char) : trim (trim s) = trim s := by
  have hd : (trim s).dropWhile isBlank = trim s := by
    rw [List.dropWhile_eq_self_iff]
    intro hl
    have hp : trim s <+: s.dropWhile isBlank := List.rdropWhile_prefix isBlank _
    rw [hp.getElem hl]
    exact List.dropWhile_get_zero_not isBlank s (hl.trans_le hp.length_le)
  rw [trim_eq_rdropWhile, hd, trim_eq_rdropWhile, List.rdropWhile_idempotent]

end Text

theorem Record.raw_of_read (h : Record.read line = .ok r) :
    r.raw = String.ofList (Text.trim line.toList) := by
  obtain ⟨j, _, hr⟩ := bind_eq_ok_iff.mp h
  cases hr
  rfl

namespace Plan

def unlines (texts : List String) : List UInt8 :=
  Text.encode (texts.flatMap fun text => text.toList ++ ['\n'])

theorem unlines_cons (text : String) (texts : List String) :
    unlines (text :: texts) = Text.encode text.toList ++ newline :: unlines texts := by
  rw [unlines, List.flatMap_cons, Text.encode_append, Text.encode_append, List.append_assoc]
  rfl

theorem unlines_ends (texts : List String) :
    unlines texts = [] ∨ (unlines texts).getLast? = some newline := by
  induction texts with
  | nil => exact .inl rfl
  | cons text texts ih =>
    rw [unlines_cons, List.getLast?_append, List.getLast?_cons]
    rcases ih with h | h <;> simp [h]

theorem newline_not_mem_encode (h : IsSingleLine text) : newline ∉ Text.encode text.toList :=
  mt (Text.mem_encode_iff (by decide)).mp h

theorem lines_unlines {texts : List String} (h : ∀ text ∈ texts, IsSingleLine text) :
    lines (unlines texts) = texts.map fun text => Text.encode text.toList := by
  induction texts with
  | nil => rfl
  | cons text texts ih =>
    obtain ⟨ht, h⟩ := List.forall_mem_cons.mp h
    rw [unlines_cons, lines_append_newline (newline_not_mem_encode ht), ih h, List.map_cons]

theorem count_unlines {texts : List String} (h : ∀ text ∈ texts, IsSingleLine text) :
    (unlines texts).count newline = texts.length := by
  rw [← length_lines (unlines_ends texts), lines_unlines h, List.length_map]

end Plan

namespace Report

theorem encode_output (r : Report) : Text.encode r.output = Plan.unlines r.kept.toList := rfl

theorem encode_errors (r : Report) : Text.encode r.errors =
    Plan.unlines (r.failures.toList.map fun f => "check line error: " ++ f.message) := by
  rw [Plan.unlines, List.flatMap_map]
  rfl

end Report

def Outcome.text? : Outcome → Option String
  | .kept text => some text
  | _ => none

theorem Outcome.text?_eq_some_iff : o.text? = some text ↔ o = .kept text := by
  cases o <;> simp [text?]

theorem Report.kept_push (r : Report) (o : Outcome) :
    (r.push o).kept.toList = r.kept.toList ++ o.text?.toList := by
  cases o <;> simp [push, countRead, Outcome.text?]

namespace Plan

theorem toList_kept_filter (p : Plan) (input : List UInt8) :
    (p.filter input).kept.toList = (p.outcomes 1 (lines input)).filterMap Outcome.text? := by
  rw [filter_eq_foldl, List.filterMap_eq_flatMap_toList]
  exact Report.append_foldl_push (f := fun r => r.kept.toList) Report.kept_push _ .empty

theorem exists_of_mem_outcomes {ls : List (List UInt8)} (h : o ∈ p.outcomes number ls) :
    ∃ n, ∃ l ∈ ls, p.outcome n l = o := by
  obtain ⟨⟨l, n⟩, hl, rfl⟩ := List.mem_map.mp h
  exact ⟨n, l, List.fst_mem_of_mem_zipIdx hl, rfl⟩

/-- A text that can stand on a line of its own and is read from it again. -/
structure IsLine (text : String) : Prop where
  isSingleLine : IsSingleLine text
  stripReturn_eq : stripReturn (Text.encode text.toList) = Text.encode text.toList
  not_blank : ∃ c ∈ text.toList, ¬ Text.isBlank c

theorem isLine_of_getLast? {c : Char} (hs : IsSingleLine text)
    (hc : text.toList.getLast? = some c) (hb : Text.isBlank c = false) : IsLine text := by
  refine ⟨hs, if_neg fun hg => ?_, c, List.mem_of_getLast? hc, by simp [hb]⟩
  obtain rfl : Char.ofNat carriageReturn.toNat = c :=
    Option.some.inj ((Text.getLast?_of_getLast?_encode hg (by decide)).symm.trans hc)
  exact absurd hb (by decide)

theorem isLine_trim (hs : '\n' ∉ s) (hb : ∃ c ∈ s, ¬ Text.isBlank c) :
    IsLine (String.ofList (Text.trim s)) := by
  obtain ⟨c, hc, hb⟩ := hb
  have hn : Text.trim s ≠ [] := fun hn => hb (Text.trim_eq_nil_iff.mp hn c hc)
  have hl := List.getLast?_eq_some_getLast hn
  exact isLine_of_getLast? (IsSingleLine.ofList_iff.mpr (mt Text.mem_of_mem_trim hs))
    (by rwa [String.toList_ofList]) (Text.isBlank_getLast?_trim hl)

theorem isLine_object (members : List (String × Json)) : IsLine (Json.object members).text :=
  isLine_of_getLast? (c := '\x7d') (Json.isSingleLine_text _)
    (by simp [Json.text, List.getLast?_cons]) (by decide)

theorem newline_not_mem_of_encode (hl : newline ∉ bytes) (h : Text.encode s = stripReturn bytes) :
    '\n' ∉ s := by
  refine mt (Text.mem_encode_iff (b := newline) (by decide)).mpr ?_
  rw [h, stripReturn]
  split
  · exact mt (List.dropLast_subset _ ·) hl
  · exact hl

theorem filterLine_eq_some (h : p.filterLine number line = .ok (some text)) :
    ∃ r, Record.read line = .ok r ∧ p.emit r = .ok text := by
  obtain ⟨r, hr, h⟩ := bind_eq_ok_iff.mp h
  obtain ⟨keep, -, h⟩ := bind_eq_ok_iff.mp h
  cases keep with
  | false => cases h
  | true =>
    obtain ⟨t, ht, h⟩ := map_eq_ok_iff.mp h
    obtain rfl := Option.some.inj h
    exact ⟨r, mapError_eq_ok_iff.mp hr, mapError_eq_ok_iff.mp ht⟩

/-- A kept record is a line: what trimming leaves of one, or an object. -/
theorem isLine_of_kept (hl : newline ∉ bytes) (h : p.outcome number bytes = .kept text) :
    IsLine text := by
  cases becomes_iff.mpr h with
  | kept he hb hf =>
    obtain ⟨r, hr, ht⟩ := filterLine_eq_some hf
    unfold emit at ht
    split at ht
    · obtain rfl := Except.ok.inj ht
      rw [Record.raw_of_read hr, String.toList_ofList]
      exact isLine_trim (newline_not_mem_of_encode hl he) hb
    · obtain ⟨j, hj, rfl⟩ := map_eq_ok_iff.mp ht
      obtain ⟨pairs, -, h⟩ := bind_eq_ok_iff.mp hj
      obtain rfl := Except.ok.inj h
      exact isLine_object _

theorem isLine_of_mem_kept (h : text ∈ (p.filter input).kept.toList) : IsLine text := by
  rw [toList_kept_filter, List.mem_filterMap] at h
  obtain ⟨o, ho, ht⟩ := h
  obtain ⟨n, l, hl, rfl⟩ := exists_of_mem_outcomes ho
  exact isLine_of_kept (newline_not_mem_of_mem_lines hl) (Outcome.text?_eq_some_iff.mp ht)

end Plan

theorem Expr.numberKeys_subset (e : Expr) (needed : Capability) : e.numberKeys needed ⊆ e.keys := by
  induction e generalizing needed with
  | field key => cases needed <;> simp [numberKeys, keys]
  | logical op l r ihl ihr | compare op l r ihl ihr | arith op l r ihl ihr =>
    simp only [numberKeys, keys]
    exact List.append_subset.mpr
      ⟨List.Subset.trans (ihl _) (List.subset_append_left _ _),
        List.Subset.trans (ihr _) (List.subset_append_right _ _)⟩
  | text | number | test | always => simp [numberKeys]

theorem Record.isSingleLine_of_keys (h : r.keys = .error err) : IsSingleLine err.message := by
  unfold keys at h
  split at h
  · simp at h
  · obtain rfl := Except.error.inj h
    exact .append (by simp [IsSingleLine]) (Json.isSingleLine_kind _)

theorem Record.isSingleLine_of_view {key : String} (h : r.view key = .error err) :
    IsSingleLine err.message := by
  unfold view at h
  split at h
  · exact isSingleLine_of_keys (map_eq_error_iff.mp h)
  · simp at h

theorem Record.isSingleLine_of_pick {fields : List String} (h : r.pick fields = .error err) :
    IsSingleLine err.message := by
  rcases bind_eq_error_iff.mp h with h | ⟨pairs, -, h⟩
  · obtain ⟨field, -, h⟩ := exists_of_mapM_eq_error h
    have h := map_eq_error_iff.mp h
    unfold select at h
    split at h
    · exact isSingleLine_of_keys (map_eq_error_iff.mp h)
    · cases h
  · cases h

/-- A failed evaluation names keys of the expression, and quotes what they hold. -/
theorem Expr.Fault.isSingleLine_message {e : Expr} {needed : Capability}
    (h : Fault r.view needed e err) (hk : ∀ k ∈ e.keys, IsSingleLine k) :
    IsSingleLine err.message := by
  cases h with
  | unreadable _ hv => exact Record.isSingleLine_of_view hv
  | zeroDivisor =>
    change IsSingleLine "Division by zero"
    simp [IsSingleLine]
  | noNumeral hn _ _ =>
    exact .append (.append (.append (by simp [IsSingleLine]) (hk _ (e.numberKeys_subset _ hn)))
      (by simp [IsSingleLine])) (Text.isSingleLine_quote _)
  | noNumber hn _ _ _ =>
    have hkey := hk _ (e.numberKeys_subset _ hn)
    exact .append (.append (.append (.append (by simp [IsSingleLine]) hkey)
      (by simp [IsSingleLine])) (Value.isSingleLine_kind _)) (by simp [IsSingleLine])

namespace Plan

theorem isSingleLine_of_mem_keys {k : String} (h : ofText q = .ok p) (hk : k ∈ p.predicate.keys) :
    IsSingleLine k := by
  rcases isWord_of_mem_keys h hk with rfl | hw
  · decide
  · exact fun hn => absurd (hw.2 _ hn) (by decide)

theorem isSingleLine_of_keeps (h : ofText q = .ok p) (hk : p.keeps r = .error err) :
    IsSingleLine err.message := by
  rcases predicate_of_ofText h with hp | ⟨ts, clause, -, -, ho, hd⟩
  · simp [keeps, hp, Expr.evalTruth] at hk
  · -- a mismatch, which would print the expression with its strings, cannot occur
    have hf : Expr.Fault r.view .predicate p.predicate err :=
      (Expr.wellTyped_of_ofTokens ho).1.fault hd hk
    exact hf.isSingleLine_message fun _ => isSingleLine_of_mem_keys h

theorem filterLine_eq_error (h : p.filterLine number line = .error f) :
    (∃ e, f.cause = .json e) ∨
      ∃ r e, f.cause = .eval e ∧ (p.keeps r = .error e ∨ p.emit r = .error e) := by
  rcases bind_eq_error_iff.mp h with h | ⟨r, -, h⟩
  · obtain ⟨e, -, rfl⟩ := mapError_eq_error_iff.mp h
    exact .inl ⟨e, rfl⟩
  · rcases bind_eq_error_iff.mp h with h | ⟨keep, -, h⟩
    · obtain ⟨e, he, rfl⟩ := mapError_eq_error_iff.mp h
      exact .inr ⟨r, e, rfl, .inl he⟩
    · cases keep with
      | false => cases h
      | true =>
        obtain ⟨e, he, rfl⟩ := mapError_eq_error_iff.mp (map_eq_error_iff.mp h)
        exact .inr ⟨r, e, rfl, .inr he⟩

/-- A failure is reported on a single line, whatever the line that failed holds. -/
theorem isSingleLine_of_failed (h : ofText q = .ok p) (ho : p.outcome number bytes = .failed f) :
    IsSingleLine f.message := by
  have hcause : IsSingleLine f.cause.message := by
    cases becomes_iff.mpr ho with
    | malformed => exact .append (by decide) (Text.Malformed.isSingleLine_message _)
    | failed _ _ hf =>
      rcases filterLine_eq_error hf with ⟨e, he⟩ | ⟨r, e, he, hr⟩
      · rw [he]
        exact .append (by decide) e.isSingleLine_message
      · rw [he]
        rcases hr with hr | hr
        · exact isSingleLine_of_keeps h hr
        · unfold emit at hr
          split at hr
          · cases hr
          · exact Record.isSingleLine_of_pick (map_eq_error_iff.mp hr)
  exact .append (.append (.append (by decide) (isSingleLine_natRepr f.line)) (by decide)) hcause

end Plan

theorem Failure.prefix_message (f : Failure) : Text.encode "check line error: line ".toList <+:
    Text.encode ("check line error: " ++ f.message).toList := by
  have hf : "check line error: " ++ f.message =
      "check line error: line " ++ (toString f.line ++ ": " ++ f.cause.message) := by
    simp [message, ← String.append_assoc]
  rw [hf, String.toList_append, Text.encode_append]
  exact List.prefix_append _ _

def Outcome.failure? : Outcome → Option Failure
  | .failed f => some f
  | _ => none

theorem Outcome.failure?_eq_some_iff : o.failure? = some f ↔ o = .failed f := by
  cases o <;> simp [failure?]

theorem Report.failures_push (r : Report) (o : Outcome) :
    (r.push o).failures.toList = r.failures.toList ++ o.failure?.toList := by
  cases o <;> simp [push, countRead, Outcome.failure?]

namespace Plan

theorem toList_failures_filter (p : Plan) (input : List UInt8) :
    (p.filter input).failures.toList = (p.outcomes 1 (lines input)).filterMap Outcome.failure? := by
  rw [filter_eq_foldl, List.filterMap_eq_flatMap_toList]
  exact Report.append_foldl_push (f := fun r => r.failures.toList) Report.failures_push _ .empty

theorem isSingleLine_of_mem_failures (h : ofText q = .ok p)
    (hf : f ∈ (p.filter input).failures.toList) : IsSingleLine f.message := by
  rw [toList_failures_filter, List.mem_filterMap] at hf
  obtain ⟨o, ho, hf⟩ := hf
  obtain ⟨n, l, -, rfl⟩ := exists_of_mem_outcomes ho
  exact isSingleLine_of_failed h (Outcome.failure?_eq_some_iff.mp hf)

/-- The lines of the output are the records kept, and none of them is blank; the lines of the errors
are the failures. Both streams end after their last line. -/
theorem filter_streams (h : ofText q = .ok p) (input : List UInt8) :
    let report := p.filter input
    let output := Text.encode report.output
    let errors := Text.encode report.errors
    ((output = [] ∨ output.getLast? = some newline) ∧
      output.count newline = report.tally.kept ∧
      lines output = (report.kept.toList.map fun text => Text.encode text.toList) ∧
      ∀ line ∈ lines output, ∃ s, Text.encode s = line ∧ ∃ c ∈ s, ¬ Text.isBlank c) ∧
    (errors = [] ∨ errors.getLast? = some newline) ∧
      errors.count newline = report.tally.failed ∧
      lines errors = (report.failures.toList.map fun f =>
        Text.encode ("check line error: " ++ f.message).toList) ∧
      ∀ line ∈ lines errors, Text.encode "check line error: line ".toList <+: line := by
  intro report output errors
  have hkept : ∀ text ∈ report.kept.toList, IsSingleLine text := fun _ ht =>
    (isLine_of_mem_kept ht).isSingleLine
  have hfailed : ∀ text ∈ report.failures.toList.map fun f => "check line error: " ++ f.message,
      IsSingleLine text := by
    intro text ht
    obtain ⟨f, hf, rfl⟩ := List.mem_map.mp ht
    exact .append (by decide) (isSingleLine_of_mem_failures h hf)
  have hout : lines output = report.kept.toList.map fun text => Text.encode text.toList :=
    lines_unlines hkept
  have herrors : errors =
    unlines (report.failures.toList.map fun f => "check line error: " ++ f.message) :=
    report.encode_errors
  have herr : lines errors = report.failures.toList.map fun f =>
      Text.encode ("check line error: " ++ f.message).toList := by
    rw [herrors, lines_unlines hfailed, List.map_map]
    rfl
  have hcounted : report.Counted := counted_filter p input
  refine ⟨⟨unlines_ends _, (count_unlines hkept).trans hcounted.kept.symm, hout, ?_⟩, ?_, ?_, herr,
    ?_⟩
  · rw [hout]
    intro line hm
    obtain ⟨text, ht, rfl⟩ := List.mem_map.mp hm
    exact ⟨_, rfl, (isLine_of_mem_kept ht).not_blank⟩
  · rw [herrors]
    exact unlines_ends _
  · rw [herrors, count_unlines hfailed, List.length_map]
    exact hcounted.failed.symm
  · rw [herr]
    intro line hm
    obtain ⟨f, -, rfl⟩ := List.mem_map.mp hm
    exact f.prefix_message

open Token in
/-- A field with a newline in its name, a string with a newline in it where a number is wanted, and
a byte that begins no character. -/
theorem filter_streams_escaped :
    let q := "select 'a\nb' from t where (x > y)"
    let p : Plan := ⟨["a\nb"], .compare .greater (.field "x") (.field "y")⟩
    let input := Text.encode ("\x7b\"x\": 2, \"y\": 1\x7d\n".toList ++
      "\x7b\"x\": \"\\n\", \"y\": 1\x7d\n".toList) ++ [255]
    let errors := Text.encode (p.filter input).errors
    (ofText q = .ok p ∧ (p.filter input).tally = ⟨3, 1, 0, 2⟩ ∧
      (p.filter input).output = "\x7b\"a\\nb\":null\x7d\n".toList) ∧
    errors.count newline = 2 ∧
      ∀ line ∈ lines errors, Text.encode "check line error: line ".toList <+: line := by
  intro q p input errors
  have name {w : String} (hw : w ∈ ["x", "y"]) : IsName w := by
    simp only [List.mem_cons, List.not_mem_nil, or_false] at hw
    rcases hw with rfl | rfl <;>
      exact ⟨by decide, List.all_eq_true.mp (by decide), rfl, rfl⟩
  have hp : p.predicate.Printable :=
    ⟨.compare (.field _) (.field _) rfl rfl, fun k hk => name hk, by simp [p, Expr.literals],
      by decide⟩
  have hf : p.fields ≠ [] := by simp [p]
  have h : ofText q = .ok p := by
    have hs : Token.ofText q = .ok _ := (writes_query hp hf (by decide)).written.scan_eq
    rw [ofText, hs]
    exact ofTokens_select hf p.predicate.phrase.tokens_ne_nil hp.ofTokens_phrase rfl
  have ht : (p.filter input).tally = ⟨3, 1, 0, 2⟩ := by decide +kernel
  obtain ⟨-, -, hcount, -, hlines⟩ := filter_streams h input
  exact ⟨⟨h, ht, by decide +kernel⟩, hcount.trans (by rw [ht]), hlines⟩

end Plan

end RecordSieve
