import RecordSieve.Proofs.Filter.Streams

/-! # Filters in a row

Records that are passed on as they are can be filtered again. Two filters in a row keep what the
conjunction of their conditions keeps, and drop and fail on as many lines. What a filter has kept
it keeps once more.
-/

namespace RecordSieve

variable {P Q e : Expr} {s : List Char} {line text : String} {r : Record} {number : Nat}
  {bytes input : List UInt8} {p : Plan} {o : Outcome}

theorem Record.read_raw (h : Record.read line = .ok r) : Record.read r.raw = .ok r := by
  rw [← h, Record.raw_of_read h]
  simp only [Record.read, String.toList_ofList, Text.trim_trim]

@[simp] theorem Outcome.text?_shift {k : Nat} : (o.shift k).text? = o.text? := by
  cases o <;> rfl

theorem Report.output_congr {r r' : Report} (h : r.kept = r'.kept) : r.output = r'.output := by
  rw [output, h, output]

/-- How the counts of two filters in a row make up those of the one for both conditions. -/
structure Tally.Fuses (first second both : Tally) : Prop where
  read : second.read = first.kept
  kept : second.kept = both.kept
  dropped : first.dropped + second.dropped = both.dropped
  failed : first.failed + second.failed = both.failed

namespace Tally.Fuses

theorem zero : Fuses 0 0 0 := ⟨rfl, rfl, rfl, rfl⟩

theorem add {a b c a' b' c' : Tally} (h : Fuses a b c) (h' : Fuses a' b' c') :
    Fuses (a + a') (b + b') (c + c') := by
  obtain ⟨hr, hk, hd, hf⟩ := h
  obtain ⟨hr', hk', hd', hf'⟩ := h'
  constructor <;> simp only [add_def] <;> omega

end Tally.Fuses

namespace Plan

/-- The plan that passes on the records of which a condition holds as they are. -/
def choosing (e : Expr) : Plan := ⟨[wholeRecord], e⟩

theorem filterLine_choosing (e : Expr) (number : Nat) (line : String) :
    (choosing e).filterLine number line =
      ((Record.read line).mapError fun f => ⟨number, .json f⟩) >>= fun r =>
        ((e.evalTruth r.view).result.mapError fun f => ⟨number, .eval f⟩) >>= fun keep =>
          .ok (if keep then some r.raw else none) := by
  unfold filterLine
  cases Record.read line with
  | error f => rfl
  | ok r =>
    simp only [Except.mapError, bind, Except.bind, keeps, choosing]
    cases (e.evalTruth r.view).result with
    | error f => rfl
    | ok keep => cases keep <;> rfl

theorem result_and (v : View) : ((Expr.logical .and P Q).evalTruth v).result =
    (P.evalTruth v).result >>= fun keep => if keep then (Q.evalTruth v).result else .ok false := by
  rw [Expr.evalTruth, Traced.result_bind]
  congr 1
  funext keep
  cases keep <;> rfl

theorem filterLine_and (P Q : Expr) (number : Nat) (line : String) :
    (choosing (.logical .and P Q)).filterLine number line =
      match (choosing P).filterLine number line with
      | .ok (some text) => (choosing Q).filterLine number text
      | result => result := by
  simp only [filterLine_choosing, result_and]
  cases hr : Record.read line with
  | error f => rfl
  | ok r =>
    simp only [Except.mapError, bind, Except.bind]
    cases (P.evalTruth r.view).result with
    | error f => rfl
    | ok keep =>
      cases keep with
      | false => rfl
      | true => simp [Record.read_raw hr]

theorem filterLine_choosing_eq_some_iff :
    (choosing e).filterLine number line = .ok (some text) ↔
      ∃ r, Record.read line = .ok r ∧ (e.evalTruth r.view).result = .ok true ∧ r.raw = text := by
  rw [filterLine_choosing]
  cases Record.read line with
  | error f => simp [Except.mapError, bind, Except.bind]
  | ok r =>
    cases hk : (e.evalTruth r.view).result with
    | error f => simp [Except.mapError, bind, Except.bind, hk]
    | ok keep => cases keep <;> simp [Except.mapError, bind, Except.bind, hk]

theorem outcome_choosing_eq_kept_iff :
    (choosing e).outcome number bytes = .kept text ↔
      ∃ s r, Text.encode s = stripReturn bytes ∧ (∃ c ∈ s, ¬ Text.isBlank c) ∧
        Record.read (String.ofList s) = .ok r ∧ (e.evalTruth r.view).result = .ok true ∧
        r.raw = text := by
  rw [← becomes_iff]
  constructor
  · intro h
    cases h with
    | @kept s _ he hc hf =>
      obtain ⟨r, h⟩ := filterLine_choosing_eq_some_iff.mp hf
      exact ⟨s, r, he, hc, h⟩
  · rintro ⟨s, r, he, hc, h⟩
    exact .kept he hc (filterLine_choosing_eq_some_iff.mpr ⟨r, h⟩)

theorem outcome_congr {q : Plan} {s t : List Char} {a b : List UInt8}
    (ha : Text.encode s = stripReturn a) (hs : ∃ c ∈ s, ¬ Text.isBlank c)
    (hb : Text.encode t = stripReturn b) (ht : ∃ c ∈ t, ¬ Text.isBlank c)
    (h : p.filterLine number (String.ofList s) = q.filterLine number (String.ofList t)) :
    p.outcome number a = q.outcome number b := by
  have hs : s.all Text.isBlank = false := by simpa using hs
  have ht : t.all Text.isBlank = false := by simpa using ht
  simp only [outcome, Text.decode_eq_ok_iff.mpr ha, Text.decode_eq_ok_iff.mpr hb, hs, ht, h]

/-- A line under a conjunction: what the first condition has kept becomes what the line of it
becomes under the second one. -/
theorem outcome_and (hl : newline ∉ bytes) :
    (choosing (.logical .and P Q)).outcome number bytes =
      match (choosing P).outcome number bytes with
      | .kept text => (choosing Q).outcome number (Text.encode text.toList)
      | o => o := by
  generalize ho : (choosing P).outcome number bytes = o
  cases becomes_iff.mpr ho with
  | malformed hn hd => exact becomes_iff.mp (.malformed hn hd)
  | blank he hb => exact becomes_iff.mp (.blank he hb)
  | kept he hc hf =>
    -- the line and the text kept of it are read to one record, which the second condition decides
    have ht := isLine_of_kept hl ho
    refine outcome_congr he hc ht.stripReturn_eq.symm ht.not_blank ?_
    simp only [filterLine_and, hf, String.ofList_toList]
  | dropped he hc hf =>
    refine becomes_iff.mp (.dropped he hc ?_)
    simp only [filterLine_and, hf]
  | failed he hc hf =>
    refine becomes_iff.mp (.failed he hc ?_)
    simp only [filterLine_and, hf]

/-- What does not depend on the number of a line can be read off the lines alone. -/
theorem map_outcomes {β : Type} (f : Outcome → β) (hf : ∀ k o, f (Outcome.shift k o) = f o)
    (p : Plan) (number : Nat) (ls : List (List UInt8)) :
    (p.outcomes number ls).map f = ls.map fun l => f (p.outcome 0 l) := by
  induction ls generalizing number with
  | nil => rfl
  | cons l ls ih =>
    have h : f (p.outcome number l) = f (p.outcome 0 l) := by
      rw [← Nat.zero_add number, outcome_add, hf]
    simpa [outcomes, h] using ih (number + 1)

theorem kept_filter (p : Plan) (input : List UInt8) :
    (p.filter input).kept.toList = (lines input).filterMap fun l => (p.outcome 0 l).text? := by
  have h := congrArg (List.filterMap id)
    (map_outcomes Outcome.text? (fun _ _ => Outcome.text?_shift) p 1 (lines input))
  simp only [List.filterMap_map, Function.id_comp] at h
  rw [toList_kept_filter, h]

theorem tally_filter_eq_sum (p : Plan) (input : List UInt8) :
    (p.filter input).tally = ((lines input).map fun l => (p.outcome 0 l).tally).sum := by
  rw [tally_filter, map_outcomes Outcome.tally fun _ _ => Outcome.tally_shift]

theorem text?_outcome_and (hl : newline ∉ bytes) :
    ((choosing (.logical .and P Q)).outcome 0 bytes).text? =
      ((choosing P).outcome 0 bytes).text?.bind fun text =>
        ((choosing Q).outcome 0 (Text.encode text.toList)).text? := by
  rw [outcome_and hl]
  cases (choosing P).outcome 0 bytes <;> rfl

theorem result_and_eq_true_iff (v : View) :
    ((Expr.logical .and P Q).evalTruth v).result = .ok true ↔
      (P.evalTruth v).result = .ok true ∧ (Q.evalTruth v).result = .ok true := by
  rw [result_and, bind_eq_ok_iff]
  constructor
  · rintro ⟨keep, hP, hQ⟩
    cases keep with
    | false => cases hQ
    | true => exact ⟨hP, hQ⟩
  · rintro ⟨hP, hQ⟩
    exact ⟨true, hP, hQ⟩

theorem kept_congr (input : List UInt8) (h : ∀ v : View,
    (P.evalTruth v).result = .ok true ↔ (Q.evalTruth v).result = .ok true) :
    ((choosing P).filter input).kept = ((choosing Q).filter input).kept := by
  rw [← Array.toList_inj, kept_filter, kept_filter]
  refine List.filterMap_congr fun l _ => Option.ext fun text => ?_
  simp only [Outcome.text?_eq_some_iff, outcome_choosing_eq_kept_iff, h]

def filterTwice (P Q : Expr) (input : List UInt8) : Report :=
  (choosing Q).filter (Text.encode ((choosing P).filter input).output)

theorem lines_filterTwice (P : Expr) (input : List UInt8) :
    lines (Text.encode ((choosing P).filter input).output) =
      ((lines input).filterMap fun l => ((choosing P).outcome 0 l).text?).map fun text =>
        Text.encode text.toList := by
  rw [Report.encode_output, lines_unlines fun _ ht => (isLine_of_mem_kept ht).isSingleLine,
    kept_filter]

theorem kept_filterTwice (P Q : Expr) (input : List UInt8) :
    (filterTwice P Q input).kept = ((choosing (.logical .and P Q)).filter input).kept := by
  rw [← Array.toList_inj, filterTwice, kept_filter, kept_filter, lines_filterTwice,
    List.filterMap_map, List.filterMap_filterMap]
  exact List.filterMap_congr fun l hl =>
    (text?_outcome_and (newline_not_mem_of_mem_lines hl)).symm

theorem outcome_ne_blank (h : IsLine text) :
    p.outcome number (Text.encode text.toList) ≠ .blank := by
  have hb : text.toList.all Text.isBlank = false := by simpa using h.not_blank
  simp only [outcome, h.stripReturn_eq, Text.decode_encode, hb]
  cases p.filterLine number (String.ofList text.toList) with
  | error f => simp
  | ok t => cases t <;> simp

theorem fuses_of_not_kept (hl : newline ∉ bytes)
    (h : ((choosing P).outcome 0 bytes).text? = none) :
    Tally.Fuses ((choosing P).outcome 0 bytes).tally 0
      ((choosing (.logical .and P Q)).outcome 0 bytes).tally := by
  rw [outcome_and hl]
  cases ho : (choosing P).outcome 0 bytes with
  | kept text => simp [ho, Outcome.text?] at h
  | blank => exact ⟨rfl, rfl, rfl, rfl⟩
  | dropped => exact ⟨rfl, rfl, rfl, rfl⟩
  | failed f => exact ⟨rfl, rfl, rfl, rfl⟩

theorem fuses_of_kept (hl : newline ∉ bytes)
    (h : (choosing P).outcome 0 bytes = .kept text) :
    Tally.Fuses ((choosing P).outcome 0 bytes).tally
      ((choosing Q).outcome 0 (Text.encode text.toList)).tally
      ((choosing (.logical .and P Q)).outcome 0 bytes).tally := by
  have hb : (choosing Q).outcome 0 (Text.encode text.toList) ≠ .blank :=
    outcome_ne_blank (isLine_of_kept hl h)
  have hc : (choosing (.logical .and P Q)).outcome 0 bytes =
      (choosing Q).outcome 0 (Text.encode text.toList) := by
    rw [outcome_and hl, h]
  rw [h, hc]
  cases ho : (choosing Q).outcome 0 (Text.encode text.toList) with
  | blank => exact absurd ho hb
  | kept t => exact ⟨rfl, rfl, rfl, rfl⟩
  | dropped => exact ⟨rfl, rfl, rfl, rfl⟩
  | failed f => exact ⟨rfl, rfl, rfl, rfl⟩

theorem fuses_lines {ls : List (List UInt8)} (hl : ∀ l ∈ ls, newline ∉ l) :
    Tally.Fuses (ls.map fun l => ((choosing P).outcome 0 l).tally).sum
      (((ls.filterMap fun l => ((choosing P).outcome 0 l).text?).map fun text =>
        ((choosing Q).outcome 0 (Text.encode text.toList)).tally).sum)
      (ls.map fun l => ((choosing (.logical .and P Q)).outcome 0 l).tally).sum := by
  induction ls with
  | nil => exact .zero
  | cons l ls ih =>
    rw [List.forall_mem_cons] at hl
    have ih := ih hl.2
    simp only [List.map_cons, List.sum_cons]
    cases ht : ((choosing P).outcome 0 l).text? with
    | none =>
      simp only [List.filterMap_cons, ht]
      simpa only [Tally.zero_add] using (fuses_of_not_kept hl.1 ht).add ih
    | some text =>
      simp only [List.filterMap_cons, ht, List.map_cons, List.sum_cons]
      exact (fuses_of_kept hl.1 (Outcome.text?_eq_some_iff.mp ht)).add ih

theorem tally_filterTwice (P Q : Expr) (input : List UInt8) :
    Tally.Fuses ((choosing P).filter input).tally (filterTwice P Q input).tally
      ((choosing (.logical .and P Q)).filter input).tally := by
  have h := fuses_lines (P := P) (Q := Q) fun l (hl : l ∈ lines input) =>
    newline_not_mem_of_mem_lines hl
  rwa [filterTwice, tally_filter_eq_sum, tally_filter_eq_sum (choosing Q), lines_filterTwice,
    List.map_map, tally_filter_eq_sum]

/-- Filtering in two steps is filtering by the conjunction, in either order; by one condition twice,
the second step keeps everything. -/
theorem filterTwice_eq_filter_and (P Q : Expr) (input : List UInt8) :
    (filterTwice P Q input).output = ((choosing (.logical .and P Q)).filter input).output ∧
      Tally.Fuses ((choosing P).filter input).tally (filterTwice P Q input).tally
        ((choosing (.logical .and P Q)).filter input).tally ∧
      ((choosing (.logical .and Q P)).filter input).output =
        ((choosing (.logical .and P Q)).filter input).output ∧
      (filterTwice P P input).output = ((choosing P).filter input).output ∧
      (filterTwice P P input).tally.dropped = 0 ∧ (filterTwice P P input).tally.failed = 0 := by
  have hs : (filterTwice P P input).kept = ((choosing P).filter input).kept := by
    rw [kept_filterTwice]
    exact kept_congr input fun v => by rw [result_and_eq_true_iff, and_self]
  have hf := tally_filterTwice P P input
  have hc : (filterTwice P P input).Counted := counted_filter _ _
  have hk : (filterTwice P P input).tally.kept = ((choosing P).filter input).tally.kept := by
    rw [hc.kept, hs, (counted_filter _ _).kept]
  -- as many records are kept as are read, so none is left to be dropped or to fail
  have hr := hc.read
  rw [hf.read] at hr
  refine ⟨Report.output_congr (kept_filterTwice P Q input), tally_filterTwice P Q input,
    Report.output_congr (kept_congr input fun v => ?_), Report.output_congr hs, by omega, by omega⟩
  rw [result_and_eq_true_iff, result_and_eq_true_iff, and_comm]

-- one line is kept by both conditions, one by the first only, one by none, and one is no record
example :
    let P : Expr := .compare .greater (.field "a") (.number (.ofInt 1))
    let Q : Expr := .compare .less (.field "a") (.number (.ofInt 5))
    let input := Text.encode
      "\x7b\"a\":2\x7d\n\x7b\"a\":7\x7d\n\x7b\"a\":0\x7d\n\x7b\n".toList
    (filterTwice P Q input).output = "\x7b\"a\":2\x7d\n".toList ∧
      ((choosing (.logical .and P Q)).filter input).output = "\x7b\"a\":2\x7d\n".toList ∧
      ((choosing P).filter input).tally = ⟨4, 2, 1, 1⟩ ∧
      (filterTwice P Q input).tally = ⟨2, 1, 1, 0⟩ ∧
      ((choosing (.logical .and P Q)).filter input).tally = ⟨4, 1, 2, 1⟩ := by
  decide +kernel

end Plan

end RecordSieve
