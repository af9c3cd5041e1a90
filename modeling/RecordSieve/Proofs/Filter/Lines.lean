import Mathlib.Data.List.Forall2
import Mathlib.Data.List.TakeWhile
import RecordSieve.Filter
import RecordSieve.Proofs.Results
import RecordSieve.Proofs.Text.Utf8

/-! # Filtering line by line

An input is its lines, and filtering it is nothing but taking together what becomes of them: the
outputs and the errors one after the other, and the tallies as a sum. Of an input in two parts, the
second is filtered as if it stood alone, but for the numbers of its lines.
-/

namespace RecordSieve

namespace Tally

instance : Zero Tally := ⟨zero⟩

theorem add_def (a b : Tally) : a + b =
    ⟨a.read + b.read, a.kept + b.kept, a.dropped + b.dropped, a.failed + b.failed⟩ := rfl

theorem zero_def : (0 : Tally) = ⟨0, 0, 0, 0⟩ := rfl

theorem zero_add (a : Tally) : 0 + a = a := by
  simp [add_def, zero_def]

theorem add_zero (a : Tally) : a + 0 = a := by
  simp [add_def, zero_def]

theorem add_assoc (a b c : Tally) : a + b + c = a + (b + c) := by
  simp [add_def, Nat.add_assoc]

instance : Std.Associative (α := Tally) (· + ·) := ⟨add_assoc⟩

instance : Std.LawfulLeftIdentity (α := Tally) (· + ·) 0 where
  left_id := zero_add

end Tally

def Failure.shift (k : Nat) (f : Failure) : Failure := { f with line := f.line + k }

def Outcome.shift (k : Nat) : Outcome → Outcome
  | .failed f => .failed (f.shift k)
  | o => o

def Report.shift (k : Nat) (r : Report) : Report :=
  { r with failures := r.failures.map (Failure.shift k) }

variable {p : Plan} {r : Report} {o : Outcome} {os : List Outcome} {number k : Nat}
  {line input a b : List UInt8} {ls : List (List UInt8)}

namespace Outcome

@[simp] theorem output_shift : (o.shift k).output = o.output := by
  cases o <;> rfl

@[simp] theorem tally_shift : (o.shift k).tally = o.tally := by
  cases o <;> rfl

end Outcome

namespace Report

theorem output_push (r : Report) (o : Outcome) : (r.push o).output = r.output ++ o.output := by
  cases o <;> simp [push, countRead, output, Outcome.output]

theorem errors_push (r : Report) (o : Outcome) : (r.push o).errors = r.errors ++ o.errors := by
  cases o <;> simp [push, countRead, errors, Outcome.errors]

theorem tally_push (r : Report) (o : Outcome) : (r.push o).tally = r.tally + o.tally := by
  cases o <;> simp [push, countRead, Outcome.tally, Tally.zero, Tally.add_def]

theorem shift_empty : empty.shift k = empty := by
  simp [shift, empty]

theorem shift_push (r : Report) (o : Outcome) :
    (r.push o).shift k = (r.shift k).push (o.shift k) := by
  cases o <;> simp [push, countRead, shift, Outcome.shift]

/-- The counters tell what the report holds: each line that was read was kept, dropped or failed. -/
structure Counted (r : Report) : Prop where
  read : r.tally.read = r.tally.kept + r.tally.dropped + r.tally.failed
  kept : r.tally.kept = r.kept.size
  failed : r.tally.failed = r.failures.size

theorem counted_empty : empty.Counted := ⟨rfl, rfl, rfl⟩

theorem Counted.push (h : r.Counted) (o : Outcome) : (r.push o).Counted := by
  have hr := h.read
  have hk := h.kept
  have hf := h.failed
  cases o with
  | blank => exact h
  | kept text => exact ⟨by simp [Report.push, countRead]; omega, by simp [Report.push, hk], hf⟩
  | dropped => exact ⟨by simp [Report.push, countRead]; omega, hk, hf⟩
  | failed f => exact ⟨by simp [Report.push, countRead]; omega, hk, by simp [Report.push, hf]⟩

theorem Counted.foldl_push (h : r.Counted) (os : List Outcome) :
    (os.foldl Report.push r).Counted := by
  induction os generalizing r with
  | nil => exact h
  | cons o os ih => exact ih (h.push o)

/-- What each outcome adds at the end of a list, a run of them adds in turn. -/
theorem append_foldl_push {β : Type} {f : Report → List β} {g : Outcome → List β}
    (h : ∀ r o, f (r.push o) = f r ++ g o) (os : List Outcome) (r : Report) :
    f (os.foldl push r) = f r ++ os.flatMap g := by
  induction os generalizing r with
  | nil => simp
  | cons o os ih => simp [ih, h]

theorem tally_foldl_push (os : List Outcome) (r : Report) :
    (os.foldl push r).tally = r.tally + (os.map Outcome.tally).sum := by
  induction os generalizing r with
  | nil => simp [Tally.add_zero]
  | cons o os ih => simp [ih, tally_push, Tally.add_assoc]

theorem shift_foldl_push (os : List Outcome) (r : Report) :
    (os.foldl push r).shift k = (os.map (Outcome.shift k)).foldl push (r.shift k) := by
  induction os generalizing r with
  | nil => rfl
  | cons o os ih => simp [ih, shift_push]

end Report

namespace Plan

/-- The lines of an input: what stands between newlines, without an empty piece at the end. -/
def lines (input : List UInt8) : List (List UInt8) :=
  let pieces := input.splitOn newline
  if pieces.getLast? = some [] then pieces.dropLast else pieces

theorem lines_of_not_mem (hl : newline ∉ line) (hn : line ≠ []) : lines line = [line] := by
  simp [lines, List.splitOn_eq_singleton hl, hn]

@[simp] theorem lines_nil : lines [] = [] := rfl

theorem lines_append_newline (hl : newline ∉ line) :
    lines (line ++ newline :: input) = line :: lines input := by
  obtain ⟨piece, pieces, hp⟩ := List.exists_cons_of_ne_nil (List.splitOn_ne_nil newline input)
  simp only [lines, List.splitOn_append_cons_self_of_not_mem hl, hp, List.getLast?_cons_cons,
    List.dropLast_cons_of_ne_nil (List.cons_ne_nil piece pieces)]
  split <;> rfl

/-- An input is empty, or one line that is not ended, or a line and more after its newline. -/
@[elab_as_elim]
theorem line_induction {motive : List UInt8 → Prop} (nil : motive [])
    (unended : ∀ line, newline ∉ line → line ≠ [] → motive line)
    (ended : ∀ line rest, newline ∉ line → motive rest → motive (line ++ newline :: rest))
    (input : List UInt8) : motive input := by
  induction hn : input.length using Nat.strongRecOn generalizing input with
  | ind n ih =>
  subst hn
  by_cases hm : newline ∈ input
  · obtain ⟨line, rest, rfl, hl⟩ := List.eq_append_cons_of_mem hm
    exact ended line rest hl (ih rest.length (by simp; omega) rest rfl)
  · by_cases hn : input = []
    · exact hn ▸ nil
    · exact unended input hm hn

theorem newline_not_mem_of_mem_lines (h : line ∈ lines input) : newline ∉ line := by
  induction input using line_induction with
  | nil => simp at h
  | unended input hm hn =>
    rw [lines_of_not_mem hm hn, List.mem_singleton] at h
    exact h ▸ hm
  | ended first rest hl ih =>
    rw [lines_append_newline hl] at h
    rcases List.mem_cons.mp h with rfl | h
    · exact hl
    · exact ih h

theorem ends_rest (h : line ++ newline :: b = [] ∨ (line ++ newline :: b).getLast? = some newline) :
    b = [] ∨ b.getLast? = some newline := by
  cases b with
  | nil => exact .inl rfl
  | cons c b => simpa using h

/-- Lines that end where the input is cut are the lines of its two parts. -/
theorem lines_append (h : a = [] ∨ a.getLast? = some newline) :
    lines (a ++ b) = lines a ++ lines b := by
  induction a using line_induction with
  | nil => rfl
  | unended a hm hn => exact absurd (List.mem_of_getLast? (h.resolve_left hn)) hm
  | ended line rest hl ih =>
    rw [List.append_assoc, List.cons_append, lines_append_newline hl, lines_append_newline hl,
      List.cons_append, ih (ends_rest h)]

theorem length_lines (h : a = [] ∨ a.getLast? = some newline) :
    (lines a).length = a.count newline := by
  induction a using line_induction with
  | nil => rfl
  | unended a hm hn => exact absurd (List.mem_of_getLast? (h.resolve_left hn)) hm
  | ended line rest hl ih =>
    rw [lines_append_newline hl, List.length_cons, ih (ends_rest h), List.count_append,
      List.count_eq_zero_of_not_mem hl, List.count_cons_self, Nat.zero_add]

def outcomes (p : Plan) (number : Nat) (ls : List (List UInt8)) : List Outcome :=
  (ls.zipIdx number).map fun line => p.outcome line.2 line.1

theorem splitLine_of_not_mem (hm : newline ∉ input) : splitLine input = (input, []) := by
  have hp : ∀ b ∈ input, decide (b ≠ newline) := fun b hb => decide_eq_true fun he => hm (he ▸ hb)
  unfold splitLine
  rw [List.takeWhile_eq_self_iff.mpr hp, List.dropWhile_eq_nil_iff.mpr hp, List.drop_nil]

theorem splitLine_append_newline (hl : newline ∉ line) :
    splitLine (line ++ newline :: input) = (line, input) := by
  have hp : ∀ b ∈ line, decide (b ≠ newline) := fun b hb => decide_eq_true fun he => hl (he ▸ hb)
  unfold splitLine
  rw [List.takeWhile_append_of_pos hp, List.dropWhile_append_of_pos hp]
  simp

theorem filterFrom_eq (hn : input ≠ []) : p.filterFrom number r input =
    p.filterFrom (number + 1) (r.push (p.outcome number (splitLine input).1))
      (splitLine input).2 := by
  obtain ⟨b, rest, rfl⟩ := List.exists_cons_of_ne_nil hn
  rw [filterFrom]

/-- Filtering adds what becomes of the lines, one after the other. -/
theorem filterFrom_eq_foldl (p : Plan) (number : Nat) (r : Report) (input : List UInt8) :
    p.filterFrom number r input = (p.outcomes number (lines input)).foldl Report.push r := by
  induction input using line_induction generalizing number r with
  | nil =>
    rw [filterFrom]
    rfl
  | unended input hm hn =>
    rw [filterFrom_eq hn, splitLine_of_not_mem hm, filterFrom, lines_of_not_mem hm hn]
    rfl
  | ended line rest hl ih =>
    rw [filterFrom_eq (by simp), splitLine_append_newline hl, lines_append_newline hl, ih]
    rfl

theorem filterLine_add (p : Plan) (number k : Nat) (line : String) :
    p.filterLine (number + k) line = (p.filterLine number line).mapError (Failure.shift k) := by
  unfold filterLine
  cases Record.read line with
  | error e => rfl
  | ok r =>
    simp only [Except.mapError, bind, Except.bind]
    cases p.keeps r with
    | error e => rfl
    | ok keep =>
      cases keep with
      | false => rfl
      | true => cases p.emit r <;> rfl

theorem outcome_add (p : Plan) (number k : Nat) (line : List UInt8) :
    p.outcome (number + k) line = (p.outcome number line).shift k := by
  unfold outcome
  cases Text.decode (stripReturn line) with
  | error e => rfl
  | ok s =>
    simp only [filterLine_add]
    split
    · rfl
    · cases p.filterLine number (String.ofList s) with
      | error f => rfl
      | ok t => cases t <;> rfl

theorem outcomes_append (ls ms : List (List UInt8)) :
    p.outcomes number (ls ++ ms) = p.outcomes number ls ++ p.outcomes (number + ls.length) ms := by
  simp [outcomes, List.zipIdx_append]

theorem outcomes_add (ls : List (List UInt8)) :
    p.outcomes (number + k) ls = (p.outcomes number ls).map (Outcome.shift k) := by
  rw [outcomes, Nat.add_comm, ← List.map_snd_add_zipIdx_eq_zipIdx]
  simp [outcomes, outcome_add]

/-- What a line becomes, read off the text that it encodes. -/
inductive Becomes (p : Plan) (number : Nat) (line : List UInt8) : Outcome → Prop
  | malformed {e : Text.Malformed} : (∀ s, Text.encode s ≠ stripReturn line) →
      Text.decode (stripReturn line) = .error e → Becomes p number line (.failed ⟨number, .utf8 e⟩)
  | blank {s : List Char} : Text.encode s = stripReturn line → (∀ c ∈ s, Text.isBlank c) →
      Becomes p number line .blank
  | kept {s : List Char} {text : String} : Text.encode s = stripReturn line →
      (∃ c ∈ s, ¬ Text.isBlank c) → p.filterLine number (String.ofList s) = .ok (some text) →
      Becomes p number line (.kept text)
  | dropped {s : List Char} : Text.encode s = stripReturn line → (∃ c ∈ s, ¬ Text.isBlank c) →
      p.filterLine number (String.ofList s) = .ok none → Becomes p number line .dropped
  | failed {s : List Char} {f : Failure} : Text.encode s = stripReturn line →
      (∃ c ∈ s, ¬ Text.isBlank c) → p.filterLine number (String.ofList s) = .error f →
      Becomes p number line (.failed f)

theorem becomes_outcome (p : Plan) (number : Nat) (line : List UInt8) :
    p.Becomes number line (p.outcome number line) := by
  unfold outcome
  cases hd : Text.decode (stripReturn line) with
  | error e =>
    refine .malformed (fun s hs => ?_) hd
    rw [Text.decode_eq_ok_iff.mpr hs] at hd
    cases hd
  | ok s =>
    have he := Text.decode_eq_ok_iff.mp hd
    by_cases hb : s.all Text.isBlank
    · simpa only [hb, if_true] using .blank he (List.all_eq_true.mp hb)
    · have hc : ∃ c ∈ s, ¬ Text.isBlank c := by simpa using hb
      simp only [hb]
      cases hf : p.filterLine number (String.ofList s) with
      | error f => exact .failed he hc hf
      | ok t =>
        cases t with
        | none => exact .dropped he hc hf
        | some text => exact .kept he hc hf

/-- A line becomes one thing only, which its number and its bytes decide. -/
theorem becomes_iff : p.Becomes number line o ↔ p.outcome number line = o := by
  constructor
  · intro h
    have all_isBlank {s : List Char} (hc : ∃ c ∈ s, ¬ Text.isBlank c) :
        s.all Text.isBlank = false := by simpa using hc
    cases h with
    | malformed _ hd => simp only [outcome, hd]
    | blank he hb => simp [outcome, Text.decode_eq_ok_iff.mpr he, List.all_eq_true.mpr hb]
    | kept he hc hf => simp [outcome, Text.decode_eq_ok_iff.mpr he, all_isBlank hc, hf]
    | dropped he hc hf => simp [outcome, Text.decode_eq_ok_iff.mpr he, all_isBlank hc, hf]
    | failed he hc hf => simp [outcome, Text.decode_eq_ok_iff.mpr he, all_isBlank hc, hf]
  · rintro rfl
    exact becomes_outcome p number line

theorem forall₂_becomes_iff :
    List.Forall₂ (fun l o => p.Becomes l.2 l.1 o) (ls.zipIdx number) os ↔
      os = p.outcomes number ls := by
  simp only [becomes_iff, outcomes]
  rw [← List.forall₂_map_left_iff (f := fun l : List UInt8 × Nat => p.outcome l.2 l.1) (R := Eq),
    List.forall₂_eq_eq_eq, eq_comm]

theorem filter_eq_foldl (p : Plan) (input : List UInt8) :
    p.filter input = (p.outcomes 1 (lines input)).foldl Report.push .empty :=
  filterFrom_eq_foldl p 1 .empty input

theorem output_filter (p : Plan) (input : List UInt8) :
    (p.filter input).output = (p.outcomes 1 (lines input)).flatMap Outcome.output := by
  rw [filter_eq_foldl, Report.append_foldl_push Report.output_push]
  rfl

theorem errors_filter (p : Plan) (input : List UInt8) :
    (p.filter input).errors = (p.outcomes 1 (lines input)).flatMap Outcome.errors := by
  rw [filter_eq_foldl, Report.append_foldl_push Report.errors_push]
  rfl

theorem tally_filter (p : Plan) (input : List UInt8) :
    (p.filter input).tally = ((p.outcomes 1 (lines input)).map Outcome.tally).sum := by
  rw [filter_eq_foldl, Report.tally_foldl_push]
  exact Tally.zero_add _

theorem counted_filter (p : Plan) (input : List UInt8) : (p.filter input).Counted := by
  rw [filter_eq_foldl]
  exact Report.counted_empty.foldl_push _

theorem shift_filter (p : Plan) (k : Nat) (input : List UInt8) :
    (p.filter input).shift k = (p.outcomes (1 + k) (lines input)).foldl Report.push .empty := by
  rw [filter_eq_foldl, Report.shift_foldl_push, Report.shift_empty, outcomes_add]

theorem outcomes_lines_append (h : a = [] ∨ a.getLast? = some newline) :
    p.outcomes 1 (lines (a ++ b)) =
      p.outcomes 1 (lines a) ++ p.outcomes (1 + a.count newline) (lines b) := by
  rw [lines_append h, outcomes_append, length_lines h]

/-- What becomes of an input is what becomes of its lines, each by itself: the output and the
errors in the order of the lines, and the counts. Where an input is cut after a newline, its parts
are filtered apart; only the numbers of the failures go on. -/
theorem filter_linewise (p : Plan) :
    (∀ input, ∃ os : List Outcome,
      (∀ os', List.Forall₂ (fun l o => p.Becomes l.2 l.1 o) ((lines input).zipIdx 1) os' ↔
        os' = os) ∧
      (p.filter input).output = os.flatMap (fun
        | .kept text => text.toList ++ ['\n']
        | _ => []) ∧
      (p.filter input).errors = os.flatMap (fun
        | .failed f => ("check line error: " ++ f.message).toList ++ ['\n']
        | _ => []) ∧
      (p.filter input).tally = (os.map Outcome.tally).sum ∧
      (p.filter input).tally.read = (p.filter input).tally.kept + (p.filter input).tally.dropped +
        (p.filter input).tally.failed) ∧
    ∀ a b, a = [] ∨ a.getLast? = some newline →
      (p.filter (a ++ b)).output = (p.filter a).output ++ (p.filter b).output ∧
      (p.filter (a ++ b)).tally = (p.filter a).tally + (p.filter b).tally ∧
      (p.filter (a ++ b)).errors =
        (p.filter a).errors ++ ((p.filter b).shift (a.count newline)).errors := by
  constructor
  · intro input
    exact ⟨_, fun _ => forall₂_becomes_iff, output_filter p input, errors_filter p input,
      tally_filter p input, (counted_filter p input).read⟩
  · intro a b h
    refine ⟨?_, ?_, ?_⟩
    · rw [output_filter, outcomes_lines_append h, List.flatMap_append, outcomes_add,
        List.flatMap_map, output_filter, output_filter]
      simp only [Outcome.output_shift]
    · rw [tally_filter, outcomes_lines_append h, List.map_append, List.sum_append, outcomes_add,
        List.map_map, tally_filter, tally_filter]
      simp only [Function.comp_def, Outcome.tally_shift]
    · rw [errors_filter, outcomes_lines_append h, List.flatMap_append, errors_filter,
        shift_filter, Report.append_foldl_push Report.errors_push]
      rfl

/-- The first part ends in a carriage return, a newline and a blank line; the second is a byte that
begins no character and has no newline after it. -/
theorem filter_linewise_crlf :
    ([110, 117, 108, 108, 13, 10, 32, 10] : List UInt8).getLast? = some newline ∧
      (Plan.filter ⟨["*"], .always⟩ ([110, 117, 108, 108, 13, 10, 32, 10] ++ [255])).output =
        (Plan.filter ⟨["*"], .always⟩ [110, 117, 108, 108, 13, 10, 32, 10]).output ++
          (Plan.filter ⟨["*"], .always⟩ [255]).output ∧
      (Plan.filter ⟨["*"], .always⟩ ([110, 117, 108, 108, 13, 10, 32, 10] ++ [255])).tally =
        (Plan.filter ⟨["*"], .always⟩ [110, 117, 108, 108, 13, 10, 32, 10]).tally +
          (Plan.filter ⟨["*"], .always⟩ [255]).tally ∧
      (Plan.filter ⟨["*"], .always⟩ ([110, 117, 108, 108, 13, 10, 32, 10] ++ [255])).errors =
        (Plan.filter ⟨["*"], .always⟩ [110, 117, 108, 108, 13, 10, 32, 10]).errors ++
          ((Plan.filter ⟨["*"], .always⟩ [255]).shift 2).errors :=
  ⟨rfl, (filter_linewise ⟨["*"], .always⟩).2 [110, 117, 108, 108, 13, 10, 32, 10] [255] (.inr rfl)⟩

end Plan

end RecordSieve
