import RecordSieve.Command
import RecordSieve.Proofs.Query
import RecordSieve.Proofs.Store

/-! # Before filtering

A command that ends before it filters has only read, and leaves every file as it was. There is one
exception: the file for errors is opened last, and if it cannot be opened, the output has been
created, and emptied if it was there.
-/

namespace RecordSieve.Command

variable {o : Options} {stdin : List UInt8} {s t u : Store} {p : Plan} {q : String} {e : Error}
  {r : Result} {places : List Place} {place : Place} {path log : String} {w : Option Writer}
  {errors : Option Place}

namespace Options

def Compiles (o : Options) (s : Store) (p : Plan) : Prop :=
  ∃ q, o.queryText s = .ok q ∧ Plan.ofText q = .ok p

/-- Inputs are to be filtered, and all that is only read is found. -/
structure Prepared (o : Options) (s : Store) (p : Plan) (places : List Place) : Prop where
  compiles : o.Compiles s p
  filters : o.syntaxOnly = false
  inputs : inputPlaces s o.inputs = .ok places

/-- How a command ends, by the step that ends it. -/
inductive Ends (o : Options) (stdin : List UInt8) (s : Store) : Result → Prop
  | noQuery {e : Error} : o.queryText s = .error e → Ends o stdin s ⟨.error e, s, [], []⟩
  | noPlan {q : String} {e : QueryError} : o.queryText s = .ok q → Plan.ofText q = .error e →
      Ends o stdin s ⟨.error (.query e), s, [], []⟩
  | checked {p : Plan} : o.Compiles s p → o.syntaxOnly → Ends o stdin s ⟨.ok .valid, s, [], []⟩
  | noInput {p : Plan} {e : Error} : o.Compiles s p → o.syntaxOnly = false →
      inputPlaces s o.inputs = .error e → Ends o stdin s ⟨.error e, s, [], []⟩
  | noOutput {p : Plan} {places : List Place} {e : Error} : o.Prepared s p places →
      freshOutput s o.output = .error e → Ends o stdin s ⟨.error e, s, [], []⟩
  | noErrors {p : Plan} {places : List Place} {t : Store} {w : Option Writer} {e : Error} :
      o.Prepared s p places → freshOutput s o.output = .ok (t, w) →
      errorLog t o.errorOutput = .error e → Ends o stdin s ⟨.error e, t, [], []⟩
  | filtered {p : Plan} {places : List Place} {t u : Store} {w : Option Writer}
      {errors : Option Place} : o.Prepared s p places → freshOutput s o.output = .ok (t, w) →
      errorLog t o.errorOutput = .ok (u, errors) →
      Ends o stdin s (filterAll p places stdin ⟨u, w, errors, #[], #[], .zero⟩)

theorem ends_run (o : Options) (stdin : List UInt8) (s : Store) :
    o.Ends stdin s (o.run stdin s) := by
  unfold run
  cases hq : o.queryText s with
  | error e => exact .noQuery hq
  | ok q =>
    cases hp : Plan.ofText q with
    | error e => simpa [hp] using .noPlan hq hp
    | ok p =>
      have hc : o.Compiles s p := ⟨q, hq, hp⟩
      cases hv : o.syntaxOnly with
      | true => simpa [hp] using .checked hc hv
      | false =>
        cases hi : inputPlaces s o.inputs with
        | error e => simpa [hp] using .noInput hc hv hi
        | ok places =>
          have h : o.Prepared s p places := ⟨hc, hv, hi⟩
          cases hf : freshOutput s o.output with
          | error e => simpa [hp] using .noOutput h hf
          | ok v =>
            obtain ⟨t, w⟩ := v
            cases hl : errorLog t o.errorOutput with
            | error e => simpa [hp, hl] using .noErrors h hf hl
            | ok v =>
              obtain ⟨u, errors⟩ := v
              simpa [hp, hl] using .filtered h hf hl

theorem Prepared.run_eq (h : o.Prepared s p places) (hf : freshOutput s o.output = .ok (t, w))
    (hl : errorLog t o.errorOutput = .ok (u, errors)) (stdin : List UInt8) :
    o.run stdin s = filterAll p places stdin ⟨u, w, errors, #[], #[], .zero⟩ := by
  obtain ⟨⟨q, hq, hp⟩, hv, hi⟩ := h
  simp [run, hq, hp, hv, hi, hf, hl]

end Options

open Token in
theorem ofText_passAll : Plan.ofText passAll = .ok ⟨[wholeRecord], .always⟩ := by
  have word {w : String} (hw : w ∈ ["select", "from", "t"]) : Writes w.toList [keyword w] := by
    simp only [List.mem_cons, List.not_mem_nil, or_false] at hw
    rcases hw with rfl | rfl | rfl <;> exact writes_keyword (by decide) (by decide) rfl
  have hfrom := ((word (w := "from") (by simp)).append_blank (word (w := "t") (by simp))).written
  have hs : Token.ofText passAll = .ok [keyword "select", ⟨.word, wholeRecord⟩, keyword "from",
      keyword theTable] := by
    have hw := word (w := "select") (by simp) (ends_blank _) (.blank rfl (.star (s := ' ' :: _)
      (by simp [Text.isBlank]) (.blank rfl hfrom)))
    exact hw.scan_eq
  rw [Plan.ofText, hs]
  rfl

theorem freshOutput_eq_ok_iff {output : Option String} :
    freshOutput s output = .ok (t, w) ↔ (output = none ∧ t = s ∧ w = none) ∨
      ∃ path place, output = some path ∧ s.locateFile path = .ok place ∧
        t = s.put place (.file []) ∧ w = some ⟨place, 0, #[]⟩ := by
  cases output with
  | none => simp [freshOutput, eq_comm]
  | some path =>
    cases hl : s.locateFile path with
    | error e => simp [freshOutput, Store.create, hl, bind, Except.bind]
    | ok place =>
      simp [freshOutput, Store.create, hl, bind, Except.bind, pure, Except.pure, eq_comm]

theorem freshOutput_of_locateFile (ho : o.output = some path) (hp : s.locateFile path = .ok place) :
    freshOutput s o.output = .ok (s.put place (.file []), some ⟨place, 0, #[]⟩) :=
  freshOutput_eq_ok_iff.mpr (.inr ⟨path, place, ho, hp, rfl, rfl⟩)

theorem errorLog_eq_error_iff {output : Option String} : errorLog s output = .error e ↔
    ∃ log f, output = some log ∧ s.locateFile log = .error f ∧ e = .unopened log f := by
  cases output with
  | none => simp [errorLog]
  | some log =>
    cases hl : s.locateFile log with
    | error f => simp [errorLog, Store.openAppend, hl, bind, Except.bind, eq_comm]
    | ok place => simp [errorLog, Store.openAppend, hl, bind, Except.bind, pure, Except.pure]

/-- The command has checked the query only, or the query is at fault, or a file that cannot be
opened. -/
def Result.IsUnfiltered (r : Result) : Prop :=
  match r.outcome with
  | .ok .valid | .error (.query _) | .error (.unopened _ _) => True
  | _ => False

/-- All opens but the file for errors, once the output has been created. -/
structure Options.Blocked (o : Options) (s : Store) (place : Place) (log : String) : Prop where
  prepared : ∃ p places, o.Prepared s p places
  output : ∃ path, o.output = some path ∧ s.locateFile path = .ok place
  errors : o.errorOutput = some log ∧ ∀ q, s.locateFile log ≠ .ok q

theorem not_isUnfiltered_filterAll (p : Plan) (places : List Place) (stdin : List UInt8)
    (s : Session) : ¬ (filterAll p places stdin s).IsUnfiltered := by
  unfold filterAll Result.IsUnfiltered
  generalize s.drainAll p _ = d
  obtain ⟨t, ended⟩ := d
  cases ended <;> simp

/-- Opening the file for errors fails after the output has been created as it did before. -/
theorem Options.blocked_of_ends (h : o.Prepared s p places)
    (hf : freshOutput s o.output = .ok (t, w)) (hl : errorLog t o.errorOutput = .error e) :
    t = s ∨ ∃ place log, o.Blocked s place log := by
  rcases freshOutput_eq_ok_iff.mp hf with ⟨-, rfl, -⟩ | ⟨path, place, ho, hp, rfl, -⟩
  · exact .inl rfl
  · obtain ⟨log, f, he, hlog, -⟩ := errorLog_eq_error_iff.mp hl
    refine .inr ⟨place, log, ⟨⟨p, places, h⟩, ⟨path, ho, hp⟩, he, fun q hq => ?_⟩⟩
    rw [← Store.locateFile_put_eq_ok_iff (Store.writable_of_locateFile hp) []] at hq
    cases hlog.symm.trans hq

theorem Options.Blocked.run_eq (h : o.Blocked s place log) (stdin : List UInt8) :
    ∃ f, o.run stdin s = ⟨.error (.unopened log f), s.put place (.file []), [], []⟩ := by
  obtain ⟨⟨p, places, ⟨q, hq, hp⟩, hv, hi⟩, ⟨path, ho, hplace⟩, he, hlog⟩ := h
  have hf := freshOutput_of_locateFile ho hplace
  have hw := Store.writable_of_locateFile hplace
  cases hl : (s.put place (.file [])).locateFile log with
  | ok q => exact absurd ((Store.locateFile_put_eq_ok_iff hw []).mp hl) (hlog q)
  | error f =>
    have hx : errorLog (s.put place (.file [])) o.errorOutput = .error (.unopened log f) :=
      errorLog_eq_error_iff.mpr ⟨log, f, he, hl, rfl⟩
    exact ⟨f, by simp [Options.run, hq, hp, hv, hi, hf, hx]⟩

/-- A command that ends before it filters changes no file, unless the file for errors cannot be
opened after the output has been. Then the output is empty, and nothing else has changed. -/
theorem run_unfiltered_unchanged (o : Options) (stdin : List UInt8) (s : Store) :
    ((o.run stdin s).IsUnfiltered → (∀ place log, ¬ o.Blocked s place log) →
      ∀ p, (o.run stdin s).store.get? p = s.get? p) ∧
    ∀ place log, o.Blocked s place log →
      (∃ f, (o.run stdin s).outcome = .error (.unopened log f)) ∧
        (o.run stdin s).store.get? place = some (.file []) ∧
        ∀ p, p ≠ place → (o.run stdin s).store.get? p = s.get? p := by
  constructor
  · intro hu hb p
    have h := o.ends_run stdin s
    generalize o.run stdin s = r at hu h
    cases h with
    | noQuery | noPlan | checked | noInput | noOutput => rfl
    | noErrors hp hf hl =>
      rcases Options.blocked_of_ends hp hf hl with rfl | ⟨place, log, h⟩
      · rfl
      · exact absurd h (hb place log)
    | filtered => exact absurd hu (not_isUnfiltered_filterAll _ _ _ _)
  · intro place log h
    obtain ⟨path, -, hp⟩ := h.output
    have hb := (Store.writable_of_locateFile hp).isBase_eq_false
    obtain ⟨f, hr⟩ := h.run_eq stdin
    rw [hr]
    exact ⟨⟨f, rfl⟩, Store.get?_put_self hb, fun p hn => Store.get?_put_ne hn⟩

/-- A missing input after one that is there, and a file for errors that is a directory. -/
theorem run_unfiltered_unchanged_missing :
    let s : Store := ⟨[(["in"], .file [49, 10]), (["out"], .file [50, 10]), (["log"], .directory)]⟩
    let missing : Options := { inputs := ["in", "gone"], output := some "out" }
    let blocked : Options :=
      { inputs := ["in"], output := some "out", errorOutput := some "log" }
    ((missing.run [] s).IsUnfiltered ∧ (∀ place log, ¬ missing.Blocked s place log) ∧
      ∀ p, (missing.run [] s).store.get? p = s.get? p) ∧
    blocked.Blocked s ["out"] "log" ∧
      (∃ f, (blocked.run [] s).outcome = .error (.unopened "log" f)) ∧
      (blocked.run [] s).store.get? ["out"] = some (.file []) ∧
      ∀ p, p ≠ ["out"] → (blocked.run [] s).store.get? p = s.get? p := by
  intro s missing blocked
  have hi : inputPlaces s ["in", "gone"] = .error (.unopened "gone" .missing) := rfl
  have hu : (missing.run [] s).IsUnfiltered := by
    simp [missing, Options.run, Options.queryText, ofText_passAll, hi, Result.IsUnfiltered]
  have hn : ∀ place log, ¬ missing.Blocked s place log := by
    rintro place log ⟨⟨p, places, -, -, hp⟩, -, -⟩
    cases hi.symm.trans hp
  have hl : s.locateFile "log" = .error .isDirectory := rfl
  have hb : blocked.Blocked s ["out"] "log" :=
    ⟨⟨_, [["in"]], ⟨passAll, rfl, ofText_passAll⟩, rfl, rfl⟩, ⟨"out", rfl, rfl⟩, rfl, by simp [hl]⟩
  exact ⟨⟨hu, hn, (run_unfiltered_unchanged missing [] s).1 hu hn⟩, hb,
    (run_unfiltered_unchanged blocked [] s).2 ["out"] "log" hb⟩

/-- The output loses what it held, and the file for errors is a directory. -/
theorem run_unfiltered_empties_output :
    let s : Store := ⟨[(["in"], .file [49, 10]), (["out"], .file [50, 10]), (["log"], .directory)]⟩
    let o : Options := { inputs := ["in"], output := some "out", errorOutput := some "log" }
    (o.run [] s).IsUnfiltered ∧ s.get? ["out"] = some (.file [50, 10]) ∧
      (o.run [] s).store.get? ["out"] = some (.file []) := by
  intro s o
  have hl : s.locateFile "log" = .error .isDirectory := rfl
  have hb : o.Blocked s ["out"] "log" :=
    ⟨⟨_, [["in"]], ⟨passAll, rfl, ofText_passAll⟩, rfl, rfl⟩, ⟨"out", rfl, rfl⟩, rfl, by simp [hl]⟩
  obtain ⟨f, hr⟩ := hb.run_eq []
  rw [hr]
  exact ⟨trivial, rfl, rfl⟩

end RecordSieve.Command
