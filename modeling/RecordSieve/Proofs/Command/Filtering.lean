import RecordSieve.Proofs.Command.Opening
import RecordSieve.Proofs.Session

/-! # Filtering files

The files are filtered in the order in which they are named, as far as the first directory, and
what each of them adds to the output, to the errors and to the counts is what it gives alone. This
holds as long as the output and the errors go to other files. An input that is the output as well
is emptied before it is read.
-/

namespace RecordSieve.Command

variable {o : Options} {stdin : List UInt8} {s t u : Store} {p : Plan} {places : List Place}
  {place outPlace logPlace : Place} {out log : String} {errors : Option Place} {total : Tally}

theorem reports_congr (h : ∀ place ∈ places, t.get? place = s.get? place) :
    p.reports t (places.map .file) = p.reports s (places.map .file) := by
  simp only [Plan.reports, List.map_map]
  exact List.map_congr_left fun place hp => by
    simp [Source.content, Store.content_congr (h place hp)]

theorem takeWhile_isDirectory_congr (h : ∀ place ∈ places, t.get? place = s.get? place) :
    places.takeWhile (fun place => !t.isDirectory place) =
      places.takeWhile fun place => !s.isDirectory place := by
  induction places with
  | nil => rfl
  | cons place places ih =>
    obtain ⟨hp, h⟩ := List.forall_mem_cons.mp h
    simp only [List.takeWhile_cons, Store.isDirectory_congr hp, ih h]

theorem errorLog_eq_ok {output : Option String} (h : errorLog s output = .ok (t, errors)) :
    (∀ q ∈ errors, t.IsFile q ∧ t.content q = s.content q) ∧
      ∀ q, errors ≠ some q → t.get? q = s.get? q := by
  cases output with
  | none =>
    obtain ⟨rfl, rfl⟩ : s = t ∧ none = errors := by simpa [errorLog] using h
    simp
  | some log =>
    cases ha : s.openAppend log with
    | error f => simp [errorLog, ha] at h
    | ok v =>
      obtain ⟨v, q⟩ := v
      obtain ⟨rfl, rfl⟩ : v = t ∧ some q = errors := by simpa [errorLog, ha] using h
      obtain ⟨-, hf, hc, hn⟩ := Store.openAppend_eq_ok ha
      refine ⟨?_, fun r hr => hn r fun he => hr (he ▸ rfl)⟩
      rintro _ ⟨⟩
      exact ⟨hf, hc⟩

theorem inputPlaces_ne_nil {paths : List String} (h : inputPlaces s paths = .ok places)
    (hn : paths ≠ []) : places ≠ [] := by
  cases paths with
  | nil => exact absurd rfl hn
  | cons path paths =>
    simp only [inputPlaces, List.mapM_cons, bind_eq_ok_iff, pure, Except.pure] at h
    obtain ⟨place, -, rest, -, h⟩ := h
    rw [← Except.ok.inj h]
    exact List.cons_ne_nil _ _

theorem sound_opened {output : Option String} (hout : s.locateFile out = .ok outPlace)
    (h : errorLog (s.put outPlace (.file [])) output = .ok (u, errors))
    (ha : errors ≠ some outPlace) :
    let start : Session := ⟨u, some ⟨outPlace, 0, #[]⟩, errors, #[], #[], .zero⟩
    (start.Sound ∧ start.Flushed) ∧ u.get? outPlace = some (.file []) ∧
      (∀ q ∈ errors, start.reported = s.content q) ∧
      ∀ q, q ≠ outPlace → errors ≠ some q → u.get? q = s.get? q := by
  intro start
  obtain ⟨he, hn⟩ := errorLog_eq_ok h
  have hb := (Store.writable_of_locateFile hout).isBase_eq_false
  have hempty : u.get? outPlace = some (.file []) := (hn outPlace ha).trans (Store.get?_put_self hb)
  refine ⟨⟨⟨?_, fun q hq => (he q hq).1, ?_⟩, ?_⟩, hempty, ?_, ?_⟩
  · rintro _ ⟨⟩
    exact ⟨⟨[], hempty⟩, by simp [start, Store.content, hempty]⟩
  · rintro _ ⟨⟩
    exact ha
  · rintro _ ⟨⟩
    rfl
  · rintro q rfl
    have hq : q ≠ outPlace := fun hq => ha (hq ▸ rfl)
    simp [start, Session.reported, (he q rfl).2, Store.content_congr (Store.get?_put_ne hq)]
  · exact fun q hq hne => (hn q hne).trans (Store.get?_put_ne hq)

/-- An input that is the output as well gives nothing if it comes first. Behind it, files that are
not written to add one report after the other to the output, to the errors and to the counts, up to
the first directory among them. -/
theorem run_of_apart {n : Nat} (stdin : List UInt8)
    (h : o.Prepared s p (List.replicate n outPlace ++ places))
    (hn : o.inputs ≠ []) (ho : o.output = some out) (hout : s.locateFile out = .ok outPlace)
    (hlog : errorLog (s.put outPlace (.file [])) o.errorOutput = .ok (u, errors))
    (ha : errors ≠ some outPlace) (hp : outPlace ∉ places) (he : ∀ q ∈ errors, q ∉ places) :
    let files := places.takeWhile fun place => !s.isDirectory place
    let reports := p.reports s (files.map .file)
    let r := o.run stdin s
    r.outcome = (if files = places then .ok (.done (reports.map Report.tally).sum)
      else .error (.halted (.unreadable .isDirectory))) ∧
    r.store.get? outPlace = some (.file (Text.encode (reports.flatMap Report.output))) ∧
    (∀ q ∈ errors, r.store.get? q =
      some (.file (s.content q ++ Text.encode (reports.flatMap Report.errors)))) ∧
    ∀ q, q ≠ outPlace → errors ≠ some q → r.store.get? q = s.get? q := by
  intro files reports r
  let start : Session := ⟨u, some ⟨outPlace, 0, #[]⟩, errors, #[], #[], .zero⟩
  obtain ⟨⟨hs, hf⟩, hempty, hreported, hothers⟩ := sound_opened hout hlog ha
  have hplaces : ∀ place ∈ places, u.get? place = s.get? place := fun place hm =>
    hothers place (fun hq => hp (hq ▸ hm)) fun hq => he place hq hm
  obtain ⟨t, hd, hft, ht⟩ := hs.drainAll_files hf p places (by
    intro place hm hw
    rcases hw with hw | hw
    · obtain rfl : outPlace = place := Option.some.inj hw
      exact hp hm
    · exact he place hw hm)
  have hfiles : ∀ place ∈ files, u.get? place = s.get? place := fun place hm =>
    hplaces place ((List.takeWhile_sublist _).subset hm)
  simp only [takeWhile_isDirectory_congr hplaces] at hd ht
  rw [reports_congr hfiles] at ht
  have hrun : r = filterAll p (List.replicate n outPlace ++ places) stdin start :=
    h.run_eq (freshOutput_of_locateFile ho hout) hlog stdin
  have hdrain : start.drainAll p ((List.replicate n outPlace ++ places).map .file) =
      start.drainAll p (places.map .file) := by
    rw [List.map_append, List.map_replicate]
    exact Session.drainAll_replicate hf (by simp [Store.content, hempty])
      (by simp [Store.isDirectory, hempty]) n _
  rw [hrun, filterAll, if_neg (inputPlaces_ne_nil h.inputs hn), hdrain, hd]
  refine ⟨?_, ?_, ?_, ?_⟩
  · have htally : t.tally = (reports.map Report.tally).sum := ht.tally.trans (Tally.zero_add _)
    by_cases hall : files = places
    · simp [files, hall, htally]
    · simp [files, hall]
  · have hemitted : start.emitted = [] := by simp [start, Session.emitted, Store.content, hempty]
    have hw := ht.sound.get?_output hft ht.output
    rwa [ht.emitted, hemitted, List.nil_append] at hw
  · intro q hq
    have hw := ht.sound.get?_errors (ht.errors.trans hq)
    rwa [ht.reported, hreported q hq] at hw
  · intro q hq hne
    refine (ht.others q ?_).trans (hothers q hq hne)
    rintro (hw | hw)
    · exact hq (Option.some.inj hw).symm
    · exact hne hw

/-- The output and the errors go to two files that are no inputs. -/
structure Options.Apart (o : Options) (s : Store) (places : List Place)
    (outPlace logPlace : Place) : Prop where
  output : ∃ path, o.output = some path ∧ s.locateFile path = .ok outPlace
  errors : ∃ path, o.errorOutput = some path ∧ s.locateFile path = .ok logPlace
  ne : outPlace ≠ logPlace
  output_notMem : outPlace ∉ places
  errors_notMem : logPlace ∉ places

/-- The inputs before the first directory are filtered one after the other. Their outputs take the
place of what the output held, their errors go after what the errors held, their counts are added
up, and no other file changes. -/
theorem run_files (h : o.Prepared s p places) (hn : o.inputs ≠ [])
    (ha : o.Apart s places outPlace logPlace) :
    let files := places.takeWhile fun place => !s.isDirectory place
    let reports := p.reports s (files.map .file)
    let r := o.run stdin s
    r.outcome = (if files = places then .ok (.done (reports.map Report.tally).sum)
      else .error (.halted (.unreadable .isDirectory))) ∧
    r.store.get? outPlace = some (.file (Text.encode (reports.flatMap Report.output))) ∧
    r.store.get? logPlace =
      some (.file (s.content logPlace ++ Text.encode (reports.flatMap Report.errors))) ∧
    ∀ q, q ≠ outPlace → q ≠ logPlace → r.store.get? q = s.get? q := by
  obtain ⟨⟨out, ho, hout⟩, ⟨log, hl, hlog⟩, hne, hp, he⟩ := ha
  rw [← Store.locateFile_put_eq_ok_iff (Store.writable_of_locateFile hout) []] at hlog
  obtain ⟨u, hu⟩ := Store.exists_openAppend_eq_ok hlog
  have hopen : errorLog (s.put outPlace (.file [])) o.errorOutput = .ok (u, some logPlace) := by
    simp [hl, errorLog, hu]
  obtain ⟨hr, ho', hl', hn'⟩ := run_of_apart (n := 0) stdin h hn ho hout hopen
    (by simpa using hne.symm) hp (by simpa using he)
  exact ⟨hr, ho', hl' logPlace rfl, fun q hq hq' => hn' q hq (by simpa using Ne.symm hq')⟩

/-- A file that is named twice, and one behind a directory. -/
theorem run_files_directory :
    let s : Store := ⟨[(["a"], .file [49]), (["b"], .file [123, 10, 50, 10]), (["d"], .directory),
      (["out"], .file [51, 10]), (["log"], .file [33, 10])]⟩
    let o : Options :=
      { inputs := ["a", "b", "a", "d", "b"], output := some "out", errorOutput := some "log" }
    let p : Plan := ⟨[wholeRecord], .always⟩
    let places : List Place := [["a"], ["b"], ["a"], ["d"], ["b"]]
    let reports := p.reports s [.file ["a"], .file ["b"], .file ["a"]]
    let r := o.run [] s
    (o.Prepared s p places ∧ o.inputs ≠ [] ∧ o.Apart s places ["out"] ["log"]) ∧
    r.outcome = .error (.halted (.unreadable .isDirectory)) ∧
    r.store.get? ["out"] = some (.file (Text.encode (reports.flatMap Report.output))) ∧
    r.store.get? ["log"] = some (.file ([33, 10] ++ Text.encode (reports.flatMap Report.errors))) ∧
    ∀ q, q ≠ ["out"] → q ≠ ["log"] → r.store.get? q = s.get? q := by
  intro s o p places reports r
  have h : o.Prepared s p places := ⟨⟨passAll, rfl, ofText_passAll⟩, rfl, rfl⟩
  have hn : o.inputs ≠ [] := by simp [o]
  have ha : o.Apart s places ["out"] ["log"] :=
    ⟨⟨"out", rfl, rfl⟩, ⟨"log", rfl, rfl⟩, by decide, by decide, by decide⟩
  exact ⟨⟨h, hn, ha⟩, run_files h hn ha⟩

theorem Options.exists_of_done (h : (o.run stdin s).outcome = .ok (.done total))
    (ho : o.output = some out) :
    ∃ p places place, o.Prepared s p places ∧ s.locateFile out = .ok place := by
  have he := o.ends_run stdin s
  generalize o.run stdin s = r at h he
  cases he with
  | noQuery | noPlan | checked | noInput | noOutput | noErrors => cases h
  | filtered hp hf =>
    rcases freshOutput_eq_ok_iff.mp hf with ⟨hn, -, -⟩ | ⟨path, place, hs, hl, -, -⟩
    · cases hn.symm.trans ho
    · obtain rfl : path = out := Option.some.inj (hs.symm.trans ho)
      exact ⟨_, _, place, hp, hl⟩

/-- What files give in turn, after `written` has been put out, when they are filtered into `out`. A
file that is not `out` gives what the report on it says. What `out` gives is left open, but it is
nothing if it is read before anything has been put out. -/
inductive Gives (p : Plan) (s : Store) (out : Place) :
    (written : List UInt8) → List Place → (kept : List UInt8) → Tally → Prop
  | nil {written : List UInt8} : Gives p s out written [] [] 0
  | other {written kept : List UInt8} {place : Place} {places : List Place} {n : Tally} :
      place ≠ out →
      Gives p s out (written ++ Text.encode (p.filter (s.content place)).output) places kept n →
      Gives p s out written (place :: places)
        (Text.encode (p.filter (s.content place)).output ++ kept)
        ((p.filter (s.content place)).tally + n)
  | self {written part kept : List UInt8} {places : List Place} {m n : Tally} :
      (written = [] → part = [] ∧ m = 0) → Gives p s out (written ++ part) places kept n →
      Gives p s out written (out :: places) (part ++ kept) (m + n)

/-- The output, read while it is written to, gives something if it comes to an end, and nothing if
it is empty. -/
theorem exists_advances_of_output {v w : Session} (hs : v.Sound) (hf : v.Flushed)
    (ho : v.output.map Writer.place = some outPlace)
    (hd : Session.drain p (.file outPlace) Session.maxLooks 0 1 [] v = some w) :
    w.Flushed ∧ ∃ part failed m, v.Advances w part failed m ∧
      (v.emitted = [] → part = [] ∧ m = 0) := by
  by_cases hw : v.emitted = []
  · have hempty : v.store.content outPlace = [] := by
      have := hs.get?_output hf ho
      simp [Store.content, this, hw]
    have hsame : Session.drain p (.file outPlace) Session.maxLooks 0 1 [] v = some v :=
      Session.drain_of_empty hf hempty
    obtain rfl : v = w := Option.some.inj (hsame.symm.trans hd)
    exact ⟨hf, _, _, _, .refl hs, fun _ => ⟨rfl, rfl⟩⟩
  · obtain ⟨hfw, part, failed, m, ha⟩ := hs.exists_advances hd
    exact ⟨hfw, part, failed, m, ha, fun h => absurd h hw⟩

theorem exists_gives {v w : Session} (hs : v.Sound) (hf : v.Flushed)
    (ho : v.output.map Writer.place = some outPlace) (he : v.errors = none)
    (hc : ∀ place ∈ places, place ≠ outPlace → v.store.content place = s.content place)
    (hd : v.drainAll p (places.map .file) = (w, .ok ())) :
    w.Flushed ∧ ∃ kept failed n, v.Advances w kept failed n ∧
      Gives p s outPlace v.emitted places kept n := by
  induction places generalizing v with
  | nil =>
    obtain rfl : v = w := (Prod.mk.inj hd).1
    exact ⟨hf, _, _, _, .refl hs, .nil⟩
  | cons place places ih =>
    obtain ⟨-, t, ht, hd⟩ := Session.exists_of_drainAll_cons hd
    obtain ⟨hplace, hc⟩ := List.forall_mem_cons.mp hc
    have spared {q : Place} (hq : q ≠ outPlace) : ¬ v.WritesTo q := by
      rintro (hw | hw)
      · exact hq (Option.some.inj (hw.symm.trans ho))
      · cases he.symm.trans hw
    -- the files that are still to be read are as they were, but for the output
    have rest {part failed : List UInt8} {m : Tally} (hft : t.Flushed)
        (ha : v.Advances t part failed m) : w.Flushed ∧ ∃ kept failed n,
          t.Advances w kept failed n ∧ Gives p s outPlace (v.emitted ++ part) places kept n := by
      rw [← ha.emitted]
      refine ih ha.sound hft (ha.output.trans ho) (ha.errors.trans he) (fun q hq hn => ?_) hd
      exact (Store.content_congr (ha.others q (spared hn))).trans (hc q hq hn)
    by_cases hn : place = outPlace
    · subst hn
      obtain ⟨hft, part, failed, m, ha, hm⟩ := exists_advances_of_output hs hf ho ht
      obtain ⟨hfw, kept, failed', n, hw, hg⟩ := rest hft ha
      exact ⟨hfw, _, _, _, ha.trans hw, .self hm hg⟩
    · have hspares : v.Spares (.file place) := spared hn
      obtain ⟨t', ht', hft, ha⟩ := hs.drain hspares p 4093
      obtain rfl : t' = t := Option.some.inj (ht'.symm.trans ht)
      have hcontent : (Source.file place).content v.store = s.content place := hplace hn
      rw [hcontent] at ha
      obtain ⟨hfw, kept, failed, n, hw, hg⟩ := rest hft ha
      exact ⟨hfw, _, _, _, ha.trans hw, .other hn hg⟩

theorem Options.Prepared.exists_gives (hp : o.Prepared s p places) (hn : o.inputs ≠ [])
    (ho : o.output = some out) (hout : s.locateFile out = .ok outPlace)
    (hlog : errorLog (s.put outPlace (.file [])) o.errorOutput = .ok (u, none))
    (h : (o.run stdin s).outcome = .ok (.done total)) :
    ∃ kept, (o.run stdin s).store.get? outPlace = some (.file kept) ∧
      Gives p s outPlace [] places kept total := by
  let start : Session := ⟨u, some ⟨outPlace, 0, #[]⟩, none, #[], #[], .zero⟩
  obtain ⟨⟨hs, hf⟩, hempty, -, hothers⟩ := sound_opened hout hlog (by simp)
  rw [hp.run_eq (freshOutput_of_locateFile ho hout) hlog, filterAll,
    if_neg (inputPlaces_ne_nil hp.inputs hn)] at h ⊢
  cases hd : start.drainAll p (places.map .file) with
  | mk w ended =>
    rw [hd] at h
    cases ended with
    | error e => cases h
    | ok =>
      obtain ⟨hfw, kept, failed, n, hw, hg⟩ := Command.exists_gives hs hf rfl rfl
        (fun q _ hq => Store.content_congr (hothers q hq (by simp))) hd
      have hemitted : start.emitted = [] := by
        simp [start, Session.emitted, Store.content, hempty]
      have htotal : n = total := by
        rw [← Tally.zero_add n]
        exact hw.tally.symm.trans (Outcome.done.inj (Except.ok.inj h))
      have hget := hw.sound.get?_output hfw hw.output
      rw [hw.emitted, hemitted, List.nil_append] at hget
      rw [hemitted, htotal] at hg
      exact ⟨kept, hget, hg⟩

/-- When files have been filtered, the output is what they give in turn, as they were before, unless
some of them are the output as well. Such inputs are emptied before they are read: where they come
first, they give nothing, and the output is what the others give. -/
theorem run_into_input (h : (o.run stdin s).outcome = .ok (.done total)) (hn : o.inputs ≠ [])
    (ho : o.output = some out) (he : o.errorOutput = none) :
    ∃ p places place kept, o.Prepared s p places ∧ s.locateFile out = .ok place ∧
      (o.run stdin s).store.get? place = some (.file kept) ∧ Gives p s place [] places kept total ∧
      ∀ n others, places = List.replicate n place ++ others → place ∉ others →
        let reports := p.reports s (others.map .file)
        total = (reports.map Report.tally).sum ∧
          kept = Text.encode (reports.flatMap Report.output) := by
  obtain ⟨p, places, place, hp, hout⟩ := Options.exists_of_done h ho
  have hlog : errorLog (s.put place (.file [])) o.errorOutput =
      .ok (s.put place (.file []), none) := by
    rw [he]
    rfl
  obtain ⟨kept, hget, hgives⟩ := hp.exists_gives hn ho hout hlog h
  refine ⟨p, places, place, kept, hp, hout, hget, hgives, ?_⟩
  rintro n others rfl hm
  obtain ⟨hr, hkept, -, -⟩ := run_of_apart stdin hp hn ho hout hlog (by simp) hm (by simp)
  -- no directory has stopped the run
  split at hr
  · rename_i hall
    rw [hall] at hr hkept
    exact ⟨Outcome.done.inj (Except.ok.inj (h.symm.trans hr)),
      Entry.file.inj (Option.some.inj (hget.symm.trans hkept))⟩
  · cases h.symm.trans hr

/-- A file, and another one behind it, filtered into the first: only the second one's record is
left. -/
theorem run_into_input_first :
    let s : Store := ⟨[(["in"], .file [49, 10]), (["a"], .file [50, 10])]⟩
    let o : Options := { inputs := ["in", "a"], output := some "in" }
    ((o.run [] s).outcome = .ok (.done ⟨1, 1, 0, 0⟩) ∧ o.inputs ≠ []) ∧
      (o.run [] s).store.get? ["in"] = some (.file [50, 10]) := by
  intro s o
  have hp : o.Prepared s ⟨[wholeRecord], .always⟩ (List.replicate 1 ["in"] ++ [["a"]]) :=
    ⟨⟨passAll, rfl, ofText_passAll⟩, rfl, rfl⟩
  have hn : o.inputs ≠ [] := by simp [o]
  have hr := (run_of_apart [] hp hn rfl rfl rfl (by simp) (by decide) (by simp)).1
  have htotal : ((⟨[wholeRecord], .always⟩ : Plan).filter [50, 10]).tally + 0 = ⟨1, 1, 0, 0⟩ := by
    decide +kernel
  have h : (o.run [] s).outcome = .ok (.done ⟨1, 1, 0, 0⟩) := hr.trans (by rw [← htotal]; rfl)
  obtain ⟨p, places, place, kept, hp', hl, hget, -, hall⟩ := run_into_input h hn rfl rfl
  obtain ⟨⟨q, hq, hc⟩, -, hi⟩ := hp'
  obtain rfl : passAll = q := Except.ok.inj hq
  obtain rfl : p = ⟨[wholeRecord], .always⟩ := Except.ok.inj (hc.symm.trans ofText_passAll)
  obtain rfl : ["in"] = place := Except.ok.inj hl
  obtain rfl : [["in"], ["a"]] = places := Except.ok.inj hi
  obtain ⟨-, hkept⟩ := hall 1 [["a"]] rfl (by decide)
  rw [hkept] at hget
  exact ⟨⟨h, hn⟩, hget.trans (by decide +kernel)⟩

/-- A file that is filtered into itself is left empty, though the query keeps its record. -/
theorem run_into_input_empties :
    let s : Store := ⟨[(["in"], .file [49, 10])]⟩
    let o : Options := { inputs := ["in"], output := some "in" }
    let p : Plan := ⟨[wholeRecord], .always⟩
    o.Compiles s p ∧ inputPlaces s o.inputs = .ok [["in"]] ∧ s.get? ["in"] = some (.file [49, 10]) ∧
    (p.filter [49, 10]).output = ['1', '\n'] ∧ (p.filter [49, 10]).tally = ⟨1, 1, 0, 0⟩ ∧
    (o.run [] s).outcome = .ok (.done 0) ∧ (o.run [] s).store.get? ["in"] = some (.file []) := by
  intro s o p
  have h : o.Prepared s p (List.replicate 1 ["in"] ++ []) :=
    ⟨⟨passAll, rfl, ofText_passAll⟩, rfl, rfl⟩
  obtain ⟨hr, hout, -, -⟩ := run_of_apart [] h (by simp [o]) rfl rfl rfl
    (by simp) (by simp) (by simp)
  exact ⟨h.compiles, rfl, rfl, by decide +kernel, by decide +kernel, hr, hout⟩

end RecordSieve.Command
