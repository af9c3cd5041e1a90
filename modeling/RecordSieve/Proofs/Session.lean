import RecordSieve.Proofs.Filter.Lines
import RecordSieve.Proofs.Store
import RecordSieve.Session

/-! # What sessions write

A session is seen as all that it has put out, be it written or pending, and as what its errors
hold. Filtering a source that the session does not write to adds to both what the report on the
content of the source says, and changes no other file. Sources in a row add one report after the
other.
-/

namespace RecordSieve

def Plan.reports (p : Plan) (s : Store) (sources : List Source) : List Report :=
  sources.map fun source => p.filter (source.content s)

namespace Session

/-- What has been put out, pending bytes included. -/
def emitted (s : Session) : List UInt8 :=
  match s.output with
  | none => s.stdout.toList
  | some w => s.store.content w.place ++ w.pending.toList

def reported (s : Session) : List UInt8 :=
  match s.errors with
  | none => s.stderr.toList
  | some p => s.store.content p

def WritesTo (s : Session) (p : Place) : Prop :=
  s.output.map Writer.place = some p ∨ s.errors = some p

def Flushed (s : Session) : Prop := ∀ w ∈ s.output, w.pending = #[]

/-- The output is written at the end of its file, and the errors go to another one. -/
structure Sound (s : Session) : Prop where
  output : ∀ w ∈ s.output, s.store.IsFile w.place ∧ w.position = (s.store.content w.place).length
  errors : ∀ p ∈ s.errors, s.store.IsFile p
  apart : ∀ w ∈ s.output, s.errors ≠ some w.place

/-- One session goes on to another, and puts out, reports and counts meanwhile. -/
structure Advances (s t : Session) (kept failed : List UInt8) (n : Tally) : Prop where
  sound : t.Sound
  output : t.output.map Writer.place = s.output.map Writer.place
  errors : t.errors = s.errors
  emitted : t.emitted = s.emitted ++ kept
  reported : t.reported = s.reported ++ failed
  tally : t.tally = s.tally + n
  others : ∀ p, ¬ s.WritesTo p → t.store.get? p = s.store.get? p

variable {s t u : Session} {p : Plan} {w : Writer} {place : Place} {number looks : Nat}
  {bytes kept kept' failed failed' : List UInt8} {n n' : Tally} {o : Outcome}

theorem Sound.get?_output (h : s.Sound) (hf : s.Flushed)
    (ho : s.output.map Writer.place = some place) :
    s.store.get? place = some (.file s.emitted) := by
  obtain ⟨w, hw, rfl⟩ := Option.map_eq_some_iff.mp ho
  rw [(h.output w hw).1.get?_eq]
  simp [emitted, hw, hf w hw]

theorem Sound.get?_errors (h : s.Sound) (he : s.errors = some place) :
    s.store.get? place = some (.file s.reported) := by
  rw [(h.errors place he).get?_eq]
  simp [reported, he]

namespace Advances

theorem writesTo_iff (h : s.Advances t kept failed n) : t.WritesTo place ↔ s.WritesTo place := by
  simp only [WritesTo, h.output, h.errors]

theorem refl (h : s.Sound) : s.Advances s [] [] 0 :=
  ⟨h, rfl, rfl, by simp, by simp, (Tally.add_zero _).symm, fun _ _ => rfl⟩

theorem trans (h : s.Advances t kept failed n) (h' : t.Advances u kept' failed' n') :
    s.Advances u (kept ++ kept') (failed ++ failed') (n + n') where
  sound := h'.sound
  output := h'.output.trans h.output
  errors := h'.errors.trans h.errors
  emitted := by rw [h'.emitted, h.emitted, List.append_assoc]
  reported := by rw [h'.reported, h.reported, List.append_assoc]
  tally := by rw [h'.tally, h.tally, Tally.add_assoc]
  others q hq := (h'.others q (mt h.writesTo_iff.mp hq)).trans (h.others q hq)

end Advances

theorem flush_output (h : s.output = some w) :
    s.flush.output = some ⟨w.place, w.position + w.pending.size, #[]⟩ := by
  obtain ⟨place, position, pending⟩ := w
  unfold flush
  rw [h]
  by_cases hp : pending = #[]
  · simp [hp, h]
  · simp [hp]

theorem flushed_flush (s : Session) : s.flush.Flushed := by
  intro w hw
  cases ho : s.output with
  | none => simp [flush, ho] at hw
  | some v =>
    rw [flush_output ho] at hw
    obtain rfl := Option.some.inj hw
    rfl

theorem flush_of_flushed (h : s.Flushed) : s.flush = s := by
  unfold flush
  split
  · rfl
  · rename_i w ho
    simp [h w ho]

theorem Sound.flush (h : s.Sound) : s.Advances s.flush [] [] 0 := by
  unfold Session.flush
  split
  · exact .refl h
  · rename_i w ho
    split
    · exact .refl h
    · obtain ⟨hf, hp⟩ := h.output w ho
      have ha : s.errors ≠ some w.place := h.apart w ho
      rw [hp, Store.writeAt_length]
      refine ⟨⟨?_, ?_, ?_⟩, by simp [ho], rfl, ?_, ?_, (Tally.add_zero _).symm, ?_⟩
      · rintro _ ⟨⟩
        exact ⟨hf.append hf, by simp [Store.content_append_self hf]⟩
      · exact fun q hq => hf.append (h.errors q hq)
      · rintro _ ⟨⟩
        exact ha
      · simp [emitted, ho, Store.content_append_self hf]
      · cases he : s.errors with
        | none => simp [reported, he]
        | some q =>
          have hq : q ≠ w.place := fun hq => ha (hq ▸ he)
          simp [reported, he, Store.content_append_ne hq]
      · intro q hq
        exact Store.get?_append_ne fun he => hq (.inl (by simp [ho, he]))

theorem Sound.hold (h : s.Sound) (ho : s.output = some w) (bytes : List UInt8) :
    s.Advances { s with output := some { w with pending := w.pending.appendList bytes } }
      bytes [] 0 := by
  refine ⟨⟨?_, h.errors, ?_⟩, by simp [ho], rfl, ?_, ?_, (Tally.add_zero _).symm, fun _ _ => rfl⟩
  · rintro _ ⟨⟩
    exact h.output w ho
  · rintro _ ⟨⟩
    exact h.apart w ho
  · simp [emitted, ho]
  · simp [reported]

theorem Sound.write (h : s.Sound) (bytes : List UInt8) :
    s.Advances (s.write bytes) bytes [] 0 := by
  unfold Session.write
  split
  · rename_i ho
    refine ⟨⟨?_, h.errors, ?_⟩, by simp [ho], rfl, ?_, ?_, (Tally.add_zero _).symm, fun _ _ => rfl⟩
    · simp [ho]
    · simp [ho]
    · simp [emitted, ho]
    · simp [reported]
  · rename_i w ho
    split
    · exact h.hold ho bytes
    · have hf := h.flush
      have hh := hf.trans (hf.sound.hold (flush_output ho) bytes)
      have he : (#[] : Array UInt8).appendList bytes = bytes.toArray := by simp
      simp only [he, List.nil_append, Tally.zero_add] at hh
      split
      · exact hh
      · simpa [Tally.zero_add] using hh.trans hh.sound.flush

theorem Sound.report (h : s.Sound) (bytes : List UInt8) :
    s.Advances (s.report bytes) [] bytes 0 := by
  unfold Session.report
  split
  · rename_i he
    refine ⟨⟨h.output, ?_, ?_⟩, rfl, rfl, ?_, ?_, (Tally.add_zero _).symm, fun _ _ => rfl⟩
    · simp [he]
    · simp [he]
    · simp [emitted]
    · simp [reported, he]
  · rename_i q he
    have hf := h.errors q he
    have ha {w : Writer} (hw : w ∈ s.output) : w.place ≠ q := fun hq => h.apart w hw (hq ▸ he)
    refine ⟨⟨?_, ?_, ?_⟩, rfl, rfl, ?_, ?_, (Tally.add_zero _).symm, ?_⟩
    · intro w hw
      obtain ⟨hfile, hp⟩ := h.output w hw
      exact ⟨hf.append hfile, by simp [Store.content_append_ne (ha hw), hp]⟩
    · exact fun r hr => hf.append (h.errors r hr)
    · exact h.apart
    · cases ho : s.output with
      | none => simp [emitted, ho]
      | some w => simp [emitted, ho, Store.content_append_ne (ha ho)]
    · simp [reported, he, Store.content_append_self hf]
    · intro r hr
      exact Store.get?_append_ne fun hq => hr (.inr (hq ▸ he))

theorem Sound.count (h : s.Sound) (n : Tally) :
    s.Advances { s with tally := s.tally + n } [] [] n :=
  ⟨⟨h.output, h.errors, h.apart⟩, rfl, rfl, by simp [emitted], by simp [reported], rfl,
    fun _ _ => rfl⟩

theorem Sound.take (h : s.Sound) (o : Outcome) :
    s.Advances (s.take o) (Text.encode o.output) (Text.encode o.errors) o.tally := by
  have hc := h.count o.tally
  unfold Session.take
  cases o with
  | blank => exact hc
  | dropped => exact hc
  | kept text =>
    have hw := hc.sound.write (Text.encode text.toList)
    have hn := hc.trans (hw.trans (hw.sound.write [Plan.newline]))
    have he : Text.encode (Outcome.kept text).output =
        Text.encode text.toList ++ [Plan.newline] := Text.encode_append _ _
    rw [he]
    simp only [List.nil_append, Tally.add_zero] at hn
    exact hn
  | failed f =>
    have hr := hc.trans (hc.sound.report (Text.encode (Outcome.failed f).errors))
    simp only [List.nil_append, Tally.add_zero] at hr
    exact hr

theorem outcomes_cons (p : Plan) (number : Nat) (line : List UInt8) (ls : List (List UInt8)) :
    p.outcomes number (line :: ls) = p.outcome number line :: p.outcomes (number + 1) ls := rfl

theorem Sound.feed (h : s.Sound) (p : Plan) (number : Nat) (ls : List (List UInt8)) :
    s.Advances (s.feed p number ls)
      (Text.encode ((p.outcomes number ls).flatMap Outcome.output))
      (Text.encode ((p.outcomes number ls).flatMap Outcome.errors))
      ((p.outcomes number ls).map Outcome.tally).sum := by
  induction ls generalizing s number with
  | nil => exact .refl h
  | cons line ls ih =>
    have ht := h.take (p.outcome number line)
    rw [Session.feed, outcomes_cons, List.flatMap_cons, List.flatMap_cons, List.map_cons,
      List.sum_cons, Text.encode_append, Text.encode_append]
    exact ht.trans (ih ht.sound (number + 1))

theorem lines_eq_completeLines (bytes : List UInt8) : Plan.lines bytes =
    (completeLines bytes).1 ++
      if (completeLines bytes).2 = [] then [] else [(completeLines bytes).2] := by
  unfold Plan.lines completeLines
  rcases List.eq_nil_or_concat (bytes.splitOn Plan.newline) with hp | ⟨init, last, hp⟩
  · exact absurd hp (List.splitOn_ne_nil _ _)
  · by_cases hl : last = [] <;> simp [hp, hl]

/-- The session writes to no file of the source. -/
def Spares (s : Session) : Source → Prop
  | .given _ => True
  | .file place => ¬ s.WritesTo place

theorem Advances.content_eq {source : Source} (h : s.Advances t kept failed n)
    (ha : s.Spares source) : source.content t.store = source.content s.store := by
  cases source with
  | given => rfl
  | file place => exact Store.content_congr (h.others place ha)

theorem feed_append (p : Plan) (s : Session) (number : Nat) (ls ms : List (List UInt8)) :
    s.feed p number (ls ++ ms) = (s.feed p number ls).feed p (number + ls.length) ms := by
  induction ls generalizing s number with
  | nil => rfl
  | cons line ls ih =>
    rw [List.cons_append, feed, ih, feed, List.length_cons, Nat.add_assoc, Nat.add_comm 1]

theorem drain_rest {source : Source} {consumed : Nat} {unfinished : List UInt8}
    (hs : (source.content s.store).drop consumed = [])
    (ht : (source.content (s.feed p number [unfinished]).store).drop consumed = []) :
    drain p source (looks + 2) consumed number unfinished s =
      some (s.feed p number (if unfinished = [] then [] else [unfinished])).flush := by
  by_cases hu : unfinished = []
  · simp [drain, hs, hu, feed]
  · simp [drain, hs, hu, ht]

/-- A source that is not written to is read in one look, and its last line is ended by the next. -/
theorem drain_eq {source : Source} (h : s.Sound) (hs : s.Spares source) (p : Plan) (looks : Nat) :
    drain p source (looks + 3) 0 1 [] s =
      some (s.feed p 1 (Plan.lines (source.content s.store))).flush := by
  have content (ls : List (List UInt8)) :
      source.content (s.feed p 1 ls).store = source.content s.store :=
    (h.feed p 1 ls).content_eq hs
  generalize hb : source.content s.store = bytes at content
  by_cases hn : bytes = []
  · simp [drain, hb, hn, feed]
  · have hr := feed_append p s 1 (completeLines bytes).1
    rw [lines_eq_completeLines, hr, drain]
    simp only [hb, List.drop_zero, hn, false_and, if_false, List.nil_append, Nat.zero_add]
    refine drain_rest ?_ ?_
    · rw [content, List.drop_length]
    · rw [← hr, content, List.drop_length]

theorem Sound.drain {source : Source} (h : s.Sound) (hs : s.Spares source) (p : Plan)
    (looks : Nat) : ∃ t, Session.drain p source (looks + 3) 0 1 [] s = some t ∧ t.Flushed ∧
      s.Advances t (Text.encode (p.filter (source.content s.store)).output)
        (Text.encode (p.filter (source.content s.store)).errors)
        (p.filter (source.content s.store)).tally := by
  refine ⟨_, drain_eq h hs p looks, flushed_flush _, ?_⟩
  have hf := h.feed p 1 (Plan.lines (source.content s.store))
  rw [Plan.output_filter, Plan.errors_filter, Plan.tally_filter]
  simpa [Tally.add_zero] using hf.trans hf.sound.flush

/-- The source is no directory. -/
def Reads (s : Session) (source : Source) : Prop :=
  ∀ place, source = .file place → s.store.isDirectory place = false

theorem Advances.spares_iff {source : Source} (h : s.Advances t kept failed n) :
    t.Spares source ↔ s.Spares source := by
  cases source with
  | given => rfl
  | file place => exact not_congr h.writesTo_iff

theorem Advances.reads {source : Source} (h : s.Advances t kept failed n) (hs : s.Spares source)
    (hr : s.Reads source) : t.Reads source := by
  rintro place rfl
  exact (Store.isDirectory_congr (h.others place hs)).trans (hr place rfl)

theorem Advances.reports_eq {sources : List Source} (h : s.Advances t kept failed n)
    (hs : ∀ source ∈ sources, s.Spares source) :
    p.reports t.store sources = p.reports s.store sources :=
  List.map_congr_left fun source hm => by rw [h.content_eq (hs source hm)]

theorem drainAll_cons {source : Source} {rest : List Source} (hr : s.Reads source)
    (hd : drain p source maxLooks 0 1 [] s = some t) :
    s.drainAll p (source :: rest) = t.drainAll p rest := by
  cases source with
  | given bytes => simp [drainAll, hd]
  | file place => simp [drainAll, hd, hr place rfl]

theorem drain_of_empty {source : Source} (hf : s.Flushed) (hc : source.content s.store = []) :
    drain p source maxLooks 0 1 [] s = some s := by
  simp [maxLooks, drain, hc, flush_of_flushed hf]

/-- Something comes of any source that has an end, even if it is written to meanwhile. -/
theorem Sound.exists_advances {source : Source} {consumed : Nat} {unfinished : List UInt8}
    (h : s.Sound) (hd : Session.drain p source looks consumed number unfinished s = some t) :
    t.Flushed ∧ ∃ kept failed n, s.Advances t kept failed n := by
  induction looks generalizing consumed number unfinished s with
  | zero => cases hd
  | succ looks ih =>
    simp only [Session.drain] at hd
    split at hd
    · obtain rfl := Option.some.inj hd
      exact ⟨flushed_flush s, _, _, _, h.flush⟩
    · have hf := h.feed p number
      obtain ⟨ht, kept, failed, n, ha⟩ := ih (hf _).sound hd
      exact ⟨ht, _, _, _, (hf _).trans ha⟩

theorem exists_of_drainAll_cons {source : Source} {rest : List Source}
    (h : s.drainAll p (source :: rest) = (u, .ok ())) : s.Reads source ∧
      ∃ t, drain p source maxLooks 0 1 [] s = some t ∧ t.drainAll p rest = (u, .ok ()) := by
  have hr : s.Reads source := by
    rintro place rfl
    cases hd : s.store.isDirectory place with
    | false => rfl
    | true => simp [drainAll, hd] at h
  refine ⟨hr, ?_⟩
  cases hd : drain p source maxLooks 0 1 [] s with
  | none =>
    cases source with
    | given bytes => simp [drainAll, hd] at h
    | file place => simp [drainAll, hd, hr place rfl] at h
  | some t => exact ⟨t, rfl, (drainAll_cons hr hd).symm.trans h⟩

theorem drainAll_replicate (hf : s.Flushed) (hc : s.store.content place = [])
    (hd : s.store.isDirectory place = false) (n : Nat) (rest : List Source) :
    s.drainAll p (List.replicate n (.file place) ++ rest) = s.drainAll p rest := by
  induction n with
  | zero => rfl
  | succ n ih =>
    have hdrain : drain p (.file place) maxLooks 0 1 [] s = some s := drain_of_empty hf hc
    have hr : s.Reads (.file place) := by
      rintro _ ⟨⟩
      exact hd
    rw [List.replicate_succ, List.cons_append, drainAll_cons hr hdrain, ih]

/-- Sources that can be read and are not written to add one report after the other, and filtering
goes on behind them. -/
theorem Sound.drainAll {sources : List Source} (h : s.Sound) (hf : s.Flushed) (p : Plan)
    (hs : ∀ source ∈ sources, s.Spares source) (hr : ∀ source ∈ sources, s.Reads source) :
    ∃ t, (∀ rest, s.drainAll p (sources ++ rest) = t.drainAll p rest) ∧ t.Flushed ∧
      s.Advances t (Text.encode ((p.reports s.store sources).flatMap Report.output))
        (Text.encode ((p.reports s.store sources).flatMap Report.errors))
        ((p.reports s.store sources).map Report.tally).sum := by
  induction sources generalizing s with
  | nil => exact ⟨s, fun _ => rfl, hf, .refl h⟩
  | cons source sources ih =>
    obtain ⟨hs₁, hs⟩ := List.forall_mem_cons.mp hs
    obtain ⟨hr₁, hr⟩ := List.forall_mem_cons.mp hr
    obtain ⟨t, hd, hft, ht⟩ := h.drain hs₁ p 4093
    obtain ⟨u, hu, hfu, hut⟩ := ih ht.sound hft (fun _ hm => ht.spares_iff.mpr (hs _ hm))
      fun _ hm => ht.reads (hs _ hm) (hr _ hm)
    rw [ht.reports_eq hs] at hut
    refine ⟨u, fun rest => ?_, hfu, ?_⟩
    · rw [List.cons_append, drainAll_cons hr₁ hd, hu]
    · have hc : p.reports s.store (source :: sources) =
          p.filter (source.content s.store) :: p.reports s.store sources := rfl
      rw [hc, List.flatMap_cons, List.flatMap_cons, List.map_cons, List.sum_cons,
        Text.encode_append, Text.encode_append]
      exact ht.trans hut

/-- Filtering files comes to an end, or stops at the first directory among them. -/
theorem Sound.drainAll_files (h : s.Sound) (hf : s.Flushed) (p : Plan) (places : List Place)
    (hs : ∀ place ∈ places, ¬ s.WritesTo place) :
    let files := places.takeWhile fun place => !s.store.isDirectory place
    let reports := p.reports s.store (files.map .file)
    ∃ t, s.drainAll p (places.map .file) =
        (t, if files = places then .ok () else .error (.unreadable .isDirectory)) ∧ t.Flushed ∧
      s.Advances t (Text.encode (reports.flatMap Report.output))
        (Text.encode (reports.flatMap Report.errors)) (reports.map Report.tally).sum := by
  intro files reports
  have hfiles : ∀ source ∈ files.map Source.file, s.Spares source ∧ s.Reads source := by
    intro source hm
    obtain ⟨place, hp, rfl⟩ := List.mem_map.mp hm
    refine ⟨hs place ((List.takeWhile_sublist _).subset hp), ?_⟩
    rintro _ ⟨⟩
    simpa using List.mem_takeWhile_imp hp
  obtain ⟨t, hd, hft, ht⟩ :=
    h.drainAll hf p (fun _ hm => (hfiles _ hm).1) fun _ hm => (hfiles _ hm).2
  refine ⟨t, ?_, hft, ht⟩
  have hp : files ++ places.dropWhile (fun place => !s.store.isDirectory place) = places :=
    List.takeWhile_append_dropWhile
  cases hrest : places.dropWhile fun place => !s.store.isDirectory place with
  | nil =>
    have he : files = places := by rwa [hrest, List.append_nil] at hp
    rw [if_pos he, ← he, ← List.append_nil (files.map Source.file), hd]
    rfl
  | cons place rest =>
    -- the first place that holds no file is still a directory
    have hdir : s.store.isDirectory place = true := by
      have := List.head?_dropWhile_not (fun place => !s.store.isDirectory place) places
      simpa [hrest] using this
    rw [hrest] at hp
    have hm : place ∈ places := hp ▸ List.mem_append_right _ List.mem_cons_self
    have htd : t.store.isDirectory place = true :=
      (Store.isDirectory_congr (ht.others place (hs place hm))).trans hdir
    have he : files ≠ places := fun he => List.cons_ne_nil place rest
      (List.append_cancel_left (hp.trans (he.symm.trans (List.append_nil files).symm)))
    have hl : places.map Source.file = files.map .file ++ .file place :: rest.map .file := by
      rw [← List.map_cons, ← List.map_append, hp]
    rw [if_neg he, hl, hd]
    simp [Session.drainAll, htd]

end Session

end RecordSieve
