import RecordSieve.Proofs.Results
import RecordSieve.Store

/-! # Paths in a store that changes

A path leads through directories only, so it leads to the same place when the content of a file
changes or a new file appears. Opening a file to write to it changes no other entry.
-/

namespace RecordSieve.Store

variable {s t : Store} {p q r : Place} {path name : String} {bytes content : List UInt8}

def IsFile (s : Store) (p : Place) : Prop := ∃ bytes, s.get? p = some (.file bytes)

theorem isBase_eq_false (h : s.isDirectory p = false) : p.isBase = false := by
  cases hb : p.isBase with
  | false => rfl
  | true => simp [isDirectory, get?, hb] at h

namespace IsFile

theorem get?_eq (h : s.IsFile p) : s.get? p = some (.file (s.content p)) := by
  obtain ⟨bytes, h⟩ := h
  simp [content, h]

theorem isDirectory_eq_false (h : s.IsFile p) : s.isDirectory p = false := by
  simp [isDirectory, h.get?_eq]

theorem congr (h : s.IsFile p) (he : t.get? p = s.get? p) : t.IsFile p := by
  obtain ⟨bytes, h⟩ := h
  exact ⟨bytes, he.trans h⟩

end IsFile

theorem content_congr (h : t.get? p = s.get? p) : t.content p = s.content p := by
  simp [content, h]

theorem isDirectory_congr (h : t.get? p = s.get? p) : t.isDirectory p = s.isDirectory p := by
  simp [isDirectory, h]

theorem content_put_self (h : p.isBase = false) : (s.put p (.file bytes)).content p = bytes := by
  simp [content, get?_put_self h]

theorem isFile_put_self (h : p.isBase = false) : (s.put p (.file bytes)).IsFile p :=
  ⟨bytes, get?_put_self h⟩

/-- A file that takes the place of no directory makes no directory and removes none. -/
theorem get?_put_eq_directory_iff (h : s.isDirectory p = false) :
    (s.put p (.file bytes)).get? q = some .directory ↔ s.get? q = some .directory := by
  by_cases hq : q = p
  · subst hq
    rw [get?_put_self (isBase_eq_false h)]
    simpa [isDirectory] using h
  · rw [get?_put_ne hq]

theorem isDirectory_put (h : s.isDirectory p = false) :
    (s.put p (.file bytes)).isDirectory q = s.isDirectory q := by
  simp only [isDirectory, get?_put_eq_directory_iff h]

theorem writeAt_length (s : Store) (p : Place) (bytes : List UInt8) :
    s.writeAt p (s.content p).length bytes = s.append p bytes := by
  simp [writeAt, append, List.drop_eq_nil_of_le]

theorem content_append_self (h : s.IsFile p) :
    (s.append p bytes).content p = s.content p ++ bytes :=
  content_put_self (isBase_eq_false h.isDirectory_eq_false)

theorem get?_append_ne (h : q ≠ p) : (s.append p bytes).get? q = s.get? q :=
  get?_put_ne h

theorem content_append_ne (h : q ≠ p) : (s.append p bytes).content q = s.content q :=
  content_congr (get?_append_ne h)

theorem IsFile.append (h : s.IsFile p) (hq : s.IsFile q) : (s.append p bytes).IsFile q := by
  by_cases he : q = p
  · subst he
    exact isFile_put_self (isBase_eq_false h.isDirectory_eq_false)
  · exact hq.congr (get?_append_ne he)

/-- A place for a file that may be written: there is no directory at it, and it is no link. -/
structure Writable (s : Store) (p : Place) : Prop where
  isDirectory_eq_false : s.isDirectory p = false
  link?_eq_none : s.link? p = none

theorem Writable.isBase_eq_false (h : s.Writable p) : p.isBase = false :=
  Store.isBase_eq_false h.isDirectory_eq_false

theorem get?_ne_link (h : s.link? p = none) (target : Place) :
    s.get? p ≠ some (.link target) := by
  unfold get?
  split
  · simp
  · intro he
    simp [link?, he] at h

theorem link?_put (h : s.link? p = none) : (s.put p (.file bytes)).link? q = s.link? q := by
  by_cases hq : q = p
  · subst hq
    rw [h]
    simp [link?, put]
  · simp only [link?, lookup_put_ne hq]

theorem link?_of_follow (h : s.follow q = .ok p) : s.link? p = none := by
  unfold follow at h
  split at h
  · rename_i hq
    exact Except.ok.inj h ▸ hq
  · split at h
    · cases h
    · rename_i hn
      rw [← Except.ok.inj h]
      simpa using hn

theorem follow_put (h : s.Writable p) : (s.put p (.file bytes)).follow q = s.follow q := by
  simp only [follow, link?_put h.link?_eq_none]

theorem enter_eq_ok_iff :
    s.enter q name = .ok r ↔ s.get? q = some .directory ∧ s.follow (q.next name) = .ok r := by
  unfold enter
  split
  · rename_i hd
    simp [hd]
  · rename_i hf
    simp [hf]
  · rename_i hd _
    exact ⟨nofun, fun h => absurd h.1 hd⟩

theorem enter_put_eq_ok_iff (h : s.Writable p) :
    (s.put p (.file bytes)).enter q name = .ok r ↔ s.enter q name = .ok r := by
  rw [enter_eq_ok_iff, enter_eq_ok_iff, get?_put_eq_directory_iff h.isDirectory_eq_false,
    follow_put h]

theorem foldlM_enter_put_eq_ok_iff (h : s.Writable p) (names : List String) :
    names.foldlM (s.put p (.file bytes)).enter q = .ok r ↔ names.foldlM s.enter q = .ok r := by
  induction names generalizing q with
  | nil => rfl
  | cons name names ih => simp only [List.foldlM_cons, bind_eq_ok_iff, enter_put_eq_ok_iff h, ih]

theorem locate_put_eq_ok_iff (h : s.Writable p) :
    (s.put p (.file bytes)).locate path = .ok r ↔ s.locate path = .ok r := by
  unfold locate
  split
  · rfl
  · simp only [bind_eq_ok_iff, follow_put h, foldlM_enter_put_eq_ok_iff h]

theorem locateFile_put_eq_ok_iff (h : s.Writable p) (bytes : List UInt8) :
    (s.put p (.file bytes)).locateFile path = .ok r ↔ s.locateFile path = .ok r := by
  simp only [locateFile, bind_eq_ok_iff, locate_put_eq_ok_iff h,
    isDirectory_put h.isDirectory_eq_false]

/-- Every step of a path follows links, so that none is left at its end. -/
theorem link?_of_foldlM_enter {names : List String} (hq : s.link? q = none)
    (h : names.foldlM s.enter q = .ok p) : s.link? p = none := by
  induction names generalizing q with
  | nil => exact Except.ok.inj h ▸ hq
  | cons name names ih =>
    obtain ⟨r, hr, h⟩ := bind_eq_ok_iff.mp h
    exact ih (link?_of_follow (enter_eq_ok_iff.mp hr).2) h

theorem link?_of_locate (h : s.locate path = .ok p) : s.link? p = none := by
  unfold locate at h
  split at h
  · cases h
  · obtain ⟨q, hq, h⟩ := bind_eq_ok_iff.mp h
    exact link?_of_foldlM_enter (link?_of_follow hq) h

-- a link, the way out of the working directory and the way from the root lead to one place
example :
    let s : Store := ⟨[(["in"], .file [49]), (["out"], .link ["in"]), ([".."], .link ["/"]),
      (["/", "here"], .link [])]⟩
    s.locate "out" = .ok ["in"] ∧ s.locate "../here/in" = .ok ["in"] ∧
      s.locate "/here/./out" = .ok ["in"] := by
  decide

theorem writable_of_locateFile (h : s.locateFile path = .ok p) : s.Writable p := by
  obtain ⟨q, hq, h⟩ := bind_eq_ok_iff.mp h
  split at h
  · cases h
  · rename_i hd
    obtain rfl := Except.ok.inj h
    exact ⟨by simpa using fun he => hd (.inr he), link?_of_locate hq⟩

theorem exists_openAppend_eq_ok (h : s.locateFile path = .ok p) :
    ∃ t, s.openAppend path = .ok (t, p) :=
  ⟨_, bind_eq_ok_iff.mpr ⟨p, h, rfl⟩⟩

theorem openAppend_eq_ok (h : s.openAppend path = .ok (t, p)) :
    s.locateFile path = .ok p ∧ t.IsFile p ∧ t.content p = s.content p ∧
      ∀ q, q ≠ p → t.get? q = s.get? q := by
  obtain ⟨q, hq, h⟩ := bind_eq_ok_iff.mp h
  obtain ⟨rfl, rfl⟩ := Prod.mk.inj (Except.ok.inj h)
  have hw := writable_of_locateFile hq
  have hd := hw.isDirectory_eq_false
  cases he : s.get? q with
  | none =>
    have hc : s.content q = [] := by simp [content, he]
    refine ⟨hq, ?_, ?_, ?_⟩
    · simpa [he] using isFile_put_self hw.isBase_eq_false
    · simp [content_put_self hw.isBase_eq_false, hc]
    · intro r hr
      simpa [he] using get?_put_ne hr
  | some e =>
    cases e with
    | file bytes => exact ⟨hq, ⟨bytes, by simp [he]⟩, by simp, by simp⟩
    | directory => simp [isDirectory, he] at hd
    | link target => exact absurd he (get?_ne_link hw.link?_eq_none target)

end RecordSieve.Store
