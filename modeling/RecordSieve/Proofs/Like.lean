import Mathlib.Data.List.Infix
import Mathlib.Data.List.TakeWhile
import RecordSieve.Like

/-! # First fits and backtracking

Matching chunk by chunk takes the first place where a chunk fits and never goes back. Any other
place leaves a suffix of what the first one leaves, and a pattern that goes on with `%` matches a
text if it matches a suffix of it, so nothing is lost against trying every place.
-/

namespace RecordSieve.Like

/-- Matching by its definition, character by character, where `%` tries every suffix. -/
inductive Matches : (pattern text : List Char) → Prop
  | nil : Matches [] []
  | run {p s t : List Char} : s <:+ t → Matches p s → Matches ('%' :: p) t
  | one {p t : List Char} {d : Char} : Matches p t → Matches ('_' :: p) (d :: t)
  | char {p t : List Char} {c : Char} : c ≠ '%' → c ≠ '_' → Matches p t →
      Matches (c :: p) (c :: t)

variable {chunk pattern rest r s t u : List Char} {isLast : Bool}

theorem matches_nil_iff : Matches [] t ↔ t = [] := by
  constructor
  · rintro ⟨⟩; rfl
  · rintro rfl; exact .nil

theorem matches_run_iff : Matches ('%' :: pattern) t ↔ ∃ s, s <:+ t ∧ Matches pattern s := by
  constructor
  · intro h
    cases h with
    | run hs hm => exact ⟨_, hs, hm⟩
    | char hc => exact (hc rfl).elim
  · rintro ⟨s, hs, hm⟩
    exact .run hs hm

theorem matches_cons_iff {c : Char} (hc : c ≠ '%') :
    Matches (c :: pattern) t ↔ ∃ d r, t = d :: r ∧ (c = '_' ∨ c = d) ∧ Matches pattern r := by
  constructor
  · intro h
    cases h with
    | run => exact (hc rfl).elim
    | one hm => exact ⟨_, _, rfl, .inl rfl, hm⟩
    | char _ _ hm => exact ⟨_, _, rfl, .inr rfl, hm⟩
  · rintro ⟨d, r, rfl, h, hm⟩
    by_cases h' : c = '_'
    · subst h'; exact .one hm
    · obtain rfl := h.resolve_left h'
      exact .char hc h' hm

theorem Matches.of_suffix (hs : s <:+ t) (h : Matches ('%' :: pattern) s) :
    Matches ('%' :: pattern) t := by
  obtain ⟨r, hr, hm⟩ := matches_run_iff.mp h
  exact .run (hr.trans hs) hm

theorem afterStart?_eq_some (h : afterStart? chunk t = some s) :
    s <:+ t ∧ t.length = chunk.length + s.length := by
  induction chunk generalizing t with
  | nil =>
    obtain rfl : t = s := by simpa [afterStart?] using h
    exact ⟨List.suffix_refl t, by simp⟩
  | cons c chunk ih =>
    cases t with
    | nil => simp [afterStart?] at h
    | cons d t =>
      simp only [afterStart?, Option.ite_none_right_eq_some] at h
      obtain ⟨hs, hl⟩ := ih h.2
      exact ⟨hs.trans (List.suffix_cons d t), by simp only [List.length_cons]; omega⟩

theorem matches_append_iff (hc : '%' ∉ chunk) :
    Matches (chunk ++ pattern) t ↔ ∃ s, afterStart? chunk t = some s ∧ Matches pattern s := by
  induction chunk generalizing t with
  | nil => simp [afterStart?]
  | cons c chunk ih =>
    obtain ⟨hne, hchunk⟩ := List.ne_and_not_mem_of_not_mem_cons hc
    rw [List.cons_append, matches_cons_iff hne.symm]
    cases t with
    | nil => simp [afterStart?]
    | cons d t =>
      simp only [List.cons.injEq, afterStart?, Option.ite_none_right_eq_some, and_assoc,
        exists_and_left, ← ih hchunk]
      constructor
      · rintro ⟨_, rfl, _, rfl, h⟩
        exact h
      · exact fun h => ⟨d, rfl, t, rfl, h⟩

theorem matches_replicate_iff (n : Nat) :
    Matches (List.replicate (n + 1) '%' ++ pattern) t ↔ Matches ('%' :: pattern) t := by
  induction n with
  | zero => rfl
  | succ n ih =>
    rw [← ih, List.replicate_succ, List.cons_append]
    constructor
    · intro h
      obtain ⟨s, hs, hm⟩ := matches_run_iff.mp h
      rw [List.replicate_succ, List.cons_append] at hm ⊢
      exact hm.of_suffix hs
    · exact fun h => .run (List.suffix_refl t) h

theorem fitAt?_eq_some_iff :
    fitAt? isLast chunk t = some s ↔ afterStart? chunk t = some s ∧ (isLast → s = []) := by
  rw [fitAt?, Option.filter_eq_some_iff]
  cases isLast <;> simp

theorem fitAt?_eq_some (h : fitAt? isLast chunk t = some s) :
    s <:+ t ∧ t.length = chunk.length + s.length :=
  afterStart?_eq_some (fitAt?_eq_some_iff.mp h).1

theorem matches_fitAt?_iff (hc : '%' ∉ chunk) :
    Matches (chunk ++ rest) t ↔ ∃ s, fitAt? rest.isEmpty chunk t = some s ∧ Matches rest s := by
  rw [matches_append_iff hc]
  constructor
  · rintro ⟨s, hs, hm⟩
    refine ⟨s, fitAt?_eq_some_iff.mpr ⟨hs, fun hr => ?_⟩, hm⟩
    rw [List.isEmpty_iff.mp hr] at hm
    exact matches_nil_iff.mp hm
  · rintro ⟨s, hs, hm⟩
    exact ⟨s, (fitAt?_eq_some_iff.mp hs).1, hm⟩

/-- What is left after the first place where a chunk fits, the start of the text among them. -/
def fitFirst? (isLast : Bool) (chunk text : List Char) : Option (List Char) :=
  (fitAt? isLast chunk text).or (fitLater? isLast chunk text)

theorem fitFirst?_nil : fitFirst? isLast chunk [] = fitAt? isLast chunk [] :=
  Option.or_none

theorem fitFirst?_eq_none (h : fitFirst? isLast chunk t = none) (hu : u <:+ t) :
    fitAt? isLast chunk u = none := by
  induction t with
  | nil =>
    obtain rfl := List.suffix_nil.mp hu
    rwa [fitFirst?_nil] at h
  | cons d t ih =>
    obtain ⟨h₁, h₂⟩ := Option.or_eq_none_iff.mp h
    rcases List.suffix_cons_iff.mp hu with rfl | hu
    · exact h₁
    · exact ih h₂ hu

theorem exists_of_fitFirst? (h : fitFirst? isLast chunk t = some s) :
    ∃ u, u <:+ t ∧ fitAt? isLast chunk u = some s := by
  induction t with
  | nil =>
    rw [fitFirst?_nil] at h
    exact ⟨[], List.suffix_refl _, h⟩
  | cons d t ih =>
    rcases Option.or_eq_some_iff.mp h with h | ⟨-, h⟩
    · exact ⟨_, List.suffix_refl _, h⟩
    · obtain ⟨u, hu, h⟩ := ih h
      exact ⟨u, hu.trans (List.suffix_cons d t), h⟩

/-- What any fit of a chunk leaves is a suffix of what the first fit leaves. -/
theorem suffix_of_fitFirst? (h : fitFirst? isLast chunk t = some s) (hu : u <:+ t)
    (hr : fitAt? isLast chunk u = some r) : r <:+ s := by
  induction t with
  | nil =>
    obtain rfl := List.suffix_nil.mp hu
    rw [fitFirst?_nil, hr] at h
    rw [Option.some.inj h]
  | cons d t ih =>
    rcases Option.or_eq_some_iff.mp h with h | ⟨hn, h⟩
    · obtain ⟨hs, hsl⟩ := fitAt?_eq_some h
      obtain ⟨hru, hrl⟩ := fitAt?_eq_some hr
      have := hu.length_le
      exact List.suffix_of_suffix_length_le (hru.trans hu) hs (by omega)
    · rcases List.suffix_cons_iff.mp hu with rfl | hu
      · simp [hn] at hr
      · exact ih h hu

/-- The first fit of a chunk is as good as any other: either nothing may be left, or the pattern
goes on with `%`. -/
theorem matches_run_append_iff (hc : '%' ∉ chunk) (hr : ∀ c ∈ rest.head?, c = '%') :
    Matches ('%' :: (chunk ++ rest)) t ↔
      ∃ s, fitFirst? rest.isEmpty chunk t = some s ∧ Matches rest s := by
  rw [matches_run_iff]
  constructor
  · rintro ⟨u, hu, h⟩
    obtain ⟨r, hfit, hm⟩ := (matches_fitAt?_iff hc).mp h
    cases hf : fitFirst? rest.isEmpty chunk t with
    | none => simp [fitFirst?_eq_none hf hu] at hfit
    | some s =>
      have hs := suffix_of_fitFirst? hf hu hfit
      refine ⟨s, rfl, ?_⟩
      cases rest with
      | nil =>
        obtain ⟨v, -, hv⟩ := exists_of_fitFirst? hf
        exact matches_nil_iff.mpr ((fitAt?_eq_some_iff.mp hv).2 rfl)
      | cons c rest =>
        obtain rfl := hr c rfl
        exact hm.of_suffix hs
  · rintro ⟨s, hf, hm⟩
    obtain ⟨u, hu, h⟩ := exists_of_fitFirst? hf
    exact ⟨u, hu, (matches_fitAt?_iff hc).mpr ⟨s, h, hm⟩⟩

/-- The pattern is `n` times `%`, the chunk, and the rest. -/
structure Scanned (pattern : List Char) (n : Nat) (chunk : Chunk) : Prop where
  pattern_eq : pattern = List.replicate n '%' ++ (chunk.literal ++ chunk.rest)
  wildcard_iff : chunk.wildcard ↔ n ≠ 0
  not_mem : '%' ∉ chunk.literal
  head_rest : ∀ c ∈ chunk.rest.head?, c = '%'
  rest_eq_nil : chunk.literal = [] → chunk.rest = []

theorem scanned_scanChunk (pattern : List Char) :
    Scanned pattern (pattern.takeWhile (· = '%')).length (scanChunk pattern) := by
  have hparts : pattern.takeWhile (· = '%') ++ pattern.dropWhile (· = '%') = pattern :=
    List.takeWhile_append_dropWhile
  constructor
  · have hrun : ∀ c ∈ pattern.takeWhile (· = '%'), c = '%' := fun c hc =>
      of_decide_eq_true (List.mem_takeWhile_imp (p := (· = '%')) hc)
    rw [← List.eq_replicate_of_mem hrun, scanChunk, List.takeWhile_append_dropWhile, hparts]
  · have hlen := congrArg List.length hparts
    rw [List.length_append] at hlen
    simp only [scanChunk, decide_eq_true_eq]
    omega
  · intro hm
    have := List.mem_takeWhile_imp hm
    simp at this
  · intro c hc
    have hrest := List.head?_dropWhile_not (· ≠ '%') (pattern.dropWhile (· = '%'))
    simp only [scanChunk] at hc
    rw [Option.mem_def.mp hc] at hrest
    simpa using hrest
  · intro hl
    have hhead := List.head?_dropWhile_not (· = '%') pattern
    simp only [scanChunk] at hl ⊢
    cases hd : pattern.dropWhile (· = '%') with
    | nil => rfl
    | cons c trimmed => simp_all

namespace Scanned

variable {n : Nat} {c : Chunk}

theorem matches_iff_of_not_wildcard (h : Scanned pattern n c) (hw : ¬ c.wildcard) :
    Matches pattern t ↔ ∃ s, fitAt? c.rest.isEmpty c.literal t = some s ∧ Matches c.rest s := by
  obtain rfl : n = 0 := not_not.mp fun hn => hw (h.wildcard_iff.mpr hn)
  rw [h.pattern_eq]
  exact matches_fitAt?_iff h.not_mem

theorem matches_iff_of_wildcard (h : Scanned pattern n c) (hw : c.wildcard) :
    Matches pattern t ↔ ∃ s, fitFirst? c.rest.isEmpty c.literal t = some s ∧ Matches c.rest s := by
  obtain ⟨k, rfl⟩ := Nat.exists_eq_add_one_of_ne_zero (h.wildcard_iff.mp hw)
  rw [h.pattern_eq, matches_replicate_iff]
  exact matches_run_append_iff h.not_mem h.head_rest

theorem matches_of_trailing (h : Scanned pattern n c) (hw : c.wildcard) (hl : c.literal = []) :
    Matches pattern t := by
  obtain ⟨k, rfl⟩ := Nat.exists_eq_add_one_of_ne_zero (h.wildcard_iff.mp hw)
  rw [h.pattern_eq, hl, h.rest_eq_nil hl, matches_replicate_iff]
  exact .run List.nil_suffix .nil

end Scanned

theorem fits_iff : fits pattern t ↔ Matches pattern t := by
  fun_induction fits pattern t with
  | case1 t => rw [matches_nil_iff, List.isEmpty_iff]
  | case2 t c pattern chunk htrailing =>
    obtain ⟨hw, hl⟩ := Bool.and_eq_true_iff.mp htrailing
    simpa using (scanned_scanChunk (c :: pattern)).matches_of_trailing hw (List.isEmpty_iff.mp hl)
  | case3 t c pattern chunk _ tail hfit ih =>
    have hs : Scanned _ _ chunk := scanned_scanChunk (c :: pattern)
    by_cases hw : chunk.wildcard
    · have hfirst : fitFirst? chunk.rest.isEmpty chunk.literal t = some tail := by
        rw [fitFirst?, hfit, Option.some_or]
      simp [hs.matches_iff_of_wildcard hw, hfirst, ih]
    · simp [hs.matches_iff_of_not_wildcard hw, hfit, ih]
  | case4 t c pattern chunk _ hfit hw tail hlater ih =>
    have hfirst : fitFirst? chunk.rest.isEmpty chunk.literal t = some tail := by
      rw [fitFirst?, hfit, Option.none_or, hlater]
    have hs : Scanned _ _ chunk := scanned_scanChunk (c :: pattern)
    simp [hs.matches_iff_of_wildcard hw, hfirst, ih]
  | case5 t c pattern chunk _ hfit hw hlater =>
    have hfirst : fitFirst? chunk.rest.isEmpty chunk.literal t = none := by
      rw [fitFirst?, hfit, Option.none_or, hlater]
    have hs : Scanned _ _ chunk := scanned_scanChunk (c :: pattern)
    simp [hs.matches_iff_of_wildcard hw, hfirst]
  | case6 t c pattern chunk _ hfit hw =>
    have hs : Scanned _ _ chunk := scanned_scanChunk (c :: pattern)
    simp [hs.matches_iff_of_not_wildcard hw, hfit]

/-- Matching by chunks is matching by definition. -/
theorem accepts_iff_matches (pattern text : String) :
    accepts pattern text ↔ Matches pattern.toList text.toList :=
  fits_iff

example : accepts "a%ab_%" "aabbabc" := by decide +kernel

end RecordSieve.Like
