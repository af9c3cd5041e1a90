/-! # Blank characters

White space in the sense of Unicode's `White_Space` property, and trimming it off both ends of a
text. A trimmed text neither starts nor ends with a blank.
-/

namespace RecordSieve.Text

/-- The characters of Unicode's `White_Space` property. -/
def isBlank (c : Char) : Bool :=
  let n := c.toNat
  (9 ≤ n && n ≤ 13) || n == 0x20 || n == 0x85 || n == 0xA0 || n == 0x1680 ||
    (0x2000 ≤ n && n ≤ 0x200A) || n == 0x2028 || n == 0x2029 || n == 0x202F || n == 0x205F ||
    n == 0x3000

def trim (s : List Char) : List Char :=
  ((s.dropWhile isBlank).reverse.dropWhile isBlank).reverse

theorem dropWhile_isBlank_eq_nil_iff {s : List Char} :
    s.dropWhile isBlank = [] ↔ ∀ c ∈ s, isBlank c := by
  induction s with
  | nil => simp
  | cons c r ih => by_cases h : isBlank c <;> simp [h, ih]

theorem mem_dropWhile_isBlank {s : List Char} {c : Char} (hc : c ∈ s) (hb : isBlank c = false) :
    c ∈ s.dropWhile isBlank := by
  induction s with
  | nil => simp at hc
  | cons d r ih =>
    rcases List.mem_cons.1 hc with rfl | h
    · simp [hb]
    · by_cases hd : isBlank d <;> simp [hd, h, ih]

theorem trim_eq_nil_iff {s : List Char} : trim s = [] ↔ ∀ c ∈ s, isBlank c := by
  constructor
  · intro h c hc
    cases hb : isBlank c with
    | true => rfl
    | false =>
      have : c ∈ trim s := by
        simpa [trim] using
          mem_dropWhile_isBlank (List.mem_reverse.2 (mem_dropWhile_isBlank hc hb)) hb
      simp [h] at this
  · intro h
    simp [trim, dropWhile_isBlank_eq_nil_iff.2 h]

end RecordSieve.Text
