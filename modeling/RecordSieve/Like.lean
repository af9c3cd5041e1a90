/-! # Patterns

A pattern matches a text as a whole. In it `%` stands for any run of characters, `_` for any one
character, and every other character for itself. A pattern is read chunk by chunk, and a chunk
takes the first place where it fits, so that matching never goes back.
-/

namespace RecordSieve.Like

/-- A piece of a pattern without `%`, whether `%` comes before it, and the pattern from the next
`%` on. -/
structure Chunk where
  wildcard : Bool
  literal : List Char
  rest : List Char

def scanChunk (pattern : List Char) : Chunk :=
  let trimmed := pattern.dropWhile (· = '%')
  ⟨trimmed.length ≠ pattern.length, trimmed.takeWhile (· ≠ '%'), trimmed.dropWhile (· ≠ '%')⟩

theorem length_scanChunk_rest_lt {c : Char} {pattern : List Char} :
    (scanChunk (c :: pattern)).rest.length < (c :: pattern).length := by
  have shorter (p : Char → Bool) (s : List Char) : (s.dropWhile p).length ≤ s.length :=
    (List.dropWhile_suffix p).length_le
  by_cases hc : c = '%'
  · have h := Nat.le_trans (shorter (· ≠ '%') (pattern.dropWhile (· = '%'))) (shorter _ pattern)
    simpa [scanChunk, hc] using Nat.lt_succ_of_le h
  · have h := shorter (· ≠ '%') pattern
    simpa [scanChunk, hc] using Nat.lt_succ_of_le h

/-- What is left of a text after a chunk at its start. -/
def afterStart? : (chunk text : List Char) → Option (List Char)
  | [], t => some t
  | _ :: _, [] => none
  | c :: chunk, d :: t => if c = '_' ∨ c = d then afterStart? chunk t else none

/-- The same, but the last chunk of a pattern fits only if it leaves nothing. -/
def fitAt? (isLast : Bool) (chunk text : List Char) : Option (List Char) :=
  (afterStart? chunk text).filter fun tail => tail.isEmpty || !isLast

/-- What is left after the first place behind the start where a chunk fits. -/
def fitLater? (isLast : Bool) (chunk : List Char) : (text : List Char) → Option (List Char)
  | [] => none
  | _ :: t => (fitAt? isLast chunk t).or (fitLater? isLast chunk t)

def fits (pattern text : List Char) : Bool :=
  match pattern with
  | [] => text.isEmpty
  | c :: pattern =>
    let chunk := scanChunk (c :: pattern)
    if chunk.wildcard && chunk.literal.isEmpty then true
    else
      match fitAt? chunk.rest.isEmpty chunk.literal text with
      | some tail => fits chunk.rest tail
      | none =>
        if chunk.wildcard then
          match fitLater? chunk.rest.isEmpty chunk.literal text with
          | some tail => fits chunk.rest tail
          | none => false
        else false
termination_by pattern.length
decreasing_by all_goals exact length_scanChunk_rest_lt

def accepts (pattern text : String) : Bool := fits pattern.toList text.toList

end RecordSieve.Like
