import RecordSieve.Proofs.Expr.Balance
import RecordSieve.Proofs.Expr.Blame

/-! # Reading in place

The reading of expressions once more, with the tokens left where they are: a span is the range of
its places, and the search for an operator goes from place to place. Each token is looked up, each
slice is tested, and one can be taken only from what is not zero. None of this ever fails, since
all that is read of balanced tokens is balanced and in range, so that reading in place is the
reading of spans.
-/

namespace RecordSieve

open Expr.Parser

namespace Expr.InPlace

/-- The places from `start` on, up to and without `stop`. -/
structure Range where
  start : Nat
  stop : Nat
deriving DecidableEq, Repr

/-- A computation with the ranges that it reads, in the order in which they are begun. It has no
outcome if a token or a slice is looked up that is not there, or one is taken from zero. -/
structure Walk (α : Type) where
  visited : List Range
  outcome : Option (Except ParseError α)

namespace Walk

variable {α β : Type}

protected def bind (w : Walk α) (f : α → Walk β) : Walk β :=
  match w.outcome with
  | some (.ok a) => ⟨w.visited ++ (f a).visited, (f a).outcome⟩
  | some (.error e) => ⟨w.visited, some (.error e)⟩
  | none => ⟨w.visited, none⟩

instance : Monad Walk where
  pure a := ⟨[], some (.ok a)⟩
  bind := Walk.bind

def visit (r : Range) : Walk Unit := ⟨[r], some (.ok ())⟩

def ofResult (x : Except ParseError α) : Walk α := ⟨[], some x⟩

def require (o : Option α) : Walk α := ⟨[], o.map .ok⟩

end Walk

open Walk

def pred? : Nat → Option Nat
  | 0 => none
  | n + 1 => some n

def slice? (ts : List Token) (r : Range) : Option (List Token) :=
  if r.start ≤ r.stop ∧ r.stop ≤ ts.length then some (ts.extract r.start r.stop) else none

variable {α β : Type}

/-- The first of `count` places from `place` on, outside parentheses, where there is an operator in
its place. -/
def find? (ts : List Token) (operator? : Nat → Token → Option (Option α)) :
    (count place depth : Nat) → Option (Option (Nat × α))
  | 0, _, _ => some none
  | count + 1, place, depth => do
    let t ← ts[place]?
    if t.opens then find? ts operator? count (place + 1) (depth + 1)
    else if t.closes then find? ts operator? count (place + 1) (← pred? depth)
    else if depth ≠ 0 then find? ts operator? count (place + 1) depth
    else
      match ← operator? place t with
      | some op => some (some (place, op))
      | none => find? ts operator? count (place + 1) 0

def findIn? (ts : List Token) (operator? : Nat → Token → Option (Option α)) (r : Range) :
    Option (Option (Nat × α)) :=
  find? ts operator? (r.stop - r.start) r.start 0

def operationAt? (ts : List Token) (r : Range) (place : Nat) (t : Token) :
    Option (Option Operation) :=
  if t.operation?.isNone ∨ place = r.start ∨ place + 1 = r.stop then some none
  else do
    let previous ← ts[← pred? place]?
    return if previous.endsOperand then t.operation? else none

/-- Whether the first parenthesis that leaves none open ends the span. -/
def closesAtEnd? (depth : Nat) : List Token → Option Bool
  | [] => some false
  | t :: rest =>
    if t.opens then closesAtEnd? (depth + 1) rest
    else if t.closes then do
      let depth ← pred? depth
      if depth = 0 then some (rest = []) else closesAtEnd? depth rest
    else closesAtEnd? depth rest

def isEnclosed? (span : List Token) : Option Bool :=
  match span.head?, span.getLast? with
  | some first, some last =>
    if first.opens ∧ last.closes then closesAtEnd? 0 span else some false
  | _, _ => some false

def operands (ts : List Token) (read : Range → Walk Expr) (r : Range) (place : Nat)
    (needed : Capability) : Walk (Expr × Expr) := do
  let op ← require ts[place]?
  if place = r.start then ofResult (.error (.noOperand op .left))
  else if place + 1 = r.stop then ofResult (.error (.noOperand op .right))
  else
    let left ← read ⟨r.start, place⟩
    let right ← read ⟨place + 1, r.stop⟩
    ofResult (check op .left needed left)
    ofResult (check op .right needed right)
    return (left, right)

/-- Reads a range of two or more tokens, which are the span; its parts are left to `read`. -/
def readParts (ts : List Token) (read : Range → Walk Expr) (r : Range) (span : List Token) :
    Walk Expr := do
  if ← require (isEnclosed? span) then
    read ⟨r.start + 1, ← require (pred? r.stop)⟩
  else
    match ← require (findIn? ts (fun _ t => some t.connective?) r) with
    | some (place, op) => (fun (l, r) => .logical op l r) <$> operands ts read r place .predicate
    | none =>
    match ← require (findIn? ts (fun _ t => some t.comparison?) r) with
    | some (place, op) => (fun (l, r) => .compare op l r) <$> operands ts read r place op.needs
    | none =>
    match ← require (findIn? ts (operationAt? ts r) r) with
    | some (place, op) => (fun (l, r) => .arith op l r) <$> operands ts read r place .numeric
    | none =>
      let first ← require ts[r.start]?
      match first.sign? with
      | some negative => do
        let e ← read ⟨r.start + 1, r.stop⟩
        ofResult (check first .right .numeric e)
        return if negative then negate e else e
      | none => ofResult (keyTest span)

def read (ts : List Token) : (levels : Nat) → Range → Walk Expr
  | 0, r => do
    visit r
    ofResult (.error .tooDeep)
  | levels + 1, r => do
    visit r
    match ← require (slice? ts r) with
    | [] => ofResult (.error .empty)
    | [t] => ofResult (single t)
    | span => readParts ts (read ts levels) r span

def ofTokens (ts : List Token) : Walk Expr :=
  if isBalanced 0 ts then read ts (nestingLimit + 1) ⟨0, ts.length⟩
  else ofResult (.error (.unbalanced ts))

variable {ts span l m inner : List Token} {t : Token} {r : Range} {d place : Nat}

def Covers (ts : List Token) (r : Range) (span : List Token) : Prop :=
  ∃ before after, ts = before ++ (span ++ after) ∧
    r = ⟨before.length, before.length + span.length⟩

theorem covers_self (ts : List Token) : Covers ts ⟨0, ts.length⟩ ts :=
  ⟨[], [], by simp, by simp⟩

theorem Covers.stop_eq (h : Covers ts r span) : r.stop = r.start + span.length := by
  obtain ⟨before, after, -, rfl⟩ := h
  rfl

theorem Covers.part (h : Covers ts r span) (hs : span = l ++ (inner ++ m)) :
    Covers ts ⟨r.start + l.length, r.start + l.length + inner.length⟩ inner := by
  obtain ⟨before, after, rfl, rfl⟩ := h
  exact ⟨before ++ l, m ++ after, by simp [hs], by simp⟩

theorem Covers.after (h : Covers ts r span) (hs : span = l ++ t :: m) :
    Covers ts ⟨r.start + l.length + 1, r.stop⟩ m := by
  have hm := h.part (show span = (l ++ [t]) ++ (m ++ []) by simp [hs])
  have hstop : r.stop = r.start + (l.length + (m.length + 1)) := by simp [h.stop_eq, hs]
  simpa [hstop, Nat.add_assoc, Nat.add_comm 1] using hm

theorem Covers.getElem? (h : Covers ts r span) (hs : span = l ++ t :: m) :
    ts[r.start + l.length]? = some t := by
  obtain ⟨before, after, rfl, rfl⟩ := h
  simp [hs]

theorem Covers.slice? (h : Covers ts r span) : slice? ts r = some span := by
  obtain ⟨before, after, rfl, rfl⟩ := h
  simp [InPlace.slice?]

theorem slice?_eq_some_iff : slice? ts r = some span ↔
    (r.start ≤ r.stop ∧ r.stop ≤ ts.length) ∧ ts.extract r.start r.stop = span := by
  simp [slice?]

/-- The place and the operator of a cut in a span that starts at `place`. -/
def site (place : Nat) (c : Cut α) : Nat × α := (place + c.before.length, c.op)

theorem site_prepend (place : Nat) (t : Token) (c : Cut α) :
    site place (c.prepend [t]) = site (place + 1) c := by
  simp [site, Cut.prepend, Nat.add_assoc, Nat.add_comm 1]

theorem find?_eq {f : Option Token → Token → List Token → Option α}
    {operator? : Nat → Token → Option (Option α)} {prev : Option Token} {stop : Nat}
    (h : Covers ts ⟨place, stop⟩ span) (hb : isBalanced d span)
    (ho : ∀ l t m, span = l ++ t :: m →
      operator? (place + l.length) t = some (f (last prev l) t m)) :
    find? ts operator? span.length place d = some ((cut? f d prev span).map (site place)) := by
  induction span generalizing d place prev with
  | nil => rfl
  | cons t span ih =>
    have ht : ts[place]? = some t := h.getElem? (l := []) rfl
    have hspan : Covers ts ⟨place + 1, stop⟩ span := h.after (l := []) rfl
    -- wherever the search goes on, it does so with one more token before it
    have further {d : Nat} (hb : isBalanced d span) :
        find? ts operator? span.length (place + 1) d =
          some (((cut? f d (some t) span).map (·.prepend [t])).map (site place)) := by
      simp only [Option.map_map, Function.comp_def, site_prepend]
      apply ih hspan hb
      intro l u m hl
      have hop := ho (t :: l) u m (by rw [hl]; rfl)
      rwa [List.length_cons, ← Nat.add_assoc, Nat.add_right_comm, last_cons] at hop
    rw [List.length_cons, find?, ht]
    simp only [Option.bind_eq_bind, Option.bind_some]
    rw [isBalanced] at hb
    cases hopens : t.opens with
    | true =>
      rw [hopens, if_pos rfl] at hb
      rw [if_pos rfl, cut?_of_opens hopens]
      exact further hb
    | false =>
      simp only [hopens, Bool.false_eq_true, if_false] at hb ⊢
      cases hcloses : t.closes with
      | true =>
        simp only [hcloses, if_true, Bool.and_eq_true, decide_eq_true_eq] at hb ⊢
        cases d with
        | zero => exact absurd rfl hb.1
        | succ d =>
          rw [cut?_of_closes hcloses]
          exact further hb.2
      | false =>
        simp only [hcloses, Bool.false_eq_true, if_false] at hb ⊢
        cases d with
        | succ d =>
          rw [if_pos d.succ_ne_zero, cut?_of_pos hopens hcloses]
          exact further hb
        | zero =>
          rw [if_neg (not_not_intro rfl)]
          have hop : operator? place t = some (f prev t span) := ho [] t span rfl
          rw [hop]
          cases hf : f prev t span with
          | none =>
            rw [cut?_of_none hopens hcloses hf]
            exact further hb
          | some op =>
            rw [cut?_of_some hopens hcloses hf]
            rfl

theorem findIn?_eq {f : Option Token → Token → List Token → Option α}
    {operator? : Nat → Token → Option (Option α)} (h : Covers ts r span) (hc : Closed span)
    (ho : ∀ l t m, span = l ++ t :: m →
      operator? (r.start + l.length) t = some (f (last none l) t m)) :
    findIn? ts operator? r = some ((cut? f 0 none span).map (site r.start)) := by
  rw [findIn?, h.stop_eq, Nat.add_sub_cancel_left]
  exact find?_eq h hc.isBalanced ho

theorem operationAt?_eq (h : Covers ts r span) (hs : span = l ++ t :: m) :
    operationAt? ts r (r.start + l.length) t = some (operationInPlace? (last none l) t m) := by
  have hstop : r.start + l.length + 1 = r.stop ↔ m = [] := by
    rw [h.stop_eq, hs, ← List.length_eq_zero_iff]
    simp only [List.length_append, List.length_cons]
    omega
  simp only [operationAt?, hstop]
  -- with nothing before the place there is no place before it to look up
  rcases List.eq_nil_or_concat l with rfl | ⟨k, p, rfl⟩
  · simp [operationInPlace?]
  · have hp : ts[r.start + k.length]? = some p := h.getElem? (m := t :: m) (by simp [hs])
    have hlast : last none (k ++ [p]) = some p := by simp [last]
    simp only [List.concat_eq_append, hlast, operationInPlace?]
    by_cases hm : m = []
    · simp [hm]
    · cases t.operation? <;> simp [hm, pred?, hp]

theorem closesAtEnd?_eq (h : isBalanced (d + 1) span) :
    closesAtEnd? (d + 1) span = some (untilLast? d span).isSome := by
  induction span generalizing d with
  | nil => simp [isBalanced] at h
  | cons t span ih =>
    rw [isBalanced] at h
    unfold closesAtEnd? untilLast?
    cases hopens : t.opens with
    | true =>
      rw [hopens, if_pos rfl] at h
      simp [ih h]
    | false =>
      simp only [hopens, Bool.false_eq_true, if_false] at h ⊢
      cases hcloses : t.closes with
      | true =>
        simp only [hcloses, if_true, Bool.and_eq_true] at h ⊢
        cases d with
        | zero => by_cases hs : span = [] <;> simp [pred?, hs]
        | succ d => simp [pred?, ih h.2]
      | false =>
        simp only [hcloses, Bool.false_eq_true, if_false] at h ⊢
        simp [ih h]

theorem isEnclosed?_eq (h : Closed span) : isEnclosed? span = some (enclosed? span).isSome := by
  cases span with
  | nil => rfl
  | cons t span =>
    have hlast : (t :: span).getLast? = some ((t :: span).getLast (List.cons_ne_nil _ _)) :=
      List.getLast?_eq_some_getLast _
    rw [isEnclosed?, List.head?_cons, hlast]
    generalize (t :: span).getLast (List.cons_ne_nil _ _) = last at hlast
    cases ho : t.opens with
    | false => simp [enclosed?, ho]
    | true =>
      cases hc : last.closes with
      | true =>
        have hb := h.isBalanced
        rw [isBalanced, if_pos ho] at hb
        simpa [enclosed?, closesAtEnd?, ho, hc] using closesAtEnd?_eq hb
      | false =>
        -- an enclosed span would end with the parenthesis that closes it
        cases he : enclosed? (t :: span) with
        | none => simp [hc]
        | some inner =>
          obtain ⟨t, u, -, hu, hs⟩ := exists_of_enclosed? he
          obtain rfl : u = last := by simpa [hs, List.getLast?_cons] using hlast
          simp [hu] at hc

namespace Walk

variable {p : Range → Prop} {w : Walk α} {x : Except ParseError α} {f : α → Walk β}
  {g : α → Except ParseError β}

/-- The computation comes to the result, and `p` holds of all that it reads. -/
structure Gives (p : Range → Prop) (w : Walk α) (x : Except ParseError α) : Prop where
  visited : ∀ r ∈ w.visited, p r
  outcome : w.outcome = some x

theorem gives_ofResult (x : Except ParseError α) : Gives p (ofResult x) x where
  visited := by simp [ofResult]
  outcome := rfl

theorem gives_visit (h : p r) : Gives p (visit r) (.ok ()) where
  visited := by simpa [visit] using h
  outcome := rfl

theorem Gives.bind (h : Gives p w x) (hf : ∀ a, Gives p (f a) (g a)) :
    Gives p (w >>= f) (x >>= g) := by
  obtain ⟨visited, outcome⟩ := w
  obtain ⟨hv, rfl⟩ := h
  cases x with
  | error e => exact ⟨hv, rfl⟩
  | ok a =>
    obtain ⟨hfv, hfo⟩ := hf a
    exact ⟨List.forall_mem_append.mpr ⟨hv, hfv⟩, hfo⟩

theorem Gives.map (h : Gives p w x) (f : α → β) : Gives p (f <$> w) (f <$> x) := by
  rw [map_eq_pure_bind f x]
  exact h.bind fun a => gives_ofResult (.ok (f a))

theorem require_some_bind (a : α) (f : α → Walk β) : require (some a) >>= f = f a := rfl

end Walk

/-- The range is one of balanced tokens. -/
def IsProper (ts : List Token) (r : Range) : Prop := ∃ span, Covers ts r span ∧ Closed span

variable {levels : Nat} {needed : Capability} {c : Cut α}

theorem Covers.isProper (h : Covers ts r span) (hc : Closed span) : IsProper ts r :=
  ⟨span, h, hc⟩

section Parts

variable {walk : Range → Walk Expr} {readSpan : List Token → Except ParseError Expr}

theorem gives_operands (ih : ∀ {r span}, Covers ts r span → Closed span →
      (walk r).Gives (IsProper ts) (readSpan span))
    (h : Covers ts r span) (hs : span = c.before ++ c.token :: c.after)
    (hc : Closed c.before ∧ Closed c.after) :
    (operands ts walk r (r.start + c.before.length) needed).Gives (IsProper ts)
      (sides readSpan c needed) := by
  have ht : ts[r.start + c.before.length]? = some c.token := h.getElem? hs
  have hleft : Covers ts ⟨r.start, r.start + c.before.length⟩ c.before :=
    h.part (l := []) (by simpa using hs)
  have hright : Covers ts ⟨r.start + c.before.length + 1, r.stop⟩ c.after := h.after hs
  have hstop : r.start + c.before.length + 1 = r.stop ↔ c.after = [] := by
    rw [hright.stop_eq, ← List.length_eq_zero_iff]
    simp only
    omega
  simp only [operands, sides, ht, require_some_bind, hstop, Nat.add_eq_left,
    List.length_eq_zero_iff]
  split
  · exact gives_ofResult _
  · split
    · exact gives_ofResult _
    · refine (ih hleft hc.1).bind fun l => (ih hright hc.2).bind fun r => ?_
      refine (gives_ofResult _).bind fun _ => (gives_ofResult _).bind fun _ => ?_
      exact gives_ofResult _

theorem gives_readParts (ih : ∀ {r span}, Covers ts r span → Closed span →
      (walk r).Gives (IsProper ts) (readSpan span))
    (h : Covers ts r span) (hc : Closed span) (hn : 2 ≤ span.length) :
    (readParts ts walk r span).Gives (IsProper ts) (readForm readSpan span (form span)) := by
  -- each search finds the place at which the span is cut
  have hlogical : findIn? ts (fun _ t => some t.connective?) r =
      some ((logicalCut? span).map (site r.start)) := findIn?_eq h hc fun _ _ _ _ => rfl
  have hcompare : findIn? ts (fun _ t => some t.comparison?) r =
      some ((comparisonCut? span).map (site r.start)) := findIn?_eq h hc fun _ _ _ _ => rfl
  have harith : findIn? ts (operationAt? ts r) r =
      some ((operationCut? span).map (site r.start)) :=
    findIn?_eq h hc fun _ _ _ => operationAt?_eq h
  unfold readParts
  rw [isEnclosed?_eq hc, hlogical, hcompare, harith]
  simp only [require_some_bind]
  cases hf : form span with
  | empty =>
    obtain rfl : span = [] := form_eq_iff.mp hf
    simp at hn
  | single t =>
    obtain rfl : span = [t] := form_eq_iff.mp hf
    simp at hn
  | group inner =>
    have he : enclosed? span = some inner := form_eq_iff.mp hf
    obtain ⟨t, u, -, -, hs⟩ := exists_of_enclosed? he
    have hinner := h.part (l := [t]) (m := [u]) hs
    have hstop : pred? r.stop = some (r.start + [t].length + inner.length) := by
      simp [h.stop_eq, hs, pred?, Nat.add_assoc, Nat.add_comm 1]
    rw [he, hstop]
    exact ih hinner (hc.of_enclosed? he)
  | logical c =>
    obtain ⟨-, he, hl⟩ := form_eq_iff.mp hf
    rw [he, hl]
    exact (gives_operands ih h (exists_of_cut? hl).1 (hc.of_cut? hl)).map _
  | compare c =>
    obtain ⟨-, he, hl, hcut⟩ := form_eq_iff.mp hf
    rw [he, hl, hcut]
    exact (gives_operands ih h (exists_of_cut? hcut).1 (hc.of_cut? hcut)).map _
  | arith c =>
    obtain ⟨-, he, hl, hcmp, hcut⟩ := form_eq_iff.mp hf
    rw [he, hl, hcmp, hcut]
    exact (gives_operands ih h (exists_of_cut? hcut).1 (hc.of_cut? hcut)).map _
  | signed t negative operand =>
    obtain ⟨rfl, -, hw, hsign⟩ := form_eq_iff.mp hf
    have hfirst : ts[r.start]? = some t := h.getElem? (l := []) rfl
    have hopens : t.opens = false := by
      rw [sign?_eq_some_iff.mp hsign]
      rfl
    rw [hw.enclosed, hw.logical, hw.comparison, hw.operation]
    simp only [Option.isSome_none, Bool.false_eq_true, if_false, Option.map_none, hfirst,
      require_some_bind, hsign]
    refine (ih (h.after (l := []) rfl) (hc.of_cons hopens)).bind fun e => ?_
    exact (gives_ofResult _).bind fun _ => gives_ofResult _
  | test =>
    obtain ⟨t, rest, rfl, -, hw, hsign⟩ := form_eq_iff.mp hf
    have hfirst : ts[r.start]? = some t := h.getElem? (l := []) rfl
    rw [hw.enclosed, hw.logical, hw.comparison, hw.operation]
    simp only [Option.isSome_none, Bool.false_eq_true, if_false, Option.map_none, hfirst,
      require_some_bind, hsign]
    exact gives_ofResult _

end Parts

theorem gives_read (h : Covers ts r span) (hc : Closed span) :
    (read ts levels r).Gives (IsProper ts) (ofSpan levels span) := by
  induction levels generalizing r span with
  | zero => exact (gives_visit (h.isProper hc)).bind fun _ => gives_ofResult (.error .tooDeep)
  | succ levels ih =>
    refine (gives_visit (h.isProper hc)).bind (g := fun _ => ofSpan (levels + 1) span) fun _ => ?_
    rw [h.slice?, require_some_bind]
    match span with
    | [] => exact gives_ofResult (.error .empty)
    | [t] => exact gives_ofResult (single t)
    | t :: u :: rest =>
      rw [ofSpan_succ]
      exact gives_readParts ih h hc (by simp)

theorem gives_ofTokens (ts : List Token) :
    (ofTokens ts).Gives (IsProper ts) (Expr.ofTokens ts) := by
  unfold ofTokens Expr.ofTokens
  split
  · rename_i hb
    exact gives_read (covers_self ts) (isBalanced_iff_closed.mp hb)
  · exact gives_ofResult _

theorem IsProper.in_range (h : IsProper ts r) : r.start ≤ r.stop ∧ r.stop ≤ ts.length ∧
    Balanced (ts.extract r.start r.stop) := by
  obtain ⟨span, hr, hc⟩ := h
  obtain ⟨⟨hle, hlen⟩, hs⟩ := slice?_eq_some_iff.mp hr.slice?
  refine ⟨hle, hlen, ?_⟩
  rw [hs]
  exact isBalanced_iff.mp hc.isBalanced

theorem head?_visited_read (ts : List Token) (levels : Nat) (r : Range) :
    (read ts levels r).visited.head? = some r := by
  cases levels <;> rfl

theorem visited_ofTokens (ts : List Token) : (ofTokens ts).visited.head? =
    if isBalanced 0 ts then some ⟨0, ts.length⟩ else none := by
  unfold ofTokens
  split
  · exact head?_visited_read _ _ _
  · rfl

end InPlace

/-- Unbalanced tokens are told before anything else, and nothing but them is told as unbalanced. -/
theorem ofTokens_eq_unbalanced_iff {ts span : List Token} :
    ofTokens ts = .error (.unbalanced span) ↔ ¬ Balanced ts ∧ span = ts := by
  rw [← isBalanced_iff]
  unfold ofTokens
  split
  · rename_i hb
    constructor
    · intro h
      cases blames_of_ofSpan h
    · rintro ⟨hn, -⟩
      exact absurd hb hn
  · rename_i hb
    simp [hb, eq_comm]

/-- Reading in place is the reading of spans: no token is looked up that is not there, no slice is
out of range, and one is never taken from zero. All ranges that are read are in range and hold
balanced tokens. Tokens that are not balanced are the error, before any range is read. -/
theorem InPlace.ofTokens_in_range (ts : List Token) :
    (InPlace.ofTokens ts).outcome = some (Expr.ofTokens ts) ∧
    (∀ r ∈ (InPlace.ofTokens ts).visited, r.start ≤ r.stop ∧ r.stop ≤ ts.length ∧
      Balanced (ts.extract r.start r.stop)) ∧
    ((InPlace.ofTokens ts).visited.head? = some ⟨0, ts.length⟩ ↔ Balanced ts) ∧
    ((InPlace.ofTokens ts).visited = [] ↔ ¬ Balanced ts) ∧
    ∀ span, Expr.ofTokens ts = .error (.unbalanced span) ↔ ¬ Balanced ts ∧ span = ts := by
  obtain ⟨hv, ho⟩ := gives_ofTokens ts
  refine ⟨ho, fun r hr => (hv r hr).in_range, ?_, ?_, fun _ => ofTokens_eq_unbalanced_iff⟩
  · rw [visited_ofTokens, ← isBalanced_iff]
    split <;> simp_all
  · rw [← List.head?_eq_none_iff, visited_ofTokens, ← isBalanced_iff]
    split <;> simp_all

/-- `(a + b) * -c`, where the right side is read without its sign last. -/
example : (InPlace.ofTokens [⟨.leftParen, "("⟩, ⟨.word, "a"⟩, ⟨.operator, "+"⟩, ⟨.word, "b"⟩,
    ⟨.rightParen, ")"⟩, ⟨.operator, "*"⟩, ⟨.operator, "-"⟩, ⟨.word, "c"⟩]).visited =
      [⟨0, 8⟩, ⟨0, 5⟩, ⟨1, 4⟩, ⟨1, 2⟩, ⟨3, 4⟩, ⟨6, 8⟩, ⟨7, 8⟩] := rfl

end Expr

end RecordSieve
