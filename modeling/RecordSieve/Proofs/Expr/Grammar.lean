import RecordSieve.Proofs.Expr.KeyTest
import RecordSieve.Proofs.Expr.Spans

/-! # The grammar of expressions

Derivations as trees over tokens, with the tokens they derive, the expression they stand for and
their height. The grammar has four nonterminals, from the loosest to the tightest, and a search for
the operators of one tier passes over all that is derived from a tighter nonterminal.
-/

namespace RecordSieve

/-- A derivation. Operators come with the tokens that spell them. -/
inductive Phrase
  | string (s : String)
  | number (s : String) (x : Binary64)
  | word (w : String)
  | group (l : Token) (inner : Phrase) (r : Token)
  | signed (negative : Bool) (operand : Phrase)
  | test (key : String) (rest : List Token) (negated : Bool) (f : FieldTest)
  | logical (left : Phrase) (t : Token) (op : Connective) (right : Phrase)
  | compare (left : Phrase) (t : Token) (op : Comparison) (right : Phrase)
  | arith (left : Phrase) (t : Token) (op : Operation) (right : Phrase)

inductive Nonterminal
  | expression
  | clause
  | sum
  | unit

namespace Phrase

open Expr.Parser

def signToken (negative : Bool) : Token := ⟨.operator, if negative then "-" else "+"⟩

def tokens : Phrase → List Token
  | string s => [⟨.string, s⟩]
  | number s _ => [⟨.number, s⟩]
  | word w => [⟨.word, w⟩]
  | group l p r => l :: (p.tokens ++ [r])
  | signed negative p => signToken negative :: p.tokens
  | test key rest _ _ => ⟨.word, key⟩ :: rest
  | logical l t _ r | compare l t _ r | arith l t _ r => l.tokens ++ t :: r.tokens

/-- The expression that is stood for. Parentheses and a plus leave no trace in it. -/
def tree : Phrase → Expr
  | string s => .text s
  | number _ x => .number x
  | word w => .field w
  | group _ p _ => p.tree
  | signed negative p => if negative then negate p.tree else p.tree
  | test key _ negated f => .test key negated f
  | logical l _ op r => .logical op l.tree r.tree
  | compare l _ op r => .compare op l.tree r.tree
  | arith l _ op r => .arith op l.tree r.tree

def height : Phrase → Nat
  | group _ p _ | signed _ p => p.height + 1
  | logical l _ _ r | compare l _ _ r | arith l _ _ r => max l.height r.height + 1
  | _ => 0

def endsInStar : Phrase → Bool
  | word w => w = "*"
  | signed _ p => p.endsInStar
  | logical _ _ _ r | compare _ _ _ r | arith _ _ _ r => r.endsInStar
  | _ => false

def isConnective (w : String) : Bool := (⟨.word, w⟩ : Token).connective?.isSome

/-- The derivations from a nonterminal. A connective is a field only where it is an expression by
itself, and a star that stands as a word only where no operation follows. -/
inductive Derives : Nonterminal → Phrase → Prop
  | string (s : String) : Derives .unit (.string s)
  | number {s : String} {x : Binary64} : Binary64.read? s.toList = some x →
      Derives .unit (.number s x)
  | word {w : String} : isConnective w = false → Derives .unit (.word w)
  | group {l r : Token} {p : Phrase} : l.opens → r.closes → Derives .expression p →
      Derives .unit (.group l p r)
  | signed {p : Phrase} (negative : Bool) : Derives .unit p → p.tree.givesNumber →
      Derives .unit (.signed negative p)
  | test {key : String} {rest : List Token} {negated : Bool} {f : FieldTest} :
      isConnective key = false → KeyTest rest negated f → Derives .unit (.test key rest negated f)
  | unit {p : Phrase} : Derives .unit p → Derives .sum p
  | arith {l r : Phrase} {t : Token} {op : Operation} : Derives .unit l → Derives .sum r →
      l.endsInStar = false → t.operation? = some op → l.tree.givesNumber → r.tree.givesNumber →
      Derives .sum (.arith l t op r)
  | sum {p : Phrase} : Derives .sum p → Derives .clause p
  | compare {l r : Phrase} {t : Token} {op : Comparison} : Derives .sum l → Derives .sum r →
      t.comparison? = some op → l.tree.has op.needs → r.tree.has op.needs →
      Derives .clause (.compare l t op r)
  | clause {p : Phrase} : Derives .clause p → Derives .expression p
  | logical {l r : Phrase} {t : Token} {op : Connective} : Derives .clause l →
      Derives .expression r → t.connective? = some op → l.tree.isDecision → r.tree.isDecision →
      Derives .expression (.logical l t op r)
  | connective {w : String} : isConnective w → Derives .expression (.word w)

variable {α : Type} {fires : Option Token → Token → List Token → Option α} {t : Token}
  {prev : Option Token} {ts : List Token} {vs : List Value} {negated : Bool} {f : FieldTest}
  {p : Phrase} {n : Nonterminal}

/-- A token that is neither a parenthesis nor an operator of any tier. -/
structure Inert (t : Token) : Prop where
  opens : t.opens = false
  closes : t.closes = false
  connective : t.connective? = none
  comparison : t.comparison? = none
  operation : t.operation? = none

theorem inert_string (s : String) : Inert ⟨.string, s⟩ := by
  constructor <;> rfl

theorem inert_number (s : String) : Inert ⟨.number, s⟩ := by
  constructor <;> rfl

theorem inert_of_spells {w : String} (h : t.spells w)
    (hw : Token.lowered w ∉ [Token.lowered "and", Token.lowered "or", Token.lowered "*"]) :
    Inert t := by
  obtain ⟨kind, text⟩ := t
  obtain ⟨rfl, ht⟩ := spells_iff.mp h
  simp only [List.mem_cons, List.not_mem_nil, or_false, not_or] at hw
  have hs : text ≠ "*" := by
    rintro rfl
    exact hw.2.2 ht.symm
  constructor <;> simp_all [Token.opens, Token.closes, Token.connective?, Token.spells,
    Token.comparison?, Token.operation?]

theorem plain_of_kind (h : t.kind = .word ∨ t.kind = .operator) :
    t.opens = false ∧ t.closes = false := by
  rcases h with h | h <;> simp [Token.opens, Token.closes, h]

theorem plain_of_connective? {op : Connective} (h : t.connective? = some op) :
    t.opens = false ∧ t.closes = false := by
  apply plain_of_kind
  unfold Token.connective? Token.spells at h
  grind

theorem plain_of_comparison? {op : Comparison} (h : t.comparison? = some op) :
    t.opens = false ∧ t.closes = false := by
  apply plain_of_kind
  unfold Token.comparison? at h
  grind

theorem plain_of_operation? {op : Operation} (h : t.operation? = some op) :
    t.opens = false ∧ t.closes = false := by
  apply plain_of_kind
  unfold Token.operation? at h
  grind

theorem comparison?_of_operation? {op : Operation} (h : t.operation? = some op) :
    t.comparison? = none := by
  obtain ⟨kind, text⟩ := t
  unfold Token.operation? Operation.ofSymbol? at h
  unfold Token.comparison? Comparison.ofSymbol?
  grind

theorem connective?_of_operation? {op : Operation} (h : t.operation? = some op) :
    t.connective? = none := by
  obtain ⟨kind, text⟩ := t
  unfold Token.operation? at h
  split at h
  · simp_all [Token.connective?, Token.spells]
  · split at h
    · rename_i hs
      obtain ⟨rfl, rfl⟩ : kind = .word ∧ text = "*" := hs
      decide
    · simp at h

theorem connective?_of_comparison? {op : Comparison} (h : t.comparison? = some op) :
    t.connective? = none := by
  unfold Token.comparison? at h
  split at h
  · simp_all [Token.connective?, Token.spells]
  · simp at h

theorem connective?_word {w : String} (h : isConnective w = false) :
    (⟨.word, w⟩ : Token).connective? = none := by
  simpa [isConnective] using h

theorem Item.closed {v : Value} (h : Item ts v) : Closed ts := by
  cases h <;> simp only [Closed.plain, Closed.nil, Token.opens, Token.closes, reduceCtorEq,
    decide_false]

theorem Items.closed (h : Items ts vs) : Closed ts := by
  induction h with
  | one hv => exact Item.closed hv
  | cons hv _ ih => exact (Item.closed hv).append (.plain rfl rfl ih)

theorem quiet_of_keyTest (hf : ∀ prev t rest, Inert t → fires prev t rest = none)
    (h : KeyTest ts negated f) : Quiet fires prev ts := by
  have plain {prev : Option Token} {t : Token} {ts : List Token} (ht : Inert t)
      (hq : Quiet fires (some t) ts) : Quiet fires prev (t :: ts) :=
    .plain ht.opens ht.closes (fun rest => hf prev t rest ht) hq
  have quiet_plainTest {prev : Option Token} {ts : List Token} (h : PlainTest ts f) :
      Quiet fires prev ts := by
    cases h with
    | like p ht => exact plain (inert_of_spells ht (by decide)) (plain (inert_string p) .nil)
    | oneOf ht hl hr hi =>
      exact plain (inert_of_spells ht (by decide)) (.group hl hr (Items.closed hi) .nil)
  cases h with
  | null ht hu =>
    exact plain (inert_of_spells ht (by decide)) (plain (inert_of_spells hu (by decide)) .nil)
  | notNull ht hn hu =>
    exact plain (inert_of_spells ht (by decide)) (plain (inert_of_spells hn (by decide))
      (plain (inert_of_spells hu (by decide)) .nil))
  | plain h => exact quiet_plainTest h
  | negated hn h => exact plain (inert_of_spells hn (by decide)) (quiet_plainTest h)

theorem KeyTest.closed (h : KeyTest ts negated f) : Closed ts :=
  have hq : Quiet (fun _ t _ => t.comparison?) none ts :=
    quiet_of_keyTest (fun _ _ _ ht => ht.comparison) h
  hq.closed

theorem Derives.closed (h : p.Derives n) : Closed p.tokens := by
  induction h with
  | string | number | word | connective => exact .plain rfl rfl .nil
  | group hl hr _ ih => exact .group hl hr ih .nil
  | signed _ _ _ ih => exact .plain rfl rfl ih
  | test _ hf => exact .plain rfl rfl (KeyTest.closed hf)
  | unit _ ih | sum _ ih | clause _ ih => exact ih
  | arith _ _ _ ht _ _ ihl ihr =>
    exact ihl.append (.plain (plain_of_operation? ht).1 (plain_of_operation? ht).2 ihr)
  | compare _ _ ht _ _ ihl ihr =>
    exact ihl.append (.plain (plain_of_comparison? ht).1 (plain_of_comparison? ht).2 ihr)
  | logical _ _ ht _ _ ihl ihr =>
    exact ihl.append (.plain (plain_of_connective? ht).1 (plain_of_connective? ht).2 ihr)

theorem tokens_ne_nil (p : Phrase) : p.tokens ≠ [] := by
  cases p <;> simp [tokens]

/-- A search that passes over words and signs passes over every unit. What it knows of the token
before is `P`. -/
theorem Derives.quiet_unit {P : Option Token → Prop} (h : p.Derives .unit)
    (hi : ∀ prev t rest, Inert t → fires prev t rest = none)
    (hw : ∀ prev w rest, P prev → isConnective w = false → fires prev ⟨.word, w⟩ rest = none)
    (hs : ∀ prev b rest, P prev → fires prev (signToken b) rest = none ∧ P (some (signToken b)))
    (hp : P prev) : Quiet fires prev p.tokens := by
  generalize hn : Nonterminal.unit = n at h
  induction h generalizing prev with
  | string s => exact .plain rfl rfl (fun rest => hi _ _ rest (inert_string s)) .nil
  | number => exact .plain rfl rfl (fun rest => hi _ _ rest (inert_number _)) .nil
  | word h => exact .plain rfl rfl (fun rest => hw _ _ rest hp h) .nil
  | group hl hr h => exact .group hl hr h.closed .nil
  | signed b _ _ ih =>
    exact .plain rfl rfl (fun rest => (hs prev b rest hp).1) (ih (hs prev b [] hp).2 hn)
  | test h hf => exact .plain rfl rfl (fun rest => hw _ _ rest hp h) (quiet_of_keyTest hi hf)
  | unit | arith | sum | compare | clause | logical | connective => cases hn

theorem Derives.quiet_sum {g : Token → Option α} (h : p.Derives .sum)
    (hi : ∀ t, Inert t → g t = none) (hw : ∀ w, isConnective w = false → g ⟨.word, w⟩ = none)
    (ho : ∀ t op, t.operation? = some op → g t = none) :
    Quiet (fun _ t _ => g t) prev p.tokens := by
  have hs (b : Bool) : g (signToken b) = none := by
    cases b
    · exact ho _ .add rfl
    · exact ho _ .subtract rfl
  have unit {p : Phrase} {prev : Option Token} (h : p.Derives .unit) :
      Quiet (fun _ t _ => g t) prev p.tokens :=
    h.quiet_unit (P := fun _ => True) (fun _ t _ => hi t) (fun _ w _ _ => hw w)
      (fun _ b _ _ => ⟨hs b, trivial⟩) trivial
  generalize hn : Nonterminal.sum = n at h
  induction h generalizing prev with
  | unit h => exact unit h
  | arith hl _ _ ht _ _ _ ihr =>
    have hp := plain_of_operation? ht
    exact (unit hl).append (.plain hp.1 hp.2 (fun _ => ho _ _ ht) (ihr hn))
  | string | number | word | group | signed | test | sum | compare | clause | logical
  | connective => cases hn

theorem Derives.quiet_comparison (h : p.Derives .sum) :
    Quiet (fun _ t _ => t.comparison?) prev p.tokens :=
  h.quiet_sum (fun _ ht => ht.comparison) (fun _ _ => rfl)
    (fun _ _ ht => comparison?_of_operation? ht)

theorem Derives.comparisonCut?_eq_none (h : p.Derives .sum) : comparisonCut? p.tokens = none :=
  h.quiet_comparison.cut?_eq_none

theorem Derives.quiet_connective (h : p.Derives .clause) :
    Quiet (fun _ t _ => t.connective?) prev p.tokens := by
  have sum {p : Phrase} {prev : Option Token} (h : p.Derives .sum) :
      Quiet (fun _ t _ => t.connective?) prev p.tokens :=
    h.quiet_sum (fun _ ht => ht.connective) (fun _ hw => connective?_word hw)
      (fun _ _ ht => connective?_of_operation? ht)
  generalize hn : Nonterminal.clause = n at h
  induction h generalizing prev with
  | sum h => exact sum h
  | compare hl hr ht =>
    have hp := plain_of_comparison? ht
    exact (sum hl).append (.plain hp.1 hp.2 (fun _ => connective?_of_comparison? ht) (sum hr))
  | string | number | word | group | signed | test | unit | arith | clause | logical
  | connective => cases hn

theorem Derives.logicalCut?_eq_none (h : p.Derives .clause) : logicalCut? p.tokens = none :=
  h.quiet_connective.cut?_eq_none

theorem Derives.quiet_operation (h : p.Derives .unit)
    (hp : ∀ t, prev = some t → t.endsOperand = false) :
    Quiet operationInPlace? prev p.tokens := by
  have silent (prev : Option Token) (t : Token) (rest : List Token)
      (hp : ∀ t, prev = some t → t.endsOperand = false) :
      operationInPlace? prev t rest = none := by
    cases prev with
    | none => rfl
    | some u => simp [operationInPlace?, hp u rfl]
  refine h.quiet_unit (P := fun prev => ∀ t, prev = some t → t.endsOperand = false)
    (fun prev t rest ht => ?_) (fun prev w rest hp _ => silent prev _ rest hp)
    (fun prev b rest hp => ⟨silent prev _ rest hp, ?_⟩) hp
  · cases prev <;> simp [operationInPlace?, ht.operation]
  · rintro t ⟨⟩
    cases b <;> rfl

theorem Derives.operationCut?_eq_none (h : p.Derives .unit) : operationCut? p.tokens = none :=
  (h.quiet_operation (fun _ ht => by cases ht)).cut?_eq_none

theorem KeyTest.getLast? (h : KeyTest ts negated f) :
    ∃ t, ts.getLast? = some t ∧ t.endsOperand := by
  have endsOperand_of_spells {t : Token} (h : t.spells "null") : t.endsOperand := by
    simp [Token.endsOperand, (spells_iff.mp h).1, (inert_of_spells h (by decide)).operation]
  have plain {ts : List Token} (h : PlainTest ts f) :
      ∃ t, ts.getLast? = some t ∧ t.endsOperand := by
    cases h with
    | like p ht => exact ⟨_, rfl, rfl⟩
    | @oneOf t l r items vs ht hl hr hi =>
      have hk : r.kind = .rightParen := by simpa [Token.closes] using hr
      exact ⟨r, by simp [List.getLast?_cons], by simp [Token.endsOperand, hk]⟩
  cases h with
  | null ht hu => exact ⟨_, rfl, endsOperand_of_spells hu⟩
  | notNull ht hn hu => exact ⟨_, rfl, endsOperand_of_spells hu⟩
  | plain h => exact plain h
  | negated hn h =>
    obtain ⟨t, ht, he⟩ := plain h
    exact ⟨t, by simp [List.getLast?_cons, ht], he⟩

/-- Every unit but one that ends in a star can be followed by an operation. -/
theorem Derives.getLast? (h : p.Derives .unit) :
    ∃ t, p.tokens.getLast? = some t ∧ t.endsOperand = !p.endsInStar := by
  generalize hn : Nonterminal.unit = n at h
  induction h with
  | string | number => exact ⟨_, rfl, rfl⟩
  | @word w _ =>
    refine ⟨_, rfl, ?_⟩
    by_cases hw : w = "*" <;> simp [Token.endsOperand, Token.operation?, endsInStar, hw]
  | @group l r p _ hr _ _ =>
    have hk : r.kind = .rightParen := by simpa [Token.closes] using hr
    exact ⟨r, by simp [tokens, List.getLast?_cons], by simp [Token.endsOperand, endsInStar, hk]⟩
  | signed b _ _ ih =>
    obtain ⟨t, ht, he⟩ := ih hn
    exact ⟨t, by simp [tokens, List.getLast?_cons, ht], he⟩
  | test _ hf =>
    obtain ⟨t, ht, he⟩ := KeyTest.getLast? hf
    exact ⟨t, by simp [tokens, List.getLast?_cons, ht], he⟩
  | unit | arith | sum | compare | clause | logical | connective => cases hn

end Phrase

end RecordSieve
