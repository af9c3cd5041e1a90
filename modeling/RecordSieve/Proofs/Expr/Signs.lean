import RecordSieve.Proofs.Arithmetic
import RecordSieve.Proofs.Expr.Recognition
import RecordSieve.Proofs.Expr.Traced

/-! # Signs before operands

A minus before a literal is folded into it, and one before anything else takes it from zero when the
expression is evaluated. Both come to the negation of what the operand gives, with the questions
and the errors of the operand. A plus leaves nothing behind.
-/

namespace RecordSieve

open Expr.Parser

variable {α : Type} {f : Option Token → Token → List Token → Option α} {ts : List Token} {e : Expr}
  {p : Phrase}

namespace Expr

theorem related_zero_subtract (view : View) (e : Expr) :
    ((arith .subtract (.number (.zero false)) e).evalNumber view).Related
      (fun y x => y.Agrees x.neg) (e.evalNumber view) := by
  rw [evalNumber, evalNumber, pure_bind]
  apply Traced.related_bind_self
  intro x
  obtain ⟨y, hy, hagrees⟩ := Operation.exists_zero_subtract x
  exact ⟨y, by rw [hy], hagrees⟩

/-- However a minus is read, it negates what follows. -/
theorem related_negate (view : View) (e : Expr) :
    ((negate e).evalNumber view).Related (fun y x => y.Agrees x.neg) (e.evalNumber view) := by
  cases e with
  | number x => exact .ok (.refl x.neg)
  | _ => exact related_zero_subtract view _

theorem related_negate_negate (view : View) (e : Expr) :
    ((negate (negate e)).evalNumber view).Related Binary64.Agrees (e.evalNumber view) := by
  apply ((related_negate view (negate e)).trans (related_negate view e)).mono
  rintro z x ⟨y, hzy, hyx⟩
  have h := hzy.trans hyx.neg
  rwa [Binary64.neg_neg] at h

theorem givesNumber_negate (e : Expr) : (negate e).givesNumber := by
  cases e <;> rfl

/-- A single token that is no connective, or a span in one pair of parentheses. -/
inductive IsOperand : List Token → Prop
  | single {t : Token} : t.connective? = none → IsOperand [t]
  | group {l r : Token} {inner : List Token} : l.opens → r.closes → Closed inner →
      IsOperand (l :: (inner ++ [r]))

theorem IsOperand.cut?_eq_none (h : IsOperand ts)
    (hf : ∀ t, t.connective? = none → f none t [] = none) : cut? f 0 none ts = none := by
  cases h with
  | @single t ht => simp [cut?, hf t ht]
  | group hl hr hi => exact (Quiet.group hl hr hi .nil).cut?_eq_none

theorem IsOperand.logicalCut?_eq_none (h : IsOperand ts) : logicalCut? ts = none :=
  h.cut?_eq_none fun _ ht => ht

theorem IsOperand.operationCut?_eq_none (h : IsOperand ts) : operationCut? ts = none :=
  h.cut?_eq_none fun _ _ => rfl

theorem IsOperand.exists_derives_unit (h : IsOperand ts) (he : ofTokens ts = .ok e)
    (hn : e.givesNumber) : ∃ p : Phrase, p.Derives .unit ∧ p.tokens = ts ∧ p.tree = e := by
  unfold ofTokens at he
  split at he
  · obtain ⟨p, hp, rfl, rfl, -⟩ := Phrase.exists_derives_of_ofSpan he
    have hclause := hp.clause_of_logicalCut? h.logicalCut?_eq_none
    have hsum := hclause.sum_of_givesValue (givesValue_of_givesNumber hn)
    exact ⟨p, hsum.unit_of_operationCut? h.operationCut?_eq_none, rfl, rfl⟩
  · cases he

end Expr

theorem Phrase.Derives.ofTokens_signed (hp : p.Derives .unit) (hn : p.tree.givesNumber)
    (b : Bool) : Expr.ofTokens (signToken b :: p.tokens) =
      bounded p.height nestingLimit (if b then negate p.tree else p.tree) := by
  have h : (Phrase.signed b p).Derives .expression := .clause (.sum (.unit (hp.signed b hn)))
  have ht := h.ofTokens_tokens
  rwa [height, bounded_succ] at ht

namespace Expr

open Phrase

/-- Together with its signs a span nests too deeply: it does so by itself where each of them has
taken one level. -/
def NestsTooDeep (signs span : List Token) : Prop :=
  ofTokens (signs ++ span) = .error .tooDeep ∧
    ofSpan (nestingLimit + 1 - signs.length) span = .error .tooDeep

theorem nestsTooDeep_or_ok (signs : List Token) {height levels : Nat} {n : Expr}
    (hl : levels = nestingLimit + 1 - signs.length)
    (hs : ofTokens (signs ++ ts) = bounded height levels n)
    (ht : ofSpan levels ts = bounded height levels e) :
    NestsTooDeep signs ts ∨ ofTokens (signs ++ ts) = .ok n := by
  unfold bounded at hs ht
  split at hs
  · exact .inr hs
  · rename_i hlow
    rw [if_neg hlow, hl] at ht
    exact .inl ⟨hs, ht⟩

/-- A minus before an operand that gives a number means its negation, two of them mean its value and
a plus means nothing, unless the operand then nests too deeply: the questions and the errors are
those of the operand. -/
theorem evalNumber_signed (h : IsOperand ts) (he : ofTokens ts = .ok e) (hn : e.givesNumber) :
    (NestsTooDeep [signToken true] ts ∨
      ∃ n, ofTokens (signToken true :: ts) = .ok n ∧ n.givesNumber ∧ ∀ view,
        (n.evalNumber view).Related (fun y x => y.Agrees x.neg) (e.evalNumber view)) ∧
    (NestsTooDeep [signToken true, signToken true] ts ∨
      ∃ n, ofTokens (signToken true :: signToken true :: ts) = .ok n ∧ n.givesNumber ∧ ∀ view,
        (n.evalNumber view).Related Binary64.Agrees (e.evalNumber view)) ∧
    (NestsTooDeep [signToken false] ts ∨ ofTokens (signToken false :: ts) = .ok e) := by
  obtain ⟨p, hp, rfl, rfl⟩ := h.exists_derives_unit he hn
  have hspan {levels : Nat} : ofSpan levels p.tokens = bounded p.height levels p.tree :=
    hp.ofSpan_tokens
  have hminus := nestsTooDeep_or_ok [signToken true] rfl (hp.ofTokens_signed hn true) hspan
  have hplus := nestsTooDeep_or_ok [signToken false] rfl (hp.ofTokens_signed hn false) hspan
  -- the second minus stands before a unit in turn, which is the operand with the first
  have htwice := (hp.signed true hn).ofTokens_signed (givesNumber_negate p.tree) true
  rw [Phrase.height, show nestingLimit = 255 + 1 from rfl, bounded_succ] at htwice
  have htwice := nestsTooDeep_or_ok [signToken true, signToken true] rfl htwice hspan
  refine ⟨hminus.imp_right ?_, htwice.imp_right ?_, hplus⟩
  · intro hok
    exact ⟨_, hok, givesNumber_negate _, fun view => related_negate view _⟩
  · intro hok
    exact ⟨_, hok, givesNumber_negate _, fun view => related_negate_negate view _⟩

/-- Signs before a field in parentheses, which is far from nesting too deeply. -/
theorem evalNumber_signed_group :
    let ts : List Token := [⟨.leftParen, "("⟩, ⟨.word, "a"⟩, ⟨.rightParen, ")"⟩]
    let minus : Token := ⟨.operator, "-"⟩
    let a : Expr := .field "a"
    (IsOperand ts ∧ ofTokens ts = .ok a ∧ a.givesNumber) ∧
    (∃ n, ofTokens (minus :: ts) = .ok n ∧ n.givesNumber ∧ ∀ view,
      (n.evalNumber view).Related (fun y x => y.Agrees x.neg) (a.evalNumber view)) ∧
    (∃ n, ofTokens (minus :: minus :: ts) = .ok n ∧ n.givesNumber ∧ ∀ view,
      (n.evalNumber view).Related Binary64.Agrees (a.evalNumber view)) ∧
    ofTokens (⟨.operator, "+"⟩ :: ts) = .ok a := by
  intro ts minus a
  have h : IsOperand ts := .group rfl rfl (.plain rfl rfl .nil)
  have he : ofTokens ts = .ok a := rfl
  have hlevels (signs : List Token) (hle : signs.length ≤ 2) : ¬ NestsTooDeep signs ts := by
    rintro ⟨-, hdeep⟩
    obtain ⟨k, hk⟩ : ∃ k, nestingLimit + 1 - signs.length = k + 2 :=
      ⟨nestingLimit - 1 - signs.length, by rw [nestingLimit]; omega⟩
    have hok : ofSpan (k + 2) ts = .ok a := rfl
    rw [hk, hok] at hdeep
    cases hdeep
  obtain ⟨hminus, htwice, hplus⟩ := evalNumber_signed h he rfl
  exact ⟨⟨h, he, rfl⟩, hminus.resolve_left (hlevels _ (by decide)),
    htwice.resolve_left (hlevels _ (by decide)), hplus.resolve_left (hlevels _ (by decide))⟩

end Expr

end RecordSieve
