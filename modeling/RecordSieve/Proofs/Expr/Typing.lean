import RecordSieve.Proofs.Expr.Form
import RecordSieve.Proofs.Expr.KeyTest

/-! # Typing

An expression is well typed if every operator finds in its operands the capability that it needs.
What the parser reads is well typed, and no higher than the nesting limit.
-/

namespace RecordSieve

def Value.isLiteral : Value → Bool
  | string _ | number _ => true
  | _ => false

/-- A list of a test has items, and all of them are literals. -/
def FieldTest.HoldsLiterals : FieldTest → Prop
  | oneOf items => items ≠ [] ∧ ∀ v ∈ items, v.isLiteral
  | _ => True

namespace Expr

/-- Operands have the capabilities that their operators need. The condition of a query without one
is not well typed, since no tokens spell it. -/
inductive WellTyped : Expr → Prop
  | text (s : String) : WellTyped (.text s)
  | number (x : Binary64) : WellTyped (.number x)
  | field (key : String) : WellTyped (.field key)
  | test {f : FieldTest} (key : String) (negated : Bool) : f.HoldsLiterals →
      WellTyped (.test key negated f)
  | logical {l r : Expr} (op : Connective) : WellTyped l → WellTyped r → l.isDecision →
      r.isDecision → WellTyped (.logical op l r)
  | compare {l r : Expr} {op : Comparison} : WellTyped l → WellTyped r → l.has op.needs →
      r.has op.needs → WellTyped (.compare op l r)
  | arith {l r : Expr} (op : Operation) : WellTyped l → WellTyped r → l.givesNumber →
      r.givesNumber → WellTyped (.arith op l r)

def height : Expr → Nat
  | logical _ l r | compare _ l r | arith _ l r => max l.height r.height + 1
  | _ => 0

/-- The fields and the keys of tests, from left to right. -/
def keys : Expr → List String
  | field key | test key _ _ => [key]
  | logical _ l r | compare _ l r | arith _ l r => l.keys ++ r.keys
  | _ => []

namespace Parser

variable {levels : Nat} {span ts : List Token} {e : Expr} {t : Token} {v : Value} {vs : List Value}
  {f : FieldTest} {negated : Bool}

theorem single_eq_ok_iff : single t = .ok e ↔
    (∃ s, t = ⟨.string, s⟩ ∧ e = .text s) ∨
    (∃ s x, t = ⟨.number, s⟩ ∧ Binary64.read? s.toList = some x ∧ e = .number x) ∨
    ∃ w, t = ⟨.word, w⟩ ∧ e = .field w := by
  obtain ⟨kind, s⟩ := t
  cases kind <;> simp [single, map_eq_ok_iff, numberOf_eq_ok_iff, @eq_comm _ e]

theorem Item.isLiteral (h : Item ts v) : v.isLiteral := by
  cases h <;> rfl

theorem Items.holdsLiterals (h : Items ts vs) : (FieldTest.oneOf vs).HoldsLiterals := by
  induction h with
  | one hv => exact ⟨by simp, by simpa using hv.isLiteral⟩
  | cons hv _ ih => exact ⟨by simp, by simpa using ⟨hv.isLiteral, ih.2⟩⟩

theorem KeyTest.holdsLiterals (h : KeyTest ts negated f) : f.HoldsLiterals := by
  cases h with
  | null | notNull => trivial
  | plain h | negated _ h =>
    cases h with
    | like => trivial
    | oneOf _ _ _ hi => exact hi.holdsLiterals

theorem wellTyped_negate (h : e.WellTyped) (hn : e.givesNumber) : (negate e).WellTyped := by
  unfold negate
  split
  · exact .number _
  · exact .arith _ (.number _) h rfl hn

theorem height_negate_le (e : Expr) : (negate e).height ≤ e.height + 1 := by
  unfold negate
  split <;> simp [height]

theorem keyTest_wellTyped (h : keyTest span = .ok e) : e.WellTyped ∧ e.height = 0 := by
  cases span with
  | nil => simp [keyTest] at h
  | cons key ts =>
    obtain ⟨-, negated, f, hf, rfl⟩ := keyTest_eq_ok_iff.mp h
    exact ⟨.test _ _ hf.holdsLiterals, rfl⟩

theorem sides_wellTyped {α : Type} {c : Cut α} {needed : Capability} {l r : Expr}
    (ih : ∀ {span e}, ofSpan levels span = .ok e → e.WellTyped ∧ e.height < levels)
    (h : sides (ofSpan levels) c needed = .ok (l, r)) :
    (l.WellTyped ∧ r.WellTyped) ∧ (l.has needed ∧ r.has needed) ∧
      max l.height r.height < levels := by
  obtain ⟨-, ⟨hl, hr⟩, hc⟩ := sides_eq_ok_iff.mp h
  obtain ⟨htl, hhl⟩ := ih hl
  obtain ⟨htr, hhr⟩ := ih hr
  exact ⟨⟨htl, htr⟩, hc, Nat.max_lt.mpr ⟨hhl, hhr⟩⟩

/-- What is read with some levels of nesting is well typed and lower than that. -/
theorem ofSpan_wellTyped (h : ofSpan levels span = .ok e) : e.WellTyped ∧ e.height < levels := by
  induction levels generalizing span e with
  | zero => simp [ofSpan] at h
  | succ levels ih =>
    rw [ofSpan_succ_eq_ok_iff] at h
    generalize form span = f at h
    cases h with
    | single h =>
      rcases single_eq_ok_iff.mp h with ⟨s, -, rfl⟩ | ⟨s, x, -, -, rfl⟩ | ⟨w, -, rfl⟩
      · exact ⟨.text s, by simp [height]⟩
      · exact ⟨.number x, by simp [height]⟩
      · exact ⟨.field w, by simp [height]⟩
    | group h =>
      obtain ⟨ht, hl⟩ := ih h
      exact ⟨ht, by omega⟩
    | logical hs =>
      obtain ⟨⟨htl, htr⟩, ⟨hcl, hcr⟩, hh⟩ := sides_wellTyped ih hs
      exact ⟨.logical _ htl htr hcl hcr, Nat.succ_lt_succ hh⟩
    | compare hs =>
      obtain ⟨⟨htl, htr⟩, ⟨hcl, hcr⟩, hh⟩ := sides_wellTyped ih hs
      exact ⟨.compare htl htr hcl hcr, Nat.succ_lt_succ hh⟩
    | arith hs =>
      obtain ⟨⟨htl, htr⟩, ⟨hcl, hcr⟩, hh⟩ := sides_wellTyped ih hs
      exact ⟨.arith _ htl htr hcl hcr, Nat.succ_lt_succ hh⟩
    | @signed _ _ e negative he hn =>
      obtain ⟨ht, hl⟩ := ih he
      have hh := height_negate_le e
      split
      · exact ⟨wellTyped_negate ht hn, by omega⟩
      · exact ⟨ht, by omega⟩
    | test h =>
      obtain ⟨ht, hh⟩ := keyTest_wellTyped h
      exact ⟨ht, by omega⟩

end Parser

theorem wellTyped_of_ofTokens {ts : List Token} {e : Expr} (h : ofTokens ts = .ok e) :
    e.WellTyped ∧ e.height ≤ nestingLimit := by
  unfold ofTokens at h
  split at h
  · obtain ⟨ht, hh⟩ := Parser.ofSpan_wellTyped h
    exact ⟨ht, Nat.le_of_lt_succ hh⟩
  · simp at h

end Expr

end RecordSieve
