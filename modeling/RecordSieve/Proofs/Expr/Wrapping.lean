import RecordSieve.Proofs.Expr.Form
import RecordSieve.Proofs.Expr.Spans

/-! # Parentheses around everything

Parentheses around all tokens cost levels of nesting and nothing else: unless the levels run out,
what is read within them is what is read without them, be it an expression or an error. For that it
does not matter how many levels are left over.
-/

namespace RecordSieve.Expr.Parser

variable {α β : Type} {x y z : Except ParseError α} {f g : α → Except ParseError β}
  {read read' : List Token → Except ParseError Expr} {levels m : Nat} {span ts : List Token}

/-- A result stands, unless it is that the levels ran out. -/
def Stands (x y : Except ParseError α) : Prop := x ≠ .error .tooDeep → y = x

theorem Stands.refl (x : Except ParseError α) : Stands x x := fun _ => rfl

theorem Stands.trans (hxy : Stands x y) (hyz : Stands y z) : Stands x z := by
  intro h
  have hy := hxy h
  exact (hyz (hy ▸ h)).trans hy

theorem Stands.bind (h : Stands x y) (hf : ∀ a, Stands (f a) (g a)) :
    Stands (x >>= f) (y >>= g) := by
  intro hx
  cases x with
  | error e =>
    have he : e ≠ .tooDeep := by
      rintro rfl
      exact hx rfl
    rw [h (by simpa using he)]
    rfl
  | ok a =>
    rw [h (by simp)]
    exact hf a hx

theorem Stands.map (f : α → β) (h : Stands x y) : Stands (f <$> x) (f <$> y) := by
  simpa only [map_eq_pure_bind] using h.bind fun a => Stands.refl (pure (f a))

theorem sides_stands (h : ∀ span, Stands (read span) (read' span)) (c : Cut α)
    (needed : Capability) : Stands (sides read c needed) (sides read' c needed) := by
  unfold sides
  split
  · exact .refl _
  · split
    · exact .refl _
    · exact (h c.before).bind fun _ => (h c.after).bind fun _ => .refl _

theorem readForm_stands (h : ∀ span, Stands (read span) (read' span)) (span : List Token)
    (f : Form) : Stands (readForm read span f) (readForm read' span f) := by
  cases f with
  | empty | single | test => exact .refl _
  | group inner => exact h inner
  | logical c | compare c | arith c => exact (sides_stands h c _).map _
  | signed t negative operand => exact (h operand).bind fun _ => .refl _

/-- More levels change no result. -/
theorem ofSpan_stands (h : levels ≤ m) (span : List Token) :
    Stands (ofSpan levels span) (ofSpan m span) := by
  induction levels generalizing m span with
  | zero => exact fun hn => absurd rfl hn
  | succ levels ih =>
    obtain ⟨m, rfl⟩ : ∃ k, m = k + 1 := ⟨m - 1, by omega⟩
    rw [ofSpan_succ, ofSpan_succ]
    exact readForm_stands (fun span => ih (by omega) span) span _

def wrapped : (k : Nat) → List Token → List Token
  | 0, ts => ts
  | k + 1, ts => ⟨.leftParen, "("⟩ :: (wrapped k ts ++ [⟨.rightParen, ")"⟩])

theorem Closed.wrapped (h : Closed ts) (k : Nat) : Closed (wrapped k ts) := by
  induction k with
  | zero => exact h
  | succ k ih => exact .group rfl rfl ih .nil

/-- The outer parentheses are taken for a pair, whatever the tokens start and end with. -/
theorem form_wrapped (h : Closed ts) (k : Nat) :
    form (wrapped (k + 1) ts) = .group (wrapped k ts) :=
  form_eq_iff.mpr (enclosed?_group rfl rfl (h.wrapped k))

theorem ofSpan_wrapped (h : Closed ts) (k levels : Nat) :
    Stands (ofSpan levels (wrapped k ts)) (ofSpan levels ts) := by
  induction k generalizing levels with
  | zero => exact .refl _
  | succ k ih =>
    cases levels with
    | zero => exact fun hn => absurd rfl hn
    | succ levels =>
      rw [ofSpan_succ, form_wrapped h]
      exact (ih levels).trans (ofSpan_stands (Nat.le_succ levels) ts)

end Parser

open Expr.Parser

/-- Parentheses around tokens that are balanced change nothing, unless they nest too deeply. -/
theorem ofTokens_wrapped_eq {ts : List Token} (k : Nat) (hb : isBalanced 0 ts)
    (h : ofTokens (wrapped k ts) ≠ .error .tooDeep) : ofTokens (wrapped k ts) = ofTokens ts := by
  have hc : Closed ts := isBalanced_iff_closed.mp hb
  have hw : ofTokens (wrapped k ts) = ofSpan (nestingLimit + 1) (wrapped k ts) :=
    if_pos (hc.wrapped k).isBalanced
  rw [hw] at h ⊢
  rw [ofTokens, if_pos hb]
  exact (ofSpan_wrapped hc k _ h).symm

/-- `(((a) + (b)))`, which starts and ends with parentheses also without the outer two pairs. -/
theorem ofTokens_wrapped_eq_sum :
    let group (w : String) : List Token := [⟨.leftParen, "("⟩, ⟨.word, w⟩, ⟨.rightParen, ")"⟩]
    let ts := group "a" ++ ⟨.operator, "+"⟩ :: group "b"
    (isBalanced 0 ts ∧ ofTokens (wrapped 2 ts) ≠ .error .tooDeep) ∧
      ofTokens (wrapped 2 ts) = ofTokens ts := by
  intro group ts
  have hb : isBalanced 0 ts := rfl
  have hw : ofTokens (wrapped 2 ts) = .ok (.arith .add (.field "a") (.field "b")) := rfl
  have h : ofTokens (wrapped 2 ts) ≠ .error .tooDeep := by simp [hw]
  exact ⟨⟨hb, h⟩, ofTokens_wrapped_eq 2 hb h⟩

end RecordSieve.Expr
