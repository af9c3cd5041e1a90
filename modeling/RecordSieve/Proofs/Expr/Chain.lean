import Mathlib.Data.List.Forall2
import RecordSieve.Proofs.Expr.Grouping
import RecordSieve.Proofs.Expr.Recognition

/-! # Chains of clauses

Clauses with connectives between them are decided from left to right: a clause that decides the
connective after it decides the chain, and what comes later is not looked at. Neither connective
binds tighter than the other.
-/

namespace RecordSieve

open Expr.Parser

/-- Tokens between two connectives of a chain. -/
structure IsClause (ts : List Token) : Prop where
  ne_nil : ts ≠ []
  balanced : isBalanced 0 ts
  /-- No token outside parentheses, with balanced tokens before it, is a connective. -/
  whole : ∀ i (h : i < ts.length), isBalanced 0 (ts.take i) → ts[i].connective? = none

instance (ts : List Token) : Decidable (IsClause ts) :=
  decidable_of_iff (ts ≠ [] ∧ isBalanced 0 ts ∧
      ∀ i (h : i < ts.length), isBalanced 0 (ts.take i) → ts[i].connective? = none)
    ⟨fun h => ⟨h.1, h.2.1, h.2.2⟩, fun h => ⟨h.ne_nil, h.balanced, h.whole⟩⟩

def chain (first : List Token) : List (Token × List Token) → List Token
  | [] => first
  | (t, next) :: links => first ++ t :: chain next links

/-- Decides one operand after the other, up to the first that fails or decides the connective
after it. -/
def Expr.inTurn (view : View) (e : Expr) : List (Connective × Expr) → Traced Bool
  | [] => e.evalTruth view
  | (op, next) :: rest =>
    let first := e.evalTruth view
    match first.result with
    | .error err => ⟨first.asked, .error err⟩
    | .ok b =>
      if b = op.decisive then ⟨first.asked, .ok b⟩
      else
        let others := inTurn view next rest
        ⟨first.asked ++ others.asked, others.result⟩

variable {ts first rest : List Token} {t : Token} {links : List (Token × List Token)}
  {e : Expr} {op : Connective} {levels : Nat} {prev : Option Token}

/-- Closed tokens are quiet if none of them outside parentheses is an operator. -/
theorem Closed.quiet {α : Type} {g : Token → Option α} (h : Closed ts)
    (hg : ∀ l t r, ts = l ++ t :: r → isBalanced 0 l → g t = none) :
    Quiet (fun _ t _ => g t) prev ts := by
  induction h generalizing prev with
  | nil => exact .nil
  | @plain t l ho hc _ ih =>
    refine .plain ho hc (fun _ => hg [] t l rfl rfl) (ih fun m u r hl hm => ?_)
    exact hg (t :: m) u r (by simp [hl]) (by simpa [isBalanced, ho, hc] using hm)
  | @group t u inner l ht hu hi _ _ ih =>
    refine .group ht hu hi (ih fun m v r hl hm => ?_)
    refine hg (t :: (inner ++ u :: m)) v r (by simp [hl]) ?_
    exact (Closed.group ht hu hi (isBalanced_iff_closed.mp hm)).isBalanced

theorem IsClause.quiet (h : IsClause ts) : Quiet (fun _ t _ => t.connective?) prev ts := by
  refine Closed.quiet (isBalanced_iff_closed.mp h.balanced) ?_
  rintro l t r rfl hl
  simpa [hl] using h.whole l.length (by simp)

theorem form_clause_append (h : IsClause first) (ht : t.connective? = some op) (hr : rest ≠ []) :
    form (first ++ t :: rest) = .logical ⟨first, t, op, rest⟩ := by
  have hp := Phrase.plain_of_connective? ht
  have hc : Closed first := isBalanced_iff_closed.mp h.balanced
  have hf := List.length_pos_iff.mpr h.ne_nil
  have hr := List.length_pos_iff.mpr hr
  have hl : 2 ≤ (first ++ t :: rest).length := by
    simp only [List.length_append, List.length_cons]
    omega
  exact form_eq_iff.mpr
    ⟨hl, hc.enclosed?_append h.ne_nil (by simp), h.quiet.cut?_eq_some hp.1 hp.2 ht⟩

theorem ofTokens_of_ofSpan (h : ofSpan levels ts = .ok e) (hl : levels ≤ nestingLimit + 1) :
    Expr.ofTokens ts = .ok e := by
  obtain ⟨p, hp, rfl, rfl, hh⟩ := Phrase.exists_derives_of_ofSpan h
  rw [hp.ofTokens_tokens, bounded, if_pos (Nat.lt_of_lt_of_le hh hl)]

theorem inTurn_cons (view : View) (op : Connective) (e f : Expr)
    (rest : List (Connective × Expr)) : e.inTurn view ((op, f) :: rest) =
      op.connect (e.evalTruth view) (f.inTurn view rest) := by
  rw [Expr.inTurn, Connective.connect]
  generalize e.evalTruth view = x
  obtain ⟨asked, result⟩ := x
  cases result with
  | error err => rfl
  | ok b =>
    by_cases h : b = op.decisive <;> simp [h]

/-- A chain is read as its clauses, each of them a decision that is reached from the left. -/
theorem exists_inTurn_of_ofSpan (hf : IsClause first)
    (hl : ∀ link ∈ links, link.1.connective?.isSome ∧ IsClause link.2)
    (hn : levels ≤ nestingLimit + 1) (h : ofSpan levels (chain first links) = .ok e)
    (hd : links = [] → e.isDecision) : ∃ e₁ es, (Expr.ofTokens first = .ok e₁ ∧ e₁.isDecision) ∧
      List.Forall₂ (fun link (next : Connective × Expr) => link.1.connective? = some next.1 ∧
        Expr.ofTokens link.2 = .ok next.2 ∧ next.2.isDecision) links es ∧
      ∀ view, e.evalTruth view = e₁.inTurn view es := by
  induction links generalizing first levels e with
  | nil => exact ⟨e, [], ⟨ofTokens_of_ofSpan h hn, hd rfl⟩, .nil, fun _ => rfl⟩
  | cons link links ih =>
    obtain ⟨t, next⟩ := link
    obtain ⟨⟨ht, hc⟩, hl⟩ := List.forall_mem_cons.mp hl
    obtain ⟨op, hop⟩ := Option.isSome_iff_exists.mp ht
    cases levels with
    | zero => simp [ofSpan] at h
    | succ levels =>
      have hr : chain next links ≠ [] := by
        cases links <;> simp [chain, hc.ne_nil]
      rw [chain, ofSpan_succ, form_clause_append hf hop hr] at h
      obtain ⟨⟨l, r⟩, hs, rfl⟩ := map_eq_ok_iff.mp h
      obtain ⟨-, ⟨hfirst, hrest⟩, hdl, hdr⟩ := sides_eq_ok_iff.mp hs
      obtain ⟨e₁, es, ⟨he, hde⟩, hes, hv⟩ := ih hc hl (by omega) hrest fun _ => hdr
      refine ⟨l, (op, e₁) :: es, ⟨ofTokens_of_ofSpan hfirst (by omega), hdl⟩,
        .cons ⟨hop, he, hde⟩ hes, fun view => ?_⟩
      rw [inTurn_cons, ← hv view]
      exact Expr.evalTruth_logical

/-- What a chain of clauses forms is decided clause by clause, with the same answer, the same error
and the same questions to the record. -/
theorem evalTruth_chain {first : List Token} {links : List (Token × List Token)} {e : Expr}
    (hf : IsClause first) (hn : links ≠ [])
    (hl : ∀ link ∈ links, link.1.connective?.isSome ∧ IsClause link.2)
    (h : Expr.ofTokens (chain first links) = .ok e) :
    ∃ e₁ es, (Expr.ofTokens first = .ok e₁ ∧ e₁.isDecision) ∧
      List.Forall₂ (fun link (next : Connective × Expr) => link.1.connective? = some next.1 ∧
        Expr.ofTokens link.2 = .ok next.2 ∧ next.2.isDecision) links es ∧
      ∀ view, e.evalTruth view = e₁.inTurn view es := by
  unfold Expr.ofTokens at h
  split at h
  · exact exists_inTurn_of_ofSpan hf hl (Nat.le_refl _) h fun he => absurd he hn
  · simp at h

/-- `(a = 'x' or b < c) and d is null OR e like '%'`, where the parentheses enclose the first clause
alone. -/
theorem evalTruth_chain_mixed :
    let first : List Token := [⟨.leftParen, "("⟩, ⟨.word, "a"⟩, ⟨.operator, "="⟩, ⟨.string, "x"⟩,
      ⟨.word, "or"⟩, ⟨.word, "b"⟩, ⟨.operator, "<"⟩, ⟨.word, "c"⟩, ⟨.rightParen, ")"⟩]
    let links : List (Token × List Token) :=
      [(⟨.word, "and"⟩, [⟨.word, "d"⟩, ⟨.word, "is"⟩, ⟨.word, "null"⟩]),
        (⟨.word, "OR"⟩, [⟨.word, "e"⟩, ⟨.word, "like"⟩, ⟨.string, "%"⟩])]
    let e : Expr := .logical .and
      (.logical .or (.compare .equal (.field "a") (.text "x"))
        (.compare .less (.field "b") (.field "c")))
      (.logical .or (.test "d" false .null) (.test "e" false (.like "%")))
    ((IsClause first ∧ links ≠ []) ∧
      (∀ link ∈ links, link.1.connective?.isSome ∧ IsClause link.2) ∧
      Expr.ofTokens (chain first links) = .ok e) ∧
    ∃ e₁ es, (Expr.ofTokens first = .ok e₁ ∧ e₁.isDecision) ∧
      List.Forall₂ (fun link (next : Connective × Expr) => link.1.connective? = some next.1 ∧
        Expr.ofTokens link.2 = .ok next.2 ∧ next.2.isDecision) links es ∧
      ∀ view, e.evalTruth view = e₁.inTurn view es := by
  intro first links e
  have hf : IsClause first := by decide
  have hn : links ≠ [] := by decide
  have hl : ∀ link ∈ links, link.1.connective?.isSome ∧ IsClause link.2 := by decide
  have h : Expr.ofTokens (chain first links) = .ok e := by rfl
  exact ⟨⟨⟨hf, hn⟩, hl, h⟩, evalTruth_chain hf hn hl h⟩

end RecordSieve
