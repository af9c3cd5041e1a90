import RecordSieve.Proofs.Expr.Form
import RecordSieve.Proofs.Expr.Grammar

/-! # Derivations are determined by their tokens

The form of the tokens of a derivation is that of its root, whose parts are in turn the tokens of
the derivations below it. Hence no two derivations have the same tokens.
-/

namespace RecordSieve.Phrase

open Expr.Parser

variable {t : Token} {ts rest : List Token} {negated : Bool} {f : FieldTest} {p q : Phrase}
  {n m : Nonterminal}

def form : Phrase → Form
  | string s => .single ⟨.string, s⟩
  | number s _ => .single ⟨.number, s⟩
  | word w => .single ⟨.word, w⟩
  | group _ p _ => .group p.tokens
  | signed negative p => .signed (signToken negative) negative p.tokens
  | test .. => .test
  | logical l t op r => .logical ⟨l.tokens, t, op, r.tokens⟩
  | compare l t op r => .compare ⟨l.tokens, t, op, r.tokens⟩
  | arith l t op r => .arith ⟨l.tokens, t, op, r.tokens⟩

theorem Derives.whole (h : p.Derives .unit) (ho : ∀ t ts, p.tokens = t :: ts → t.opens = false) :
    Whole p.tokens where
  enclosed := by
    cases ht : p.tokens with
    | nil => rfl
    | cons t ts => simp [enclosed?, ho t ts ht]
  logical := logicalCut?_eq_none (.sum (.unit h))
  comparison := comparisonCut?_eq_none (.unit h)
  operation := h.operationCut?_eq_none

theorem Derives.enclosed?_append (h : p.Derives n) : enclosed? (p.tokens ++ t :: rest) = none :=
  h.closed.enclosed?_append p.tokens_ne_nil (by simp)

theorem two_le_length (p q : Phrase) (t : Token) : 2 ≤ (p.tokens ++ t :: q.tokens).length := by
  have := List.length_pos_iff.mpr p.tokens_ne_nil
  simp only [List.length_append, List.length_cons]
  omega

theorem Derives.form_tokens (h : p.Derives n) : Expr.Parser.form p.tokens = p.form := by
  rw [form_eq_iff]
  induction h with
  | string | number | word | connective => rfl
  | group hl hr h => exact enclosed?_group hl hr h.closed
  | @signed p b h hn =>
    refine ⟨rfl, p.tokens_ne_nil, (Derives.signed b h hn).whole ?_, sign?_eq_some_iff.mpr rfl⟩
    rintro t ts ⟨⟩
    rfl
  | @test key ts negated f hk hf =>
    refine ⟨⟨.word, key⟩, ts, rfl, ?_, (Derives.test hk hf).whole ?_, rfl⟩
    · obtain ⟨t, ht, -⟩ := KeyTest.getLast? hf
      rintro rfl
      simp at ht
    · rintro t ts ⟨⟩
      rfl
  | unit _ ih | sum _ ih | clause _ ih => exact ih
  | @arith l r t op hl hr hs ht hgl hgr =>
    have h := Derives.arith hl hr hs ht hgl hgr
    obtain ⟨u, hu, he⟩ := hl.getLast?
    have hop : operationInPlace? (last none l.tokens) t r.tokens = some op := by
      simp [last, hu, operationInPlace?, he, hs, r.tokens_ne_nil, ht]
    exact ⟨two_le_length l r t, hl.enclosed?_append, logicalCut?_eq_none (.sum h),
      h.comparisonCut?_eq_none,
      (hl.quiet_operation (fun _ ht => by cases ht)).cut?_eq_some (plain_of_operation? ht).1
        (plain_of_operation? ht).2 hop⟩
  | @compare l r t op hl hr ht hcl hcr =>
    have hq : Quiet (fun _ t _ => t.comparison?) none l.tokens :=
      hl.quiet_comparison
    exact ⟨two_le_length l r t, hl.enclosed?_append,
      (Derives.compare hl hr ht hcl hcr).logicalCut?_eq_none,
      hq.cut?_eq_some (plain_of_comparison? ht).1 (plain_of_comparison? ht).2 ht⟩
  | @logical l r t op hl hr ht hdl hdr =>
    exact ⟨two_le_length l r t, hl.enclosed?_append,
      hl.quiet_connective.cut?_eq_some (plain_of_connective? ht).1 (plain_of_connective? ht).2 ht⟩

/-- What a derivation says about the root, besides the capabilities. -/
def Rooted : Phrase → Prop
  | string _ | word _ => True
  | number s x => Binary64.read? s.toList = some x
  | group _ p _ => p.Derives .expression
  | signed _ p => p.Derives .unit
  | test _ rest negated f => KeyTest rest negated f
  | logical l _ _ r => l.Derives .clause ∧ r.Derives .expression
  | compare l _ _ r => l.Derives .sum ∧ r.Derives .sum
  | arith l _ _ r => l.Derives .unit ∧ r.Derives .sum

theorem Derives.rooted (h : p.Derives n) : p.Rooted := by
  induction h with
  | string | word | connective => trivial
  | number h => exact h
  | group _ _ h => exact h
  | signed _ h => exact h
  | test _ hf => exact hf
  | unit _ ih | sum _ ih | clause _ ih => exact ih
  | arith hl hr | compare hl hr | logical hl hr => exact ⟨hl, hr⟩

theorem KeyTest.eq {b : Bool} {g : FieldTest} (h : KeyTest ts negated f) (h' : KeyTest ts b g) :
    negated = b ∧ f = g := by
  have read {b : Bool} {g : FieldTest} (h : KeyTest ts b g) :
      keyTest (⟨.word, ""⟩ :: ts) = .ok (.test "" b g) :=
    keyTest_eq_ok_iff.mpr ⟨rfl, b, g, h, rfl⟩
  simpa using (read h).symm.trans (read h')

theorem Derives.form_eq (hp : p.Derives n) (hq : q.Derives m) (h : p.tokens = q.tokens) :
    p.form = q.form :=
  hp.form_tokens.symm.trans (h ▸ hq.form_tokens)

/-- No other derivation has the same tokens. -/
theorem Derives.eq_of_tokens_eq (hp : p.Derives n) (hq : q.Derives m) (h : p.tokens = q.tokens) :
    p = q := by
  induction p generalizing q n m with
  | string s | word s =>
    have hf := hp.form_eq hq h
    cases q <;> simp_all [form]
  | number s x =>
    have hf := hp.form_eq hq h
    cases q with
    | number s' y =>
      obtain rfl : s = s' := by simpa [form] using hf
      obtain rfl : x = y := Option.some.inj (hp.rooted.symm.trans hq.rooted)
      rfl
    | _ => simp [form] at hf
  | group l p r ih =>
    have hf := hp.form_eq hq h
    cases q with
    | group l' q r' =>
      have hi : p.tokens = q.tokens := by simpa [form] using hf
      obtain ⟨rfl, rfl⟩ : l = l' ∧ r = r' := by simpa [tokens, hi] using h
      rw [ih hp.rooted hq.rooted hi]
    | _ => simp [form] at hf
  | signed negative p ih =>
    have hf := hp.form_eq hq h
    cases q with
    | signed b q =>
      obtain ⟨-, rfl, hi⟩ : _ ∧ negative = b ∧ p.tokens = q.tokens := by simpa [form] using hf
      rw [ih hp.rooted hq.rooted hi]
    | _ => simp [form] at hf
  | test key rest negated f =>
    have hf := hp.form_eq hq h
    cases q with
    | test key' rest' b g =>
      obtain ⟨rfl, rfl⟩ : key = key' ∧ rest = rest' := by simpa [tokens] using h
      obtain ⟨rfl, rfl⟩ := KeyTest.eq hp.rooted hq.rooted
      rfl
    | _ => simp [form] at hf
  -- an operator of any tier: the form names both sides, the token between them and its meaning
  | logical l t op r ihl ihr | compare l t op r ihl ihr | arith l t op r ihl ihr =>
    have hf := hp.form_eq hq h
    obtain ⟨hpl, hpr⟩ := hp.rooted
    cases q <;> simp only [form, reduceCtorEq, Form.logical.injEq, Form.compare.injEq,
      Form.arith.injEq, Cut.mk.injEq] at hf
    obtain ⟨hl, rfl, rfl, hr⟩ := hf
    obtain ⟨hql, hqr⟩ := hq.rooted
    rw [ihl hpl hql hl, ihr hpr hqr hr]

end RecordSieve.Phrase
