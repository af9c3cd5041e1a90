import RecordSieve.Proofs.Expr.Derivation
import RecordSieve.Proofs.Expr.Typing

/-! # Reading recognizes the grammar

What is derived is read to the expression that the derivation stands for, if the levels of nesting
suffice for its height, and what is read has a derivation.
-/

namespace RecordSieve

open Expr.Parser

variable {α β : Type} {levels m n : Nat} {read : List Token → Except ParseError Expr} {c : Cut α}
  {needed : Capability} {l r e : Expr} {span ts : List Token} {t : Token}
  {prev : Option Token} {d : Nat}

/-- A result of some height, where only lower ones can be reached. -/
def bounded (height levels : Nat) (x : α) : Except ParseError α :=
  if height < levels then .ok x else .error .tooDeep

@[simp] theorem bounded_succ (x : α) : bounded (m + 1) (levels + 1) x = bounded m levels x := by
  simp [bounded]

theorem map_bounded (f : α → β) (x : α) : f <$> bounded m levels x = bounded m levels (f x) := by
  unfold bounded
  split <;> rfl

theorem check_of_has {side : Side} (h : e.has needed) : check t side needed e = .ok () :=
  check_eq_ok_iff.mpr h

theorem sides_bounded {before after : List Token} {op : α} (hb : before ≠ []) (ha : after ≠ [])
    (hl : read before = bounded m levels l) (hr : read after = bounded n levels r)
    (hcl : l.has needed) (hcr : r.has needed) :
    sides read ⟨before, t, op, after⟩ needed = bounded (max m n) levels (l, r) := by
  by_cases hm : m < levels
  · by_cases hn : n < levels
    · have := Nat.max_lt.mpr ⟨hm, hn⟩
      simp [sides, hb, ha, hl, hr, bounded, hm, hn, this, check_of_has, hcl, hcr, bind,
        Except.bind, pure, Except.pure]
    · have : ¬ max m n < levels := fun h => hn (Nat.max_lt.mp h).2
      simp [sides, hb, ha, hl, hr, bounded, hm, hn, this, bind, Except.bind]
  · have : ¬ max m n < levels := fun h => hm (Nat.max_lt.mp h).1
    simp [sides, hb, ha, hl, bounded, hm, this, bind, Except.bind]

namespace Phrase

variable {p : Phrase} {k : Nonterminal}

theorem Derives.ofSpan_of_readForm (h : p.Derives k)
    (hf : ∀ levels, readForm (ofSpan levels) p.tokens p.form =
      bounded p.height (levels + 1) p.tree) :
    ofSpan levels p.tokens = bounded p.height levels p.tree := by
  cases levels with
  | zero => rfl
  | succ levels =>
    rw [ofSpan_succ, h.form_tokens]
    exact hf levels

/-- What is derived is read, if the levels suffice for its height. -/
theorem Derives.ofSpan_tokens (h : p.Derives k) :
    ofSpan levels p.tokens = bounded p.height levels p.tree := by
  induction h generalizing levels with
  | unit _ ih | sum _ ih | clause _ ih => exact ih
  | string | word | connective => cases levels <;> rfl
  | number hx =>
    refine ofSpan_of_readForm (.number hx) fun levels => ?_
    exact single_eq_ok_iff.mpr (.inr (.inl ⟨_, _, rfl, hx, rfl⟩))
  | group hl hr h ih =>
    refine ofSpan_of_readForm (.group hl hr h) fun levels => ?_
    exact ih.trans (bounded_succ _).symm
  | signed b h hn ih =>
    refine ofSpan_of_readForm (.signed b h hn) fun levels => ?_
    have hc : check (signToken b) .right .numeric _ = .ok () := check_of_has hn
    simp only [Phrase.form, readForm, ih, height, bounded_succ, tree]
    unfold bounded
    split
    · simp [bind, Except.bind, hc, pure, Except.pure]
    · rfl
  | test hk hf =>
    refine ofSpan_of_readForm (.test hk hf) fun levels => ?_
    exact keyTest_eq_ok_iff.mpr ⟨rfl, _, _, hf, rfl⟩
  | @arith l r t op hl hr hs ht hgl hgr ihl ihr =>
    refine ofSpan_of_readForm (.arith hl hr hs ht hgl hgr) fun levels => ?_
    have hs : sides (ofSpan levels) ⟨l.tokens, t, op, r.tokens⟩ .numeric = _ :=
      sides_bounded l.tokens_ne_nil r.tokens_ne_nil ihl ihr hgl hgr
    simp [Phrase.form, readForm, hs, map_bounded, height, tree]
  | @compare l r t op hl hr ht hcl hcr ihl ihr =>
    refine ofSpan_of_readForm (.compare hl hr ht hcl hcr) fun levels => ?_
    have hs : sides (ofSpan levels) ⟨l.tokens, t, op, r.tokens⟩ op.needs = _ :=
      sides_bounded l.tokens_ne_nil r.tokens_ne_nil ihl ihr hcl hcr
    simp [Phrase.form, readForm, hs, map_bounded, height, tree]
  | @logical l r t op hl hr ht hdl hdr ihl ihr =>
    refine ofSpan_of_readForm (.logical hl hr ht hdl hdr) fun levels => ?_
    have hs : sides (ofSpan levels) ⟨l.tokens, t, op, r.tokens⟩ .predicate = _ :=
      sides_bounded l.tokens_ne_nil r.tokens_ne_nil ihl ihr hdl hdr
    simp [Phrase.form, readForm, hs, map_bounded, height, tree]

end Phrase

theorem extends_of_token (g : Token → Option α) : Extends fun _ t _ => g t :=
  fun _ _ _ _ h => h

theorem extends_operationInPlace? : Extends operationInPlace? := by
  intro prev t l r h
  cases prev with
  | none => rfl
  | some p =>
    simp only [operationInPlace?] at h ⊢
    split at h
    · simp [h]
    · rename_i hn
      split
      · rename_i hl
        exact (hn ⟨hl.1, by simp [hl.2]⟩).elim
      · rfl

theorem cut?_tail {f : Option Token → Token → List Token → Option α} (ho : t.opens = false)
    (hc : t.closes = false) (h : cut? f 0 none (t :: ts) = none) :
    f none t ts = none ∧ cut? f 0 (some t) ts = none := by
  rcases cut?_cons f 0 none t ts with ⟨op, -, -, -, he⟩ | ⟨hf, he⟩
  · simp [he] at h
  · simp only [depthAfter, ho, hc, h] at he
    exact ⟨hf ho hc rfl, Option.map_eq_none_iff.mp he.symm⟩

theorem logicalCut?_of_signed (hs : t.kind = .operator) (h : logicalCut? (t :: ts) = none) :
    logicalCut? ts = none := by
  have hp := Phrase.plain_of_kind (.inr hs)
  exact (cut?_previous _).trans (cut?_tail hp.1 hp.2 h).2

/-- An operation can stand neither at the start of a span nor after a sign. -/
theorem operationCut?_of_signed (hs : t.kind = .operator) (h : operationCut? (t :: ts) = none) :
    operationCut? ts = none := by
  have hp := Phrase.plain_of_kind (.inr hs)
  have ht : t.endsOperand = false := by simp [Token.endsOperand, hs]
  have h := (cut?_tail hp.1 hp.2 h).2
  cases ts with
  | nil => rfl
  | cons u ts => simpa [operationCut?, cut?, operationInPlace?, ht] using h

theorem givesValue_of_has_needs {op : Comparison} (h : e.has op.needs) : e.givesValue := by
  unfold Comparison.needs at h
  split at h
  · exact h
  · exact Expr.givesValue_of_givesNumber h

namespace Phrase

variable {p : Phrase} {k : Nonterminal}

theorem Derives.clause_of_logicalCut? (h : p.Derives .expression)
    (hc : logicalCut? p.tokens = none) : p.Derives .clause := by
  have hf := form_eq_iff.mp h.form_tokens
  cases h with
  | clause h => exact h
  | logical =>
    obtain ⟨-, -, hs⟩ := hf
    simp [hc] at hs
  | @connective w hw =>
    obtain ⟨op, hop⟩ := Option.isSome_iff_exists.mp hw
    have hs : logicalCut? [⟨.word, w⟩] = some _ := cut?_of_some rfl rfl hop
    simp [tokens, hs] at hc

theorem Derives.sum_of_givesValue (h : p.Derives .clause) (hv : p.tree.givesValue) :
    p.Derives .sum := by
  cases h with
  | sum h => exact h
  | compare => simp [tree, Expr.givesValue] at hv

theorem Derives.unit_of_operationCut? (h : p.Derives .sum) (hc : operationCut? p.tokens = none) :
    p.Derives .unit := by
  have hf := form_eq_iff.mp h.form_tokens
  cases h with
  | unit h => exact h
  | arith =>
    obtain ⟨-, -, -, -, hs⟩ := hf
    simp [hc] at hs

theorem clauses_of_cut? {f : Option Token → Token → List Token → Option α} {q : Phrase}
    (hl : logicalCut? span = none) (hc : cut? f 0 none span = some c)
    (hp : p.Derives .expression ∧ q.Derives .expression)
    (ht : p.tokens = c.before ∧ q.tokens = c.after) : p.Derives .clause ∧ q.Derives .clause := by
  obtain ⟨rfl, -, -⟩ := exists_of_cut? hc
  have hlp : logicalCut? c.before = none := cut?_eq_none_of_append (extends_of_token _) hl
  have hlq : logicalCut? c.after = none := (cut?_previous _).trans (cut?_after hc hl)
  rw [← ht.1] at hlp
  rw [← ht.2] at hlq
  exact ⟨hp.1.clause_of_logicalCut? hlp, hp.2.clause_of_logicalCut? hlq⟩

theorem Derives.of_operationInPlace? {op : Operation} (h : p.Derives .unit)
    (hop : operationInPlace? (last none p.tokens) t ts = some op) :
    p.endsInStar = false ∧ t.operation? = some op := by
  obtain ⟨u, hu, he⟩ := h.getLast?
  have hlast : last none p.tokens = some u := by simp [last, hu]
  rw [hlast] at hop
  obtain ⟨⟨hue, -⟩, hop⟩ : (u.endsOperand ∧ ts ≠ []) ∧ t.operation? = some op := by
    simpa [operationInPlace?] using hop
  exact ⟨by simpa [hue] using he, hop⟩

/-- The span has a derivation of the expression, lower than the levels. -/
def Derivable (levels : Nat) (span : List Token) (e : Expr) : Prop :=
  ∃ p : Phrase, p.Derives .expression ∧ p.tokens = span ∧ p.tree = e ∧ p.height < levels

theorem derivable_of_single (h : single t = .ok e) : Derivable (levels + 1) [t] e := by
  rcases single_eq_ok_iff.mp h with ⟨s, rfl, rfl⟩ | ⟨s, x, rfl, hx, rfl⟩ | ⟨w, rfl, rfl⟩
  · exact ⟨.string s, .clause (.sum (.unit (.string s))), rfl, rfl, Nat.succ_pos _⟩
  · exact ⟨.number s x, .clause (.sum (.unit (.number hx))), rfl, rfl, Nat.succ_pos _⟩
  · refine ⟨.word w, ?_, rfl, rfl, Nat.succ_pos _⟩
    cases hw : isConnective w with
    | true => exact .connective hw
    | false => exact .clause (.sum (.unit (.word hw)))

theorem Derivable.group {inner : List Token} (hi : enclosed? span = some inner)
    (h : Derivable levels inner e) : Derivable (levels + 1) span e := by
  obtain ⟨t, u, ht, hu, rfl⟩ := exists_of_enclosed? hi
  obtain ⟨p, hp, rfl, rfl, hh⟩ := h
  exact ⟨.group t p u, .clause (.sum (.unit (.group ht hu hp))), rfl, rfl, Nat.succ_lt_succ hh⟩

theorem Derivable.signed {negative : Bool} (hw : Whole (signToken negative :: ts))
    (h : Derivable levels ts e) (hn : e.has .numeric) :
    Derivable (levels + 1) (signToken negative :: ts) (if negative then negate e else e) := by
  obtain ⟨p, hp, rfl, rfl, hh⟩ := h
  have hp := hp.clause_of_logicalCut? (logicalCut?_of_signed rfl hw.logical)
  have hp := hp.sum_of_givesValue (Expr.givesValue_of_givesNumber hn)
  have hp := hp.unit_of_operationCut? (operationCut?_of_signed rfl hw.operation)
  exact ⟨.signed negative p, .clause (.sum (.unit (hp.signed negative hn))), rfl, rfl,
    Nat.succ_lt_succ hh⟩

theorem derivable_of_keyTest (hw : Whole (t :: ts)) (h : keyTest (t :: ts) = .ok e) :
    Derivable (levels + 1) (t :: ts) e := by
  obtain ⟨hk, negated, f, hkt, rfl⟩ := keyTest_eq_ok_iff.mp h
  obtain ⟨kind, key⟩ := t
  obtain rfl : kind = .word := hk
  have hc : isConnective key = false := by
    have hn : (⟨.word, key⟩ : Token).connective? = none := (cut?_tail rfl rfl hw.logical).1
    simp [isConnective, hn]
  exact ⟨.test key ts negated f, .clause (.sum (.unit (.test hc hkt))), rfl, rfl, Nat.succ_pos _⟩

section Sides

variable (ih : ∀ {span e}, read span = .ok e → Derivable levels span e)

include ih

theorem exists_derives_of_sides (h : sides read c needed = .ok (l, r)) : ∃ p q : Phrase,
    (p.Derives .expression ∧ q.Derives .expression) ∧ (p.tokens = c.before ∧ q.tokens = c.after) ∧
    (p.tree = l ∧ q.tree = r) ∧ (l.has needed ∧ r.has needed) ∧
    max p.height q.height < levels := by
  obtain ⟨-, ⟨hl, hr⟩, hc⟩ := sides_eq_ok_iff.mp h
  obtain ⟨p, hp, hpt, hpe, hph⟩ := ih hl
  obtain ⟨q, hq, hqt, hqe, hqh⟩ := ih hr
  exact ⟨p, q, ⟨hp, hq⟩, ⟨hpt, hqt⟩, ⟨hpe, hqe⟩, hc, Nat.max_lt.mpr ⟨hph, hqh⟩⟩

theorem derivable_of_logical {c : Cut Connective} (hc : logicalCut? span = some c)
    (hs : sides read c .predicate = .ok (l, r)) :
    Derivable (levels + 1) span (.logical c.op l r) := by
  obtain ⟨p, q, ⟨hp, hq⟩, ⟨hpt, hqt⟩, ⟨rfl, rfl⟩, ⟨hdp, hdq⟩, hh⟩ := exists_derives_of_sides ih hs
  obtain ⟨rfl, -, hop⟩ := exists_of_cut? hc
  have hcp : logicalCut? p.tokens = none := hpt ▸ cut?_before (extends_of_token _) hc
  exact ⟨.logical p c.token c.op q, .logical (hp.clause_of_logicalCut? hcp) hq hop hdp hdq,
    by simp [tokens, hpt, hqt], rfl, Nat.succ_lt_succ hh⟩

theorem derivable_of_compare {c : Cut Comparison} (hl : logicalCut? span = none)
    (hc : comparisonCut? span = some c) (hs : sides read c c.op.needs = .ok (l, r)) :
    Derivable (levels + 1) span (.compare c.op l r) := by
  obtain ⟨p, q, hd, ht, ⟨rfl, rfl⟩, ⟨hcp, hcq⟩, hh⟩ := exists_derives_of_sides ih hs
  obtain ⟨hp, hq⟩ := clauses_of_cut? hl hc hd ht
  have hp := hp.sum_of_givesValue (givesValue_of_has_needs hcp)
  have hq := hq.sum_of_givesValue (givesValue_of_has_needs hcq)
  obtain ⟨rfl, -, hop⟩ := exists_of_cut? hc
  exact ⟨.compare p c.token c.op q, .clause (.compare hp hq hop hcp hcq),
    by simp [tokens, ht], rfl, Nat.succ_lt_succ hh⟩

theorem derivable_of_arith {c : Cut Operation} (hl : logicalCut? span = none)
    (hc : operationCut? span = some c) (hs : sides read c .numeric = .ok (l, r)) :
    Derivable (levels + 1) span (.arith c.op l r) := by
  obtain ⟨p, q, hd, ht, ⟨rfl, rfl⟩, ⟨hgp, hgq⟩, hh⟩ := exists_derives_of_sides ih hs
  obtain ⟨hp, hq⟩ := clauses_of_cut? hl hc hd ht
  have hp := hp.sum_of_givesValue (Expr.givesValue_of_givesNumber hgp)
  have hq := hq.sum_of_givesValue (Expr.givesValue_of_givesNumber hgq)
  have hcp : operationCut? p.tokens = none := ht.1 ▸ cut?_before extends_operationInPlace? hc
  have hp := hp.unit_of_operationCut? hcp
  obtain ⟨rfl, -, hop⟩ := exists_of_cut? hc
  obtain ⟨hstar, hop⟩ := hp.of_operationInPlace? (ht.1 ▸ hop)
  exact ⟨.arith p c.token c.op q, .clause (.sum (.arith hp hq hstar hop hgp hgq)),
    by simp [tokens, ht], rfl, Nat.succ_lt_succ hh⟩

end Sides

/-- What is read has a derivation, lower than the levels. -/
theorem exists_derives_of_ofSpan (h : ofSpan levels span = .ok e) :
    ∃ p : Phrase, p.Derives .expression ∧ p.tokens = span ∧ p.tree = e ∧ p.height < levels := by
  change Derivable levels span e
  induction levels generalizing span e with
  | zero => simp [ofSpan] at h
  | succ levels ih =>
    rw [ofSpan_succ_eq_ok_iff] at h
    generalize hf : Expr.Parser.form span = f at h
    have hd := form_eq_iff.mp hf
    cases h with
    | single h =>
      obtain rfl : span = [_] := hd
      exact derivable_of_single h
    | group h => exact (ih h).group hd
    | logical hs =>
      obtain ⟨-, -, hc⟩ := hd
      exact derivable_of_logical ih hc hs
    | compare hs =>
      obtain ⟨-, -, hl, hc⟩ := hd
      exact derivable_of_compare ih hl hc hs
    | arith hs =>
      obtain ⟨-, -, hl, -, hc⟩ := hd
      exact derivable_of_arith ih hl hc hs
    | signed negative h hn =>
      obtain ⟨rfl, -, hw, hs⟩ := hd
      obtain rfl := sign?_eq_some_iff.mp hs
      exact (ih h).signed hw hn
    | test h =>
      obtain ⟨t, rest, rfl, -, hw, -⟩ := hd
      exact derivable_of_keyTest hw h

end Phrase

theorem Phrase.Derives.ofTokens_tokens {p : Phrase} (hp : p.Derives .expression) :
    Expr.ofTokens p.tokens = bounded p.height (nestingLimit + 1) p.tree := by
  rw [Expr.ofTokens, if_pos hp.closed.isBalanced, hp.ofSpan_tokens]

/-- Tokens form an expression exactly if they have a derivation that is not too high, and it is the
one that the derivation stands for. There is one derivation at most, and one that is too high is
an error of its own. -/
theorem ofTokens_recognizes (ts : List Token) :
    (∀ e, Expr.ofTokens ts = .ok e ↔ ∃ p : Phrase, p.Derives .expression ∧ p.tokens = ts ∧
      p.tree = e ∧ p.height ≤ nestingLimit) ∧
    (∀ p q : Phrase, p.Derives .expression → q.Derives .expression → p.tokens = ts →
      q.tokens = ts → p = q) ∧
    ∀ p : Phrase, p.Derives .expression → p.tokens = ts → nestingLimit < p.height →
      Expr.ofTokens ts = .error .tooDeep := by
  refine ⟨fun e => ⟨fun h => ?_, ?_⟩, ?_, ?_⟩
  · unfold Expr.ofTokens at h
    split at h
    · obtain ⟨p, hp, ht, he, hh⟩ := Phrase.exists_derives_of_ofSpan h
      exact ⟨p, hp, ht, he, Nat.le_of_lt_succ hh⟩
    · simp at h
  · rintro ⟨p, hp, rfl, rfl, hh⟩
    rw [hp.ofTokens_tokens, bounded, if_pos (Nat.lt_succ_of_le hh)]
  · rintro p q hp hq ht rfl
    exact hp.eq_of_tokens_eq hq ht
  · rintro p hp rfl hh
    rw [hp.ofTokens_tokens, bounded, if_neg (by omega)]

/-- `- a - b - c` is a chain that groups to the right. -/
theorem ofTokens_recognizes_chain :
    let ts : List Token := [⟨.operator, "-"⟩, ⟨.word, "a"⟩, ⟨.operator, "-"⟩, ⟨.word, "b"⟩,
      ⟨.operator, "-"⟩, ⟨.word, "c"⟩]
    let e : Expr := .arith .subtract (.arith .subtract (.number (.zero false)) (.field "a"))
      (.arith .subtract (.field "b") (.field "c"))
    Expr.ofTokens ts = .ok e ∧
      ∃ p : Phrase, p.Derives .expression ∧ p.tokens = ts ∧ p.tree = e ∧
        p.height ≤ nestingLimit := by
  intro ts e
  have h : Expr.ofTokens ts = .ok e := by rfl
  exact ⟨h, ((ofTokens_recognizes ts).1 e).mp h⟩

/-- A connective alone is read as a field, though it is neither a clause nor a connection. -/
theorem ofTokens_lone_connective :
    Expr.ofTokens [⟨.word, "and"⟩] = .ok (.field "and") ∧
    ¬ ∃ p : Phrase, p.tokens = [⟨.word, "and"⟩] ∧
      (p.Derives .clause ∨ ∃ l t op r, p = .logical l t op r) := by
  refine ⟨by rfl, ?_⟩
  rintro ⟨p, ht, hp | ⟨l, t, op, r, rfl⟩⟩
  · have hc := hp.logicalCut?_eq_none
    rw [ht] at hc
    have hs : logicalCut? [⟨.word, "and"⟩] = some ⟨[], ⟨.word, "and"⟩, .and, []⟩ := rfl
    simp [hs] at hc
  · have hlen := Phrase.two_le_length l r t
    have ht : l.tokens ++ t :: r.tokens = [⟨.word, "and"⟩] := ht
    simp [ht] at hlen

end RecordSieve
