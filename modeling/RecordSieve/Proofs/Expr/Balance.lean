import RecordSieve.Proofs.Expr.Spans

/-! # Balance

Tokens are balanced if no beginning of them closes more parentheses than it opens and all of them
are closed in the end. The parts that a balanced span is cut into are balanced.
-/

namespace RecordSieve.Expr.Parser

variable {α : Type} {f : Option Token → Token → List Token → Option α} {t : Token}
  {span ts inner operand : List Token} {prev : Option Token} {d : Nat} {c : Cut α}

/-- Parentheses are closed only after they are opened, and all are closed in the end. -/
structure Balanced (ts : List Token) : Prop where
  sane : ∀ l, l <+: ts → l.countP Token.closes ≤ l.countP Token.opens
  settled : ts.countP Token.closes = ts.countP Token.opens

theorem forall_isPrefix_cons_iff {p : List Token → Prop} :
    (∀ l, l <+: t :: ts → p l) ↔ p [] ∧ ∀ l, l <+: ts → p (t :: l) := by
  constructor
  · intro h
    constructor
    · exact h [] List.nil_prefix
    · intro l hl
      exact h (t :: l) (List.cons_prefix_cons.mpr ⟨rfl, hl⟩)
  · rintro ⟨hn, h⟩ l hl
    rcases List.prefix_cons_iff.mp hl with rfl | ⟨m, rfl, hm⟩
    · exact hn
    · exact h m hm

/-- With `d` parentheses open before the tokens, these close their own ones and the `d`. -/
theorem isBalanced_iff_count : isBalanced d ts ↔
    (∀ l, l <+: ts → l.countP Token.closes ≤ d + l.countP Token.opens) ∧
      ts.countP Token.closes = d + ts.countP Token.opens := by
  induction ts generalizing d with
  | nil => simp [isBalanced, eq_comm]
  | cons t ts ih =>
    rw [isBalanced, forall_isPrefix_cons_iff]
    cases hc : t.closes with
    | true =>
      have ho := opens_eq_false_of_closes hc
      cases d with
      | zero =>
        constructor
        · intro h
          simp [ho] at h
        · rintro ⟨⟨-, h⟩, -⟩
          have hone := h [] List.nil_prefix
          simp [ho, hc] at hone
      | succ d => simp [ih, ho, hc, Nat.add_right_comm d 1]
    | false =>
      cases ho : t.opens with
      | false => simp [ih, ho, hc]
      | true => simp [ih, ho, hc, Nat.add_comm, Nat.add_left_comm]

theorem isBalanced_iff : isBalanced 0 ts ↔ Balanced ts := by
  rw [isBalanced_iff_count]
  simp only [Nat.zero_add]
  exact ⟨fun h => ⟨h.1, h.2⟩, fun h => ⟨h.sane, h.settled⟩⟩

theorem Closed.of_enclosed? (h : Closed span) (he : enclosed? span = some inner) :
    Closed inner := by
  cases h with
  | nil => simp [enclosed?] at he
  | plain ho => simp [enclosed?, ho] at he
  | group ht hu hi =>
    simp only [enclosed?, ht, if_true, hi.untilLast?_append, untilLast?,
      opens_eq_false_of_closes hu, hu, Bool.false_eq_true, if_false] at he
    split at he
    · obtain rfl : _ = inner := by simpa using he
      exact hi
    · simp at he

theorem Closed.of_cut? (h : Closed span) (hc : cut? f 0 prev span = some c) :
    Closed c.before ∧ Closed c.after := by
  induction h generalizing prev c with
  | nil => simp [cut?] at hc
  | @plain t l ht hu hl ih =>
    rcases cut?_cons f 0 prev t l with ⟨op, -, -, -, he⟩ | ⟨-, he⟩
    · obtain rfl := Option.some.inj (he.symm.trans hc)
      exact ⟨.nil, hl⟩
    · obtain ⟨c, hl, rfl⟩ := Option.map_eq_some_iff.mp (he.symm.trans hc)
      obtain ⟨hb, ha⟩ := ih (by simpa [depthAfter, ht, hu] using hl)
      exact ⟨.plain ht hu hb, ha⟩
  | @group t u inner l ht hu hi _ _ ih =>
    rw [cut?_of_opens ht, hi.cut?_append, cut?_of_closes hu] at hc
    simp only [Option.map_map, Option.map_eq_some_iff] at hc
    obtain ⟨c, hc, rfl⟩ := hc
    obtain ⟨hb, ha⟩ := ih hc
    exact ⟨by simpa [Cut.prepend] using Closed.group ht hu hi hb, ha⟩

theorem Closed.of_cons (h : Closed (t :: operand)) (ht : t.opens = false) : Closed operand := by
  cases h with
  | plain _ _ h => exact h
  | group ho => simp [ht] at ho

end RecordSieve.Expr.Parser
