import RecordSieve.Proofs.Expr.Form
import RecordSieve.Proofs.Expr.KeyTest
import RecordSieve.Proofs.Expr.Spans

/-! # What errors name

An error in reading a span names tokens of that span, and each of them is what the error says that
it is: no key is a word, no numeral can be read. Parentheses and decisions are no matter of spans.
-/

namespace RecordSieve.Expr.Parser

/-- The errors that reading a span can end in, with what is true of the tokens that they name. -/
inductive Blames (span : List Token) : ParseError → Prop
  | empty : Blames span .empty
  | tooDeep : Blames span .tooDeep
  | noOperand {op : Token} (side : Side) : op ∈ span → Blames span (.noOperand op side)
  | incapable {op : Token} {needed : Capability} {operand : Expr} (side : Side) : op ∈ span →
      operand.has needed = false → Blames span (.incapable op side needed operand)
  | stray {t : Token} : t ∈ span → t.kind ∉ [.string, .number, .word] → Blames span (.stray t)
  | noNumeral {s : String} : ⟨.number, s⟩ ∈ span → Binary64.read? s.toList = none →
      Blames span (.noNumeral s)
  | noKey {t : Token} (keyword : String) : t ∈ span → t.kind ≠ .word →
      Blames span (.noKey keyword t)
  | badItem {items : List Token} : items <:+: span → Blames span (.badItem items)
  | shapeless {part : List Token} : part <:+: span → Blames span (.shapeless part)

variable {α : Type} {levels : Nat} {span part items item : List Token} {t : Token} {e : Expr}
  {err : ParseError} {read : List Token → Except ParseError Expr} {c : Cut α} {needed : Capability}

theorem Blames.mono (h : Blames part err) (hp : part <:+: span) : Blames span err := by
  cases h with
  | empty => exact .empty
  | tooDeep => exact .tooDeep
  | noOperand side hop => exact .noOperand side (hp.subset hop)
  | incapable side hop hn => exact .incapable side (hp.subset hop) hn
  | stray ht hk => exact .stray (hp.subset ht) hk
  | noNumeral hs hr => exact .noNumeral (hp.subset hs) hr
  | noKey keyword ht hk => exact .noKey keyword (hp.subset ht) hk
  | badItem hi => exact .badItem (hi.trans hp)
  | shapeless hs => exact .shapeless (hs.trans hp)

theorem numberOf_eq_error_iff : numberOf t = .error err ↔
    Binary64.read? t.text.toList = none ∧ err = .noNumeral t.text := by
  unfold numberOf
  cases Binary64.read? t.text.toList <;> simp [eq_comm]

theorem blames_of_numberOf (ht : t ∈ span) (hk : t.kind = .number)
    (h : numberOf t = .error err) : Blames span err := by
  obtain ⟨hr, rfl⟩ := numberOf_eq_error_iff.mp h
  refine .noNumeral ?_ hr
  rwa [← hk]

theorem blames_of_single (ht : t ∈ span) (h : single t = .error err) : Blames span err := by
  unfold single at h
  split at h
  · cases h
  · rename_i hk
    exact blames_of_numberOf ht hk (map_eq_error_iff.mp h)
  · cases h
  · cases h
    exact .stray ht (by simp_all)

theorem blames_of_keyOf {keyword : String} (ht : t ∈ span) (h : keyOf keyword t = .error err) :
    Blames span err := by
  unfold keyOf at h
  split at h
  · cases h
  · rename_i hk
    cases h
    exact .noKey keyword ht hk

theorem blames_of_itemValue (hi : item ⊆ items) (h : itemValue items item = .error err) :
    Blames items err := by
  have hbad : Blames items (.badItem items) := .badItem List.infix_rfl
  unfold itemValue at h
  split at h
  · split at h
    · cases h
    · cases h
    · rename_i hk
      exact blames_of_numberOf (hi List.mem_cons_self) hk (map_eq_error_iff.mp h)
    · cases h
      exact hbad
  · rename_i s t
    have ht : t ∈ items := hi (List.mem_cons_of_mem s List.mem_cons_self)
    split at h
    · rename_i hk
      split at h
      · exact blames_of_numberOf ht hk (map_eq_error_iff.mp h)
      · exact blames_of_numberOf ht hk (map_eq_error_iff.mp h)
      · cases h
        exact hbad
    · cases h
      exact hbad
  · cases h
    exact hbad

theorem subset_of_mem_splitOnP {p : Token → Bool} (h : item ∈ items.splitOnP p) :
    item ⊆ items := by
  induction items generalizing item with
  | nil =>
    obtain rfl : item = [] := by simpa using h
    exact List.nil_subset _
  | cons t items ih =>
    rw [List.splitOnP_cons_eq_if_modifyHead] at h
    split at h
    · rcases List.mem_cons.mp h with rfl | h
      · exact List.nil_subset _
      · exact List.subset_cons_of_subset t (ih h)
    · cases hp : items.splitOnP p with
      | nil => exact absurd hp (List.splitOnP_ne_nil p items)
      | cons first rest =>
        simp only [hp, List.modifyHead_cons, List.mem_cons] at h ih
        rcases h with rfl | h
        · exact List.cons_subset_cons t (ih (.inl rfl))
        · exact List.subset_cons_of_subset t (ih (.inr h))

theorem blames_of_listValues (h : listValues items = .error err) : Blames items err := by
  obtain ⟨item, hi, h⟩ := exists_of_mapM_eq_error h
  exact blames_of_itemValue (subset_of_mem_splitOnP hi) h

theorem infix_of_shape? (h : shape? span = some (.oneOf items)) : items <:+: span := by
  unfold shape? at h
  split at h
  · simp at h
  · rename_i a b rest _
    simp only [Option.ite_none_right_eq_some, Option.some.injEq, Shape.oneOf.injEq] at h
    obtain ⟨-, rfl⟩ := h
    exact (List.dropLast_prefix rest).isInfix.trans (List.suffix_append [a, b] rest).isInfix
  · cases h

theorem suffix_splitNot (ts : List Token) : (splitNot ts).2 <:+ ts := by
  cases ts with
  | nil => exact List.suffix_rfl
  | cons t ts =>
    rw [splitNot]
    split
    · exact List.suffix_cons t ts
    · exact List.suffix_rfl

theorem blames_of_keyTest (h : keyTest span = .error err) : Blames span err := by
  unfold keyTest at h
  split at h
  · cases h
    exact .shapeless List.infix_rfl
  · rename_i key rest
    have hkey : key ∈ key :: rest := List.mem_cons_self
    split at h
    · exact blames_of_keyOf hkey (map_eq_error_iff.mp h)
    · have hrest : (splitNot rest).2 <:+: key :: rest :=
        ((suffix_splitNot rest).trans (List.suffix_cons key rest)).isInfix
      cases hs : shape? (splitNot rest).2 with
      | none =>
        simp only [hs] at h
        cases h
        exact .shapeless List.infix_rfl
      | some shape =>
        simp only [hs] at h
        rcases bind_eq_error_iff.mp h with h | ⟨k, -, h⟩
        · exact blames_of_keyOf hkey h
        · rcases bind_eq_error_iff.mp h with h | ⟨f, -, h⟩
          · cases shape with
            | like p => cases h
            | oneOf items =>
              have hi := blames_of_listValues (map_eq_error_iff.mp h)
              exact hi.mono ((infix_of_shape? hs).trans hrest)
          · cases h

theorem blames_of_check {op : Token} {side : Side} (hop : op ∈ span)
    (h : check op side needed e = .error err) : Blames span err := by
  unfold check at h
  split at h
  · cases h
  · rename_i hn
    cases h
    exact .incapable side hop (eq_false_of_ne_true hn)

theorem blames_of_sides (ih : ∀ {part err}, read part = .error err → Blames part err)
    (hs : span = c.before ++ c.token :: c.after) (h : sides read c needed = .error err) :
    Blames span err := by
  have hop : c.token ∈ span := by simp [hs]
  have hbefore : c.before <:+: span := ⟨[], c.token :: c.after, by simp [hs]⟩
  have hafter : c.after <:+: span := ⟨c.before ++ [c.token], [], by simp [hs]⟩
  unfold sides at h
  split at h
  · cases h
    exact .noOperand .left hop
  · split at h
    · cases h
      exact .noOperand .right hop
    · rcases bind_eq_error_iff.mp h with h | ⟨l, -, h⟩
      · exact (ih h).mono hbefore
      rcases bind_eq_error_iff.mp h with h | ⟨r, -, h⟩
      · exact (ih h).mono hafter
      rcases bind_eq_error_iff.mp h with h | ⟨_, -, h⟩
      · exact blames_of_check hop h
      rcases bind_eq_error_iff.mp h with h | ⟨_, -, h⟩
      · exact blames_of_check hop h
      · cases h

/-- Whatever is wrong with a span, tokens of the span are to blame. -/
theorem blames_of_ofSpan (h : ofSpan levels span = .error err) : Blames span err := by
  induction levels generalizing span err with
  | zero =>
    cases h
    exact .tooDeep
  | succ levels ih =>
    rw [ofSpan_succ] at h
    cases hf : form span with
    | empty =>
      rw [hf] at h
      cases h
      exact .empty
    | single t =>
      rw [hf] at h
      obtain rfl : span = [t] := form_eq_iff.mp hf
      exact blames_of_single List.mem_cons_self h
    | group inner =>
      rw [hf] at h
      obtain ⟨t, u, -, -, rfl⟩ := exists_of_enclosed? (form_eq_iff.mp hf)
      exact (ih h).mono ⟨[t], [u], rfl⟩
    | logical c =>
      rw [hf] at h
      obtain ⟨-, -, hc⟩ := form_eq_iff.mp hf
      exact blames_of_sides ih (exists_of_cut? hc).1 (map_eq_error_iff.mp h)
    | compare c =>
      rw [hf] at h
      obtain ⟨-, -, -, hc⟩ := form_eq_iff.mp hf
      exact blames_of_sides ih (exists_of_cut? hc).1 (map_eq_error_iff.mp h)
    | arith c =>
      rw [hf] at h
      obtain ⟨-, -, -, -, hc⟩ := form_eq_iff.mp hf
      exact blames_of_sides ih (exists_of_cut? hc).1 (map_eq_error_iff.mp h)
    | signed t negative operand =>
      rw [hf] at h
      obtain ⟨rfl, -⟩ := form_eq_iff.mp hf
      rcases bind_eq_error_iff.mp h with h | ⟨e, -, h⟩
      · exact (ih h).mono (List.suffix_cons t operand).isInfix
      rcases bind_eq_error_iff.mp h with h | ⟨_, -, h⟩
      · exact blames_of_check List.mem_cons_self h
      · cases h
    | test =>
      rw [hf] at h
      exact blames_of_keyTest h

end RecordSieve.Expr.Parser
