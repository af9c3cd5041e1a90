import RecordSieve.Proofs.Expr.Recognition
import RecordSieve.Proofs.Query.Clauses
import RecordSieve.Proofs.Token.Layout

/-! # The keys of a query

The keys in the condition of a query are words of its text, whatever else its strings and its list
of fields hold. A word has no blank in it.
-/

namespace RecordSieve

variable {e : Expr} {p : Plan} {q k : String} {ts : List Token} {s : List Char}

open Token

theorem Expr.Parser.keys_negate (e : Expr) : (negate e).keys = e.keys := by
  unfold negate
  split <;> simp [keys]

theorem Phrase.word_mem_tokens {p : Phrase} (h : k ∈ p.tree.keys) : ⟨.word, k⟩ ∈ p.tokens := by
  induction p with
  | string | number => simp [tree, Expr.keys] at h
  | word w | test w =>
    obtain rfl : k = w := by simpa [tree, Expr.keys] using h
    exact List.mem_cons_self
  | group l p r ih => exact List.mem_cons_of_mem _ (List.mem_append_left _ (ih h))
  | signed negative p ih =>
    have hk : (signed negative p).tree.keys = p.tree.keys := by
      cases negative
      · rfl
      · exact Expr.Parser.keys_negate p.tree
    exact List.mem_cons_of_mem _ (ih (hk ▸ h))
  | logical l t op r ihl ihr | compare l t op r ihl ihr | arith l t op r ihl ihr =>
    rcases List.mem_append.mp h with h | h
    · exact List.mem_append_left _ (ihl h)
    · exact List.mem_append_right _ (List.mem_cons_of_mem _ (ihr h))

theorem Expr.word_mem_of_ofTokens (h : ofTokens ts = .ok e) (hk : k ∈ e.keys) :
    ⟨.word, k⟩ ∈ ts := by
  unfold ofTokens at h
  split at h
  · obtain ⟨p, -, rfl, rfl, -⟩ := Phrase.exists_derives_of_ofSpan h
    exact Phrase.word_mem_tokens hk
  · simp at h

theorem Token.Written.isWord_of_mem (h : Written s ts) (hk : ⟨.word, k⟩ ∈ ts) :
    k = "*" ∨ IsWord k.toList := by
  induction h with
  | nil => simp at hk
  | blank _ _ ih => exact ih hk
  | string _ _ _ ih | leftParen _ ih | rightParen _ ih | comma _ ih | pair _ _ ih
  | operator _ _ _ _ ih => exact ih (by simpa using hk)
  | star _ _ ih =>
    rcases List.mem_cons.mp hk with hk | hk
    · exact .inl (Token.mk.inj hk).2
    · exact ih hk
  | word hn hw _ _ ih =>
    rcases List.mem_cons.mp hk with hk | hk
    · obtain rfl := (Token.mk.inj hk).2
      exact .inr ⟨by simpa using hn, by simpa using hw⟩
    · exact ih hk

/-- A query either has no condition or one that its last tokens form. -/
theorem Plan.predicate_of_ofText (h : Plan.ofText q = .ok p) :
    p.predicate = .always ∨ ∃ ts clause, Token.ofText q = .ok ts ∧ clause <:+ ts ∧
      Expr.ofTokens clause = .ok p.predicate ∧ p.predicate.isDecision := by
  obtain ⟨ts, hts, h⟩ := bind_eq_ok_iff.mp h
  obtain ⟨c, hc, rfl⟩ := Query.ofTokens_eq_ok_iff.mp h
  rcases hc.condition.exists_suffix with hp | ⟨rest, hr, hp⟩
  · exact .inl hp
  · exact .inr ⟨_, rest, mapError_eq_ok_iff.mp hts, hr.trans (List.suffix_append _ _), hp⟩

theorem Plan.isWord_of_mem_keys (h : Plan.ofText q = .ok p) (hk : k ∈ p.predicate.keys) :
    k = "*" ∨ IsWord k.toList := by
  rcases Plan.predicate_of_ofText h with hp | ⟨ts, clause, hts, hc, ho, -⟩
  · simp [hp, Expr.keys] at hk
  · exact (written_of_scan hts).isWord_of_mem (hc.subset (Expr.word_mem_of_ofTokens ho hk))

end RecordSieve
