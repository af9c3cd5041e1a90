import RecordSieve.Proofs.Expr.RoundTrip
import RecordSieve.Proofs.Query.Clauses

/-! # Queries read back

A query of quoted fields and of the text of a condition has the plan of these fields and of that
condition. A string is never the word `from`, so that the first one in such a query stands before
the table.
-/

namespace RecordSieve

open Token

variable {e : Expr} {fields : List String} {ts : List Token} {t : Token}

namespace Query

theorem isChain_of_not_spells (h : ∀ u ∈ ts, u.spells "from" = false) :
    (ts ++ [t]).IsChain fun a b => ¬ IsSource a b := by
  induction ts with
  | nil => exact .singleton t
  | cons u ts ih =>
    obtain ⟨hu, hts⟩ := List.forall_mem_cons.mp h
    exact List.isChain_cons.mpr ⟨fun b _ hb => by simp [IsSource, hu] at hb, ih hts⟩

theorem mem_listTokens (h : t ∈ listTokens (fields.map Value.string)) :
    (∃ f, t = ⟨.string, f⟩) ∨ t = Expr.Parser.comma := by
  induction fields with
  | nil => simp [listTokens] at h
  | cons f fields ih =>
    cases fields with
    | nil => exact .inl ⟨f, List.mem_singleton.mp h⟩
    | cons g fields =>
      simp only [List.map_cons, listTokens, Value.tokens, List.singleton_append,
        List.mem_cons] at h
      rcases h with h | h | h
      · exact .inl ⟨f, h⟩
      · exact .inr h
      · exact ih (by simpa using h)

theorem fieldsOf_listTokens (fields : List String) :
    fieldsOf (listTokens (fields.map Value.string)) = fields := by
  induction fields with
  | nil => rfl
  | cons f fields ih =>
    cases fields with
    | nil => rfl
    | cons g fields => exact congrArg (f :: ·) ih

theorem isFieldList_listTokens (h : fields ≠ []) :
    IsFieldList (listTokens (fields.map Value.string)) where
  listed t ht := by
    rcases mem_listTokens ht with ⟨f, rfl⟩ | rfl
    · exact .inr (.inl (.inr (.inl rfl)))
    · exact .inl rfl
  nonempty := fieldsOf_ne_nil_iff.mp (by rwa [fieldsOf_listTokens])

end Query

theorem Plan.ofTokens_select (hf : fields ≠ []) (hr : ts ≠ []) (he : Expr.ofTokens ts = .ok e)
    (hd : e.isDecision) :
    Plan.ofTokens (keyword "select" :: (listTokens (fields.map Value.string) ++
      keyword "from" :: keyword theTable :: keyword "where" :: ts)) = .ok ⟨fields, e⟩ := by
  let list := listTokens (fields.map Value.string)
  have hfrom : ∀ u ∈ list, u.spells "from" = false := fun u hu => by
    rcases Query.mem_listTokens hu with ⟨f, rfl⟩ | rfl <;> rfl
  let c : Query.Clauses :=
    ⟨keyword "select", list, keyword "from", keyword theTable, keyword "where" :: ts⟩
  have hselect : (keyword "select").spells "select" := rfl
  have hsource : Query.IsSource (keyword "from") (keyword theTable) := ⟨rfl, rfl⟩
  have hwhere : (keyword "where").spells "where" := rfl
  have hc : c.Forms ⟨fields, e⟩ :=
    { proper := ⟨hselect, hsource, Query.isChain_of_not_spells hfrom⟩
      list := Query.isFieldList_listTokens hf
      fields := (Query.fieldsOf_listTokens fields).symm
      condition := .predicate hwhere hr (Query.predicateOfTokens_eq_ok_iff.mpr ⟨he, hd⟩) }
  exact Query.ofTokens_eq_ok_iff.mpr ⟨c, hc, by simp [c, list, Query.Clauses.tokens,
    Query.Clauses.head]⟩

theorem writes_query (he : e.Printable) (hf : fields ≠ []) (hq : ∀ f ∈ fields, '\'' ∉ f.toList) :
    Writes ("select " ++ ", ".intercalate (fields.map fun f => "'" ++ f ++ "'") ++
        " from t where " ++ e.render).toList
      (keyword "select" :: (listTokens (fields.map Value.string) ++
        keyword "from" :: keyword theTable :: keyword "where" :: e.phrase.tokens)) := by
  have hselect : Writes "select".toList [keyword "select"] :=
    writes_keyword (by decide) (by decide) rfl
  have hfrom : Writes "from".toList [keyword "from"] :=
    writes_keyword (by decide) (by decide) rfl
  have htable : Writes "t".toList [keyword theTable] :=
    writes_keyword (by decide) (by decide) rfl
  have hwhere : Writes "where".toList [keyword "where"] :=
    writes_keyword (by decide) (by decide) rfl
  have hlist : Writes (", ".intercalate ((fields.map Value.string).map Value.literal)).toList
      (listTokens (fields.map Value.string)) :=
    writes_listTokens (by simpa using hf) (by simp [Value.isLiteral])
      (by simpa [Value.text?] using hq)
  have h := hselect.append_blank (hlist.append_blank (hfrom.append_blank (htable.append_blank
    (hwhere.append_blank he.writes_render))))
  have hm : (fields.map Value.string).map Value.literal = fields.map fun f => "'" ++ f ++ "'" := by
    simp [Value.literal]
  rw [hm] at h
  simpa using h

/-- The text of an expression is read back as the expression, and a query of quoted fields and of a
condition as its fields and its condition. -/
theorem ofText_render_eq (e : Expr) (h : e.Printable) :
    (∃ ts, Token.ofText e.render = .ok ts ∧ Expr.ofTokens ts = .ok e) ∧
    (e.isDecision → ∀ fields : List String, fields ≠ [] → (∀ f ∈ fields, '\'' ∉ f.toList) →
      Plan.ofText ("select " ++ ", ".intercalate (fields.map fun f => "'" ++ f ++ "'") ++
        " from t where " ++ e.render) = .ok ⟨fields, e⟩) := by
  refine ⟨⟨e.phrase.tokens, h.ofText_render, h.ofTokens_phrase⟩, ?_⟩
  intro hd fields hf hq
  have hs : Token.ofText _ = .ok _ := (writes_query h hf hq).written.scan_eq
  rw [Plan.ofText, hs]
  exact Plan.ofTokens_select hf e.phrase.tokens_ne_nil h.ofTokens_phrase hd

/-- `(((-1 * not) < b) and in not in ('x y', -0))`, with `not`, `b` and `in` as keys. -/
theorem ofText_render_eq_not_in :
    let e : Expr := .logical .and
      (.compare .less (.arith .multiply (.number (.ofInt (-1))) (.field "not")) (.field "b"))
      (.test "in" true (.oneOf [.string "x y", .number (.zero true)]))
    (e.Printable ∧ e.isDecision) ∧
      (∃ ts, Token.ofText e.render = .ok ts ∧ Expr.ofTokens ts = .ok e) ∧
      Plan.ofText ("select " ++ ", ".intercalate (["*", "a\"b"].map fun f => "'" ++ f ++ "'") ++
        " from t where " ++ e.render) = .ok ⟨["*", "a\"b"], e⟩ := by
  intro e
  have name {w : String} (hw : w ∈ ["not", "b", "in"]) : IsName w := by
    simp only [List.mem_cons, List.not_mem_nil, or_false] at hw
    rcases hw with rfl | rfl | rfl <;>
      exact ⟨by decide, List.all_eq_true.mp (by decide), rfl, rfl⟩
  have ht : e.WellTyped :=
    .logical _ (.compare (.arith _ (.number _) (.field _) rfl rfl) (.field _) rfl rfl)
      (.test _ _ ⟨by simp, by simp [Value.isLiteral]⟩) rfl rfl
  have h : e.Printable := ⟨ht, fun k hk => name hk, by decide, by decide⟩
  have hd : e.isDecision := rfl
  have hr := ofText_render_eq e h
  exact ⟨⟨h, hd⟩, hr.1, hr.2 hd ["*", "a\"b"] (by decide) (by decide)⟩

end RecordSieve
