import RecordSieve.Expr.Parser

/-! # Parentheses and cuts

What is between balanced parentheses is passed over by every scan of a span: by the check of
balance, by the search for the parenthesis that ends the span, and by the search for an operator at
which to cut it.
-/

namespace RecordSieve.Expr.Parser

variable {α β : Type} {f : Option Token → Token → List Token → Option α} {t u : Token}
  {l r span : List Token} {prev : Option Token} {d : Nat} {c : Cut α}

theorem opens_eq_false_of_closes (h : t.closes) : t.opens = false := by
  simp only [Token.closes, decide_eq_true_eq] at h
  simp [Token.opens, h]

/-- Parentheses open and close in pairs. -/
inductive Closed : List Token → Prop
  | nil : Closed []
  | plain {t : Token} {l : List Token} : t.opens = false → t.closes = false → Closed l →
      Closed (t :: l)
  | group {t u : Token} {inner l : List Token} : t.opens → u.closes → Closed inner → Closed l →
      Closed (t :: (inner ++ u :: l))

theorem Closed.append (hl : Closed l) (hr : Closed r) : Closed (l ++ r) := by
  induction hl with
  | nil => exact hr
  | plain ho hc _ ih => exact .plain ho hc ih
  | group ht hu hi _ _ ih => simpa using Closed.group ht hu hi ih

theorem Closed.isBalanced_append (h : Closed l) : isBalanced d (l ++ r) = isBalanced d r := by
  induction h generalizing d r with
  | nil => rfl
  | plain ho hc _ ih => simp [isBalanced, ho, hc, ih]
  | group ht hu _ _ ihi ihl =>
    simp [isBalanced, ht, ihi, opens_eq_false_of_closes hu, hu, ihl]

theorem Closed.isBalanced (h : Closed l) : isBalanced 0 l := by
  rw [← List.append_nil l, h.isBalanced_append]
  rfl

theorem exists_of_isBalanced_succ (h : isBalanced (d + 1) span) :
    ∃ l u r, span = l ++ u :: r ∧ Closed l ∧ u.closes ∧ isBalanced d r := by
  induction hn : span.length using Nat.strongRecOn generalizing d span with
  | ind n ih =>
  subst hn
  cases span with
  | nil => simp [isBalanced] at h
  | cons t span =>
    cases ho : t.opens with
    | true =>
      simp only [isBalanced, ho, if_true] at h
      obtain ⟨l, u, r, rfl, hl, hu, hr⟩ := ih span.length (by simp) h rfl
      obtain ⟨m, v, r, rfl, hm, hv, hr⟩ := ih r.length (by simp; omega) hr rfl
      exact ⟨t :: (l ++ u :: m), v, r, by simp, .group ho hu hl hm, hv, hr⟩
    | false =>
      cases hc : t.closes with
      | true =>
        exact ⟨[], t, span, rfl, .nil, hc, by simpa [isBalanced, ho, hc] using h⟩
      | false =>
        simp only [isBalanced, ho, hc, Bool.false_eq_true, if_false] at h
        obtain ⟨l, u, r, rfl, hl, hu, hr⟩ := ih span.length (by simp) h rfl
        exact ⟨t :: l, u, r, rfl, .plain ho hc hl, hu, hr⟩

theorem isBalanced_iff_closed : isBalanced 0 span ↔ Closed span := by
  refine ⟨fun h => ?_, Closed.isBalanced⟩
  induction hn : span.length using Nat.strongRecOn generalizing span with
  | ind n ih =>
  subst hn
  cases span with
  | nil => exact .nil
  | cons t span =>
    cases ho : t.opens with
    | true =>
      simp only [isBalanced, ho, if_true] at h
      obtain ⟨l, u, r, rfl, hl, hu, hr⟩ := exists_of_isBalanced_succ h
      exact .group ho hu hl (ih r.length (by simp; omega) hr rfl)
    | false =>
      cases hc : t.closes with
      | true => simp [isBalanced, ho, hc] at h
      | false =>
        simp only [isBalanced, ho, hc, Bool.false_eq_true, if_false] at h
        exact .plain ho hc (ih span.length (by simp) h rfl)

theorem Closed.untilLast?_append (h : Closed l) :
    untilLast? d (l ++ r) = (l ++ ·) <$> untilLast? d r := by
  induction h generalizing d r with
  | nil => simp
  | plain ho hc _ ih => simp [untilLast?, ho, hc, ih, Function.comp_def]
  | group ht hu _ _ ihi ihl =>
    simp [untilLast?, ht, ihi, opens_eq_false_of_closes hu, hu, ihl, Function.comp_def]

theorem enclosed?_group (ht : t.opens) (hu : u.closes) (h : Closed l) :
    enclosed? (t :: (l ++ [u])) = some l := by
  simp [enclosed?, ht, h.untilLast?_append, untilLast?, opens_eq_false_of_closes hu, hu]

/-- A span that goes on after something closed is not enclosed as a whole. -/
theorem Closed.enclosed?_append (h : Closed l) (hl : l ≠ []) (hr : r ≠ []) :
    enclosed? (l ++ r) = none := by
  cases h with
  | nil => exact (hl rfl).elim
  | plain ho => simp [enclosed?, ho]
  | group ht hu hi =>
    simp [enclosed?, ht, hi.untilLast?_append, untilLast?, opens_eq_false_of_closes hu, hu, hr]

theorem exists_of_untilLast? (h : untilLast? d span = some l) :
    ∃ u : Token, u.closes ∧ span = l ++ [u] := by
  induction span generalizing d l with
  | nil => simp [untilLast?] at h
  | cons t span ih =>
    unfold untilLast? at h
    split at h
    · obtain ⟨m, hm, rfl⟩ := Option.map_eq_some_iff.mp h
      obtain ⟨u, hu, rfl⟩ := ih hm
      exact ⟨u, hu, rfl⟩
    · split at h
      · rename_i hc
        split at h
        · simp only [Option.ite_none_right_eq_some, Option.some.injEq] at h
          obtain ⟨rfl, rfl⟩ := h
          exact ⟨t, hc, rfl⟩
        · obtain ⟨m, hm, rfl⟩ := Option.map_eq_some_iff.mp h
          obtain ⟨u, hu, rfl⟩ := ih hm
          exact ⟨u, hu, rfl⟩
      · obtain ⟨m, hm, rfl⟩ := Option.map_eq_some_iff.mp h
        obtain ⟨u, hu, rfl⟩ := ih hm
        exact ⟨u, hu, rfl⟩

theorem exists_of_enclosed? (h : enclosed? span = some l) :
    ∃ t u : Token, t.opens ∧ u.closes ∧ span = t :: (l ++ [u]) := by
  cases span with
  | nil => simp [enclosed?] at h
  | cons t span =>
    simp only [enclosed?, Option.ite_none_right_eq_some] at h
    obtain ⟨u, hu, rfl⟩ := exists_of_untilLast? h.2
    exact ⟨t, u, h.1, hu, rfl⟩

def Cut.prepend (l : List Token) (c : Cut α) : Cut α := { c with before := l ++ c.before }

@[simp] theorem Cut.prepend_nil (c : Cut α) : c.prepend [] = c := rfl

@[simp] theorem Cut.prepend_prepend (l m : List Token) (c : Cut α) :
    (c.prepend l).prepend m = c.prepend (m ++ l) := by
  simp [Cut.prepend]

theorem cut?_of_opens (ht : t.opens) :
    cut? f d prev (t :: r) = (cut? f (d + 1) (some t) r).map (·.prepend [t]) := by
  simp [cut?, ht, Cut.prepend]

theorem cut?_of_closes (ht : t.closes) :
    cut? f (d + 1) prev (t :: r) = (cut? f d (some t) r).map (·.prepend [t]) := by
  simp [cut?, ht, opens_eq_false_of_closes ht, Cut.prepend]

theorem cut?_of_pos (ho : t.opens = false) (hc : t.closes = false) :
    cut? f (d + 1) prev (t :: r) = (cut? f (d + 1) (some t) r).map (·.prepend [t]) := by
  simp [cut?, ho, hc, Cut.prepend]

theorem cut?_of_none (ho : t.opens = false) (hc : t.closes = false) (h : f prev t r = none) :
    cut? f 0 prev (t :: r) = (cut? f 0 (some t) r).map (·.prepend [t]) := by
  simp [cut?, ho, hc, h, Cut.prepend]

theorem cut?_of_some {op : α} (ho : t.opens = false) (hc : t.closes = false)
    (h : f prev t r = some op) : cut? f 0 prev (t :: r) = some ⟨[], t, op, r⟩ := by
  simp [cut?, ho, hc, h]

/-- The token before what follows `l`. -/
def last (prev : Option Token) (l : List Token) : Option Token := l.getLast?.or prev

@[simp] theorem last_nil : last prev [] = prev := rfl

@[simp] theorem last_cons : last prev (t :: l) = last (some t) l := by
  unfold last
  cases l <;> simp [List.getLast?_cons]

@[simp] theorem last_append : last prev (l ++ r) = last (last prev l) r := by
  simp [last, Option.or_assoc]

theorem Closed.cut?_append (h : Closed l) :
    cut? f (d + 1) prev (l ++ r) = (cut? f (d + 1) (last prev l) r).map (·.prepend l) := by
  induction h generalizing d prev r with
  | nil => simp
  | plain ho hc _ ih => simp [cut?_of_pos ho hc, ih, Function.comp_def]
  | group ht hu _ _ ihi ihl =>
    simp [cut?_of_opens ht, ihi, cut?_of_closes hu, ihl, Function.comp_def]

/-- Outside parentheses no token of a list is an operator in its place, whatever follows. -/
inductive Quiet (f : Option Token → Token → List Token → Option α) :
    (previous : Option Token) → List Token → Prop
  | nil {prev : Option Token} : Quiet f prev []
  | plain {prev : Option Token} {t : Token} {l : List Token} : t.opens = false →
      t.closes = false → (∀ rest, f prev t rest = none) → Quiet f (some t) l →
      Quiet f prev (t :: l)
  | group {prev : Option Token} {t u : Token} {inner l : List Token} : t.opens → u.closes →
      Closed inner → Quiet f (some u) l → Quiet f prev (t :: (inner ++ u :: l))

theorem Quiet.closed (h : Quiet f prev l) : Closed l := by
  induction h with
  | nil => exact .nil
  | plain ho hc _ _ ih => exact .plain ho hc ih
  | group ht hu hi _ ih => exact .group ht hu hi ih

theorem Quiet.append (hl : Quiet f prev l) (hr : Quiet f (last prev l) r) :
    Quiet f prev (l ++ r) := by
  induction hl with
  | nil => exact hr
  | plain ho hc hf _ ih => exact .plain ho hc hf (ih (by simpa using hr))
  | group ht hu hi _ ih => simpa using Quiet.group ht hu hi (ih (by simpa using hr))

theorem Quiet.cut?_append (h : Quiet f prev l) :
    cut? f 0 prev (l ++ r) = (cut? f 0 (last prev l) r).map (·.prepend l) := by
  induction h with
  | nil => simp
  | plain ho hc hf _ ih => simp [cut?_of_none ho hc (hf _), ih, Function.comp_def]
  | group ht hu hi _ ih =>
    simp [cut?_of_opens ht, hi.cut?_append, cut?_of_closes hu, ih, Function.comp_def]

theorem Quiet.cut?_eq_none (h : Quiet f prev l) : cut? f 0 prev l = none := by
  simpa [cut?] using h.cut?_append (r := [])

theorem Quiet.cut?_eq_some {op : α} (h : Quiet f prev l) (ho : t.opens = false)
    (hc : t.closes = false) (hf : f (last prev l) t r = some op) :
    cut? f 0 prev (l ++ t :: r) = some ⟨l, t, op, r⟩ := by
  simp [h.cut?_append, cut?_of_some ho hc hf, Cut.prepend]

def depthAfter (d : Nat) (t : Token) : Nat :=
  if t.opens then d + 1 else if t.closes then d - 1 else d

theorem cut?_cons (f : Option Token → Token → List Token → Option α) (d : Nat)
    (prev : Option Token) (t : Token) (r : List Token) :
    (∃ op, (t.opens = false ∧ t.closes = false) ∧ d = 0 ∧ f prev t r = some op ∧
      cut? f d prev (t :: r) = some ⟨[], t, op, r⟩) ∨
    ((t.opens = false → t.closes = false → d = 0 → f prev t r = none) ∧
      cut? f d prev (t :: r) = (cut? f (depthAfter d t) (some t) r).map (·.prepend [t])) := by
  cases ho : t.opens with
  | true => simp [cut?, depthAfter, ho, Cut.prepend]
  | false =>
    cases hc : t.closes with
    | true => simp [cut?, depthAfter, ho, hc, Cut.prepend]
    | false =>
      by_cases hd : d = 0
      · cases hf : f prev t r <;> simp [cut?, depthAfter, ho, hc, hd, hf, Cut.prepend]
      · simp [cut?, depthAfter, ho, hc, hd, Cut.prepend]

theorem exists_of_cut? (h : cut? f d prev span = some c) :
    span = c.before ++ c.token :: c.after ∧ (c.token.opens = false ∧ c.token.closes = false) ∧
      f (last prev c.before) c.token c.after = some c.op := by
  induction span generalizing d prev c with
  | nil => simp [cut?] at h
  | cons t r ih =>
    rcases cut?_cons f d prev t r with ⟨op, ht, -, hf, he⟩ | ⟨-, he⟩
    · obtain rfl := Option.some.inj (he.symm.trans h)
      exact ⟨rfl, ht, hf⟩
    · obtain ⟨c, hc, rfl⟩ := Option.map_eq_some_iff.mp (he.symm.trans h)
      obtain ⟨hs, ht, hf⟩ := ih hc
      exact ⟨by rw [hs]; rfl, ht, by simpa [Cut.prepend] using hf⟩

/-- An operator that is in place in a shorter span is in place in a longer one. -/
def Extends (f : Option Token → Token → List Token → Option α) : Prop :=
  ∀ prev t l r, f prev t (l ++ r) = none → f prev t l = none

theorem cut?_eq_none_of_append (hf : Extends f) (h : cut? f d prev (l ++ r) = none) :
    cut? f d prev l = none := by
  induction l generalizing d prev with
  | nil => rfl
  | cons t l ih =>
    rw [List.cons_append] at h
    rcases cut?_cons f d prev t (l ++ r) with ⟨op, -, -, -, he⟩ | ⟨hn, he⟩
    · simp [he] at h
    · have hl := ih (Option.map_eq_none_iff.mp (he.symm.trans h))
      rcases cut?_cons f d prev t l with ⟨op, ht, hd, hop, -⟩ | ⟨-, he⟩
      · simp [hf _ _ _ _ (hn ht.1 ht.2 hd)] at hop
      · simp [he, hl]

theorem cut?_before (hf : Extends f) (h : cut? f d prev span = some c) :
    cut? f d prev c.before = none := by
  induction span generalizing d prev c with
  | nil => simp [cut?] at h
  | cons t r ih =>
    rcases cut?_cons f d prev t r with ⟨op, -, -, -, he⟩ | ⟨hn, he⟩
    · obtain rfl := Option.some.inj (he.symm.trans h)
      rfl
    · obtain ⟨c, hc, rfl⟩ := Option.map_eq_some_iff.mp (he.symm.trans h)
      obtain ⟨hs, -, -⟩ := exists_of_cut? hc
      rcases cut?_cons f d prev t c.before with ⟨op, ht, hd, hop, -⟩ | ⟨-, he⟩
      · have := hn ht.1 ht.2 hd
        rw [hs] at this
        simp [hf _ _ _ _ this] at hop
      · exact he.trans (by simp [ih hc])

/-- Where one kind of operator cuts a span that another leaves whole, the other leaves whole what
comes after, too. -/
theorem cut?_after {g : Option Token → Token → List Token → Option β}
    (h : cut? f d prev span = some c) (hg : cut? g d prev span = none) :
    cut? g 0 (some c.token) c.after = none := by
  induction span generalizing d prev c with
  | nil => simp [cut?] at h
  | cons t r ih =>
    have hg : cut? g (depthAfter d t) (some t) r = none := by
      rcases cut?_cons g d prev t r with ⟨op, -, -, -, he⟩ | ⟨-, he⟩
      · simp [he] at hg
      · simpa [he] using hg
    rcases cut?_cons f d prev t r with ⟨op, ht, rfl, -, he⟩ | ⟨-, he⟩
    · obtain rfl := Option.some.inj (he.symm.trans h)
      simpa [depthAfter, ht] using hg
    · obtain ⟨c, hc, rfl⟩ := Option.map_eq_some_iff.mp (he.symm.trans h)
      have := ih hc hg
      exact this

theorem cut?_previous {g : Token → Option α} (q : Option Token) :
    cut? (fun _ t _ => g t) d prev l = cut? (fun _ t _ => g t) d q l := by
  cases l <;> rfl

end RecordSieve.Expr.Parser
