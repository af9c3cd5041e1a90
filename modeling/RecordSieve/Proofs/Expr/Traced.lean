import RecordSieve.Expr.Evaluation

/-! # Results with their questions

A computation that follows another asks after it, if that one has a result, and not at all if it
fails. Computations that follow one another can be grouped at will.
-/

namespace RecordSieve.Traced

variable {α β : Type} {view : View} {key : String} {asked : List String} {a : α} {err : EvalError}

theorem bind_of_ok {x : Traced α} (h : x.result = .ok a) (f : α → Traced β) :
    x >>= f = ⟨x.asked ++ (f a).asked, (f a).result⟩ := by
  change Traced.bind x f = _
  simp only [Traced.bind, h]

theorem bind_of_error {x : Traced α} (h : x.result = .error err) (f : α → Traced β) :
    x >>= f = ⟨x.asked, .error err⟩ := by
  change Traced.bind x f = _
  simp only [Traced.bind, h]

@[simp] theorem ok_bind (f : α → Traced β) :
    (⟨asked, .ok a⟩ : Traced α) >>= f = ⟨asked ++ (f a).asked, (f a).result⟩ :=
  bind_of_ok rfl f

@[simp] theorem error_bind (f : α → Traced β) :
    (⟨asked, .error err⟩ : Traced α) >>= f = ⟨asked, .error err⟩ :=
  bind_of_error rfl f

instance : LawfulMonad Traced :=
  LawfulMonad.mk' Traced
    (fun x => by
      obtain ⟨asked, result⟩ := x
      cases result with
      | error err => rfl
      | ok a => exact congrArg (Traced.mk · _) (List.append_nil asked))
    (fun _ _ => rfl)
    (fun x f g => by
      obtain ⟨asked, result⟩ := x
      cases result with
      | error err => rfl
      | ok a =>
        rw [ok_bind, ok_bind]
        generalize f a = y
        obtain ⟨further, result⟩ := y
        cases result <;> simp)

theorem map_ask (f : Value → β) : f <$> ask view key = ⟨[key], f <$> view key⟩ := by
  rw [map_eq_pure_bind, ask]
  cases view key <;> rfl

/-- Two computations ask for the same keys and fail with the same error, or else their results are
related. -/
inductive Related (R : α → β → Prop) : Traced α → Traced β → Prop
  | ok {asked : List String} {a : α} {b : β} : R a b → Related R ⟨asked, .ok a⟩ ⟨asked, .ok b⟩
  | error {asked : List String} {err : EvalError} :
    Related R ⟨asked, .error err⟩ ⟨asked, .error err⟩

theorem Related.trans {γ : Type} {R : α → β → Prop} {S : β → γ → Prop} {x : Traced α}
    {y : Traced β} {z : Traced γ} (h : Related R x y) (h' : Related S y z) :
    Related (fun a c => ∃ b, R a b ∧ S b c) x z := by
  cases h with
  | ok hab =>
    cases h' with
    | ok hbc => exact .ok ⟨_, hab, hbc⟩
  | error =>
    cases h'
    exact .error

theorem Related.mono {R S : α → β → Prop} {x : Traced α} {y : Traced β} (h : Related R x y)
    (hRS : ∀ a b, R a b → S a b) : Related S x y := by
  cases h with
  | ok hab => exact .ok (hRS _ _ hab)
  | error => exact .error

theorem related_bind_self {R : β → α → Prop} {f : α → Traced β}
    (hf : ∀ a, ∃ b, f a = pure b ∧ R b a) (x : Traced α) : Related R (x >>= f) x := by
  obtain ⟨asked, result⟩ := x
  cases result with
  | error err =>
    rw [error_bind]
    exact .error
  | ok a =>
    obtain ⟨b, hb, hR⟩ := hf a
    rw [ok_bind, hb, asked_pure, result_pure, List.append_nil]
    exact .ok hR

end RecordSieve.Traced
