import RecordSieve.Expr.Evaluation
import RecordSieve.Proofs.Expr.Typing

/-! # Soundness of typing

A well-typed expression, evaluated through a capability that it has, fails only on account of the
record: a key cannot be read, a number is wanted of a key that holds none, or zero divides. That
an operand lacks the capability its operator needs is never found out during evaluation.
-/

namespace RecordSieve

/-- Whether the error is that an expression lacks a capability. -/
def EvalError.isMismatch : EvalError → Bool
  | notValue _ | notNumber _ | notPredicate _ => true
  | _ => false

namespace Expr

def divides : Expr → Prop
  | logical _ l r | compare _ l r => l.divides ∨ r.divides
  | arith op l r => (op = .divide ∨ op = .modulo) ∨ l.divides ∨ r.divides
  | _ => False

/-- The fields that are read as numbers when the expression is evaluated through a capability. -/
def numberKeys : Capability → Expr → List String
  | .numeric, field key => [key]
  | _, logical _ l r => l.numberKeys .predicate ++ r.numberKeys .predicate
  | _, compare op l r => l.numberKeys op.needs ++ r.numberKeys op.needs
  | _, arith _ l r => l.numberKeys .numeric ++ r.numberKeys .numeric
  | _, _ => []

def FailsWith (view : View) (e : Expr) (err : EvalError) : Capability → Prop
  | .value => (e.evalValue view).result = .error err
  | .numeric => (e.evalNumber view).result = .error err
  | .predicate => (e.evalTruth view).result = .error err

/-- The errors for which the record is to blame. -/
inductive Fault (view : View) (needed : Capability) (e : Expr) : EvalError → Prop
  | unreadable {key : String} {err : EvalError} : key ∈ e.keys → view key = .error err →
      Fault view needed e err
  | zeroDivisor : e.divides → Fault view needed e .divisionByZero
  | noNumeral {key s : String} : key ∈ e.numberKeys needed → view key = .ok (.string s) →
      Binary64.read? s.toList = none → Fault view needed e (.nonNumericText key s)
  | noNumber {key : String} {v : Value} : key ∈ e.numberKeys needed → view key = .ok v →
      (∀ x, v ≠ .number x) → (∀ s, v ≠ .string s) → Fault view needed e (.nonNumericKind key v.kind)

variable {view : View} {needed m : Capability} {e l r : Expr} {err : EvalError}

theorem Fault.mono (h : Fault view m l err) (hk : l.keys ⊆ e.keys)
    (hn : l.numberKeys m ⊆ e.numberKeys needed) (hd : l.divides → e.divides) :
    Fault view needed e err := by
  cases h with
  | unreadable hkey hv => exact .unreadable (hk hkey) hv
  | zeroDivisor h => exact .zeroDivisor (hd h)
  | noNumeral hkey hv hs => exact .noNumeral (hn hkey) hv hs
  | noNumber hkey hv hx hs => exact .noNumber (hn hkey) hv hx hs

theorem Fault.exists_unreadable (h : Fault view needed e err) (hm : err.isMismatch) :
    ∃ key ∈ e.keys, view key = .error err := by
  cases h with
  | unreadable hk hv => exact ⟨_, hk, hv⟩
  | _ => simp [EvalError.isMismatch] at hm

theorem fault_of_numberOf {key : String} {v : Value} (hk : key ∈ e.numberKeys needed)
    (hv : view key = .ok v) (h : v.numberOf key = .error err) : Fault view needed e err := by
  unfold Value.numberOf at h
  split at h
  · simp at h
  · rename_i s hn
    obtain rfl := Except.error.inj h
    exact .noNumeral hk hv hn
  · rename_i hs hn
    obtain rfl := Except.error.inj h
    exact .noNumber hk hv (by rintro x rfl; simp [Value.number?] at hn) hs

theorem fault_of_evalNumber (ht : e.WellTyped) (hn : e.givesNumber)
    (h : (e.evalNumber view).result = .error err) : Fault view .numeric e err := by
  induction ht generalizing err with
  | number x => simp [evalNumber] at h
  | field key =>
    simp only [evalNumber, Traced.result_bind, Traced.result_ask, bind_eq_error_iff] at h
    rcases h with h | ⟨v, hv, h⟩
    · exact .unreadable (List.mem_singleton_self key) h
    · exact fault_of_numberOf (List.mem_singleton_self key) hv h
  | @arith l r op _ _ hl hr ihl ihr =>
    simp only [evalNumber, Traced.result_bind, bind_eq_error_iff] at h
    rcases h with h | ⟨a, -, h | ⟨b, -, h⟩⟩
    · exact (ihl hl h).mono (by simp [keys]) (by simp [numberKeys]) (.inr ∘ .inl)
    · exact (ihr hr h).mono (by simp [keys]) (by simp [numberKeys]) (.inr ∘ .inr)
    · split at h
      · simp at h
      · rename_i hop
        obtain rfl := Except.error.inj h
        exact .zeroDivisor (.inl (Operation.result?_eq_none_iff.mp hop).1)
  | text | test | logical | compare => simp [givesNumber] at hn

theorem fault_of_evalValue (ht : e.WellTyped) (hv : e.givesValue)
    (h : (e.evalValue view).result = .error err) : Fault view .value e err := by
  cases ht with
  | text s => simp [evalValue] at h
  | number x => simp [evalValue] at h
  | field key => exact .unreadable (List.mem_singleton_self key) h
  | arith op hl hr hnl hnr =>
    simp only [evalValue, Traced.result_map, map_eq_error_iff] at h
    exact (fault_of_evalNumber (.arith op hl hr hnl hnr) rfl h).mono (List.Subset.refl _)
      (by simp [numberKeys]) id
  | test | logical | compare => simp [givesValue] at hv

theorem fault_of_comparison {op : Comparison} (hl : l.WellTyped) (hr : r.WellTyped)
    (hnl : l.has op.needs) (hnr : r.has op.needs)
    (h : (comparison view op l r).result = .error err) :
    Fault view .predicate (.compare op l r) err := by
  have left (hf : Fault view op.needs l err) : Fault view .predicate (.compare op l r) err :=
    hf.mono (by simp [keys]) (by simp [numberKeys]) .inl
  have right (hf : Fault view op.needs r err) : Fault view .predicate (.compare op l r) err :=
    hf.mono (by simp [keys]) (by simp [numberKeys]) .inr
  cases op
  case equal | notEqual =>
    simp only [comparison, Traced.result_bind, bind_eq_error_iff] at h
    rcases h with h | ⟨v, -, h | ⟨w, -, h⟩⟩
    · exact left (fault_of_evalValue hl hnl h)
    · exact right (fault_of_evalValue hr hnr h)
    · simp at h
  all_goals
    simp only [comparison, Traced.result_bind, bind_eq_error_iff] at h
    rcases h with h | ⟨x, -, h | ⟨y, -, h⟩⟩
    · exact left (fault_of_evalNumber hl hnl h)
    · exact right (fault_of_evalNumber hr hnr h)
    · simp at h

theorem fault_of_evalTruth (ht : e.WellTyped) (hd : e.isDecision)
    (h : (e.evalTruth view).result = .error err) : Fault view .predicate e err := by
  induction ht generalizing err with
  | test key negated =>
    simp only [evalTruth, Traced.result_bind, Traced.result_ask, bind_eq_error_iff] at h
    rcases h with h | ⟨v, -, h⟩
    · exact .unreadable (List.mem_singleton_self key) h
    · simp at h
  | @logical l r op _ _ hl hr ihl ihr =>
    have left (hf : Fault view .predicate l err) : Fault view .predicate (.logical op l r) err :=
      hf.mono (by simp [keys]) (by simp [numberKeys]) .inl
    have right (hf : Fault view .predicate r err) : Fault view .predicate (.logical op l r) err :=
      hf.mono (by simp [keys]) (by simp [numberKeys]) .inr
    cases op <;> simp only [evalTruth, Traced.result_bind, bind_eq_error_iff] at h
    · rcases h with h | ⟨b, -, h⟩
      · exact left (ihl hl h)
      · split at h
        · exact right (ihr hr h)
        · simp at h
    · rcases h with h | ⟨b, -, h⟩
      · exact left (ihl hl h)
      · split at h
        · simp at h
        · exact right (ihr hr h)
  | compare hl hr hnl hnr => exact fault_of_comparison hl hr hnl hnr h
  | text | number | field | arith => simp [isDecision] at hd

theorem WellTyped.fault (ht : e.WellTyped) (hc : e.has needed) (h : e.FailsWith view err needed) :
    Fault view needed e err := by
  cases needed with
  | value => exact fault_of_evalValue ht hc h
  | numeric => exact fault_of_evalNumber ht hc h
  | predicate => exact fault_of_evalTruth ht hc h

/-- What tokens form is well typed and bounded in height. Through a capability that it has it
fails only with faults of the record, so that a missing capability is never reported unless the
record itself answers so. -/
theorem ofTokens_sound {ts : List Token} (h : ofTokens ts = .ok e) :
    (e.WellTyped ∧ e.height ≤ nestingLimit) ∧
      ∀ view needed err, e.has needed → e.FailsWith view err needed →
        Fault view needed e err ∧ (err.isMismatch → ∃ key ∈ e.keys, view key = .error err) := by
  have ht := wellTyped_of_ofTokens h
  refine ⟨ht, fun view needed err hc hf => ?_⟩
  have hfault := ht.1.fault hc hf
  exact ⟨hfault, hfault.exists_unreadable⟩

/-- `- a < c and b not in ('x')`, where every key holds a truth value. -/
theorem ofTokens_sound_negation :
    let ts : List Token := [⟨.operator, "-"⟩, ⟨.word, "a"⟩, ⟨.operator, "<"⟩, ⟨.word, "c"⟩,
      ⟨.word, "and"⟩, ⟨.word, "b"⟩, ⟨.word, "not"⟩, ⟨.word, "in"⟩, ⟨.leftParen, "("⟩,
      ⟨.string, "x"⟩, ⟨.rightParen, ")"⟩]
    let e : Expr := .logical .and
      (.compare .less (.arith .subtract (.number (.zero false)) (.field "a")) (.field "c"))
      (.test "b" true (.oneOf [.string "x"]))
    let view : View := fun _ => .ok (.boolean true)
    let err : EvalError := .nonNumericKind "a" "boolean"
    (ofTokens ts = .ok e ∧ e.has .predicate ∧ e.FailsWith view err .predicate) ∧
      (e.WellTyped ∧ e.height ≤ nestingLimit) ∧ Fault view .predicate e err := by
  intro ts e view err
  have h : ofTokens ts = .ok e := by rfl
  have hf : e.FailsWith view err .predicate := by rfl
  exact ⟨⟨h, rfl, hf⟩, (ofTokens_sound h).1, ((ofTokens_sound h).2 view .predicate err rfl hf).1⟩

end Expr

end RecordSieve
