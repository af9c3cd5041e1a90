import RecordSieve.Proofs.Expr.Traced

/-! # Grouping

How operands of one connective are grouped makes no difference to what they decide together, nor to
what they ask: they are decided from left to right, up to the first that fails or decides for all.
That one gives the result, and what comes after it is not asked for.
-/

namespace RecordSieve

namespace Connective

/-- The truth value of an operand that decides the connective after it. -/
def decisive : Connective → Bool
  | .and => false
  | .or => true

def connect (op : Connective) (x y : Traced Bool) : Traced Bool :=
  x >>= fun b => if b = op.decisive then pure b else y

/-- Decides one computation after the other, up to the first that decides for all. -/
def connectAll (op : Connective) (xs : List (Traced Bool)) : Traced Bool :=
  xs.foldr op.connect (pure !op.decisive)

variable {op : Connective} {x y z : Traced Bool} {xs ys : List (Traced Bool)}

theorem connect_assoc : op.connect (op.connect x y) z = op.connect x (op.connect y z) := by
  simp only [connect, bind_assoc]
  congr 1
  funext b
  split <;> simp_all

theorem connect_pure : op.connect x (pure !op.decisive) = x := by
  have hf : (fun b => if b = op.decisive then pure b else pure !op.decisive) =
      (pure : Bool → Traced Bool) := by
    funext b
    cases op <;> cases b <;> rfl
  rw [connect, hf, bind_pure]

theorem pure_connect : op.connect (pure !op.decisive) y = y := by
  rw [connect, pure_bind, if_neg (by simp)]

theorem connectAll_append : op.connectAll (xs ++ ys) =
    op.connect (op.connectAll xs) (op.connectAll ys) := by
  induction xs with
  | nil => exact pure_connect.symm
  | cons x xs ih =>
    change op.connect x (op.connectAll (xs ++ ys)) = _
    rw [ih, ← connect_assoc]
    rfl

/-- Whether what comes after a computation is left alone: it fails, or decides for all. -/
def settles (op : Connective) (x : Traced Bool) : Bool :=
  match x.result with
  | .ok b => b = op.decisive
  | .error _ => true

theorem settles_eq_false_iff : op.settles x = false ↔ x.result = .ok (!op.decisive) := by
  unfold settles
  split
  · rename_i b h
    rw [h]
    cases b <;> cases op <;> simp [decisive]
  · rename_i err h
    simp [h]

theorem connect_of_settles (h : op.settles x) (y : Traced Bool) : op.connect x y = x := by
  obtain ⟨asked, result⟩ := x
  cases result with
  | error err => rfl
  | ok b =>
    have hb : b = op.decisive := of_decide_eq_true h
    rw [connect, Traced.ok_bind, if_pos hb, Traced.asked_pure, Traced.result_pure, List.append_nil]

theorem connect_of_not_settles (h : op.settles x = false) (y : Traced Bool) :
    op.connect x y = ⟨x.asked ++ y.asked, y.result⟩ := by
  have hne : (!op.decisive) ≠ op.decisive := by simp
  rw [connect, Traced.bind_of_ok (settles_eq_false_iff.mp h), if_neg hne]

theorem connectAll_cons : op.connectAll (x :: xs) = op.connect x (op.connectAll xs) := rfl

/-- Computations in turn ask what those ask that come up to the first that settles. -/
theorem asked_connectAll (op : Connective) (xs : List (Traced Bool)) :
    (op.connectAll xs).asked = (xs.take (xs.findIdx op.settles + 1)).flatMap Traced.asked := by
  induction xs with
  | nil => rfl
  | cons x xs ih =>
    rw [connectAll_cons, List.findIdx_cons, List.take_succ_cons, List.flatMap_cons]
    cases h : op.settles x with
    | true =>
      rw [connect_of_settles h, cond_true, List.take_zero, List.flatMap_nil, List.append_nil]
    | false => rw [connect_of_not_settles h, cond_false, ih]

/-- The first that settles gives the result, and if there is none, all of them agree. -/
theorem result_connectAll (op : Connective) (xs : List (Traced Bool)) :
    (op.connectAll xs).result = ((xs.find? op.settles).elim (.ok !op.decisive) Traced.result) := by
  induction xs with
  | nil => rfl
  | cons x xs ih =>
    rw [connectAll_cons, List.find?_cons]
    cases h : op.settles x with
    | true => rw [connect_of_settles h]; rfl
    | false => rw [connect_of_not_settles h, ih]

end Connective

namespace Expr

/-- A tree whose inner nodes are one connective, over operands from left to right. -/
inductive Groups (op : Connective) : List Expr → Expr → Prop
  | operand (e : Expr) : Groups op [e] e
  | connect {ls rs : List Expr} {l r : Expr} : Groups op ls l → Groups op rs r →
      Groups op (ls ++ rs) (.logical op l r)

variable {view : View} {op : Connective} {l r e : Expr} {es : List Expr}

theorem evalTruth_logical :
    (logical op l r).evalTruth view = op.connect (l.evalTruth view) (r.evalTruth view) := by
  cases op <;> exact congrArg (l.evalTruth view >>= ·) (funext fun b => by cases b <;> rfl)

theorem Groups.evalTruth_eq (h : Groups op es e) :
    e.evalTruth view = op.connectAll (es.map (·.evalTruth view)) := by
  induction h with
  | operand e => exact Connective.connect_pure.symm
  | connect _ _ ihl ihr =>
    rw [evalTruth_logical, ihl, ihr, List.map_append, Connective.connectAll_append]

/-- Two trees of one connective over the same operands come to the same answer or error by the same
questions: those of the operands up to and including the first that fails or decides for all, which
gives the result. -/
theorem Groups.evalTruth_regrouped {es : List Expr} {e f : Expr} (he : Groups op es e)
    (hf : Groups op es f) (view : View) :
    ((e.evalTruth view).result = (f.evalTruth view).result ∧
      (e.evalTruth view).asked = (f.evalTruth view).asked) ∧
    (e.evalTruth view).asked =
      (es.take (es.findIdx (fun o => op.settles (o.evalTruth view)) + 1)).flatMap
        (fun o => (o.evalTruth view).asked) ∧
    (e.evalTruth view).result = (es.find? fun o => op.settles (o.evalTruth view)).elim
      (.ok !op.decisive) fun o => (o.evalTruth view).result := by
  have hef : e.evalTruth view = f.evalTruth view := he.evalTruth_eq.trans hf.evalTruth_eq.symm
  refine ⟨⟨by rw [hef], by rw [hef]⟩, ?asked, ?result⟩
  case asked =>
    rw [he.evalTruth_eq, Connective.asked_connectAll, List.findIdx_map, ← List.map_take,
      List.flatMap_map]
    rfl
  case result =>
    rw [he.evalTruth_eq, Connective.result_connectAll, List.find?_map, Option.elim_map]
    rfl

/-- `a = 1`, `b is null` and `c is null` in either grouping, where `b` cannot be read. -/
theorem Groups.evalTruth_regrouped_unreadable :
    let a : Expr := .compare .equal (.field "a") (.number (.ofInt 1))
    let b : Expr := .test "b" false .null
    let c : Expr := .test "c" false .null
    let view : View := fun key =>
      if key = "b" then .error (.access key) else .ok (.number (.ofInt 1))
    let e : Expr := .logical .and (.logical .and a b) c
    let f : Expr := .logical .and a (.logical .and b c)
    (Groups .and [a, b, c] e ∧ Groups .and [a, b, c] f) ∧
    (e.evalTruth view).result = (f.evalTruth view).result ∧
      (e.evalTruth view).asked = (f.evalTruth view).asked ∧
      (e.evalTruth view).asked = ["a", "b"] := by
  intro a b c view e f
  have he : Groups .and [a, b, c] e := .connect (.connect (.operand a) (.operand b)) (.operand c)
  have hf : Groups .and [a, b, c] f := .connect (.operand a) (.connect (.operand b) (.operand c))
  obtain ⟨⟨hresult, hasked⟩, -⟩ := Groups.evalTruth_regrouped he hf view
  exact ⟨⟨he, hf⟩, hresult, hasked, by decide +kernel⟩

end Expr

end RecordSieve
