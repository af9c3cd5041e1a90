import Mathlib.Data.List.Forall2
import RecordSieve.Proofs.Binary64.Equality
import RecordSieve.Proofs.Expr.Traced
import RecordSieve.Proofs.Members

/-! # Sameness of values

Sameness is a partial equivalence: which of two values is compared with which does not matter, two
that are the same as a third are the same, and only a NaN keeps a value from being the same as
itself. Arrays are compared item by item and objects key by key, so that values that are the same
pass the same tests of membership.
-/

namespace RecordSieve.Value

variable {u v w : Value} {a b : List Value} {m n : List (String × Value)} {x : Binary64}

mutual

theorem same_comm (v w : Value) : v.same w = w.same v := by
  cases v with
  | absent => cases w <;> simp [same]
  | boolean => cases w <;> simp [same, eq_comm]
  | number x => cases w <;> simp [same, Binary64.equal_comm x]
  | string => cases w <;> simp [same, eq_comm]
  | array a =>
    cases w with
    | array b => simpa [same] using sameItems_comm a b
    | _ => simp [same]
  | object a =>
    cases w with
    | object b => simpa [same] using sameMembers_comm a b
    | _ => simp [same]

theorem sameItems_comm (a b : List Value) : sameItems a b = sameItems b a := by
  cases a with
  | nil => cases b <;> simp [sameItems]
  | cons v a =>
    cases b with
    | nil => simp [sameItems]
    | cons w b => simp [sameItems, same_comm v w, sameItems_comm a b]

theorem sameMembers_comm (a b : List (String × Value)) : sameMembers a b = sameMembers b a := by
  cases a with
  | nil => cases b <;> simp [sameMembers]
  | cons v a =>
    obtain ⟨k, v⟩ := v
    cases b with
    | nil => simp [sameMembers]
    | cons w b =>
      obtain ⟨l, w⟩ := w
      simp [sameMembers, same_comm v w, sameMembers_comm a b, eq_comm]

end

@[elab_as_elim]
theorem nested_induction {P : Value → Prop} (absent : P absent) (boolean : ∀ b, P (boolean b))
    (number : ∀ x, P (number x)) (string : ∀ s, P (string s))
    (array : ∀ items, (∀ v ∈ items, P v) → P (array items))
    (object : ∀ members, (∀ p ∈ members, P p.2) → P (object members)) (v : Value) : P v :=
  @Value.rec P (fun items => ∀ v ∈ items, P v) (fun members => ∀ p ∈ members, P p.2)
    (fun p => P p.2) absent boolean number string array object
    (fun _ h => absurd h List.not_mem_nil) (fun _ _ hv hvs => List.forall_mem_cons.mpr ⟨hv, hvs⟩)
    (fun _ h => absurd h List.not_mem_nil) (fun _ _ hp hps => List.forall_mem_cons.mpr ⟨hp, hps⟩)
    (fun _ _ hv => hv) v

theorem sameItems_iff : sameItems a b ↔ List.Forall₂ (fun v w => v.same w) a b := by
  induction a generalizing b with
  | nil => cases b <;> simp [sameItems]
  | cons v a ih => cases b <;> simp [sameItems, ih]

theorem sameMembers_iff :
    sameMembers m n ↔ List.Forall₂ (fun p q => p.1 = q.1 ∧ p.2.same q.2) m n := by
  induction m generalizing n with
  | nil => cases n <;> simp [sameMembers]
  | cons p m ih => cases n <;> simp [sameMembers, ih]

theorem absent_same_iff : absent.same v ↔ v = absent := by
  cases v <;> simp [same]

theorem boolean_same_iff {b : Bool} : (boolean b).same v ↔ v = boolean b := by
  cases v <;> simp [same, eq_comm]

theorem string_same_iff {s : String} : (string s).same v ↔ v = string s := by
  cases v <;> simp [same, eq_comm]

theorem number_same_iff : (number x).same v ↔ ∃ y, v = number y ∧ x.equal y := by
  cases v <;> simp [same]

theorem array_same_iff :
    (array a).same v ↔ ∃ b, v = array b ∧ List.Forall₂ (fun v w => v.same w) a b := by
  cases v <;> simp [same, sameItems_iff]

theorem object_same_iff : (object m).same v ↔
    ∃ n, v = object n ∧ List.Forall₂ (fun p q => p.1 = q.1 ∧ p.2.same q.2) m n := by
  cases v <;> simp [same, sameMembers_iff]

theorem forall₂_trans {α : Type} {R : α → α → Prop} {l m n : List α}
    (ht : ∀ x ∈ l, ∀ {y z}, R x y → R y z → R x z) (h : List.Forall₂ R l m)
    (h' : List.Forall₂ R m n) : List.Forall₂ R l n := by
  induction h generalizing n with
  | nil => exact h'
  | cons hxy _ ih =>
    cases h' with
    | cons hyz h' =>
      exact .cons (ht _ List.mem_cons_self hxy hyz)
        (ih (fun x hx => ht x (List.mem_cons_of_mem _ hx)) h')

theorem same_trans (h : u.same v) (h' : v.same w) : u.same w := by
  induction u using nested_induction generalizing v w with
  | absent =>
    obtain rfl := absent_same_iff.mp h
    exact h'
  | boolean b =>
    obtain rfl := boolean_same_iff.mp h
    exact h'
  | string s =>
    obtain rfl := string_same_iff.mp h
    exact h'
  | number x =>
    obtain ⟨y, rfl, hxy⟩ := number_same_iff.mp h
    obtain ⟨z, rfl, hyz⟩ := number_same_iff.mp h'
    exact number_same_iff.mpr ⟨z, rfl, Binary64.equal_trans hxy hyz⟩
  | array items ih =>
    obtain ⟨b, rfl, hab⟩ := array_same_iff.mp h
    obtain ⟨c, rfl, hbc⟩ := array_same_iff.mp h'
    exact array_same_iff.mpr ⟨c, rfl, forall₂_trans (fun _ hv => ih _ hv) hab hbc⟩
  | object members ih =>
    obtain ⟨n, rfl, hmn⟩ := object_same_iff.mp h
    obtain ⟨k, rfl, hnk⟩ := object_same_iff.mp h'
    refine object_same_iff.mpr ⟨k, rfl, forall₂_trans (fun p hp {q r} hpq hqr => ?_) hmn hnk⟩
    exact ⟨hpq.1.trans hqr.1, ih p hp hpq.2 hqr.2⟩

/-- A value occurs in itself, and in what an item or a member of another value holds. -/
inductive OccursIn (v : Value) : Value → Prop
  | self : OccursIn v v
  | item {w : Value} {items : List Value} : w ∈ items → OccursIn v w → OccursIn v (array items)
  | member {p : String × Value} {members : List (String × Value)} : p ∈ members →
      OccursIn v p.2 → OccursIn v (object members)

theorem number_occursIn_array :
    (number x).OccursIn (array a) ↔ ∃ w ∈ a, (number x).OccursIn w := by
  constructor
  · intro h
    cases h with
    | item hw h => exact ⟨_, hw, h⟩
  · rintro ⟨w, hw, h⟩
    exact .item hw h

theorem number_occursIn_object :
    (number x).OccursIn (object m) ↔ ∃ p ∈ m, (number x).OccursIn p.2 := by
  constructor
  · intro h
    cases h with
    | member hp h => exact ⟨_, hp, h⟩
  · rintro ⟨p, hp, h⟩
    exact .member hp h

/-- A value is the same as itself unless there is a NaN in it. -/
theorem same_self_iff : v.same v ↔ ¬ (number .nan).OccursIn v := by
  induction v using nested_induction with
  | absent | boolean | string =>
    refine iff_of_true (by simp [same]) ?_
    rintro ⟨⟩
  | number x =>
    rw [number_same_iff]
    constructor
    · rintro ⟨y, hy, h⟩ hn
      cases hy
      cases hn
      exact Binary64.equal_self_iff.mp h rfl
    · intro hn
      refine ⟨x, rfl, Binary64.equal_self_iff.mpr ?_⟩
      rintro rfl
      exact hn .self
  | array items ih =>
    have hsame : (array items).same (array items) ↔ ∀ w ∈ items, w.same w := by
      simp [same, sameItems_iff]
    rw [hsame, number_occursIn_array, not_exists]
    exact forall_congr' fun w => by rw [not_and]; exact forall_congr' fun hw => ih w hw
  | object members ih =>
    have hsame : (object members).same (object members) ↔ ∀ p ∈ members, p.2.same p.2 := by
      simp [same, sameMembers_iff]
    rw [hsame, number_occursIn_object, not_exists]
    exact forall_congr' fun p => by rw [not_and]; exact forall_congr' fun hp => ih p hp

theorem kind_eq_of_same (h : v.same w) : v.kind = w.kind := by
  cases v <;> cases w <;> simp_all [same, kind]

theorem same_array_iff : (array a).same (array b) ↔
    a.length = b.length ∧ ∀ i (ha : i < a.length) (hb : i < b.length), a[i].same b[i] := by
  simpa [same, sameItems_iff] using List.forall₂_iff_get (R := fun v w : Value => v.same w)

theorem same_object_iff (hm : Members.Sorted m) (hn : Members.Sorted n) :
    (object m).same (object n) ↔ (∀ key, key ∈ Members.keys m ↔ key ∈ Members.keys n) ∧
      ∀ key v w, Members.find? key m = some v → Members.find? key n = some w → v.same w := by
  have h : (object m).same (object n) ↔
      List.Forall₂ (fun p q => p.1 = q.1 ∧ p.2.same q.2) m n := by
    simp [same, sameMembers_iff]
  exact h.trans (Members.forall₂_iff_find? (R := fun v w => v.same w) hm hn)

theorem same_congr (i : Value) (h : v.same w) : i.same v = i.same w := by
  rw [Bool.eq_iff_iff]
  constructor
  · intro hi
    exact same_trans hi h
  · intro hi
    rw [same_comm] at h
    exact same_trans hi h

theorem passes_oneOf_congr (items : List Value) (negated : Bool) (h : v.same w) :
    (FieldTest.oneOf items).passes negated v = (FieldTest.oneOf items).passes negated w := by
  simp only [FieldTest.passes, same_congr _ h]

theorem evalTruth_oneOf_congr {f g : View} {key : String} (items : List Value) (negated : Bool)
    (hf : f key = .ok v) (hg : g key = .ok w) (h : v.same w) :
    (Expr.test key negated (.oneOf items)).evalTruth f =
      (Expr.test key negated (.oneOf items)).evalTruth g := by
  have hv : (Traced.ask f key).result = .ok v := hf
  have hw : (Traced.ask g key).result = .ok w := hg
  rw [Expr.evalTruth, Expr.evalTruth, Traced.bind_of_ok hv, Traced.bind_of_ok hw,
    passes_oneOf_congr items negated h]
  rfl

/-- Sameness is symmetric and transitive, and holds of a value with itself unless a NaN occurs in
it. Values of two kinds are never the same; scalars are if they are equal, arrays if they have the
same length and are the same at every index, and objects if they have the same keys and hold the
same at each. What a key holds can be replaced by what is the same, and a test of membership does
not tell. -/
theorem same_structural (u v w : Value) :
    (u.same v = v.same u ∧ (u.same v → v.same w → u.same w) ∧
      (u.same u ↔ ¬ (number .nan).OccursIn u) ∧ (u.kind ≠ v.kind → u.same v = false)) ∧
    (absent.same absent ∧ (∀ a b, (boolean a).same (boolean b) ↔ a = b) ∧
      (∀ s t, (string s).same (string t) ↔ s = t) ∧
      ∀ x y, (number x).same (number y) ↔ x.equal y) ∧
    (∀ a b : List Value, (array a).same (array b) ↔ a.length = b.length ∧
      ∀ i (ha : i < a.length) (hb : i < b.length), a[i].same b[i]) ∧
    (∀ m n : Members Value, Members.Sorted m → Members.Sorted n → ((object m).same (object n) ↔
      (∀ key, key ∈ Members.keys m ↔ key ∈ Members.keys n) ∧
        ∀ key v w, Members.find? key m = some v → Members.find? key n = some w → v.same w)) ∧
    ∀ (f g : View) (key : String) (negated : Bool) (items : List Value), f key = .ok u →
      g key = .ok v → u.same v → (Expr.test key negated (.oneOf items)).evalTruth f =
        (Expr.test key negated (.oneOf items)).evalTruth g := by
  refine ⟨⟨same_comm u v, same_trans, same_self_iff, fun hk => ?kinds⟩, ?scalars,
    fun a b => same_array_iff, fun m n hm hn => same_object_iff hm hn,
    fun f g key negated items hf hg h => evalTruth_oneOf_congr items negated hf hg h⟩
  case kinds =>
    rw [← Bool.not_eq_true]
    intro h
    exact hk (kind_eq_of_same h)
  case scalars =>
    simp [same]

/-- Objects that differ in the sign of a zero, which is neither of another kind nor a NaN. -/
theorem same_structural_zeros :
    let members (s : Bool) : Members Value :=
      [("a", .array [.number (.zero s), .string "x"]), ("b", .absent)]
    let u : Value := .object (members false)
    let v : Value := .object (members true)
    let test : Expr := .test "k" true (.oneOf [.number .nan, u])
    (u.same v ∧ v.same u ∧ u.kind ≠ absent.kind ∧ ∀ s, Members.Sorted (members s)) ∧
    (u.same u ∧ ¬ (number .nan).OccursIn u ∧ u.same absent = false) ∧
    (∀ key ∈ ["a", "b"], key ∈ Members.keys (members true)) ∧
    test.evalTruth (fun _ => .ok u) = test.evalTruth (fun _ => .ok v) := by
  intro members u v test
  have huv : u.same v := by decide
  have hvu : v.same u := by decide
  have hk : u.kind ≠ absent.kind := by decide
  have hab : "a" < "b" := by decide
  have hs : ∀ s, Members.Sorted (members s) := fun s => List.pairwise_pair.mpr hab
  obtain ⟨⟨-, htrans, hself, -⟩, -, -, hobject, htest⟩ := same_structural u v u
  have huu := htrans huv hvu
  refine ⟨⟨huv, hvu, hk, hs⟩, ⟨huu, hself.mp huu, (same_structural u absent u).1.2.2.2 hk⟩, ?_,
    htest _ _ _ _ _ rfl rfl huv⟩
  intro key hkey
  exact (((hobject _ _ (hs false) (hs true)).mp huv).1 key).mp hkey

end RecordSieve.Value
