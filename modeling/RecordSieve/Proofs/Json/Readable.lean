import RecordSieve.Json.Reader
import RecordSieve.Proofs.Members

/-! # The documents that texts spell

What reading gives whatever the text: integers of 64 bits and finite numbers, objects in the order
of their keys, and no more nesting than was allowed.
-/

namespace RecordSieve.Json

/-- The numbers that are read: integers of 64 bits, with a sign or without, and finite others. -/
def Number.InRange : Number → Prop
  | .int i => -2 ^ 63 ≤ i ∧ i < 2 ^ 64
  | .real x => x.isFinite

/-- The documents that are read where arrays and objects may nest to a depth. -/
inductive Readable : Nat → Json → Prop
  | null {depth : Nat} : Readable depth .null
  | bool {depth : Nat} (b : Bool) : Readable depth (.bool b)
  | number {depth : Nat} {x : Number} (hx : x.InRange) : Readable depth (.number x)
  | string {depth : Nat} (s : String) : Readable depth (.string s)
  | array {depth : Nat} {items : List Json} (h : ∀ j ∈ items, Readable depth j) :
    Readable (depth + 1) (.array items)
  | object {depth : Nat} {members : List (String × Json)} (hs : Members.Sorted members)
    (h : ∀ p ∈ members, Readable depth p.2) : Readable (depth + 1) (.object members)

namespace Significand

variable {s : Significand} {negative : Bool} {n : Nat}

theorem push?_lt {c : Char} {v : Nat} (h : push? n c = some v) : v < 2 ^ 64 := by
  unfold push? at h
  dsimp only at h
  split at h
  · cases h
    assumption
  · cases h

theorem whole_lt (h : n < 2 ^ 64) (digits : List Char) : (whole n digits).value < 2 ^ 64 := by
  induction digits generalizing n with
  | nil => rwa [whole]
  | cons c rest ih =>
    rw [whole]
    split
    · rename_i hv
      exact ih (push?_lt hv)
    · exact h

theorem isFinite_of_toBinary64? {x : Binary64} (h : s.toBinary64? negative = some x) :
    x.isFinite := by
  unfold toBinary64? at h
  split at h
  · cases h
    rfl
  · cases h

theorem inRange_of_toNumber? {x : Number} (hs : s.value < 2 ^ 64)
    (h : s.toNumber? negative = some x) : x.InRange := by
  unfold toNumber? at h
  split at h
  · cases h
    constructor <;> omega
  · split at h
    · cases h
      constructor <;> omega
    · obtain ⟨y, hy, rfl⟩ := Option.map_eq_some_iff.mp h
      exact isFinite_of_toBinary64? hy

end Significand

namespace Reader

variable {α β : Type} {m n : Nat} {P : α → Prop} {Q : β → Prop} {negative : Bool} {s : Significand}

/-- Whatever is read has a property. -/
def Read.All (P : α → Prop) (x : Read α n) : Prop := ∀ a t, x = .ok (a, t) → P a

theorem Read.all_error (e : Failure) : Read.All P (.error e : Read α n) := by
  intro a t h
  cases h

theorem Read.all_ok {a : α} {t : { r : List Char // r.length ≤ n }} (h : P a) :
    Read.All P (.ok (a, t)) := by
  intro b u hb
  cases hb
  exact h

theorem Read.All.widen {x : Read α m} (h : x.All P) (hmn : m ≤ n) : (x.widen hmn).All P := by
  cases x with
  | error e => exact Read.all_error e
  | ok a => exact Read.all_ok (h a.1 a.2 rfl)

theorem Read.All.map {x : Read α n} (h : x.All P) (f : α → β) (hf : ∀ a, P a → Q (f a)) :
    Read.All Q (x.map fun (a, t) => (f a, t)) := by
  cases x with
  | error e => exact Read.all_error e
  | ok a => exact Read.all_ok (hf a.1 (h a.1 a.2 rfl))

theorem real_inRange {r : List Char} (h : r.length ≤ n) :
    (real negative s r h).All Number.InRange := by
  unfold real
  split
  · rename_i hx
    exact Read.all_ok (Significand.isFinite_of_toBinary64? hx)
  · exact Read.all_error _

theorem exponentTail_inRange {minus : Bool} {r : List Char} (h : r.length ≤ n) :
    (exponentTail negative minus s r h).All Number.InRange := by
  unfold exponentTail
  split
  · exact Read.all_error _
  · split
    · split
      · exact real_inRange _
      · split
        · exact Read.all_error _
        · exact Read.all_ok rfl
    · exact Read.all_error _

theorem exponent_inRange {r : List Char} (h : r.length ≤ n) :
    (exponent negative s r h).All Number.InRange := by
  unfold exponent
  split <;> exact exponentTail_inRange _

theorem numberTail_inRange (hs : s.value < 2 ^ 64) {r : List Char} (h : r.length ≤ n) :
    (numberTail negative s r h).All Number.InRange := by
  unfold numberTail
  split
  · dsimp only
    split
    · exact Read.all_error _
    · split
      · exact exponent_inRange _
      · exact exponent_inRange _
      · exact real_inRange _
  · exact exponent_inRange _
  · exact exponent_inRange _
  · split
    · rename_i hx
      exact Read.all_ok (Significand.inRange_of_toNumber? hs hx)
    · exact Read.all_error _

theorem number_inRange (c : Char) (r : List Char) :
    (number negative c r).All Number.InRange := by
  unfold number
  split
  · split
    · exact Read.all_error _
    · exact numberTail_inRange (by decide) _
  · split
    · exact numberTail_inRange (Significand.whole_lt (by decide) _) _
    · exact Read.all_error _

theorem negativeNumber_inRange (r : List Char) : (negativeNumber r).All Number.InRange := by
  unfold negativeNumber
  split
  · exact Read.all_error _
  · exact (number_inRange _ _).widen _

variable {depth : Nat} {item : Char → (r : List Char) → Read Json r.length}

theorem items_readable (hitem : ∀ c r, (item c r).All (Readable depth)) {done : List Json}
    (hdone : ∀ j ∈ done, Readable depth j) {s : List Char} (h : s.length ≤ n) :
    (items item done s h).All (Readable (depth + 1)) := by
  fun_induction items item done s h with
  | case1 | case2 | case3 | case4 | case7 => exact Read.all_error _
  | case5 done s h c r hs hr hc j t ht hj u hu hlen ih =>
    exact ih (List.forall_mem_cons.mpr ⟨hitem c r j _ hj, hdone⟩)
  | case6 done s h c r hs hr hc j t ht hj u hu hlen hcomma =>
    have hall : ∀ i ∈ j :: done, Readable depth i :=
      List.forall_mem_cons.mpr ⟨hitem c r j _ hj, hdone⟩
    exact Read.all_ok (.array fun i hi => hall i (List.mem_reverse.mp hi))

theorem members_readable (hitem : ∀ c r, (item c r).All (Readable depth))
    {done : List (String × Json)} (hdone : ∀ p ∈ done, Readable depth p.2) {s : List Char}
    (h : s.length ≤ n) : (members item done s h).All (Readable (depth + 1)) := by
  fun_induction members item done s h with
  | case10 done s h c r hs hr hc hq key t ht hkey d u hu htu hd e v hv huv j w hw hj x hx hwx ih =>
    exact ih (List.forall_mem_cons.mpr ⟨hitem e v j _ hj, hdone⟩)
  | case11 done s h c r hs hr hc hq key t ht hkey d u hu htu hd e v hv huv j w hw hj x hx hwx
      hcomma =>
    have hall : ∀ p ∈ (key, j) :: done, Readable depth p.2 :=
      List.forall_mem_cons.mpr ⟨hitem e v j _ hj, hdone⟩
    refine Read.all_ok (.object (Members.sorted_ofList _) fun p hp => ?_)
    exact hall p (List.mem_reverse.mp (Members.mem_of_mem_ofList hp))
  | _ => exact Read.all_error _

theorem array_readable (hitem : ∀ c r, (item c r).All (Readable depth)) (s : List Char) :
    (array item s).All (Readable (depth + 1)) := by
  unfold array
  split
  · exact Read.all_error _
  · split
    · exact Read.all_ok (.array fun _ hj => absurd hj List.not_mem_nil)
    · exact items_readable hitem (fun _ hj => absurd hj List.not_mem_nil) _

theorem object_readable (hitem : ∀ c r, (item c r).All (Readable depth)) (s : List Char) :
    (object item s).All (Readable (depth + 1)) := by
  unfold object
  split
  · exact Read.all_error _
  · split
    · exact Read.all_ok (.object List.Pairwise.nil fun _ hp => absurd hp List.not_mem_nil)
    · exact members_readable hitem (fun _ hp => absurd hp List.not_mem_nil) _

theorem word_readable {j : Json} (hj : Readable depth j) (letters s : List Char)
    (h : s.length ≤ n) : (word j letters s h).All (Readable depth) := by
  induction letters generalizing s with
  | nil => exact Read.all_ok hj
  | cons l ls ih =>
    cases s with
    | nil => exact Read.all_error _
    | cons c r =>
      rw [word]
      split
      · exact ih r _
      · exact Read.all_error _

theorem value_readable (depth : Nat) (c : Char) (r : List Char) :
    (value depth c r).All (Readable depth) := by
  have hstring (r : List Char) : Read.All (fun _ => True) (string [] r (Nat.le_refl _)) :=
    fun _ _ _ => trivial
  induction depth using Nat.strongRecOn generalizing c r with
  | ind depth ih =>
    fun_cases value depth c r with
    | case1 | case2 | case11 => exact Read.all_error _
    | case3 d => exact array_readable (ih d (Nat.lt_succ_self d)) r
    | case4 d => exact object_readable (ih d (Nat.lt_succ_self d)) r
    | case5 => exact (hstring _).map _ fun s _ => .string s
    | case6 => exact (negativeNumber_inRange _).map _ fun _ hx => .number hx
    | case7 => exact word_readable (.bool true) _ _ _
    | case8 => exact word_readable (.bool false) _ _ _
    | case9 => exact word_readable .null _ _ _
    | case10 => exact (number_inRange _ _).map _ fun _ hx => .number hx

end Reader

theorem readable_of_read {text : String} {j : Json} (h : read text = .ok j) :
    Readable Reader.nestingLimit j := by
  unfold read at h
  split at h
  · cases h
    rename_i hd
    unfold Reader.document at hd
    split at hd
    · cases hd
    · split at hd
      · cases hd
      · rename_i hv
        split at hd
        · cases hd
          exact Reader.value_readable _ _ _ j _ hv
        · cases hd
  · cases h

end RecordSieve.Json
