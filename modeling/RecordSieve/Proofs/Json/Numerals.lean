import RecordSieve.Json.Writer
import RecordSieve.Proofs.Binary64.RoundTrip
import RecordSieve.Proofs.Json.Readable
import RecordSieve.Proofs.Token.Written

/-! # Numerals of JSON

The text of a number is read as far as it goes, whatever delimiter follows, and its digits are taken
in as one significand.
-/

namespace RecordSieve.Json

open Token (takeWhile_append_of_head dropWhile_append_of_head)

theorem le_ofDigitChars (v : Nat) (ds : List Char) : v ≤ Nat.ofDigitChars 10 ds v := by
  induction ds generalizing v with
  | nil => exact Nat.le_refl v
  | cons c ds ih =>
    rw [Nat.ofDigitChars_cons]
    exact Nat.le_trans (by omega) (ih _)

namespace Significand

theorem push?_eq {v : Nat} {c : Char} (h : 10 * v + (c.toNat - '0'.toNat) < 2 ^ 64) :
    push? v c = some (10 * v + (c.toNat - '0'.toNat)) := by
  unfold push?
  dsimp only
  rw [Nat.mul_comm, if_pos h]

theorem whole_eq {v : Nat} {ds : List Char} (h : Nat.ofDigitChars 10 ds v < 2 ^ 64) :
    whole v ds = ⟨Nat.ofDigitChars 10 ds v, 0⟩ := by
  induction ds generalizing v with
  | nil => rfl
  | cons c ds ih =>
    rw [Nat.ofDigitChars_cons] at h ⊢
    rw [whole, push?_eq (Nat.lt_of_le_of_lt (le_ofDigitChars _ ds) h)]
    exact ih h

theorem fraction_eq {v : Nat} {e : Int} {ds : List Char}
    (h : Nat.ofDigitChars 10 ds v < 2 ^ 64) :
    fraction ⟨v, e⟩ ds = ⟨Nat.ofDigitChars 10 ds v, e - ds.length⟩ := by
  induction ds generalizing v e with
  | nil => simp [fraction]
  | cons c ds ih =>
    rw [Nat.ofDigitChars_cons] at h ⊢
    rw [fraction, push?_eq (Nat.lt_of_le_of_lt (le_ofDigitChars _ ds) h)]
    dsimp only
    rw [ih h, List.length_cons]
    congr 1
    omega

end Significand

namespace Reader

variable {α β : Type} {m n : Nat} {a : α} {negative : Bool} {s : Significand} {x : Number}
  {y : Binary64} {rest f : List Char}

/-- A value was read, and this is left. -/
def Gives (x : Read α n) (a : α) (rest : List Char) : Prop := ∃ h, x = .ok (a, ⟨rest, h⟩)

theorem Gives.widen {x : Read α m} (h : Gives x a rest) (hmn : m ≤ n) :
    Gives (x.widen hmn) a rest := by
  obtain ⟨hr, rfl⟩ := h
  exact ⟨_, rfl⟩

theorem Gives.map {x : Read α n} (h : Gives x a rest) (f : α → β) :
    Gives (x.map fun (a, t) => (f a, t)) (f a) rest := by
  obtain ⟨hr, rfl⟩ := h
  exact ⟨hr, rfl⟩

/-- What follows a value inside an array or an object, or at the end of a text. -/
def Delimited (rest : List Char) : Prop := ∀ c ∈ rest.head?, c = ',' ∨ c = ']' ∨ c = '\x7d'

theorem Delimited.isDigit_head (h : Delimited rest) : ∀ c ∈ rest.head?, c.isDigit = false := by
  intro c hc
  rcases h c hc with rfl | rfl | rfl <;> rfl

theorem real_gives (hy : s.toBinary64? negative = some y) (h : rest.length ≤ n) :
    Gives (real negative s rest h) (.real y) rest := by
  rw [real, hy]
  exact ⟨h, rfl⟩

theorem numberTail_gives (hrest : Delimited rest) (hx : s.toNumber? negative = some x)
    (h : rest.length ≤ n) : Gives (numberTail negative s rest h) x rest := by
  unfold numberTail
  split
  · exact absurd (hrest _ rfl) (by decide)
  · exact absurd (hrest _ rfl) (by decide)
  · exact absurd (hrest _ rfl) (by decide)
  · rw [hx]
    exact ⟨h, rfl⟩

theorem numberTail_point {t : List Char} (htake : t.takeWhile Char.isDigit = f)
    (hdrop : t.dropWhile Char.isDigit = rest) (hne : f ≠ []) (hrest : Delimited rest)
    (hy : (s.fraction f).toBinary64? negative = some y) (h : ('.' :: t).length ≤ n) :
    Gives (numberTail negative s ('.' :: t) h) (.real y) rest := by
  subst htake hdrop
  rw [numberTail]
  dsimp only
  rw [if_neg hne]
  split
  · rename_i heq _
    rw [heq] at hrest
    exact absurd (hrest _ rfl) (by decide)
  · rename_i heq _
    rw [heq] at hrest
    exact absurd (hrest _ rfl) (by decide)
  · exact real_gives hy _

theorem exponentDigits_eq {ds : List Char} {v : Nat} (hds : ∀ c ∈ ds, c.isDigit)
    (hrest : Delimited rest) (hlt : Nat.ofDigitChars 10 ds v < 2 ^ 31) :
    (exponentDigits v (ds ++ rest)).1 = some (Nat.ofDigitChars 10 ds v) ∧
      ((exponentDigits v (ds ++ rest)).2 : List Char) = rest := by
  induction ds generalizing v with
  | nil =>
    cases rest with
    | nil => exact ⟨rfl, rfl⟩
    | cons c r =>
      rw [List.nil_append, exponentDigits, if_neg (by simp [hrest.isDigit_head c rfl])]
      exact ⟨rfl, rfl⟩
  | cons c ds ih =>
    obtain ⟨hc, hds⟩ := List.forall_mem_cons.mp hds
    rw [Nat.ofDigitChars_cons, Nat.mul_comm] at hlt ⊢
    have hle := Nat.lt_of_le_of_lt (le_ofDigitChars _ ds) hlt
    have ih := ih hds hlt
    rw [List.cons_append, exponentDigits, if_pos hc]
    dsimp only
    rw [if_neg (Nat.not_le.mpr hle)]
    exact ih

theorem exponentTail_gives {minus : Bool} {c : Char} {ds : List Char}
    (hds : ∀ d ∈ c :: ds, d.isDigit) (hrest : Delimited rest)
    (hlt : Nat.ofDigitChars 10 (c :: ds) 0 < 2 ^ 31)
    (hy : Significand.toBinary64? negative ⟨s.value, if minus then
      s.exponent - Nat.ofDigitChars 10 (c :: ds) 0
      else s.exponent + Nat.ofDigitChars 10 (c :: ds) 0⟩ = some y)
    (h : (c :: (ds ++ rest)).length ≤ n) :
    Gives (exponentTail negative minus s (c :: (ds ++ rest)) h) (.real y) rest := by
  obtain ⟨hfst, hsnd⟩ := exponentDigits_eq hds hrest hlt
  rw [List.cons_append] at hfst hsnd
  rw [exponentTail, if_pos (hds c List.mem_cons_self)]
  generalize exponentDigits 0 (c :: (ds ++ rest)) = p at hfst hsnd
  obtain ⟨o, t, ht⟩ := p
  change o = _ at hfst
  change t = rest at hsnd
  subst hfst hsnd
  exact real_gives hy _

theorem exponent_gives {e : Int} (he : e.natAbs < 2 ^ 31) (hrest : Delimited rest)
    (hy : Significand.toBinary64? negative ⟨s.value, s.exponent + e⟩ = some y)
    (h : ((if e < 0 then '-' else '+') :: (Nat.toDigits 10 e.natAbs ++ rest)).length ≤ n) :
    Gives (exponent negative s
      ((if e < 0 then '-' else '+') :: (Nat.toDigits 10 e.natAbs ++ rest)) h) (.real y) rest := by
  have hds : ∀ d ∈ Nat.toDigits 10 e.natAbs, d.isDigit := fun _ hd =>
    Nat.isDigit_of_mem_toDigits (by decide) (by decide) hd
  have hof : Nat.ofDigitChars 10 (Nat.toDigits 10 e.natAbs) 0 = e.natAbs :=
    Nat.ofDigitChars_ten_toDigits
  obtain ⟨c, ds, hc⟩ := List.exists_cons_of_ne_nil
    (Nat.toDigits_ne_nil : Nat.toDigits 10 e.natAbs ≠ [])
  rw [hc] at hds hof
  simp only [hc, List.cons_append]
  split
  · rw [exponent]
    apply exponentTail_gives hds hrest (by rwa [hof])
    rwa [hof, if_pos rfl, show s.exponent - (e.natAbs : Int) = s.exponent + e by omega]
  · rw [exponent]
    apply exponentTail_gives hds hrest (by rwa [hof])
    rwa [hof, if_neg (by decide), show s.exponent + (e.natAbs : Int) = s.exponent + e by omega]

theorem numberTail_point_exponent {t u : List Char} (htake : t.takeWhile Char.isDigit = f)
    (hdrop : t.dropWhile Char.isDigit = 'e' :: u) (hne : f ≠ [])
    (hx : ∀ h : u.length ≤ n, Gives (exponent negative (s.fraction f) u h) x rest)
    (h : ('.' :: t).length ≤ n) : Gives (numberTail negative s ('.' :: t) h) x rest := by
  subst htake
  rw [numberTail]
  dsimp only
  rw [if_neg hne]
  split
  · rename_i heq _
    cases hdrop.symm.trans heq
    exact hx _
  · rename_i heq _
    cases hdrop.symm.trans heq
  · rename_i hlen hlower _
    exact (hlower u (hdrop ▸ hlen) hdrop (proof_irrel_heq _ _)).elim

theorem number_gives {c : Char} {ds tail : List Char} (hds : ∀ d ∈ c :: ds, d.isDigit)
    (hzero : c = '0' → ds = []) (htail : ∀ d ∈ tail.head?, d.isDigit = false)
    (hx : ∀ n (h : tail.length ≤ n),
      Gives (numberTail negative (.whole 0 (c :: ds)) tail h) x rest) :
    Gives (number negative c (ds ++ tail)) x rest := by
  obtain ⟨hc, hds⟩ := List.forall_mem_cons.mp hds
  have htake := takeWhile_append_of_head hds htail
  have hdrop := dropWhile_append_of_head hds htail
  unfold number
  split
  · rename_i h0
    obtain rfl := hzero h0
    subst h0
    have hhead : ¬ (((([] ++ tail : List Char)).head?.map Char.isDigit).getD false) := by
      cases tail with
      | nil => simp
      | cons d t => simp [htail d rfl]
    have hwhole : Significand.whole 0 ['0'] = ⟨0, 0⟩ := Significand.whole_eq (by decide)
    rw [if_neg hhead]
    rw [hwhole] at hx
    exact hx _ _
  · simp only [htake, hdrop]
    exact hx _ _

/-- The text spells a number after its sign, whatever delimiter follows. -/
def Spells (negative : Bool) (body : List Char) (x : Number) : Prop :=
  ∃ c r, body = c :: r ∧ c.isDigit ∧
    ∀ rest, Delimited rest → Gives (number negative c (r ++ rest)) x rest

end Reader

theorem head_toDigits (n : Nat) (h : (Nat.toDigits 10 n).head? = some '0') :
    Nat.toDigits 10 n = ['0'] := by
  induction n using Nat.strongRecOn with
  | ind n ih =>
    rw [Nat.toDigits_eq_if (by decide)] at h ⊢
    split at h
    · rename_i hn
      rw [if_pos hn, Option.some.inj h]
    · rename_i hn
      obtain ⟨c, ds, hc⟩ := List.exists_cons_of_ne_nil
        (Nat.toDigits_ne_nil : Nat.toDigits 10 (n / 10) ≠ [])
      rw [hc] at h
      have hzero := ih (n / 10) (by omega) (by rw [hc]; exact h)
      have hval : Nat.ofDigitChars 10 (Nat.toDigits 10 (n / 10)) 0 = n / 10 :=
        Nat.ofDigitChars_ten_toDigits
      rw [hzero, show Nat.ofDigitChars 10 ['0'] 0 = 0 from rfl] at hval
      omega

namespace Reader

variable {negative : Bool} {n : Nat} {x : Number}

theorem spells_toDigits (hn : n < 2 ^ 64)
    (hx : Significand.toNumber? negative ⟨n, 0⟩ = some x) :
    Spells negative (Nat.toDigits 10 n) x := by
  have hds : ∀ d ∈ Nat.toDigits 10 n, d.isDigit := fun _ hd =>
    Nat.isDigit_of_mem_toDigits (by decide) (by decide) hd
  have hzero := head_toDigits n
  have hval : Nat.ofDigitChars 10 (Nat.toDigits 10 n) 0 = n := Nat.ofDigitChars_ten_toDigits
  obtain ⟨c, ds, hc⟩ := List.exists_cons_of_ne_nil (Nat.toDigits_ne_nil : Nat.toDigits 10 n ≠ [])
  rw [hc] at hds hzero hval
  have hlt : Nat.ofDigitChars 10 (c :: ds) 0 < 2 ^ 64 := by rwa [hval]
  have hwhole := Significand.whole_eq hlt
  rw [hval] at hwhole
  refine ⟨c, ds, hc, hds c List.mem_cons_self, fun rest hrest => ?_⟩
  apply number_gives hds
  · rintro rfl
    exact (List.cons.inj (hzero rfl)).2
  · exact hrest.isDigit_head
  · intro m hm
    rw [hwhole]
    exact numberTail_gives hrest hx hm

theorem spells_int {i : Int} (h : (Number.int i).InRange) :
    Spells (i < 0) (Nat.toDigits 10 i.natAbs) (.int i) := by
  obtain ⟨hlo, hhi⟩ := h
  apply spells_toDigits (by omega)
  by_cases hi : i < 0
  · have h0 : i.natAbs ≠ 0 := by omega
    have h1 : i.natAbs ≤ 2 ^ 63 := by omega
    rw [Significand.toNumber?, if_neg (by simp [hi]), if_pos ⟨rfl, h0, h1⟩,
      show -(i.natAbs : Int) = i by omega]
  · rw [Significand.toNumber?, if_pos ⟨rfl, by simp [hi]⟩, show (i.natAbs : Int) = i by omega]

end Reader

structure Numeral where
  whole : List Char
  fraction : List Char
  exponent? : Option Int

namespace Numeral

def pointText (fraction : List Char) : List Char := if fraction = [] then [] else '.' :: fraction

def exponentText : Option Int → List Char
  | none => []
  | some e => 'e' :: (if e < 0 then '-' else '+') :: Nat.toDigits 10 e.natAbs

def text (t : Numeral) : List Char :=
  t.whole ++ (pointText t.fraction ++ exponentText t.exponent?)

/-- No needless zero stands first, there is a point or an exponent, and all but the digits after the
point is small. -/
structure Proper (t : Numeral) : Prop where
  whole_ne_nil : t.whole ≠ []
  isDigit_whole : ∀ c ∈ t.whole, c.isDigit
  isDigit_fraction : ∀ c ∈ t.fraction, c.isDigit
  zero : t.whole.head? = some '0' → t.whole = ['0']
  marked : t.exponent? = none → t.fraction ≠ []
  whole_lt : Nat.ofDigitChars 10 t.whole 0 < 2 ^ 64
  exponent_lt : ∀ e ∈ t.exponent?, e.natAbs < 2 ^ 31

def significand (t : Numeral) : Significand :=
  let s := Significand.fraction ⟨Nat.ofDigitChars 10 t.whole 0, 0⟩ t.fraction
  ⟨s.value, s.exponent + t.exponent?.getD 0⟩

open Reader

variable {t : Numeral} {negative : Bool} {y : Binary64} {rest : List Char}

theorem isDigit_head_text (hrest : Delimited rest) (f : List Char) (e : Option Int) :
    ∀ d ∈ (pointText f ++ (exponentText e ++ rest)).head?, d.isDigit = false := by
  intro d hd
  unfold pointText at hd
  split at hd
  · cases e with
    | none => exact hrest.isDigit_head d hd
    | some e =>
      cases hd
      rfl
  · cases hd
    rfl

theorem numberTail_text (h : t.Proper) (hy : t.significand.toBinary64? negative = some y)
    (hrest : Delimited rest) {n : Nat}
    (hn : (pointText t.fraction ++ (exponentText t.exponent? ++ rest)).length ≤ n) :
    Gives (numberTail negative ⟨Nat.ofDigitChars 10 t.whole 0, 0⟩
      (pointText t.fraction ++ (exponentText t.exponent? ++ rest)) hn) (.real y) rest := by
  obtain ⟨w, f, e⟩ := t
  have hf := h.isDigit_fraction
  unfold significand at hy
  unfold pointText at hn ⊢
  by_cases hne : f = []
  · subst hne
    cases e with
    | none => exact absurd rfl (h.marked rfl)
    | some e =>
      simp only [exponentText, if_true, List.nil_append, List.cons_append]
      rw [numberTail]
      exact exponent_gives (h.exponent_lt e rfl) hrest hy _
  · cases e with
    | none =>
      simp only [exponentText, if_neg hne, List.nil_append, List.cons_append]
      apply numberTail_point (takeWhile_append_of_head hf hrest.isDigit_head)
        (dropWhile_append_of_head hf hrest.isDigit_head) hne hrest
      simpa using hy
    | some e =>
      simp only [exponentText, if_neg hne, List.cons_append]
      apply numberTail_point_exponent
      · exact takeWhile_append_of_head hf (by simp)
      · exact dropWhile_append_of_head hf (by simp)
      · exact hne
      · intro hu
        exact exponent_gives (h.exponent_lt e rfl) hrest hy _

/-- A numeral of a real number is read as its significand says. -/
theorem spells (h : t.Proper) (hy : t.significand.toBinary64? negative = some y) :
    Spells negative t.text (.real y) := by
  obtain ⟨c, ds, hw⟩ := List.exists_cons_of_ne_nil h.whole_ne_nil
  have hds := h.isDigit_whole
  have hwhole := Significand.whole_eq h.whole_lt
  rw [hw] at hds hwhole
  refine ⟨c, ds ++ (pointText t.fraction ++ exponentText t.exponent?), ?_,
    hds c List.mem_cons_self, ?_⟩
  · rw [text, hw, List.cons_append]
  · intro rest hrest
    rw [List.append_assoc, List.append_assoc]
    apply number_gives hds
    · rintro rfl
      have hzero := h.zero (by rw [hw]; rfl)
      rw [hw] at hzero
      exact (List.cons.inj hzero).2
    · exact isDigit_head_text hrest _ _
    · intro n hn
      rw [hwhole, ← hw]
      exact numberTail_text h hy hrest hn

end Numeral

end RecordSieve.Json
