import RecordSieve.Text.Utf8

/-! # Decoding undoes encoding

Bytes are decoded exactly if they encode a text, and then to that text. The bounds on the second
byte of a sequence leave out what has a shorter encoding, the surrogates, and what lies beyond the
last character.
-/

namespace RecordSieve.Text

/-- The bytes complete a sequence, which then stands for a number. -/
inductive Sequence.Reads : Sequence → List UInt8 → Nat → Prop
  | done {q : Sequence} : q.more = 0 → Reads q [] q.bits
  | next {q r : Sequence} {b : UInt8} {bs : List UInt8} {v : Nat} : q.more ≠ 0 →
      q.extend? b.toNat = some r → Reads r bs v → Reads q (b :: bs) v

variable {b : UInt8} {s t done : List Char} {bytes bs rest : List UInt8}
  {index start n bits low high v : Nat} {q : Sequence}

namespace Sequence

theorem reads_iff_of_more_eq_zero (hm : q.more = 0) : q.Reads bs v ↔ bs = [] ∧ v = q.bits := by
  constructor
  · intro h
    cases h with
    | done => exact ⟨rfl, rfl⟩
    | next h => exact absurd hm h
  · rintro ⟨rfl, rfl⟩
    exact .done hm

theorem reads_zero_iff : Reads ⟨start, 0, bits, low, high⟩ bs v ↔ bs = [] ∧ v = bits :=
  reads_iff_of_more_eq_zero rfl

theorem reads_succ_iff : Reads ⟨start, n + 1, bits, low, high⟩ bs v ↔
    ∃ b rest, bs = b :: rest ∧ (low ≤ b.toNat ∧ b.toNat ≤ high) ∧
      Reads ⟨start, n, bits * 64 + (b.toNat - 0x80), 0x80, 0xBF⟩ rest v := by
  constructor
  · intro h
    cases h with
    | done h => simp at h
    | @next _ r b bs _ _ he h =>
      simp only [extend?, Option.ite_none_right_eq_some, Option.some.injEq] at he
      obtain ⟨hb, rfl⟩ := he
      exact ⟨b, bs, rfl, hb, h⟩
  · rintro ⟨b, rest, rfl, hb, h⟩
    exact .next (by simp) (if_pos hb) h

theorem ite_le_iff {p : Prop} [Decidable p] {x y m : Nat} :
    (if p then x else y) ≤ m ↔ (p → x ≤ m) ∧ (¬ p → y ≤ m) := by
  split <;> simp [*]

theorem le_ite_iff {p : Prop} [Decidable p] {x y m : Nat} :
    m ≤ (if p then x else y) ↔ (p → m ≤ x) ∧ (¬ p → m ≤ y) := by
  split <;> simp [*]

theorem open?_eq_some_iff : open? start n = some q ↔
    (n < 0x80 ∧ q = { start, more := 0, bits := n }) ∨
    ((0xC2 ≤ n ∧ n < 0xE0) ∧ q = { start, more := 1, bits := n - 0xC0 }) ∨
    ((0xE0 ≤ n ∧ n < 0xF0) ∧ q =
      { start, more := 2, bits := n - 0xE0,
        low := if n = 0xE0 then 0xA0 else 0x80, high := if n = 0xED then 0x9F else 0xBF }) ∨
    ((0xF0 ≤ n ∧ n < 0xF5) ∧ q =
      { start, more := 3, bits := n - 0xF0,
        low := if n = 0xF0 then 0x90 else 0x80, high := if n = 0xF4 then 0x8F else 0xBF }) := by
  unfold open?
  rcases Nat.lt_or_ge n 0x80 with h | h
  · simp [h, show ¬ 0xC2 ≤ n by omega, show ¬ 0xE0 ≤ n by omega, show ¬ 0xF0 ≤ n by omega, eq_comm]
  rcases Nat.lt_or_ge n 0xC2 with h1 | h1
  · simp [h1, show ¬ n < 0x80 by omega, show ¬ 0xC2 ≤ n by omega, show ¬ 0xE0 ≤ n by omega,
      show ¬ 0xF0 ≤ n by omega]
  rcases Nat.lt_or_ge n 0xE0 with h2 | h2
  · simp [h1, h2, show ¬ n < 0x80 by omega, show ¬ n < 0xC2 by omega, show ¬ 0xE0 ≤ n by omega,
      show ¬ 0xF0 ≤ n by omega, eq_comm]
  rcases Nat.lt_or_ge n 0xF0 with h3 | h3
  · simp [h1, h2, h3, show ¬ n < 0x80 by omega, show ¬ n < 0xC2 by omega, show ¬ n < 0xE0 by omega,
      show ¬ 0xF0 ≤ n by omega, eq_comm]
  · simp [h1, h2, h3, show ¬ n < 0x80 by omega, show ¬ n < 0xC2 by omega, show ¬ n < 0xE0 by omega,
      show ¬ n < 0xF0 by omega, eq_comm]

end Sequence

theorem toNat_bounds (c : Char) :
    c.toNat < 0xD800 ∨ 0xDFFF < c.toNat ∧ c.toNat < 0x110000 := c.valid

theorem utf8EncodeChar_eq (c : Char) : String.utf8EncodeChar c =
    if c.toNat ≤ 0x7F then [UInt8.ofNat c.toNat]
    else if c.toNat ≤ 0x7FF then
      [UInt8.ofNat (c.toNat / 64 % 32 + 0xC0), UInt8.ofNat (c.toNat % 64 + 0x80)]
    else if c.toNat ≤ 0xFFFF then
      [UInt8.ofNat (c.toNat / 4096 % 16 + 0xE0), UInt8.ofNat (c.toNat / 64 % 64 + 0x80),
        UInt8.ofNat (c.toNat % 64 + 0x80)]
    else
      [UInt8.ofNat (c.toNat / 262144 % 8 + 0xF0), UInt8.ofNat (c.toNat / 4096 % 64 + 0x80),
        UInt8.ofNat (c.toNat / 64 % 64 + 0x80), UInt8.ofNat (c.toNat % 64 + 0x80)] := rfl

theorem toNat_ofNat (h : n < 256) : (UInt8.ofNat n).toNat = n :=
  UInt8.toNat_ofNat_of_lt' h

theorem char_toNat_ofNat (h : v < 0xD800 ∨ 0xDFFF < v ∧ v < 0x110000) :
    (Char.ofNat v).toNat = v := by
  have h : v.isValidChar := h
  rw [Char.ofNat, dif_pos h]
  rfl

theorem exists_open?_of_utf8EncodeChar (start : Nat) (c : Char) :
    ∃ b bs q, String.utf8EncodeChar c = b :: bs ∧ Sequence.open? start b.toNat = some q ∧
      q.Reads bs c.toNat := by
  have hv := toNat_bounds c
  rw [utf8EncodeChar_eq]
  generalize c.toNat = v at hv
  by_cases h1 : v ≤ 0x7F
  · have hb : (UInt8.ofNat v).toNat = v := toNat_ofNat (by omega)
    refine ⟨_, _, _, if_pos h1, Sequence.open?_eq_some_iff.mpr (.inl ⟨by omega, rfl⟩), ?_⟩
    exact Sequence.reads_zero_iff.mpr ⟨rfl, hb.symm⟩
  have last : (UInt8.ofNat (v % 64 + 0x80)).toNat = v % 64 + 0x80 := toNat_ofNat (by omega)
  rw [if_neg h1]
  by_cases h2 : v ≤ 0x7FF
  · have hb : (UInt8.ofNat (v / 64 % 32 + 0xC0)).toNat = v / 64 % 32 + 0xC0 :=
      toNat_ofNat (by omega)
    refine ⟨_, _, _, if_pos h2,
      Sequence.open?_eq_some_iff.mpr (.inr (.inl ⟨by omega, rfl⟩)), ?_⟩
    exact Sequence.reads_succ_iff.mpr
      ⟨_, _, rfl, by omega, Sequence.reads_zero_iff.mpr ⟨rfl, by omega⟩⟩
  have middle : (UInt8.ofNat (v / 64 % 64 + 0x80)).toNat = v / 64 % 64 + 0x80 :=
    toNat_ofNat (by omega)
  rw [if_neg h2]
  by_cases h3 : v ≤ 0xFFFF
  · have hb : (UInt8.ofNat (v / 4096 % 16 + 0xE0)).toNat = v / 4096 % 16 + 0xE0 :=
      toNat_ofNat (by omega)
    refine ⟨_, _, _, if_pos h3,
      Sequence.open?_eq_some_iff.mpr (.inr (.inr (.inl ⟨by omega, rfl⟩))), ?_⟩
    refine Sequence.reads_succ_iff.mpr ⟨_, _, rfl, ⟨?_, ?_⟩, ?_⟩
    · exact Sequence.ite_le_iff.mpr (by omega)
    · exact Sequence.le_ite_iff.mpr (by omega)
    · exact Sequence.reads_succ_iff.mpr
        ⟨_, _, rfl, by omega, Sequence.reads_zero_iff.mpr ⟨rfl, by omega⟩⟩
  · have hb : (UInt8.ofNat (v / 262144 % 8 + 0xF0)).toNat = v / 262144 % 8 + 0xF0 :=
      toNat_ofNat (by omega)
    have second : (UInt8.ofNat (v / 4096 % 64 + 0x80)).toNat = v / 4096 % 64 + 0x80 :=
      toNat_ofNat (by omega)
    refine ⟨_, _, _, if_neg h3,
      Sequence.open?_eq_some_iff.mpr (.inr (.inr (.inr ⟨by omega, rfl⟩))), ?_⟩
    refine Sequence.reads_succ_iff.mpr ⟨_, _, rfl, ⟨?_, ?_⟩, ?_⟩
    · exact Sequence.ite_le_iff.mpr (by omega)
    · exact Sequence.le_ite_iff.mpr (by omega)
    · exact Sequence.reads_succ_iff.mpr ⟨_, _, rfl, by omega, Sequence.reads_succ_iff.mpr
        ⟨_, _, rfl, by omega, Sequence.reads_zero_iff.mpr ⟨rfl, by omega⟩⟩⟩

theorem utf8EncodeChar_of_reads (h : Sequence.open? start b.toNat = some q) (hr : q.Reads bs v) :
    String.utf8EncodeChar (Char.ofNat v) = b :: bs := by
  have byte {n : Nat} {b : UInt8} (h : n = b.toNat) : UInt8.ofNat n = b := by
    subst h
    simp
  rcases Sequence.open?_eq_some_iff.mp h with ⟨hb, rfl⟩ | ⟨hb, rfl⟩ | ⟨hb, rfl⟩ | ⟨hb, rfl⟩
  · obtain ⟨rfl, rfl⟩ := Sequence.reads_zero_iff.mp hr
    rw [utf8EncodeChar_eq, char_toNat_ofNat (by omega), if_pos (by omega), byte rfl]
  · obtain ⟨b1, _, rfl, hb1, hr⟩ := Sequence.reads_succ_iff.mp hr
    obtain ⟨rfl, hv⟩ := Sequence.reads_zero_iff.mp hr
    rw [utf8EncodeChar_eq, char_toNat_ofNat (by omega), if_neg (by omega), if_pos (by omega),
      byte (b := b) (by omega), byte (b := b1) (by omega)]
  · obtain ⟨b1, _, rfl, ⟨hlow, hhigh⟩, hr⟩ := Sequence.reads_succ_iff.mp hr
    obtain ⟨b2, _, rfl, hb2, hr⟩ := Sequence.reads_succ_iff.mp hr
    obtain ⟨rfl, hv⟩ := Sequence.reads_zero_iff.mp hr
    have hlow := Sequence.ite_le_iff.mp hlow
    have hhigh := Sequence.le_ite_iff.mp hhigh
    rw [utf8EncodeChar_eq, char_toNat_ofNat (by omega), if_neg (by omega), if_neg (by omega),
      if_pos (by omega), byte (b := b) (by omega), byte (b := b1) (by omega),
      byte (b := b2) (by omega)]
  · obtain ⟨b1, _, rfl, ⟨hlow, hhigh⟩, hr⟩ := Sequence.reads_succ_iff.mp hr
    obtain ⟨b2, _, rfl, hb2, hr⟩ := Sequence.reads_succ_iff.mp hr
    obtain ⟨b3, _, rfl, hb3, hr⟩ := Sequence.reads_succ_iff.mp hr
    obtain ⟨rfl, hv⟩ := Sequence.reads_zero_iff.mp hr
    have hlow := Sequence.ite_le_iff.mp hlow
    have hhigh := Sequence.le_ite_iff.mp hhigh
    rw [utf8EncodeChar_eq, char_toNat_ofNat (by omega), if_neg (by omega), if_neg (by omega),
      if_neg (by omega), byte (b := b) (by omega), byte (b := b1) (by omega),
      byte (b := b2) (by omega), byte (b := b3) (by omega)]

theorem utf8EncodeChar_ascii (hb : b.toNat < 0x80) :
    String.utf8EncodeChar (Char.ofNat b.toNat) = [b] :=
  utf8EncodeChar_of_reads (show Sequence.open? 0 b.toNat = some _ from if_pos hb) (.done rfl)

theorem Sequence.low_of_open? (h : Sequence.open? start n = some q) : 0x80 ≤ q.low := by
  rcases Sequence.open?_eq_some_iff.mp h with ⟨_, rfl⟩ | ⟨_, rfl⟩ | ⟨_, rfl⟩ | ⟨_, rfl⟩
  · exact Nat.le_refl _
  · exact Nat.le_refl _
  · exact Sequence.le_ite_iff.mpr (by omega)
  · exact Sequence.le_ite_iff.mpr (by omega)

theorem Sequence.Reads.le_of_mem (h : q.Reads bs v) (hq : 0x80 ≤ q.low) (hb : b ∈ bs) :
    0x80 ≤ b.toNat := by
  induction h with
  | done => simp at hb
  | @next q r d bs v _ he _ ih =>
    simp only [Sequence.extend?, Option.ite_none_right_eq_some, Option.some.injEq] at he
    obtain ⟨hd, rfl⟩ := he
    rcases List.mem_cons.mp hb with rfl | hb
    · omega
    · exact ih (Nat.le_refl _) hb

/-- A byte of ASCII stands for its own character, and is no part of another one. -/
theorem eq_ofNat_of_mem_utf8EncodeChar {c : Char} (h : b ∈ String.utf8EncodeChar c)
    (hb : b.toNat < 0x80) : c = Char.ofNat b.toNat := by
  obtain ⟨d, bs, q, hc, ho, hr⟩ := exists_open?_of_utf8EncodeChar 0 c
  rw [hc] at h
  rcases List.mem_cons.mp h with rfl | h
  · rw [Sequence.open?, if_pos hb, Option.some.injEq] at ho
    subst ho
    rw [← (Sequence.reads_zero_iff.mp hr).2, Char.ofNat_toNat]
  · have := hr.le_of_mem (Sequence.low_of_open? ho) h
    omega

theorem decodeFrom_nil : decodeFrom index done none [] = .ok done.reverse := rfl

theorem decodeFrom_unfinished : decodeFrom index done (some q) [] = .error (.incomplete q.start) :=
  rfl

theorem decodeFrom_open : decodeFrom index done none (b :: rest) =
    match Sequence.open? index b.toNat with
    | none => .error (.invalid 1 index)
    | some s =>
      if s.more = 0 then decodeFrom (index + 1) (Char.ofNat s.bits :: done) none rest
      else decodeFrom (index + 1) done (some s) rest := rfl

theorem decodeFrom_extend : decodeFrom index done (some q) (b :: rest) =
    match q.extend? b.toNat with
    | none => .error (.invalid (index - q.start) q.start)
    | some s =>
      if s.more = 0 then decodeFrom (index + 1) (Char.ofNat s.bits :: done) none rest
      else decodeFrom (index + 1) done (some s) rest := rfl

theorem decodeFrom_reads (h : q.Reads bs v) (hm : q.more ≠ 0) :
    decodeFrom index done (some q) (bs ++ rest) =
      decodeFrom (index + bs.length) (Char.ofNat v :: done) none rest := by
  induction h generalizing index with
  | done h => exact absurd h hm
  | @next q r b bs v _ he hr ih =>
    simp only [List.cons_append, decodeFrom_extend, he]
    by_cases hz : r.more = 0
    · obtain ⟨rfl, rfl⟩ := (Sequence.reads_iff_of_more_eq_zero hz).mp hr
      simp [hz]
    · rw [if_neg hz, ih hz, List.length_cons, Nat.add_assoc, Nat.add_comm 1]

theorem exists_reads_of_decodeFrom (h : decodeFrom index done (some q) bytes = .ok t)
    (hm : q.more ≠ 0) : ∃ bs rest v, bytes = bs ++ rest ∧ q.Reads bs v ∧
      decodeFrom (index + bs.length) (Char.ofNat v :: done) none rest = .ok t := by
  induction bytes generalizing index q with
  | nil => simp [decodeFrom_unfinished] at h
  | cons b bytes ih =>
    cases he : q.extend? b.toNat with
    | none => simp [decodeFrom_extend, he] at h
    | some r =>
      simp only [decodeFrom_extend, he] at h
      split at h
      · rename_i hz
        exact ⟨[b], bytes, _, rfl, .next hm he (.done hz), h⟩
      · rename_i hz
        obtain ⟨bs, rest, v, rfl, hr, h⟩ := ih h hz
        refine ⟨b :: bs, rest, v, rfl, .next hm he hr, ?_⟩
        rwa [List.length_cons, Nat.add_comm bs.length, ← Nat.add_assoc]

theorem decodeFrom_utf8EncodeChar (c : Char) :
    decodeFrom index done none (String.utf8EncodeChar c ++ rest) =
      decodeFrom (index + (String.utf8EncodeChar c).length) (c :: done) none rest := by
  obtain ⟨b, bs, q, hc, ho, hr⟩ := exists_open?_of_utf8EncodeChar index c
  rw [hc, List.cons_append, decodeFrom_open, ho]
  by_cases hz : q.more = 0
  · obtain ⟨rfl, hv⟩ := (Sequence.reads_iff_of_more_eq_zero hz).mp hr
    simp [hz, ← hv]
  · simp only [hz, if_false]
    rw [decodeFrom_reads hr hz, Char.ofNat_toNat, List.length_cons, Nat.add_assoc, Nat.add_comm 1]

/-- Whatever is read first are the bytes of a character. -/
theorem exists_char_of_decodeFrom (h : decodeFrom index done none (b :: bytes) = .ok t) :
    ∃ c rest, b :: bytes = String.utf8EncodeChar c ++ rest ∧
      decodeFrom (index + (String.utf8EncodeChar c).length) (c :: done) none rest = .ok t := by
  cases ho : Sequence.open? index b.toNat with
  | none => simp [decodeFrom_open, ho] at h
  | some q =>
    simp only [decodeFrom_open, ho] at h
    split at h
    · rename_i hz
      have hc := utf8EncodeChar_of_reads ho (.done hz)
      exact ⟨Char.ofNat q.bits, bytes, by simp [hc], by simpa [hc] using h⟩
    · rename_i hz
      obtain ⟨bs, rest, v, rfl, hr, h⟩ := exists_reads_of_decodeFrom h hz
      have hc := utf8EncodeChar_of_reads ho hr
      refine ⟨Char.ofNat v, rest, by simp [hc], ?_⟩
      rwa [hc, List.length_cons, Nat.add_comm bs.length, ← Nat.add_assoc]

theorem decodeFrom_encode (s : List Char) :
    decodeFrom index done none (encode s) = .ok (done.reverse ++ s) := by
  induction s generalizing index done with
  | nil => simp [decodeFrom_nil]
  | cons c s ih =>
    have hc : encode (c :: s) = String.utf8EncodeChar c ++ encode s := List.flatMap_cons
    rw [hc, decodeFrom_utf8EncodeChar, ih]
    simp

theorem exists_encode_of_decodeFrom (h : decodeFrom index done none bytes = .ok t) :
    ∃ s, encode s = bytes ∧ t = done.reverse ++ s := by
  induction hn : bytes.length using Nat.strongRecOn generalizing index done bytes with
  | ind n ih =>
  subst hn
  cases bytes with
  | nil => exact ⟨[], rfl, by simpa [decodeFrom_nil, eq_comm] using h⟩
  | cons b bytes =>
    obtain ⟨c, rest, hc, h⟩ := exists_char_of_decodeFrom h
    have hlen : rest.length < (b :: bytes).length := by
      have := List.length_pos_iff.mpr (String.utf8EncodeChar_ne_nil (c := c))
      simp only [hc, List.length_append]
      omega
    obtain ⟨s, rfl, rfl⟩ := ih rest.length hlen h rfl
    exact ⟨c :: s, by rw [hc]; rfl, by simp⟩

theorem mem_encode_iff (hb : b.toNat < 0x80) : b ∈ encode s ↔ Char.ofNat b.toNat ∈ s := by
  simp only [encode, List.mem_flatMap]
  constructor
  · rintro ⟨c, hc, h⟩
    exact eq_ofNat_of_mem_utf8EncodeChar h hb ▸ hc
  · intro h
    exact ⟨_, h, by rw [utf8EncodeChar_ascii hb]; exact List.mem_singleton_self b⟩

theorem getLast?_of_getLast?_encode (h : (encode s).getLast? = some b) (hb : b.toNat < 0x80) :
    s.getLast? = some (Char.ofNat b.toNat) := by
  rcases List.eq_nil_or_concat s with rfl | ⟨init, c, rfl⟩
  · simp at h
  · have hc : encode [c] = String.utf8EncodeChar c := List.flatMap_singleton _ c
    rw [List.concat_eq_append, encode_append, hc, List.getLast?_append,
      List.getLast?_eq_some_getLast String.utf8EncodeChar_ne_nil, Option.some_or,
      Option.some.injEq] at h
    have hm : b ∈ String.utf8EncodeChar c := h ▸ List.getLast_mem _
    rw [List.concat_eq_append, List.getLast?_concat, eq_ofNat_of_mem_utf8EncodeChar hm hb]

/-- Bytes are decoded to a text exactly if they encode it. -/
theorem decode_eq_ok_iff : decode bytes = .ok s ↔ encode s = bytes := by
  constructor
  · intro h
    obtain ⟨t, ht, rfl⟩ := exists_encode_of_decodeFrom h
    exact ht
  · rintro rfl
    exact decodeFrom_encode s

theorem decode_encode (s : List Char) : decode (encode s) = .ok s := decode_eq_ok_iff.mpr rfl

end RecordSieve.Text
