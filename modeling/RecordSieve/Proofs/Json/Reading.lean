import RecordSieve.Proofs.Json.Reals

/-! # Documents read back

The text of a document is read again, whatever delimiter follows, and everything but the real
numbers in it comes back as it was: each part of a text is read up to where the next one starts.
-/

namespace RecordSieve.Json

mutual

def mapNumbers (f : Number → Number) : Json → Json
  | null => null
  | bool b => bool b
  | number n => number (f n)
  | string s => string s
  | array items => array (mapItems f items)
  | object members => object (mapMembers f members)

def mapItems (f : Number → Number) : List Json → List Json
  | [] => []
  | j :: rest => j.mapNumbers f :: mapItems f rest

def mapMembers (f : Number → Number) : List (String × Json) → List (String × Json)
  | [] => []
  | (k, j) :: rest => (k, j.mapNumbers f) :: mapMembers f rest

end

mutual

def numbers : Json → List Number
  | number n => [n]
  | array items => itemNumbers items
  | object members => memberNumbers members
  | _ => []

def itemNumbers : List Json → List Number
  | [] => []
  | j :: rest => j.numbers ++ itemNumbers rest

def memberNumbers : List (String × Json) → List Number
  | [] => []
  | (_, j) :: rest => j.numbers ++ memberNumbers rest

end

variable {f : Number → Number} {depth : Nat}

theorem mapItems_eq_map (items : List Json) : mapItems f items = items.map (mapNumbers f) := by
  induction items with
  | nil => rfl
  | cons j rest ih => rw [mapItems, ih, List.map_cons]

theorem mapMembers_eq_map (members : Members Json) :
    mapMembers f members = Members.map (mapNumbers f) members := by
  induction members with
  | nil => rfl
  | cons p rest ih => rw [mapMembers, ih, Members.map_cons]

theorem mem_itemNumbers {n : Number} {items : List Json} :
    n ∈ itemNumbers items ↔ ∃ j ∈ items, n ∈ j.numbers := by
  induction items with
  | nil => simp [itemNumbers]
  | cons j rest ih => simp [itemNumbers, ih]

theorem mem_memberNumbers {n : Number} {members : List (String × Json)} :
    n ∈ memberNumbers members ↔ ∃ p ∈ members, n ∈ p.2.numbers := by
  induction members with
  | nil => simp [memberNumbers]
  | cons p rest ih => rw [memberNumbers, List.mem_append, ih, List.exists_mem_cons_iff]

theorem Readable.mapNumbers_eq_self {j : Json} (h : Readable depth j)
    (hf : ∀ n ∈ j.numbers, f n = n) : j.mapNumbers f = j := by
  induction h with
  | null | bool | string => rfl
  | number hx => rw [mapNumbers, hf _ List.mem_cons_self]
  | array _ ih =>
    rw [mapNumbers, mapItems_eq_map]
    congr 1
    refine (List.map_congr_left fun j hj => ?_).trans (List.map_id' _)
    exact ih j hj fun n hn => hf n (mem_itemNumbers.mpr ⟨j, hj, hn⟩)
  | object hs _ ih =>
    rw [mapNumbers, mapMembers_eq_map]
    congr 1
    refine (List.map_congr_left fun p hp => ?_).trans (List.map_id' _)
    rw [ih p hp fun n hn => hf n (mem_memberNumbers.mpr ⟨p, hp, hn⟩)]

theorem Readable.inRange {j : Json} (h : Readable depth j) : ∀ n ∈ j.numbers, n.InRange := by
  induction h with
  | null | bool | string => exact fun _ hn => absurd hn List.not_mem_nil
  | number hx => exact fun _ hn => List.mem_singleton.mp hn ▸ hx
  | array _ ih =>
    intro n hn
    obtain ⟨j, hj, hn⟩ := mem_itemNumbers.mp hn
    exact ih j hj n hn
  | object _ _ ih =>
    intro n hn
    obtain ⟨p, hp, hn⟩ := mem_memberNumbers.mp hn
    exact ih p hp n hn

theorem itemTexts_eq_map (items : List Json) : itemTexts items = items.map text := by
  induction items with
  | nil => rfl
  | cons j rest ih => rw [itemTexts, ih, List.map_cons]

def memberText (p : String × Json) : List Char := (stringText p.1).toList ++ ':' :: p.2.text.toList

theorem toList_memberTexts (members : List (String × Json)) :
    (memberTexts members).map String.toList = members.map memberText := by
  induction members with
  | nil => rfl
  | cons p rest ih => simp [memberTexts, ih, memberText]

namespace Reader

variable {α : Type} {a : α} {n : Nat} {c : Char} {j : Json} {s : String} {x : Number}
  {r t u rest done : List Char} {negative : Bool}

theorem gives_ok (h : t = rest) (ht : t.length ≤ n) :
    Gives (.ok (a, ⟨t, ht⟩) : Read α n) a rest := by
  subst h
  exact ⟨ht, rfl⟩

theorem fourDigits_gives {ds : List Char} {v : Nat} (hlen : ds.length = 4)
    (h : hexValue? ds = some v) (rest : List Char) :
    Gives (fourDigits (ds ++ rest)) v rest := by
  have htake : (ds ++ rest).take 4 = ds := by rw [← hlen, List.take_left]
  have hdrop : (ds ++ rest).drop 4 = rest := by rw [← hlen, List.drop_left]
  unfold fourDigits
  split
  · rename_i w hw
    rw [htake, h] at hw
    cases hw
    rw [if_neg (by rw [List.length_append, hlen]; omega)]
    exact gives_ok hdrop _
  · rename_i hn
    rw [htake, h] at hn
    cases hn

theorem codeEscape_gives {ds : List Char} {v : Nat} (hlen : ds.length = 4)
    (h : hexValue? ds = some v) (hv : v < 0xD800) (rest : List Char) :
    Gives (codeEscape (ds ++ rest)) (Char.ofNat v) rest := by
  obtain ⟨ht, he⟩ := fourDigits_gives hlen h rest
  rw [codeEscape, he]
  simp only
  rw [if_neg (by omega), if_neg (by omega)]
  exact ⟨ht, rfl⟩

theorem escape_control : ∀ v < 0x20, v ∉ [8, 9, 10, 12, 13] →
    ((escape (Char.ofNat v)).drop 2).length = 4 ∧
      hexValue? ((escape (Char.ofNat v)).drop 2) = some v ∧
      escape (Char.ofNat v) = '\\' :: 'u' :: (escape (Char.ofNat v)).drop 2 := by
  decide

/-- A character is written as an escape that is read as it, or as it is. -/
theorem escape_cases (c : Char) :
    (∃ e, escape c = '\\' :: e ∧ ∀ rest, Gives (escaped (e ++ rest)) c rest) ∨
      (escape c = [c] ∧ c ≠ '"' ∧ c ≠ '\\' ∧ ¬ c.toNat < 0x20) := by
  by_cases hc : c ∈ ['"', '\\', '\x08', '\x0c', '\n', '\r', '\t']
  · left
    simp only [List.mem_cons, List.not_mem_nil, or_false] at hc
    rcases hc with rfl | rfl | rfl | rfl | rfl | rfl | rfl <;>
      exact ⟨_, rfl, fun rest => gives_ok rfl _⟩
  · by_cases hv : c.toNat < 0x20
    · left
      have hnot : c.toNat ∉ [8, 9, 10, 12, 13] := by
        intro hmem
        have hall : ∀ v ∈ [8, 9, 10, 12, 13],
            Char.ofNat v ∈ ['"', '\\', '\x08', '\x0c', '\n', '\r', '\t'] := by decide
        exact hc (Char.ofNat_toNat c ▸ hall _ hmem)
      obtain ⟨hlen, hval, hesc⟩ := escape_control c.toNat hv hnot
      rw [Char.ofNat_toNat] at hlen hval hesc
      refine ⟨_, hesc, fun rest => ?_⟩
      have h := codeEscape_gives hlen hval (by omega) rest
      rw [Char.ofNat_toNat] at h
      exact h.widen (Nat.le_succ _)
    · right
      simp only [List.mem_cons, List.not_mem_nil, or_false, not_or] at hc
      refine ⟨?_, hc.1, hc.2.1, hv⟩
      unfold escape
      split
      case h_8 => rw [if_neg (by omega), if_neg hv]
      all_goals simp_all

theorem string_quote (h : ('"' :: r).length ≤ n) :
    Gives (string done ('"' :: r) h) (String.ofList done.reverse) r := by
  unfold string
  exact gives_ok rfl _

theorem string_escaped (he : Gives (escaped u) c t)
    (hs : ∀ h : t.length ≤ n, Gives (string (c :: done) t h) s rest)
    (h : ('\\' :: u).length ≤ n) : Gives (string done ('\\' :: u) h) s rest := by
  obtain ⟨ht, he⟩ := he
  unfold string
  simp only [he]
  exact hs _

theorem string_plain (hq : c ≠ '"') (hb : c ≠ '\\') (hc : ¬ c.toNat < 0x20)
    (hs : ∀ h : r.length ≤ n, Gives (string (c :: done) r h) s rest)
    (h : (c :: r).length ≤ n) : Gives (string done (c :: r) h) s rest := by
  unfold string
  split
  · rename_i heq _
    cases heq
  · rename_i heq _
    cases heq
    exact absurd rfl hq
  · rename_i heq _
    cases heq
    exact absurd rfl hb
  · rename_i heq _
    cases heq
    rw [if_neg hc]
    exact hs _

theorem string_gives (done cs rest : List Char)
    (h : (cs.flatMap escape ++ '"' :: rest).length ≤ n) :
    Gives (string done (cs.flatMap escape ++ '"' :: rest) h)
      (String.ofList (done.reverse ++ cs)) rest := by
  induction cs generalizing done with
  | nil =>
    rw [List.append_nil]
    exact string_quote h
  | cons c cs ih =>
    have ih := ih (c :: done)
    rw [List.reverse_cons, List.append_assoc, List.singleton_append] at ih
    simp only [List.flatMap_cons, List.append_assoc]
    rcases escape_cases c with ⟨e, he, hgives⟩ | ⟨he, hq, hb, hc⟩
    · simp only [he]
      exact string_escaped (hgives _) ih _
    · simp only [he]
      exact string_plain hq hb hc ih _

theorem word_gives (letters : List Char) (h : (letters ++ rest).length ≤ n) :
    Gives (word a letters (letters ++ rest) h) a rest := by
  induction letters with
  | nil => exact gives_ok rfl _
  | cons l ls ih =>
    simp only [List.cons_append]
    rw [word, if_pos rfl]
    exact ih _

/-- A text is read as a document, whatever delimiter follows. -/
def Reads (depth : Nat) (text : List Char) (j : Json) : Prop :=
  ∃ c r, text = c :: r ∧ isSpace c = false ∧ c ≠ ']' ∧
    ∀ rest, Delimited rest → Gives (value depth c (r ++ rest)) j rest

theorem reads_string (s : String) : Reads depth (stringText s).toList (.string s) := by
  have hvalue (r : List Char) : value depth '"' r =
      (string [] r le_rfl).map fun p => (.string p.1, p.2) := by
    cases depth <;> rfl
  refine ⟨'"', s.toList.flatMap escape ++ ['"'], by simp [stringText], rfl, by decide,
    fun rest _ => ?_⟩
  have h := string_gives [] s.toList rest le_rfl
  rw [List.reverse_nil, List.nil_append, String.ofList_toList] at h
  rw [List.append_assoc, List.singleton_append, hvalue]
  exact h.map Json.string

theorem reads_word (letters : List Char)
    (hvalue : ∀ r, value depth c r = word j letters r le_rfl) (hc : isSpace c = false)
    (hend : c ≠ ']') : Reads depth (c :: letters) j := by
  refine ⟨c, letters, rfl, hc, hend, fun rest _ => ?_⟩
  rw [hvalue]
  exact word_gives letters _

theorem reads_null : Reads depth Json.null.text.toList .null :=
  reads_word "ull".toList (fun _ => by cases depth <;> rfl) rfl (by decide)

theorem reads_bool (b : Bool) : Reads depth (Json.bool b).text.toList (.bool b) := by
  cases b with
  | true =>
    exact reads_word "rue".toList (fun _ => by cases depth <;> rfl) rfl (by decide)
  | false =>
    exact reads_word "alse".toList (fun _ => by cases depth <;> rfl) rfl (by decide)

theorem value_digit (hc : c.isDigit) (r : List Char) :
    value depth c r = (number false c r).map fun (x, t) => (.number x, t) := by
  unfold value
  split
  case h_10 => rw [if_pos hc]
  all_goals exact absurd hc (by decide)

theorem reads_number {body : List Char} (h : Spells negative body x) :
    Reads depth (Binary64.sign negative ++ body) (.number x) := by
  obtain ⟨c, r, rfl, hc, hx⟩ := h
  cases negative with
  | false =>
    refine ⟨c, r, rfl, ?_, ?_, fun rest hrest => ?_⟩
    · rw [isSpace, Bool.eq_false_iff]
      simp only [Bool.or_eq_true, decide_eq_true_eq, ne_eq]
      rintro (((rfl | rfl) | rfl) | rfl) <;> exact absurd hc (by decide)
    · rintro rfl
      exact absurd hc (by decide)
    · rw [value_digit hc]
      exact (hx rest hrest).map Json.number
  | true =>
    refine ⟨'-', c :: r, rfl, rfl, by decide, fun rest hrest => ?_⟩
    have hvalue (r : List Char) : value depth '-' r =
        (negativeNumber r).map fun (x, t) => (.number x, t) := by
      cases depth <;> rfl
    rw [hvalue]
    exact ((hx rest hrest).widen (Nat.le_succ _)).map Json.number

variable {item : Char → (r : List Char) → Read Json r.length} {d e : Char} {v : List Char}
  {key : String}

theorem skipSpace_cons (hc : isSpace c = false) : skipSpace (c :: r) = c :: r := by
  rw [skipSpace, List.dropWhile_cons_of_neg (by simpa using hc)]

theorem items_step (items' : List Json) (hc : isSpace c = false) (hend : c ≠ ']')
    (hj : Gives (item c r) j (d :: u)) (hd : isSpace d = false) (h : (c :: r).length ≤ n) :
    ∃ hu : u.length ≤ n, items item items' (c :: r) h =
      if d = ',' then items item (j :: items') u hu
      else if d = ']' then .ok (.array (j :: items').reverse, ⟨u, hu⟩)
      else failNext .expectedItemEnd (d :: u) := by
  obtain ⟨hu, hj⟩ := hj
  rw [List.length_cons] at h hu
  refine ⟨by omega, ?_⟩
  conv_lhs => unfold items
  split
  · rename_i hs
    rw [skipSpace_cons hc] at hs
    cases hs
  · rename_i hs
    rw [skipSpace_cons hc] at hs
    cases hs
    rw [if_neg hend]
    simp only [hj]
    split
    · rename_i ht
      rw [skipSpace_cons hd] at ht
      cases ht
    · rename_i ht
      rw [skipSpace_cons hd] at ht
      cases ht
      rfl

theorem members_step (members' : List (String × Json))
    (hkey : Gives (string [] r le_rfl) key (':' :: e :: v)) (he : isSpace e = false)
    (hj : Gives (item e v) j (d :: u)) (hd : isSpace d = false) (h : ('"' :: r).length ≤ n) :
    ∃ hu : u.length ≤ n, members item members' ('"' :: r) h =
      if d = ',' then members item ((key, j) :: members') u hu
      else if d = '\x7d' then .ok (.object (Members.ofList ((key, j) :: members').reverse), ⟨u, hu⟩)
      else failNext .expectedMemberEnd (d :: u) := by
  obtain ⟨hv, hkey⟩ := hkey
  obtain ⟨hu, hj⟩ := hj
  rw [List.length_cons] at h hu
  rw [List.length_cons, List.length_cons] at hv
  refine ⟨by omega, ?_⟩
  conv_lhs => unfold members
  split
  · rename_i hs
    cases hs
  · rename_i hs
    cases hs
    rw [if_neg (by decide), if_neg (by decide)]
    simp only [hkey]
    split
    · rename_i ht
      cases ht
    · rename_i ht
      cases ht
      rw [if_neg (by decide)]
      split
      · rename_i ht
        rw [skipSpace_cons he] at ht
        cases ht
      · rename_i ht
        rw [skipSpace_cons he] at ht
        cases ht
        simp only [hj]
        split
        · rename_i ht
          rw [skipSpace_cons hd] at ht
          cases ht
        · rename_i ht
          rw [skipSpace_cons hd] at ht
          cases ht
          rfl

theorem delimited_cons (h : d = ',' ∨ d = ']' ∨ d = '\x7d') : Delimited (d :: rest) := by
  intro c hc
  cases hc
  exact h

theorem items_gives (items' : List Json) {js : List Json} {text : List Char} (hne : js ≠ [])
    (hjs : ∀ j ∈ js, Reads depth j.text.toList (j.mapNumbers f))
    (htext : text = [','].intercalate (js.map fun j => j.text.toList) ++ ']' :: rest)
    (h : text.length ≤ n) :
    Gives (items (value depth) items' text h)
      (.array (items'.reverse ++ js.map (mapNumbers f))) rest := by
  induction js generalizing items' text with
  | nil => exact absurd rfl hne
  | cons j js ih =>
    obtain ⟨⟨c, r, hj, hc, hend, hgives⟩, hjs⟩ := List.forall_mem_cons.mp hjs
    cases js with
    | nil =>
      obtain rfl : text = c :: (r ++ ']' :: rest) := by simpa [hj] using htext
      obtain ⟨hu, heq⟩ := items_step items' hc hend
        (hgives (']' :: rest) (delimited_cons (by decide))) rfl h
      rw [heq, if_neg (by decide), if_pos rfl, List.reverse_cons]
      exact gives_ok rfl _
    | cons k js =>
      obtain rfl : text = c :: (r ++ ',' ::
          ([','].intercalate ((k :: js).map fun j => j.text.toList) ++ ']' :: rest)) := by
        simpa [hj, List.intercalate_cons_cons] using htext
      obtain ⟨hu, heq⟩ := items_step items' hc hend
        (hgives _ (delimited_cons (by decide))) rfl h
      rw [heq, if_pos rfl]
      have ih := ih (j.mapNumbers f :: items') (List.cons_ne_nil k js) hjs rfl hu
      rwa [List.reverse_cons, List.append_assoc] at ih

theorem members_gives (members' : List (String × Json)) {ms : List (String × Json)}
    {text : List Char} (hne : ms ≠ [])
    (hms : ∀ p ∈ ms, Reads depth p.2.text.toList (p.2.mapNumbers f))
    (htext : text = [','].intercalate (ms.map memberText) ++ '\x7d' :: rest)
    (h : text.length ≤ n) :
    Gives (members (value depth) members' text h)
      (.object (Members.ofList (members'.reverse ++ Members.map (mapNumbers f) ms))) rest := by
  induction ms generalizing members' text with
  | nil => exact absurd rfl hne
  | cons p ms ih =>
    obtain ⟨⟨c, r, hj, hc, hend, hgives⟩, hms⟩ := List.forall_mem_cons.mp hms
    have hkey (v : List Char) : Gives
        (string [] (p.1.toList.flatMap escape ++ '"' :: (':' :: c :: v)) le_rfl) p.1
        (':' :: c :: v) := by
      have h := string_gives [] p.1.toList (':' :: c :: v) le_rfl
      rwa [List.reverse_nil, List.nil_append, String.ofList_toList] at h
    cases ms with
    | nil =>
      obtain rfl : text = '"' :: (p.1.toList.flatMap escape ++
          '"' :: (':' :: c :: (r ++ '\x7d' :: rest))) := by
        simpa [memberText, stringText, hj] using htext
      obtain ⟨hu, heq⟩ := members_step members' (hkey _) hc
        (hgives ('\x7d' :: rest) (delimited_cons (by decide))) rfl h
      rw [heq, if_neg (by decide), if_pos rfl, List.reverse_cons]
      exact gives_ok rfl _
    | cons q ms =>
      obtain rfl : text = '"' :: (p.1.toList.flatMap escape ++ '"' :: (':' :: c :: (r ++ ',' ::
          ([','].intercalate ((q :: ms).map memberText) ++ '\x7d' :: rest)))) := by
        simpa [memberText, stringText, hj, List.intercalate_cons_cons] using htext
      obtain ⟨hu, heq⟩ := members_step members' (hkey _) hc
        (hgives _ (delimited_cons (by decide))) rfl h
      rw [heq, if_pos rfl]
      have ih := ih ((p.1, p.2.mapNumbers f) :: members') (List.cons_ne_nil q ms) hms
        rfl hu
      rwa [List.reverse_cons, List.append_assoc] at ih

theorem array_cons (hc : isSpace c = false) (hend : c ≠ ']') :
    array item (c :: r) = items item [] (c :: r) le_rfl := by
  unfold array
  split
  · rename_i hs
    rw [skipSpace_cons hc] at hs
    cases hs
  · rename_i hs
    rw [skipSpace_cons hc] at hs
    cases hs
    rw [if_neg hend]

theorem object_cons : object item ('"' :: r) = members item [] ('"' :: r) le_rfl := by
  unfold object
  split
  · rename_i hs
    cases hs
  · rename_i hs
    cases hs
    rw [if_neg (by decide)]

theorem reads_array {js : List Json}
    (hjs : ∀ j ∈ js, Reads depth j.text.toList (j.mapNumbers f)) :
    Reads (depth + 1) (Json.array js).text.toList ((Json.array js).mapNumbers f) := by
  refine ⟨'[', [','].intercalate (js.map fun j => j.text.toList) ++ [']'], ?_, rfl, by decide,
    fun rest _ => ?_⟩
  · simp [text, itemTexts_eq_map, String.toList_intercalate, Function.comp_def]
  rw [List.append_assoc, List.singleton_append, mapNumbers, mapItems_eq_map]
  change Gives (array (value depth) _) _ _
  cases js with
  | nil =>
    unfold array
    exact gives_ok rfl _
  | cons j js =>
    obtain ⟨c, r, hj, hc, hend, -⟩ := hjs j List.mem_cons_self
    obtain ⟨t, ht⟩ : ∃ t, [','].intercalate ((j :: js).map fun j => j.text.toList) ++ ']' :: rest =
        c :: t := by
      cases js <;> simp [hj, List.intercalate_cons_cons]
    rw [ht, array_cons hc hend]
    exact items_gives [] (List.cons_ne_nil j js) hjs ht.symm _

theorem reads_object {ms : Members Json} (hs : Members.Sorted ms)
    (hms : ∀ p ∈ ms, Reads depth p.2.text.toList (p.2.mapNumbers f)) :
    Reads (depth + 1) (Json.object ms).text.toList ((Json.object ms).mapNumbers f) := by
  refine ⟨'\x7b', [','].intercalate (List.map memberText ms) ++ ['\x7d'], ?_, rfl, by decide,
    fun rest _ => ?_⟩
  · simp [text, toList_memberTexts, String.toList_intercalate]
  rw [List.append_assoc, List.singleton_append, mapNumbers, mapMembers_eq_map]
  change Gives (object (value depth) _) _ _
  cases ms with
  | nil =>
    unfold object
    exact gives_ok rfl _
  | cons p ms =>
    obtain ⟨t, ht⟩ : ∃ t, [','].intercalate ((p :: ms).map memberText) ++ '\x7d' :: rest =
        '"' :: t := by
      cases ms <;> simp [memberText, stringText, List.intercalate_cons_cons]
    rw [ht, object_cons, ← Members.ofList_of_sorted (hs.map (mapNumbers f))]
    exact members_gives [] (List.cons_ne_nil p ms) hms ht.symm _

end Reader

open Reader

theorem read_of_reads {s : String} {j : Json} (h : Reads nestingLimit s.toList j) :
    read s = .ok j := by
  obtain ⟨c, r, hs, hc, -, hgives⟩ := h
  have hgives := hgives [] (by rintro c ⟨⟩)
  rw [List.append_nil] at hgives
  obtain ⟨hrest, hvalue⟩ := hgives
  rw [read, hs, document, skipSpace_cons hc]
  simp only [hvalue]
  rfl

/-- What the text of a number is read as. -/
def Number.reread (n : Number) : Number :=
  match read n.text with
  | .ok (.number m) => m
  | _ => n

theorem Number.reads_int {i : Int} (h : (Number.int i).InRange) :
    Reads depth (Number.int i).text.toList (.number (.int i)) := by
  rw [Number.text, toList_toString_int]
  exact reads_number (spells_int h)

theorem Number.exists_reads_real {x : Binary64} (h : x.isFinite) :
    ∃ y : Binary64, ∀ depth, Reads depth (Number.real x).text.toList (.number (.real y)) := by
  obtain ⟨negative, units, hu, rfl⟩ := Binary64.exists_finite h
  obtain ⟨y, hy⟩ := exists_spells hu negative
  refine ⟨y, fun depth => ?_⟩
  rw [Number.text, realText, String.toList_ofList]
  exact reads_number hy

theorem Number.reread_int {i : Int} (h : (Number.int i).InRange) : reread (.int i) = .int i := by
  rw [reread, read_of_reads (reads_int h)]

/-- A large number is read as the product of the digits of its text and their power of ten. -/
theorem Number.reread_product {units v : Nat} {s t : Bool} {hu : Representable units}
    {hv : Representable v} (h : FitsWhole (.shortest .even units))
    (hp : product (.shortest .even units) = .finite s v hv) :
    reread (.real (.finite t units hu)) = .real (.finite t v hv) := by
  have hreads : Reads nestingLimit (Number.real (.finite t units hu)).text.toList
      (.number (.real (.finite t v hv))) := by
    rw [Number.text, realText, String.toList_ofList]
    exact reads_number (spells_product hu h hp t)
  rw [reread, read_of_reads hreads]

theorem Number.reads {n : Number} (h : n.InRange) :
    Reads depth n.text.toList (.number n.reread) := by
  cases n with
  | int i =>
    rw [reread_int h]
    exact reads_int h
  | real x =>
    obtain ⟨y, hy⟩ := exists_reads_real h
    rw [reread, read_of_reads (hy nestingLimit)]
    exact hy depth

/-- The text of a document is read as the document with every number reread. -/
theorem Readable.reads {j : Json} (h : Readable depth j) :
    Reads depth j.text.toList (j.mapNumbers Number.reread) := by
  induction h with
  | null => exact reads_null
  | bool b => exact reads_bool b
  | number hx => exact Number.reads hx
  | string s => exact reads_string s
  | array _ ih => exact reads_array ih
  | object hs _ ih => exact reads_object hs ih

theorem Readable.mapNumbers_reread {j : Json} (h : Readable depth j)
    (hx : ∀ x, .real x ∈ j.numbers → Number.reread (.real x) = .real x) :
    j.mapNumbers Number.reread = j := by
  apply h.mapNumbers_eq_self
  rintro (i | x) hn
  · exact Number.reread_int (h.inRange _ hn)
  · exact hx x hn

theorem read_text {j : Json} (h : Readable nestingLimit j) :
    read j.text = .ok (j.mapNumbers Number.reread) :=
  read_of_reads h.reads

end RecordSieve.Json
