import Mathlib.Data.List.Sort
import RecordSieve.Members

/-! # What keys hold

Insertion seen through lookups, members built from pairs in turn, members whose values are changed
one by one, and two rows of members compared pair by pair or key by key.
-/

namespace RecordSieve.Members

variable {α β : Type} {key k : String} {a b : α} {m m' : Members α} {pairs : List (String × α)}

def map (f : α → β) (m : Members α) : Members β := List.map (fun p => (p.1, f p.2)) m

@[simp] theorem map_nil (f : α → β) : map f ([] : Members α) = [] := rfl

@[simp] theorem map_cons (f : α → β) (p : String × α) (m : Members α) :
    map f (p :: m) = (p.1, f p.2) :: map f m := rfl

@[simp] theorem keys_map (f : α → β) (m : Members α) : keys (map f m) = keys m := by
  rw [keys, keys, map, List.map_map]
  rfl

theorem Sorted.map (f : α → β) (h : Sorted m) : Sorted (Members.map f m) := by
  rwa [Sorted, keys_map]

@[simp] theorem find?_nil : find? k ([] : Members α) = none := rfl

theorem find?_cons (p : String × α) (m : Members α) :
    find? k (p :: m) = if k = p.1 then some p.2 else find? k m := by
  rw [find?, List.lookup_cons]
  by_cases h : k = p.1
  · simp [h]
  · rw [if_neg h, beq_false_of_ne h]
    rfl

theorem find?_map (f : α → β) (m : Members α) : find? k (map f m) = (find? k m).map f := by
  induction m with
  | nil => rfl
  | cons p m ih =>
    rw [map_cons, find?_cons, find?_cons, ih]
    split <;> rfl

theorem exists_find?_of_mem_keys (h : k ∈ keys m) : ∃ a, find? k m = some a := by
  induction m with
  | nil => exact absurd h List.not_mem_nil
  | cons p m ih =>
    rw [find?_cons]
    split
    · exact ⟨p.2, rfl⟩
    · rename_i hk
      exact ih ((List.mem_cons.mp h).resolve_left hk)

theorem mem_of_find? (h : find? k m = some a) : (k, a) ∈ m := by
  induction m with
  | nil => cases h
  | cons p m ih =>
    rw [find?_cons] at h
    split at h
    · rename_i hk
      cases h
      rw [hk]
      exact List.mem_cons_self
    · exact List.mem_cons_of_mem p (ih h)

theorem mem_keys_of_find? (h : find? k m = some a) : k ∈ keys m :=
  List.mem_map_of_mem (f := Prod.fst) (mem_of_find? h)

theorem find?_eq_some_iff (hm : Sorted m) : find? k m = some a ↔ (k, a) ∈ m := by
  refine ⟨mem_of_find?, fun h => ?_⟩
  induction m with
  | nil => cases h
  | cons p m ih =>
    obtain ⟨hlt, hm⟩ := List.pairwise_cons.mp hm
    rw [find?_cons]
    rcases List.mem_cons.mp h with rfl | h
    · rw [if_pos rfl]
    · have hp : p.1 < k := hlt k (List.mem_map_of_mem (f := Prod.fst) h)
      rw [if_neg (by rintro rfl; exact String.lt_irrefl _ hp)]
      exact ih hm h

theorem find?_insert (key : String) (a : α) (m : Members α) :
    find? k (insert key a m) = if k = key then some a else find? k m := by
  induction m with
  | nil =>
    rw [insert, find?_cons]
  | cons p rest ih =>
    unfold insert
    split
    · rw [find?_cons]
    · split
      · rename_i h
        rw [find?_cons, find?_cons, ← h]
        split <;> rfl
      · rename_i h
        rw [find?_cons, find?_cons, ih]
        split
        · rename_i hk
          rw [if_neg (by rintro rfl; exact h hk)]
        · rfl

theorem insert_map (f : α → β) (key : String) (a : α) (m : Members α) :
    insert key (f a) (map f m) = map f (insert key a m) := by
  induction m with
  | nil => rfl
  | cons p rest ih =>
    rw [map_cons]
    unfold insert
    split
    · rfl
    · split
      · rfl
      · rw [ih, map_cons]

theorem insert_of_lt (h : ∀ k ∈ keys m, k < key) : insert key a m = m ++ [(key, a)] := by
  induction m with
  | nil => rfl
  | cons p rest ih =>
    obtain ⟨hp, hrest⟩ := List.forall_mem_cons.mp h
    have hlt : ¬ key < p.1 := fun h => String.lt_irrefl _ (String.lt_trans h hp)
    have hne : key ≠ p.1 := by
      rintro rfl
      exact hlt hp
    rw [insert, if_neg hlt, if_neg hne, ih hrest, List.cons_append]

theorem mem_of_mem_insert {p : String × α} (h : p ∈ insert key a m) : p = (key, a) ∨ p ∈ m := by
  induction m with
  | nil => exact .inl (List.mem_singleton.mp h)
  | cons q rest ih =>
    unfold insert at h
    split at h
    · exact List.mem_cons.mp h
    · split at h
      · exact (List.mem_cons.mp h).imp_right (List.mem_cons_of_mem q)
      · rcases List.mem_cons.mp h with rfl | h
        · exact .inr List.mem_cons_self
        · exact (ih h).imp_right (List.mem_cons_of_mem q)

theorem ofList_map (f : α → β) (pairs : List (String × α)) :
    ofList (map f pairs) = map f (ofList pairs) := by
  suffices ∀ m : Members α, (map f pairs).foldl (fun m p => insert p.1 p.2 m) (map f m) =
      map f (pairs.foldl (fun m p => insert p.1 p.2 m) m) from this []
  induction pairs with
  | nil => exact fun _ => rfl
  | cons p rest ih =>
    intro m
    rw [map_cons, List.foldl_cons, List.foldl_cons, insert_map f p.1 p.2 m]
    exact ih _

theorem mem_of_mem_ofList {p : String × α} (h : p ∈ ofList pairs) : p ∈ pairs := by
  suffices ∀ m : Members α, p ∈ pairs.foldl (fun m p => insert p.1 p.2 m) m → p ∈ pairs ∨ p ∈ m
    from (this [] h).resolve_right List.not_mem_nil
  clear h
  induction pairs with
  | nil => exact fun m h => .inr h
  | cons q rest ih =>
    intro m h
    rcases ih _ h with h | h
    · exact .inl (List.mem_cons_of_mem q h)
    · rcases mem_of_mem_insert h with rfl | h
      · exact .inl List.mem_cons_self
      · exact .inr h

theorem mem_keys_ofList : k ∈ keys (ofList pairs) ↔ k ∈ pairs.map Prod.fst := by
  suffices ∀ m : Members α, k ∈ keys (pairs.foldl (fun m p => insert p.1 p.2 m) m) ↔
      k ∈ keys m ∨ k ∈ pairs.map Prod.fst from (this []).trans (by simp)
  induction pairs with
  | nil => simp
  | cons p rest ih =>
    intro m
    rw [List.foldl_cons, ih, mem_keys_insert, List.map_cons, List.mem_cons, or_assoc, or_left_comm]

theorem ofList_of_sorted (h : Sorted pairs) : ofList pairs = pairs := by
  suffices ∀ m : Members α, Sorted (m ++ pairs) →
      pairs.foldl (fun m p => insert p.1 p.2 m) m = m ++ pairs from this [] h
  clear h
  induction pairs with
  | nil => exact fun m _ => (List.append_nil m).symm
  | cons p rest ih =>
    intro m h
    have hlt : ∀ k ∈ keys m, k < p.1 := by
      intro k hk
      rw [Sorted, keys, List.map_append, List.pairwise_append] at h
      exact h.2.2 k hk p.1 List.mem_cons_self
    rw [List.foldl_cons, insert_of_lt hlt, ih _ (by rwa [List.append_assoc]), List.append_assoc]
    rfl

theorem find?_ofList_of_mem (f : String → α) {fields : List String} (h : k ∈ fields) :
    find? k (ofList (fields.map fun key => (key, f key))) = some (f k) := by
  suffices ∀ m : Members α, k ∈ fields ∨ find? k m = some (f k) →
      find? k ((fields.map fun key => (key, f key)).foldl (fun m p => insert p.1 p.2 m) m) =
        some (f k) from this [] (.inl h)
  clear h
  induction fields with
  | nil =>
    intro m h
    exact h.resolve_left List.not_mem_nil
  | cons key rest ih =>
    intro m h
    apply ih
    rw [find?_insert]
    split
    · rename_i hk
      exact .inr (by rw [hk])
    · rename_i hk
      exact h.imp_left fun hmem => (List.mem_cons.mp hmem).resolve_left hk

theorem mem_keys_ofList_map (f : String → α) {fields : List String} :
    k ∈ keys (ofList (fields.map fun key => (key, f key))) ↔ k ∈ fields := by
  rw [mem_keys_ofList, List.map_map]
  exact Iff.of_eq (congrArg (k ∈ ·) (List.map_id fields))

variable {b' : β} {n : Members β} {R : α → β → Prop}

theorem keys_eq_of_forall₂ (h : List.Forall₂ (fun p q => p.1 = q.1 ∧ R p.2 q.2) m n) :
    keys m = keys n := by
  induction h with
  | nil => rfl
  | cons hpq _ ih => rw [keys_cons, keys_cons, hpq.1, ih]

theorem related_of_forall₂ (h : List.Forall₂ (fun p q => p.1 = q.1 ∧ R p.2 q.2) m n)
    (ha : find? k m = some a) (hb : find? k n = some b') : R a b' := by
  induction h with
  | nil => cases ha
  | cons hpq _ ih =>
    rw [find?_cons] at ha hb
    rw [← hpq.1] at hb
    split at ha
    · rename_i hk
      rw [if_pos hk] at hb
      cases ha
      cases hb
      exact hpq.2
    · rename_i hk
      rw [if_neg hk] at hb
      exact ih ha hb

theorem forall₂_of_related (hm : Sorted m) (hk : keys m = keys n)
    (h : ∀ k a b, find? k m = some a → find? k n = some b → R a b) :
    List.Forall₂ (fun p q => p.1 = q.1 ∧ R p.2 q.2) m n := by
  induction m generalizing n with
  | nil =>
    cases n with
    | nil => exact .nil
    | cons q n => cases hk
  | cons p m ih =>
    cases n with
    | nil => cases hk
    | cons q n =>
      rw [keys_cons, keys_cons, List.cons.injEq] at hk
      obtain ⟨hpq, hk⟩ := hk
      obtain ⟨hlt, hm⟩ := List.pairwise_cons.mp hm
      refine .cons ⟨hpq, ?_⟩ (ih hm hk fun k a b ha hb => ?_)
      · apply h p.1
        · rw [find?_cons, if_pos rfl]
        · rw [find?_cons, if_pos hpq]
      · -- the first key is less than those of the rest, so it does not hide what they hold
        have hne : k ≠ p.1 := by
          rintro rfl
          exact String.lt_irrefl _ (hlt _ (mem_keys_of_find? ha))
        apply h k
        · rwa [find?_cons, if_neg hne]
        · rwa [find?_cons, if_neg (hpq ▸ hne)]

/-- Members are related pair by pair exactly if they have the same keys and are related at each. -/
theorem forall₂_iff_find? (hm : Sorted m) (hn : Sorted n) :
    List.Forall₂ (fun p q => p.1 = q.1 ∧ R p.2 q.2) m n ↔
      (∀ k, k ∈ keys m ↔ k ∈ keys n) ∧
        ∀ k a b, find? k m = some a → find? k n = some b → R a b := by
  constructor
  · intro h
    have hk : keys m = keys n := keys_eq_of_forall₂ h
    refine ⟨fun k => by rw [hk], fun k a b => related_of_forall₂ h⟩
  · rintro ⟨hk, h⟩
    exact forall₂_of_related hm (hm.eq_of_mem_iff hn hk) h

theorem eq_of_find? (hm : Sorted m) (hm' : Sorted m') (hk : ∀ k, k ∈ keys m ↔ k ∈ keys m')
    (h : ∀ k a b, find? k m = some a → find? k m' = some b → a = b) : m = m' := by
  rw [← List.forall₂_eq_eq_eq]
  exact ((forall₂_iff_find? hm hm').mpr ⟨hk, h⟩).imp fun p q hpq => Prod.ext hpq.1 hpq.2

theorem find?_eq_of_perm (hm : Sorted m) (h : pairs.Perm m) (k : String) :
    find? k pairs = find? k m := by
  have hsome {a : α} (ha : find? k pairs = some a) : find? k m = some a :=
    (find?_eq_some_iff hm).mpr (h.subset (mem_of_find? ha))
  cases hf : find? k pairs with
  | some a => exact (hsome hf).symm
  | none =>
    cases hg : find? k m with
    | none => rfl
    | some a =>
      have hk : k ∈ keys pairs := (h.map Prod.fst).symm.subset (mem_keys_of_find? hg)
      obtain ⟨b, hb⟩ := exists_find?_of_mem_keys hk
      cases hf.symm.trans hb

theorem ofList_eq_of_perm (hm : Sorted m) (h : pairs.Perm m) : ofList pairs = m := by
  apply eq_of_find? (sorted_ofList pairs) hm
  · intro k
    rw [mem_keys_ofList]
    exact (h.map Prod.fst).mem_iff
  · intro k a b ha hb
    have hmem : (k, a) ∈ m := h.subset (mem_of_mem_ofList (mem_of_find? ha))
    exact Option.some.inj (((find?_eq_some_iff hm).mpr hmem).symm.trans hb)

/-- Which fields there are decides what members they make, and not their order or how often each
is there. -/
theorem ofList_congr (f : String → α) {fields others : List String}
    (h : ∀ k, k ∈ fields ↔ k ∈ others) :
    ofList (fields.map fun key => (key, f key)) = ofList (others.map fun key => (key, f key)) := by
  have heq {l : List String} (k : String) (a : α)
      (ha : find? k (ofList (l.map fun key => (key, f key))) = some a) : a = f k := by
    rw [find?_ofList_of_mem f ((mem_keys_ofList_map f).mp (mem_keys_of_find? ha))] at ha
    exact (Option.some.inj ha).symm
  apply eq_of_find? (sorted_ofList _) (sorted_ofList _)
  · intro k
    rw [mem_keys_ofList_map f, mem_keys_ofList_map f, h k]
  · intro k a b ha hb
    exact (heq k a ha).trans (heq k b hb).symm

end RecordSieve.Members
