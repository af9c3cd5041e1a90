/-! # Members

The members of an object, as a list that is sorted by key and holds each key once. Insertion keeps
it so and replaces what the key held before.
-/

namespace RecordSieve

variable {α : Type}

abbrev Members (α : Type) := List (String × α)

namespace Members

def insert (key : String) (a : α) : Members α → Members α
  | [] => [(key, a)]
  | (k, b) :: rest =>
    if key < k then (key, a) :: (k, b) :: rest
    else if key = k then (key, a) :: rest
    else (k, b) :: insert key a rest

/-- Inserts the pairs in turn, so that the last of several with one key stays. -/
def ofList (pairs : List (String × α)) : Members α :=
  pairs.foldl (fun m p => insert p.1 p.2 m) []

def find? (key : String) (m : Members α) : Option α := m.lookup key

def keys (m : Members α) : List String := m.map Prod.fst

def Sorted (m : Members α) : Prop := m.keys.Pairwise (· < ·)

@[simp] theorem keys_nil : keys ([] : Members α) = [] := rfl

@[simp] theorem keys_cons (p : String × α) (m : Members α) : keys (p :: m) = p.1 :: keys m := rfl

theorem mem_keys_insert {key k : String} {a : α} {m : Members α} :
    k ∈ keys (insert key a m) ↔ k = key ∨ k ∈ keys m := by
  induction m with
  | nil => simp [insert]
  | cons p rest ih =>
    simp only [insert]
    split
    · simp
    · split
      · rename_i h
        simp [h]
      · simp only [keys_cons, List.mem_cons, ih]
        exact or_left_comm

theorem sorted_insert {key : String} {a : α} {m : Members α} (h : Sorted m) :
    Sorted (insert key a m) := by
  induction m with
  | nil => simp [insert, Sorted]
  | cons p rest ih =>
    obtain ⟨h1, h2⟩ := List.pairwise_cons.1 h
    simp only [insert]
    split
    · rename_i hk
      refine List.pairwise_cons.2 ⟨fun k hmem => ?_, h⟩
      rcases List.mem_cons.1 hmem with rfl | hmem
      · exact hk
      · exact String.lt_trans hk (h1 k hmem)
    · split
      · rename_i hk
        exact List.pairwise_cons.2 ⟨hk ▸ h1, h2⟩
      · rename_i hlt hne
        refine List.pairwise_cons.2 ⟨fun k hmem => ?_, ih h2⟩
        rcases mem_keys_insert.1 hmem with rfl | hmem
        · exact String.not_le.1 fun hle => hne (String.le_antisymm hle (String.not_lt.1 hlt))
        · exact h1 k hmem

theorem sorted_ofList (pairs : List (String × α)) : Sorted (ofList pairs) := by
  suffices ∀ m : Members α, Sorted m → Sorted (pairs.foldl (fun m p => insert p.1 p.2 m) m) from
    this [] List.Pairwise.nil
  induction pairs with
  | nil => exact fun _ h => h
  | cons p rest ih => exact fun m h => ih _ (sorted_insert h)

end Members

end RecordSieve
