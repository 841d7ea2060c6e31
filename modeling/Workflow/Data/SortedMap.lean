/-!
Finite maps kept as association lists in strictly ascending key order. Two maps with the same
bindings are the same list, so equality of maps is equality of values, and listing a map gives
its keys in order.
-/

namespace Workflow

/-- A type of keys whose `<` is a strict linear order. -/
class Key (κ : Type) extends LT κ where
  decLt : (a b : κ) → Decidable (a < b)
  irrefl : ∀ a : κ, ¬ a < a
  trans : ∀ {a b c : κ}, a < b → b < c → a < c
  connected : ∀ {a b : κ}, ¬ a < b → a ≠ b → b < a

instance decidableKeyLt {κ : Type} [Key κ] (a b : κ) : Decidable (a < b) := Key.decLt a b

instance : Key Nat where
  decLt := inferInstance
  irrefl := Nat.lt_irrefl
  trans := Nat.lt_trans
  connected := by omega

instance : Key String where
  decLt := inferInstance
  irrefl := String.lt_irrefl
  trans := String.lt_trans
  connected h hne := (Std.lt_trichotomy _ _).resolve_left h |>.resolve_left hne

namespace Entries

variable {κ α β : Type}

/-- The value bound to a key by the first entry that has it. -/
def get? [DecidableEq κ] (k : κ) : List (κ × α) → Option α
  | [] => none
  | (k', a) :: rest => if k = k' then some a else get? k rest

/-- Binds a key in an ascending list; an entry of the same key is replaced. -/
def insert [Key κ] [DecidableEq κ] (k : κ) (a : α) : List (κ × α) → List (κ × α)
  | [] => [(k, a)]
  | (k', a') :: rest =>
    if k < k' then (k, a) :: (k', a') :: rest
    else if k = k' then (k, a) :: rest
    else (k', a') :: insert k a rest

def Ascending [LT κ] (l : List (κ × α)) : Prop :=
  l.Pairwise fun x y => x.1 < y.1

theorem get?_insert [Key κ] [DecidableEq κ] (k j : κ) (a : α) (l : List (κ × α)) :
    get? j (insert k a l) = if j = k then some a else get? j l := by
  induction l with
  | nil => simp [insert, get?]
  | cons e l ih =>
    obtain ⟨k', a'⟩ := e
    simp only [insert]
    split
    · simp [get?]
    · split
      · subst k'
        by_cases hj : j = k <;> simp [get?, hj]
      · rename_i hk
        rw [get?, get?, ih]
        by_cases hj : j = k
        · simp [hj, hk]
        · simp [hj]

theorem mem_insert [Key κ] [DecidableEq κ] {k : κ} {a : α} {e : κ × α} {l : List (κ × α)}
    (h : e ∈ insert k a l) : e = (k, a) ∨ e ∈ l := by
  induction l with
  | nil => simpa [insert] using h
  | cons e' l ih =>
    obtain ⟨k', a'⟩ := e'
    simp only [insert] at h
    split at h
    · simpa using h
    · split at h
      · rcases List.mem_cons.mp h with h | h
        · exact .inl h
        · exact .inr (List.mem_cons_of_mem _ h)
      · rcases List.mem_cons.mp h with h | h
        · exact .inr (h ▸ List.mem_cons_self)
        · exact (ih h).imp id (List.mem_cons_of_mem _)

theorem insert_ascending [Key κ] [DecidableEq κ] (k : κ) (a : α) {l : List (κ × α)}
    (h : Ascending l) : Ascending (insert k a l) := by
  induction l with
  | nil => simp [insert, Ascending]
  | cons e l ih =>
    obtain ⟨k', a'⟩ := e
    have hl : Ascending l := List.Pairwise.of_cons h
    have hk' : ∀ x ∈ l, k' < x.1 := (List.pairwise_cons.mp h).1
    simp only [insert]
    split
    · rename_i hk
      refine List.pairwise_cons.mpr ⟨fun x hx => ?_, h⟩
      rcases List.mem_cons.mp hx with hx | hx
      · exact hx ▸ hk
      · exact Key.trans hk (hk' x hx)
    · split
      · rename_i _ hk
        subst hk
        exact List.pairwise_cons.mpr ⟨hk', hl⟩
      · rename_i hlt hne
        refine List.pairwise_cons.mpr ⟨fun x hx => ?_, ih hl⟩
        rcases mem_insert hx with hx | hx
        · exact hx ▸ Key.connected hlt hne
        · exact hk' x hx

end Entries

structure SortedMap (κ α : Type) [LT κ] where
  entries : List (κ × α)
  ascending : Entries.Ascending entries

namespace SortedMap

theorem ext {κ α : Type} [LT κ] {m n : SortedMap κ α} (h : m.entries = n.entries) : m = n := by
  cases m
  cases n
  cases h
  rfl

instance {κ α : Type} [LT κ] [DecidableEq κ] [DecidableEq α] : DecidableEq (SortedMap κ α) :=
  fun m n =>
    if h : m.entries = n.entries then isTrue (ext h)
    else isFalse fun e => h (e ▸ rfl)

variable {κ α : Type} [Key κ] [DecidableEq κ]

def empty : SortedMap κ α := ⟨[], List.Pairwise.nil⟩

instance : Inhabited (SortedMap κ α) := ⟨empty⟩

def get? (m : SortedMap κ α) (k : κ) : Option α := Entries.get? k m.entries

def contains (m : SortedMap κ α) (k : κ) : Bool := (m.get? k).isSome

def insert (m : SortedMap κ α) (k : κ) (a : α) : SortedMap κ α :=
  ⟨Entries.insert k a m.entries, Entries.insert_ascending k a m.ascending⟩

/-- Binds every entry in turn, so of two entries with one key the later one stays. -/
def insertAll (m : SortedMap κ α) : List (κ × α) → SortedMap κ α
  | [] => m
  | (k, a) :: rest => (m.insert k a).insertAll rest

def ofList (l : List (κ × α)) : SortedMap κ α := empty.insertAll l

def keys (m : SortedMap κ α) : List κ := m.entries.map Prod.fst

def values (m : SortedMap κ α) : List α := m.entries.map Prod.snd

def size (m : SortedMap κ α) : Nat := m.entries.length

def isEmpty (m : SortedMap κ α) : Bool := m.entries.isEmpty

theorem get?_empty (k : κ) : (empty : SortedMap κ α).get? k = none := rfl

theorem get?_insert (m : SortedMap κ α) (k j : κ) (a : α) :
    (m.insert k a).get? j = if j = k then some a else m.get? j :=
  Entries.get?_insert k j a m.entries

end SortedMap

end Workflow
