import Workflow.Data.SortedMap

/-!
Maps and their lists of entries: a binding is an entry, equal bindings make equal maps, and a map
made of an ascending list has that list as its entries.
-/

namespace Workflow

namespace Entries

variable {κ α : Type}

theorem mem_of_get? [DecidableEq κ] {k : κ} {a : α} {l : List (κ × α)} (h : get? k l = some a) : (k, a) ∈ l := by
  induction l with
  | nil => simp [get?] at h
  | cons e l ih =>
    obtain ⟨k', a'⟩ := e
    simp only [get?] at h
    split at h
    · rename_i hk
      cases h
      simp [hk]
    · exact List.mem_cons_of_mem _ (ih h)

/-- Where no key is bound twice, the order of entries does not matter. -/
theorem get?_perm [DecidableEq κ] {l m : List (κ × α)} (h : l.Perm m)
    (hl : (l.map Prod.fst).Nodup) (k : κ) :
    get? k l = get? k m := by
  induction h with
  | nil => rfl
  | cons e _ ih => simp only [get?, ih (List.nodup_cons.mp hl).2]
  | swap e f l =>
    have hne : f.1 ≠ e.1 := by
      have hfirst := (List.nodup_cons.mp hl).1
      exact fun he => hfirst (he ▸ List.mem_cons_self)
    simp only [get?]
    by_cases he : k = e.1
    · rw [if_pos he, if_pos he, if_neg fun hf => hne (hf.symm.trans he)]
    · simp only [if_neg he]
  | trans h _ ih ih' => exact (ih hl).trans (ih' ((h.map Prod.fst).nodup_iff.mp hl))

theorem get?_map [DecidableEq κ] {β : Type} {f : α → β} {k : κ} {l : List (κ × α)} :
    get? k (l.map fun e => (e.1, f e.2)) = (get? k l).map f := by
  induction l with
  | nil => rfl
  | cons e l ih =>
    rw [List.map_cons, get?, get?]
    split
    · rfl
    · exact ih

theorem get?_eq_none [DecidableEq κ] {k : κ} {l : List (κ × α)} (h : k ∉ l.map Prod.fst) :
    get? k l = none := by
  induction l with
  | nil => rfl
  | cons e l ih =>
    obtain ⟨hne, hl⟩ := not_or.mp (mt List.mem_cons.mpr h)
    rw [get?, if_neg hne, ih hl]

theorem get?_append [DecidableEq κ] {k : κ} {l m : List (κ × α)} :
    get? k (l ++ m) = (get? k l).or (get? k m) := by
  induction l with
  | nil => rfl
  | cons e l ih =>
    rw [List.cons_append, get?, get?]
    split
    · rfl
    · exact ih

variable [Key κ]

theorem eq_of_mem_iff {l m : List (κ × α)} (hl : Ascending l) (hm : Ascending m)
    (h : ∀ e, e ∈ l ↔ e ∈ m) : l = m := by
  induction l generalizing m with
  | nil =>
    cases m with
    | nil => rfl
    | cons e m => exact absurd ((h e).mpr List.mem_cons_self) List.not_mem_nil
  | cons e l ih =>
    cases m with
    | nil => exact absurd ((h e).mp List.mem_cons_self) List.not_mem_nil
    | cons f m =>
      obtain ⟨hel, hl'⟩ := List.pairwise_cons.mp hl
      obtain ⟨hfm, hm'⟩ := List.pairwise_cons.mp hm
      have hef : e = f := by
        rcases List.mem_cons.mp ((h e).mp List.mem_cons_self) with he | he
        · exact he
        rcases List.mem_cons.mp ((h f).mpr List.mem_cons_self) with hf | hf
        · exact hf.symm
        · exact absurd (Key.trans (hfm e he) (hel f hf)) (Key.irrefl _)
      subst hef
      refine congrArg (e :: ·) (ih hl' hm' fun g => ?_)
      constructor
      · intro hg
        rcases List.mem_cons.mp ((h g).mp (List.mem_cons_of_mem _ hg)) with rfl | hg'
        · exact absurd (hel g hg) (Key.irrefl _)
        · exact hg'
      · intro hg
        rcases List.mem_cons.mp ((h g).mpr (List.mem_cons_of_mem _ hg)) with rfl | hg'
        · exact absurd (hfm g hg) (Key.irrefl _)
        · exact hg'

variable [DecidableEq κ]

/-- In an ascending list the only entry of a key is the first. -/
theorem get?_of_mem {k : κ} {a : α} {l : List (κ × α)} (hl : Ascending l) (h : (k, a) ∈ l) :
    get? k l = some a := by
  induction l with
  | nil => cases h
  | cons e l ih =>
    obtain ⟨hfirst, hrest⟩ := List.pairwise_cons.mp hl
    rcases List.mem_cons.mp h with rfl | h
    · simp [get?]
    · have hlt : e.1 < k := hfirst (k, a) h
      have hne : k ≠ e.1 := by
        rintro rfl
        exact Key.irrefl _ hlt
      rw [get?, if_neg hne, ih hrest h]

theorem insert_perm {k : κ} {a : α} {l : List (κ × α)} (h : k ∉ l.map Prod.fst) :
    (insert k a l).Perm ((k, a) :: l) := by
  induction l with
  | nil => exact .refl _
  | cons e l ih =>
    obtain ⟨hne, hl⟩ := not_or.mp (mt List.mem_cons.mpr h)
    rw [insert]
    split
    · exact .refl _
    · exact ((ih hl).cons _).trans (.swap ..)

theorem insert_of_lt {k : κ} {a : α} {l : List (κ × α)} (h : ∀ e ∈ l, e.1 < k) :
    insert k a l = l ++ [(k, a)] := by
  induction l with
  | nil => rfl
  | cons e l ih =>
    have he := h e List.mem_cons_self
    have hlt : ¬ k < e.1 := fun hk => Key.irrefl _ (Key.trans he hk)
    have hne : k ≠ e.1 := fun hk => Key.irrefl k (hk ▸ he)
    simp [insert, hlt, hne, ih fun f hf => h f (List.mem_cons_of_mem _ hf)]

end Entries

namespace SortedMap

variable {κ α : Type} [Key κ]

theorem keys_nodup (m : SortedMap κ α) : m.keys.Nodup := by
  refine List.pairwise_map.mpr (m.ascending.imp fun h he => ?_)
  exact Key.irrefl _ (he ▸ h)

theorem keys_ascend (m : SortedMap κ α) : m.keys.Pairwise (· < ·) :=
  List.pairwise_map.mpr m.ascending

variable [DecidableEq κ]

theorem mem_entries_iff {m : SortedMap κ α} {k : κ} {a : α} :
    (k, a) ∈ m.entries ↔ m.get? k = some a :=
  ⟨Entries.get?_of_mem m.ascending, Entries.mem_of_get?⟩

theorem ext_get? {m n : SortedMap κ α} (h : ∀ k, m.get? k = n.get? k) : m = n := by
  refine ext (Entries.eq_of_mem_iff m.ascending n.ascending fun e => ?_)
  obtain ⟨k, a⟩ := e
  rw [mem_entries_iff, mem_entries_iff, h]

theorem mem_keys_iff {m : SortedMap κ α} {k : κ} : k ∈ m.keys ↔ (m.get? k).isSome = true := by
  rw [keys, Option.isSome_iff_exists]
  constructor
  · intro h
    obtain ⟨e, he, rfl⟩ := List.mem_map.mp h
    exact ⟨e.2, mem_entries_iff.mp he⟩
  · intro hx
    obtain ⟨a, ha⟩ := hx
    exact List.mem_map.mpr ⟨(k, a), mem_entries_iff.mpr ha, rfl⟩

theorem entries_insertAll {m : SortedMap κ α} {l : List (κ × α)}
    (h : Entries.Ascending (m.entries ++ l)) : (m.insertAll l).entries = m.entries ++ l := by
  induction l generalizing m with
  | nil => simp [insertAll]
  | cons e l ih =>
    have hlt : ∀ f ∈ m.entries, f.1 < e.1 := fun f hf =>
      (List.pairwise_append.mp h).2.2 f hf e List.mem_cons_self
    have hm : (m.insert e.1 e.2).entries = m.entries ++ [e] := Entries.insert_of_lt hlt
    have h' : Entries.Ascending ((m.insert e.1 e.2).entries ++ l) := by
      rw [hm]
      simpa using h
    rw [insertAll, ih h', hm]
    simp

theorem entries_ofList {l : List (κ × α)} (h : Entries.Ascending l) : (ofList l).entries = l :=
  entries_insertAll (m := empty) h

/-- A map made of ascending keys has their values and no others. -/
theorem get?_ofList_map {l : List κ} {f : κ → α} (h : l.Pairwise (· < ·)) (k : κ) :
    (ofList (l.map fun k => (k, f k))).get? k = if k ∈ l then some (f k) else none := by
  have hentries := entries_ofList (l := l.map fun k => (k, f k)) (List.pairwise_map.mpr h)
  by_cases hk : k ∈ l
  · rw [if_pos hk, ← mem_entries_iff, hentries]
    exact List.mem_map.mpr ⟨k, hk, rfl⟩
  · rw [if_neg hk, ← Option.not_isSome_iff_eq_none, ← mem_keys_iff, keys, hentries]
    simpa using hk

/-- Where all new values of a key are the same, their order does not matter. -/
theorem get?_insertAll {m : SortedMap κ α} {l : List (κ × α)} {f : κ → α}
    (h : ∀ k a, (k, a) ∈ l → a = f k) (k : κ) :
    (m.insertAll l).get? k = if k ∈ l.map Prod.fst then some (f k) else m.get? k := by
  induction l generalizing m with
  | nil => simp [insertAll]
  | cons e l ih =>
    obtain ⟨j, a⟩ := e
    have hj : a = f j := h j a List.mem_cons_self
    rw [insertAll, ih fun k a hm => h k a (List.mem_cons_of_mem _ hm), get?_insert, List.map_cons]
    by_cases hl : k ∈ l.map Prod.fst
    · simp [hl]
    · by_cases hkj : k = j
      · simp [hkj, hj]
      · simp [hl, hkj]

theorem get?_insertAll_isSome {m : SortedMap κ α} {l : List (κ × α)} {k : κ} :
    ((m.insertAll l).get? k).isSome = true ↔
      (m.get? k).isSome = true ∨ k ∈ l.map Prod.fst := by
  induction l generalizing m with
  | nil => simp [insertAll]
  | cons e l ih =>
    rw [insertAll, ih, get?_insert]
    by_cases h : k = e.1 <;> simp [h]

theorem mem_of_get?_insertAll {m : SortedMap κ α} {l : List (κ × α)} {k : κ} {a : α}
    (h : (m.insertAll l).get? k = some a) : (k, a) ∈ l ∨ m.get? k = some a := by
  induction l generalizing m with
  | nil => exact .inr h
  | cons e l ih =>
    rcases ih h with ha | ha
    · exact .inl (List.mem_cons_of_mem _ ha)
    · rw [get?_insert] at ha
      split at ha
      · rename_i hk
        obtain rfl := Option.some.inj ha
        exact .inl (hk ▸ List.mem_cons_self)
      · exact .inr ha

theorem contains_insert_eq_false_iff {m : SortedMap κ α} {j k : κ} {a : α} :
    (m.insert k a).contains j = false ↔ j ≠ k ∧ m.contains j = false := by
  rw [contains, get?_insert]
  by_cases h : j = k
  · simp [h]
  · simp [h, contains]

/-! ### Another order -/

section Order

variable {m : SortedMap κ α} {l l' : List (κ × α)}

theorem insert_comm {j k : κ} {a b : α} (h : j = k → a = b) :
    (m.insert j a).insert k b = (m.insert k b).insert j a := by
  refine ext_get? fun i => ?_
  simp only [get?_insert]
  by_cases hk : i = k
  · by_cases hj : i = j
    · rw [if_pos hk, if_pos hj, h (hj.symm.trans hk)]
    · rw [if_pos hk, if_neg hj, if_pos hk]
  · simp only [if_neg hk]

/-- Where no key is bound to two values, entries may come in any order. -/
theorem insertAll_perm (h : l.Perm l') (hl : ∀ k a b, (k, a) ∈ l → (k, b) ∈ l → a = b) :
    m.insertAll l = m.insertAll l' := by
  induction h generalizing m with
  | nil => rfl
  | cons e _ ih =>
    exact ih fun k a b ha hb => hl k a b (List.mem_cons_of_mem _ ha) (List.mem_cons_of_mem _ hb)
  | swap e f l =>
    obtain ⟨j, a⟩ := e
    obtain ⟨k, b⟩ := f
    have hsame : k = j → b = a := by
      rintro rfl
      exact hl k b a List.mem_cons_self (List.mem_cons_of_mem _ List.mem_cons_self)
    simp only [insertAll, insert_comm hsame]
  | trans h _ ih ih' =>
    exact (ih hl).trans (ih' fun k a b ha hb => hl k a b (h.mem_iff.mpr ha) (h.mem_iff.mpr hb))

theorem ofList_of_perm (h : l.Perm m.entries) : ofList l = m := by
  have hkeys : ∀ k a b, (k, a) ∈ l → (k, b) ∈ l → a = b := by
    intro k a b ha hb
    have ha' := mem_entries_iff.mp (h.mem_iff.mp ha)
    have hb' := mem_entries_iff.mp (h.mem_iff.mp hb)
    exact Option.some.inj (ha'.symm.trans hb')
  rw [ofList, insertAll_perm h hkeys]
  exact ext (entries_ofList m.ascending)

/-- Entries of different keys are all kept, in key order. -/
theorem entries_insertAll_perm (h : (m.keys ++ l.map Prod.fst).Nodup) :
    (m.insertAll l).entries.Perm (m.entries ++ l) := by
  induction l generalizing m with
  | nil => rw [insertAll, List.append_nil]
  | cons e l ih =>
    obtain ⟨k, a⟩ := e
    have hk : k ∉ m.keys := fun hm =>
      (List.nodup_append.mp h).2.2 k hm k List.mem_cons_self rfl
    have hinsert : (m.insert k a).entries.Perm ((k, a) :: m.entries) := Entries.insert_perm hk
    have hmove : (k :: m.keys ++ l.map Prod.fst).Perm (m.keys ++ k :: l.map Prod.fst) :=
      List.perm_middle.symm
    have hkeys : ((m.insert k a).keys ++ l.map Prod.fst).Nodup :=
      (((hinsert.map Prod.fst).append_right _).trans hmove).nodup_iff.mpr h
    exact ((ih hkeys).trans (hinsert.append_right l)).trans List.perm_middle.symm

theorem entries_ofList_perm (h : (l.map Prod.fst).Nodup) : (ofList l).entries.Perm l :=
  entries_insertAll_perm (m := empty) h

theorem insertAll_append : m.insertAll (l ++ l') = (m.insertAll l).insertAll l' := by
  induction l generalizing m with
  | nil => rfl
  | cons e l ih => exact ih

end Order

end SortedMap

end Workflow
