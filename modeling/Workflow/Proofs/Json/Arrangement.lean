import Workflow.Json.Record
import Workflow.Proofs.Data.Except
import Workflow.Proofs.Data.SortedMap

/-!
JSON values whose objects list their fields in another order. What a record reads from an object
are fields by name, so that it finds the same in every order.
-/

namespace Workflow

namespace Value

mutual

/-- The value with the fields of every object in the order of their names. -/
def sorted : Value → Value
  | array items => array (sortedItems items)
  | object fields => object (SortedMap.ofList (sortedFields fields)).entries
  | v => v

def sortedItems : List Value → List Value
  | [] => []
  | v :: vs => v.sorted :: sortedItems vs

def sortedFields : List (String × Value) → List (String × Value)
  | [] => []
  | (k, v) :: rest => (k, v.sorted) :: sortedFields rest

end

theorem sortedItems_eq_map (items : List Value) : sortedItems items = items.map sorted := by
  induction items with
  | nil => rfl
  | cons v vs ih => rw [sortedItems, ih, List.map_cons]

theorem sortedFields_eq_map (fields : List (String × Value)) :
    sortedFields fields = fields.map fun e => (e.1, e.2.sorted) := by
  induction fields with
  | nil => rfl
  | cons e rest ih => rw [sortedFields, ih, List.map_cons]

/-- A way to order the fields of objects at every depth. -/
structure Arrangement (f : Value → Value) : Prop where
  null : f null = null
  number : ∀ n, f (number n) = number n
  string : ∀ s, f (string s) = string s
  array : ∀ items, f (array items) = array (items.map f)
  object : ∀ fields : List (String × Value), (fields.map Prod.fst).Nodup →
    ∃ out, f (object fields) = object out ∧ out.Perm (fields.map fun e => (e.1, f e.2))

theorem arrangement_id : Arrangement id where
  null := rfl
  number _ := rfl
  string _ := rfl
  array items := by rw [List.map_id, id]
  object fields _ := ⟨fields, rfl, .of_eq (List.map_id fields).symm⟩

theorem arrangement_sorted : Arrangement sorted where
  null := rfl
  number _ := rfl
  string _ := rfl
  array items := by rw [sorted, sortedItems_eq_map]
  object fields h := by
    have hkeys : ((sortedFields fields).map Prod.fst).Nodup := by
      rwa [sortedFields_eq_map, List.map_map]
    refine ⟨_, by rw [sorted], ?_⟩
    rw [← sortedFields_eq_map]
    exact SortedMap.entries_ofList_perm hkeys

namespace Arrangement

variable {f : Value → Value} {l : Layout} {fields : List (String × Value)}

/-- Every field of a record is found where it was put. -/
theorem get? (hf : Arrangement f) (h : (fields.map Prod.fst).Nodup) :
    ∃ out, f (.object fields) = .object out ∧
      ∀ name, Entries.get? name out = (Entries.get? name fields).map f := by
  obtain ⟨out, hout, hperm⟩ := hf.object fields h
  have hkeys : (out.map Prod.fst).Nodup := by
    have hmap := hperm.map Prod.fst
    rw [List.map_map] at hmap
    exact hmap.nodup_iff.mpr h
  refine ⟨out, hout, fun name => ?_⟩
  rw [Entries.get?_perm hperm hkeys, Entries.get?_map]

theorem part? (hf : Arrangement f) (h : (fields.map Prod.fst).Nodup) (name : String) :
    (f (.object fields)).part? l name = (Entries.get? name fields).map f := by
  obtain ⟨out, hout, hget⟩ := hf.get? h
  rw [hout, Value.part?, hget]

theorem admits (hf : Arrangement f) (h : (fields.map Prod.fst).Nodup) :
    l.admits (f (.object fields)) = true := by
  obtain ⟨out, hout, -⟩ := hf.get? h
  rw [hout, Layout.admits]

/-- The items of an array are read one by one. -/
theorem mapM_items {α : Type} {read : Value → Option α} {write : α → Value} {xs : List α}
    (hf : Arrangement f) (h : ∀ x ∈ xs, read (f (write x)) = some x) :
    (f (.array (xs.map write))).items?.bind (·.mapM read) = some xs := by
  have hread : xs.mapM (read ∘ f ∘ write) = some (xs.map id) := Option.mapM_eq_some h
  rw [hf.array, items?, Option.bind_some, List.map_map, List.mapM_map, hread, List.map_id]

/-- The fields of an object become a map, whatever their order. -/
theorem mapM_fields {κ α : Type} [Key κ] [DecidableEq κ] {m : SortedMap κ α}
    {write : κ × α → String × Value} (hf : Arrangement f)
    (read : String × Value → Option (κ × α)) (h : ((m.entries.map write).map Prod.fst).Nodup)
    (hread : ∀ e ∈ m.entries, read ((write e).1, f (write e).2) = some e) :
    ∃ out entries, f (.object (m.entries.map write)) = .object out ∧
      out.mapM read = some entries ∧ SortedMap.ofList entries = m := by
  obtain ⟨out, hout, hperm⟩ := hf.object _ h
  have heach : m.entries.mapM (read ∘ (fun e => (e.1, f e.2)) ∘ write) =
      some (m.entries.map id) := Option.mapM_eq_some hread
  have hall : ((m.entries.map write).map fun e => (e.1, f e.2)).mapM read = some m.entries := by
    rw [List.map_map, List.mapM_map, heach, List.map_id]
  obtain ⟨entries, hentries, hsame⟩ := Option.mapM_perm hperm.symm hall
  exact ⟨out, entries, hout, hentries, SortedMap.ofList_of_perm hsame.symm⟩

end Arrangement

end Value

end Workflow
