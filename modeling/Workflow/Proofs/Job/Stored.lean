import Workflow.Job.Json
import Workflow.Proofs.Node.Stored

/-!
Jobs and tables are read back from the values that are written for them. The ids of a table are
written as the names of fields, and no two of them look the same.
-/

namespace Workflow

open Value (Arrangement)

variable {f : Value → Value} {l : Layout} {v : Value}

theorem ArgKey.ofValue?_toValue (hf : Arrangement f) (k : ArgKey) :
    ofValue? (f k.toValue) = some k := by
  cases k with
  | name n => rw [toValue, hf.string, ofValue?]
  | bindings m =>
    have hkeys : ((m.entries.map fun e => (e.1, Value.string e.2)).map Prod.fst).Nodup := by
      rw [List.map_map]
      exact m.keys_nodup
    obtain ⟨out, entries, hout, hentries, hm⟩ := hf.mapM_fields
      (fun e => e.2.string?.map (e.1, ·)) hkeys fun e _ => by rw [hf.string?, Option.map_some]
    rw [toValue, Value.ofMap, hout, ofValue?, hentries, Option.map_some, hm]

namespace Job

/-- The ids of a job are those of its form. -/
structure Fits (j : Job) : Prop where
  id : j.id < maxId
  parent : ∀ o, j.parent = some o → o < maxId
  branches : ∀ ids, j.branches = some ids → ∀ b ∈ ids, b < maxId
  next : ∀ n, j.next = some n → n < maxId

theorem readId_nat (hf : Arrangement f) {id : JobId} (h : id < maxId) :
    readId (f (.nat id)) = some id := hf.natBelow? h

theorem nat_ne_null (hf : Arrangement f) (n : Nat) : f (.nat n) ≠ .null := by
  rw [Value.nat, hf.number]
  intro h
  cases h

theorem array_ne_null (hf : Arrangement f) (items : List Value) : f (.array items) ≠ .null := by
  rw [hf.array]
  intro h
  cases h

section Optional

variable {α : Type} {g : Value → Option α} {name : String}

theorem optional?_absent (h : v.part? layout name = none) : optional? g v name = some none := by
  rw [optional?, h]

theorem optional?_present {w : Value} {a : α} (h : v.part? layout name = some w)
    (hne : w ≠ .null) (hg : g w = some a) : optional? g v name = some (some a) := by
  rw [optional?, h]
  cases w with
  | null => exact absurd rfl hne
  | _ => exact congrArg (Option.map some) hg

end Optional

/-- A job is read back. -/
theorem ofValue?_toValue (hf : Arrangement f) {j : Job} (hj : j.Fits)
    (hvalues : ∀ w ∈ j.values, f w = w) : ofValue? (f j.toValue) = some j := by
  obtain ⟨id, worker, keys, values, parent, branches, next⟩ := j
  let fields : List (String × Value) := [("subjob_id", .nat id), ("subworker_class", .string worker),
    ("arg_keys", .array (keys.map ArgKey.toValue)), ("arg_values", .array values),
    ("parent_id", idValue parent)] ++
    Value.present [("children_ids", branches.map fun ids => .array (ids.map .nat)),
      ("next_id", next.map .nat)]
  have hkeys : (fields.map Prod.fst).Nodup := by
    cases branches <;> cases next <;> simp [fields, Value.present]
  have hv : toValue ⟨id, worker, keys, values, parent, branches, next⟩ = .object fields := rfl
  have hpart : ∀ name, (f (.object fields)).part? layout name = (Entries.get? name fields).map f :=
    fun name => hf.part? hkeys name
  have hadmits : layout.admits (f (.object fields)) = true := hf.admits hkeys
  have hid : ((f (.object fields)).part? layout "subjob_id").bind readId = some id := by
    rw [hpart]
    exact readId_nat hf hj.id
  have hworker : ((f (.object fields)).part? layout "subworker_class").bind Value.string? =
      some worker := by
    rw [hpart]
    exact hf.string? worker
  have hargs : (((f (.object fields)).part? layout "arg_keys").bind Value.items?).bind
      (·.mapM ArgKey.ofValue?) = some keys := by
    rw [hpart]
    exact hf.mapM_items fun k _ => ArgKey.ofValue?_toValue hf k
  have hitems : ((f (.object fields)).part? layout "arg_values").bind Value.items? =
      some values := by
    rw [hpart]
    show (f (.array values)).items? = some values
    rw [hf.array, List.map_congr_left hvalues, List.map_id', Value.items?]
  have hparent : optional? readId (f (.object fields)) "parent_id" = some parent := by
    have hfield : (f (.object fields)).part? layout "parent_id" = some (f (idValue parent)) := hpart _
    cases parent with
    | none => rw [optional?, hfield, idValue, hf.null]
    | some o => exact optional?_present hfield (nat_ne_null hf o) (readId_nat hf (hj.parent o rfl))
  have hbranches : optional? (fun w => w.items?.bind (·.mapM readId)) (f (.object fields))
      "children_ids" = some branches := by
    cases branches with
    | none => exact optional?_absent (by rw [hpart]; cases next <;> rfl)
    | some ids =>
      refine optional?_present (hpart _) (array_ne_null hf _) ?_
      exact hf.mapM_items fun b hb => readId_nat hf (hj.branches ids rfl b hb)
  have hnext : optional? readId (f (.object fields)) "next_id" = some next := by
    cases next with
    | none => exact optional?_absent (by rw [hpart]; cases branches <;> rfl)
    | some n =>
      have hfield : (f (.object fields)).part? layout "next_id" = some (f (.nat n)) := by
        rw [hpart]
        cases branches <;> rfl
      exact optional?_present hfield (nat_ne_null hf n) (readId_nat hf (hj.next n rfl))
  rw [hv, ofValue?, hadmits, hid, hworker, hargs, hitems, hparent, hbranches, hnext]
  rfl

end Job

namespace Table

theorem idText_toList (id : JobId) : (idText id).toList = Nat.toDigits 10 id := by
  simp [idText, toString, Nat.repr]

/-- An id is read back from its text. -/
theorem idOfText?_idText {id : JobId} (h : id < maxId) : idOfText? (idText id) = some id := by
  have hne : (Nat.toDigits 10 id).isEmpty = false := by
    rw [List.isEmpty_eq_false_iff]
    exact Nat.toDigits_ne_nil
  have hdigits : (Nat.toDigits 10 id).all Char.isDigit = true :=
    List.all_eq_true.mpr fun c hc => Nat.isDigit_of_mem_toDigits (by decide) (by decide) hc
  have hvalue : (Nat.toDigits 10 id).foldl (fun n d => n * 10 + (d.toNat - '0'.toNat)) 0 = id := by
    simp only [Nat.mul_comm _ 10]
    exact Nat.ofDigitChars_ten_toDigits
  rw [idOfText?, idText_toList, hne, hdigits, hvalue]
  simp [h]

theorem idText_inj {id id' : JobId} (h : id < maxId) (h' : id' < maxId)
    (he : idText id = idText id') : id = id' := by
  have hread := idOfText?_idText h
  rw [he, idOfText?_idText h'] at hread
  exact (Option.some.inj hread).symm

/-- A table is read back. -/
theorem ofValue?_toValue (hf : Arrangement f) {t : Table} (hid : ∀ id ∈ t.keys, id < maxId)
    (hjobs : ∀ j ∈ t.jobs, j.Fits ∧ ∀ w ∈ j.values, f w = w) : ofValue? (f t.toValue) = some t := by
  have hbound : ∀ e ∈ t.entries, e.1 < maxId := fun e he => hid e.1 (List.mem_map_of_mem he)
  have hkeys : ((t.entries.map fun e => (idText e.1, e.2.toValue)).map Prod.fst).Nodup := by
    rw [List.map_map]
    refine List.pairwise_map.mpr (t.ascending.imp_of_mem fun ha hb hlt he => ?_)
    exact Nat.ne_of_lt hlt (idText_inj (hbound _ ha) (hbound _ hb) he)
  obtain ⟨out, entries, hout, hentries, ht⟩ := hf.mapM_fields
    (fun e => do
      let id ← idOfText? e.1
      let j ← Job.ofValue? e.2
      some (id, j)) hkeys fun e he => by
        obtain ⟨hj, hvalues⟩ := hjobs e.2 (List.mem_map_of_mem he)
        rw [idOfText?_idText (hbound e he), Job.ofValue?_toValue hf hj hvalues]
        rfl
  have hv : t.toValue = .object (t.entries.map fun e => (idText e.1, e.2.toValue)) := rfl
  have hread : ofValue? (.object out) = some (SortedMap.ofList entries) :=
    congrArg (Option.bind · fun entries => some (SortedMap.ofList entries)) hentries
  rw [hv, hout, hread, ht]

/-- The ids of a table are those of its form. -/
def AllFit (t : Table) : Prop := (∀ id ∈ t.keys, id < maxId) ∧ ∀ j ∈ t.jobs, j.Fits

end Table

/-- A kind of things that lose nothing by being written: they are read back with the fields of
objects as they are written and with all of them in the order of their names, and two that are the
same up to this order are the same. -/
structure Lossless {α : Type} (write : α → Value) (read : Value → Option α)
    (Fits : α → Prop) (Fixed : (Value → Value) → α → Prop) : Prop where
  written : ∀ x, Fits x → read (write x) = some x
  sorted : ∀ x, Fits x → Fixed Value.sorted x → read (write x).sorted = some x
  apart : ∀ x y, Fits x → Fits y → Fixed Value.sorted x → Fixed Value.sorted y →
    (write x).sorted = (write y).sorted → x = y

theorem Lossless.of_arranged {α : Type} {write : α → Value} {read : Value → Option α}
    {Fits : α → Prop} {Fixed : (Value → Value) → α → Prop} (hid : ∀ x, Fixed id x)
    (h : ∀ f, Arrangement f → ∀ x, Fits x → Fixed f x → read (f (write x)) = some x) :
    Lossless write read Fits Fixed := by
  have hsorted : ∀ x, Fits x → Fixed Value.sorted x → read (write x).sorted = some x :=
    h Value.sorted Value.arrangement_sorted
  refine ⟨fun x hx => h id Value.arrangement_id x hx (hid x), hsorted, ?_⟩
  intro x y hx hy hfx hfy he
  have hread := hsorted x hx hfx
  rw [he, hsorted y hy hfy] at hread
  exact (Option.some.inj hread).symm

/-- Trees, definitions, jobs and tables lose nothing by being written: whatever their literals hold,
as long as the fields of objects in them stand in the order of their names. -/
theorem stored_forms_lossless :
    Lossless Node.toValue Node.ofValue? Node.Fits Node.Fixed ∧
    Lossless Definition.toValue Definition.ofValue? (fun d => d.span.Fits ∧ d.body.Fits)
      (fun f d => d.body.Fixed f) ∧
    Lossless Job.toValue Job.ofValue? Job.Fits (fun f j => ∀ w ∈ j.values, f w = w) ∧
    Lossless Table.toValue Table.ofValue? Table.AllFit
      (fun f t => ∀ j ∈ t.jobs, ∀ w ∈ j.values, f w = w) := by
  refine ⟨?_, ?_, ?_, ?_⟩
  · refine Lossless.of_arranged Node.fixed_id fun f hf n hn hfixed => ?_
    exact Node.read?_toValue hf false n (Node.all_kept hn hfixed)
  · refine Lossless.of_arranged (fun d => d.body.fixed_id) fun f hf d hd hfixed => ?_
    exact Definition.ofValue?_toValue hf hd.1 (Node.all_kept hd.2 hfixed)
  · refine Lossless.of_arranged (fun _ _ _ => rfl) fun f hf j hj hfixed => ?_
    exact Job.ofValue?_toValue hf hj hfixed
  · refine Lossless.of_arranged (fun _ _ _ _ _ => rfl) fun f hf t ht hfixed => ?_
    exact Table.ofValue?_toValue hf ht.1 fun j hj => ⟨ht.2 j hj, hfixed j hj⟩

/-- A call with a literal that looks like a part of a tree, and a block of its own. -/
def lookalike : Node :=
  .call "Send"
    [.literal "payload" (.object [("span", .null), ("t", .string "Param"), ("v", .object [])])]
    (some (.batch [⟨"teams", "team"⟩] (.leaf "Log" [.param "team"] Span.zero) ⟨4, 31, 0, 4, 1, 7⟩))
    Span.zero

/-- By name the tenth job comes before the second. -/
def tenthAndSecond : Table :=
  Table.ofJobs [⟨2, "Log", [.name "n"], [.nat 7], some 10, none, some 3⟩,
    ⟨10, "batch", [.bindings (SortedMap.ofList [("teams", "team")])], [.null], none, some [], none⟩]

theorem lookalike_lossless :
    (lookalike.Fits ∧ lookalike.Fixed Value.sorted ∧
      Node.ofValue? lookalike.toValue.sorted = some lookalike) ∧
    tenthAndSecond.AllFit ∧ Table.ofValue? tenthAndSecond.toValue = some tenthAndSecond := by
  obtain ⟨hnodes, -, -, htables⟩ := stored_forms_lossless
  have hfits : lookalike.Fits := by
    intro m hm
    simp only [lookalike, Node.all, List.mem_cons, List.not_mem_nil, or_false] at hm
    rcases hm with rfl | rfl | rfl <;> constructor <;> decide
  have hfixed : lookalike.Fixed Value.sorted := by
    intro m hm
    simp only [lookalike, Node.all, List.mem_cons, List.not_mem_nil, or_false] at hm
    rcases hm with rfl | rfl | rfl
    · exact List.forall_mem_singleton.mpr rfl
    · exact List.forall_mem_nil _
    · exact List.forall_mem_singleton.mpr trivial
  have hjobs : ∀ j ∈ tenthAndSecond.jobs, j.Fits := by
    have hlist : tenthAndSecond.jobs = [⟨2, "Log", [.name "n"], [.nat 7], some 10, none, some 3⟩,
        ⟨10, "batch", [.bindings (SortedMap.ofList [("teams", "team")])], [.null], none, some [],
          none⟩] := rfl
    rw [hlist, List.forall_mem_cons, List.forall_mem_singleton]
    constructor
    · refine ⟨by decide, ?_, ?_, ?_⟩
      · intro o ho
        cases ho
        decide
      · intro ids hids
        cases hids
      · intro n hn
        cases hn
        decide
    · refine ⟨by decide, ?_, ?_, ?_⟩
      · intro o ho
        cases ho
      · intro ids hids
        cases hids
        exact List.forall_mem_nil _
      · intro n hn
        cases hn
  have hall : tenthAndSecond.AllFit := ⟨by decide, hjobs⟩
  exact ⟨⟨hfits, hfixed, hnodes.sorted _ hfits hfixed⟩, hall, htables.written _ hall⟩

end Workflow
