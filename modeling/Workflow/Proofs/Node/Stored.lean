import Mathlib.Control.Basic
import Mathlib.Data.Option.Basic
import Workflow.Node.Json
import Workflow.Proofs.Json.Arrangement
import Workflow.Proofs.Surface.Shape

/-!
Trees and definitions are read back from the values that are written for them, in whatever order
the fields of objects come. What a node holds is told apart by its tag; a span that is all zero, an
absent block and an absent version are left out and read as absent.
-/

namespace Workflow

open Value (Arrangement)

variable {f : Value → Value} {l : Layout} {v : Value}

namespace Value.Arrangement

theorem natBelow? (hf : Arrangement f) {bound n : Nat} (h : n < bound) :
    (f (.nat n)).natBelow? bound = some n := by
  rw [Value.nat, hf.number]
  exact if_pos h

theorem string? (hf : Arrangement f) (s : String) : (f (.string s)).string? = some s := by
  rw [hf.string, Value.string?]

end Value.Arrangement

namespace Span

/-- The numbers of a span are machine words. -/
structure Fits (s : Span) : Prop where
  start : s.start < maxWord
  stop : s.stop < maxWord
  startLine : s.startLine < maxWord
  startCol : s.startCol < maxWord
  stopLine : s.stopLine < maxWord
  stopCol : s.stopCol < maxWord

theorem ofValue?_toValue (hf : Arrangement f) {s : Span} (hs : s.Fits) :
    ofValue? (f s.toValue) = some s := by
  obtain ⟨hstart, hstop, hstartLine, hstartCol, hstopLine, hstopCol⟩ := hs
  simp [ofValue?, toValue, hf.admits, hf.part?, Entries.get?, hf.natBelow?, *]

section Field

variable {s : Span} {fields : List (String × Value)}

/-- The span is the last of the fields. -/
theorem keys_nodup (h : (fields.map Prod.fst).Nodup) (hspan : "span" ∉ fields.map Prod.fst) :
    ((fields ++ s.field).map Prod.fst).Nodup := by
  rw [field]
  split
  · rwa [List.append_nil]
  · rw [List.map_append]
    refine List.nodup_append.mpr ⟨h, by simp, fun k hk j hj he => hspan ?_⟩
    obtain rfl : j = "span" := List.mem_singleton.mp hj
    exact he ▸ hk

theorem part?_fields (hf : Arrangement f) (h : (fields.map Prod.fst).Nodup)
    (hspan : "span" ∉ fields.map Prod.fst) {name : String} (hne : name ≠ "span") :
    (f (.object (fields ++ s.field))).part? l name = (Entries.get? name fields).map f := by
  have hlast : Entries.get? name s.field = none := by
    refine Entries.get?_eq_none ?_
    rw [field]
    split <;> simp [hne]
  rw [hf.part? (keys_nodup h hspan), Entries.get?_append, hlast, Option.or_none]

theorem partOf?_fields (hf : Arrangement f) (h : (fields.map Prod.fst).Nodup)
    (hspan : "span" ∉ fields.map Prod.fst) (hs : s.Fits) :
    partOf? l (f (.object (fields ++ s.field))) = some s := by
  rw [partOf?, hf.part? (keys_nodup h hspan), Entries.get?_append, Entries.get?_eq_none hspan,
    Option.none_or, field]
  by_cases hzero : s = zero
  · simp [hzero, Entries.get?]
  · simp [hzero, Entries.get?, ofValue?_toValue hf hs]

end Field

end Span

theorem Binding.ofValue?_toValue (hf : Arrangement f) (b : Binding) :
    ofValue? (f b.toValue) = some b := by
  simp [ofValue?, toValue, hf.admits, hf.part?, Entries.get?, hf.string?]

/-- A literal value that an arrangement leaves as it is. -/
def ArgSource.Fixed (f : Value → Value) : ArgSource → Prop
  | param _ => True
  | literal w => f w = w

theorem ArgSource.tagOf?_tagged (hf : Arrangement f) (tag : String) (w : Value) :
    tagOf? (f (.object [("t", .string tag), ("v", w)])) = some tag := by
  have hkeys : ([("t", Value.string tag), ("v", w)].map Prod.fst).Nodup := by simp
  obtain ⟨out, hout, hget⟩ := hf.get? hkeys
  rw [hout, tagOf?, hget, Entries.get?, if_pos rfl, Option.map_some, hf.string]

theorem ArgSource.ofValue?_toValue (hf : Arrangement f) {s : ArgSource} (hs : s.Fixed f) :
    ofValue? (f s.toValue) = some s := by
  cases s with
  | param name =>
    rw [ofValue?, toValue, tagOf?_tagged hf]
    simp [hf.admits, hf.part?, Entries.get?, hf.string?]
  | literal w =>
    have hw : f w = w := hs
    rw [ofValue?, toValue, tagOf?_tagged hf]
    simp [hf.admits, hf.part?, Entries.get?, hw]

theorem Arg.ofValue?_toValue (hf : Arrangement f) {a : Arg} (ha : a.source.Fixed f) :
    ofValue? (f a.toValue) = some a := by
  simp [ofValue?, toValue, hf.admits, hf.part?, Entries.get?, hf.string?,
    ArgSource.ofValue?_toValue hf ha]

namespace Node

/-- A node is written as a record with its tag in front and its span behind. -/
def record (k : Kind) (fields : List (String × Value)) (s : Span) : Value :=
  .object (("t", .string k.tag) :: fields ++ s.field)

/-- What a value shows when it is read as a node of some kind. -/
structure Shows (f : Value → Value) (k : Kind) (fields : List (String × Value)) (s : Span)
    (v : Value) : Prop where
  kind : ∀ isInner, Kind.ofValue? isInner v = some k
  span : Span.partOf? k.layout v = some s
  part : ∀ name, name ≠ "t" → name ≠ "span" →
    v.part? k.layout name = (Entries.get? name fields).map f

theorem shows_record (hf : Arrangement f) {k : Kind} {fields : List (String × Value)} {s : Span}
    (hs : s.Fits) (h : ("t" :: "span" :: fields.map Prod.fst).Nodup) :
    Shows f k fields s (f (record k fields s)) := by
  have hkeys : ((("t", Value.string k.tag) :: fields).map Prod.fst).Nodup ∧
      "span" ∉ (("t", Value.string k.tag) :: fields).map Prod.fst := by
    simp only [List.nodup_cons, List.mem_cons, not_or, List.map_cons] at h ⊢
    obtain ⟨⟨hne, ht⟩, hspan, hfields⟩ := h
    exact ⟨⟨ht, hfields⟩, Ne.symm hne, hspan⟩
  obtain ⟨hkeys, hspan⟩ := hkeys
  have hpart : ∀ (l : Layout) (name : String), name ≠ "span" →
      (f (record k fields s)).part? l name =
        (Entries.get? name (("t", .string k.tag) :: fields)).map f :=
    fun l name hne => Span.part?_fields hf hkeys hspan hne
  refine ⟨fun isInner => ?_, Span.partOf?_fields hf hkeys hspan hs, fun name ht hne => ?_⟩
  · have htag : Kind.ofTag? isInner (.string k.tag) = some k := by cases k <;> rfl
    have hadmits : k.layout.admits (f (record k fields s)) = true :=
      hf.admits (Span.keys_nodup hkeys hspan)
    rw [Kind.ofValue?, hpart Kind.tagLayout "t" (by decide), Entries.get?, if_pos rfl,
      Option.map_some, hf.string, Option.bind_some, htag]
    exact if_pos hadmits
  · rw [hpart k.layout name hne, Entries.get?, if_neg ht]

/-- The arguments that a node itself gives. -/
def arguments : Node → List Arg
  | leaf _ args _ => args
  | call _ args _ _ => args
  | _ => []

/-- The spans of a tree consist of machine words. -/
def Fits (n : Node) : Prop := n.All fun m => m.span.Fits

/-- The literals of a tree are left as they are by an arrangement. -/
def Fixed (f : Value → Value) (n : Node) : Prop :=
  n.All fun m => ∀ a ∈ m.arguments, a.source.Fixed f

/-- What a node itself holds outlives its being written. -/
def Kept (f : Value → Value) (n : Node) : Prop :=
  n.span.Fits ∧ ∀ a ∈ n.arguments, a.source.Fixed f

theorem all_kept {n : Node} (h : n.Fits) (hfixed : n.Fixed f) : n.All (Kept f) :=
  fun m hm => ⟨h m hm, hfixed m hm⟩

theorem fixed_id (n : Node) : n.Fixed id := by
  intro m _ a _
  cases a.source with
  | param => trivial
  | literal w => rfl

theorem argsOf?_eq (hf : Arrangement f) {args : List Arg} (h : ∀ a ∈ args, a.source.Fixed f)
    (hv : v.part? l "args" = some (f (.array (args.map Arg.toValue)))) :
    argsOf? l v = some args := by
  rw [argsOf?, hv, Option.bind_some]
  exact hf.mapM_items fun a ha => Arg.ofValue?_toValue hf (h a ha)

theorem bindingsOf?_eq (hf : Arrangement f) {bindings : List Binding}
    (hv : v.part? l "bindings" = some (f (.array (bindings.map Binding.toValue)))) :
    bindingsOf? l v = some bindings := by
  rw [bindingsOf?, hv, Option.bind_some]
  exact hf.mapM_items fun b _ => Binding.ofValue?_toValue hf b

section Kinds

variable {isInner : Bool} {span : Span} {fields : List (String × Value)}

theorem read?_leaf (h : Shows f .leaf fields span v) :
    read? isInner v = ((v.part? Kind.leaf.layout "worker").bind Value.string?).bind fun worker =>
      (argsOf? Kind.leaf.layout v).map (leaf worker · span) := by
  rw [read?]
  simp only [h.kind, h.span, Option.bind_eq_bind, Option.bind_some, Option.map_eq_bind]
  rfl

theorem read?_sequence {steps : List Value} (h : Shows f .sequence fields span v)
    (hv : v.part? Kind.sequence.layout "steps" = some (.array steps)) :
    read? isInner v = (readAll? steps).map (sequence · span) := by
  rw [read?]
  simp only [h.kind, h.span, Option.bind_eq_bind, Option.bind_some]
  split
  · rename_i items hitems
    obtain rfl := Value.array.inj (Option.some.inj (hv.symm.trans hitems))
    rfl
  · rename_i hnone
    exact absurd hv (hnone steps)

theorem read?_batch {body : Value} (h : Shows f .batch fields span v)
    (hv : v.part? Kind.batch.layout "body" = some body) :
    read? isInner v = (bindingsOf? Kind.batch.layout v).bind fun bindings =>
      (read? true body).map (batch bindings · span) := by
  rw [read?]
  simp only [h.kind, h.span, Option.bind_eq_bind, Option.bind_some]
  refine Option.bind_congr fun bindings _ => ?_
  split
  · rename_i body' hbody
    obtain rfl := Option.some.inj (hv.symm.trans hbody)
    rfl
  · rename_i hnone
    cases hv.symm.trans hnone

theorem read?_call (h : Shows f .call fields span v)
    (hv : v.part? Kind.call.layout "nested" = none) :
    read? isInner v = ((v.part? Kind.call.layout "name").bind Value.string?).bind fun name =>
      (argsOf? Kind.call.layout v).map (call name · none span) := by
  rw [read?]
  simp only [h.kind, h.span, Option.bind_eq_bind, Option.bind_some]
  refine Option.bind_congr fun name _ => ?_
  rw [Option.map_eq_bind]
  refine Option.bind_congr fun args _ => ?_
  split
  · rfl
  · rename_i hnull
    cases hv.symm.trans hnull
  · rename_i hsome
    cases hv.symm.trans hsome

theorem read?_call_nested {nested : Value} (h : Shows f .call fields span v)
    (hv : v.part? Kind.call.layout "nested" = some nested) (hne : nested ≠ .null) :
    read? isInner v = ((v.part? Kind.call.layout "name").bind Value.string?).bind fun name =>
      (argsOf? Kind.call.layout v).bind fun args =>
        (read? true nested).map fun n => call name args (some n) span := by
  rw [read?]
  simp only [h.kind, h.span, Option.bind_eq_bind, Option.bind_some]
  refine Option.bind_congr fun name _ => Option.bind_congr fun args _ => ?_
  split
  · rename_i hnone
    cases hv.symm.trans hnone
  · rename_i hnull
    exact absurd (Option.some.inj (hv.symm.trans hnull)) hne
  · rename_i nested' hsome
    obtain rfl := Option.some.inj (hv.symm.trans hsome)
    rfl

/-- A block is never written as null. -/
theorem ne_null_of_read? {n : Node} (h : read? isInner v = some n) : v ≠ .null := by
  intro hv
  rw [hv, read?] at h
  cases h

end Kinds

mutual

/-- A tree is read back, both on its own and inside of another. -/
theorem read?_toValue (hf : Arrangement f) (isInner : Bool) :
    (n : Node) → n.All (Kept f) → read? isInner (f n.toValue) = some n
  | leaf worker args s => by
    intro h
    obtain ⟨hs, hargs⟩ : s.Fits ∧ ∀ a ∈ args, a.source.Fixed f := h.self
    have hv : Shows f .leaf [("worker", .string worker), ("args", .array (args.map Arg.toValue))] s
      (f (leaf worker args s).toValue) := by
      rw [toValue]
      exact shows_record hf hs (by simp)
    rw [read?_leaf hv, hv.part _ (by decide) (by decide),
      argsOf?_eq hf hargs (hv.part _ (by decide) (by decide))]
    simp [Entries.get?, hf.string?]
  | sequence steps s => by
    intro h
    obtain ⟨hs, hsteps⟩ := all_sequence_iff.mp h
    have hv : Shows f .sequence [("steps", .array (toValues steps))] s
      (f (sequence steps s).toValue) := by
      rw [toValue]
      exact shows_record hf hs.1 (by simp)
    have hitems := hv.part "steps" (by decide) (by decide)
    rw [Entries.get?, if_pos rfl, Option.map_some, hf.array] at hitems
    rw [read?_sequence hv hitems, readAll?_toValues hf steps hsteps, Option.map_some]
  | batch bindings body s => by
    intro h
    obtain ⟨hs, hbody⟩ := all_batch_iff.mp h
    have hv : Shows f .batch [("bindings", .array (bindings.map Binding.toValue)),
      ("body", body.toValue)] s (f (batch bindings body s).toValue) := by
      rw [toValue]
      exact shows_record hf hs.1 (by simp)
    rw [read?_batch hv (hv.part _ (by decide) (by decide)),
      bindingsOf?_eq hf (hv.part _ (by decide) (by decide)), Option.bind_some,
      read?_toValue hf true body hbody, Option.map_some]
  | call name args none s => by
    intro h
    obtain ⟨hs, hargs⟩ : s.Fits ∧ ∀ a ∈ args, a.source.Fixed f := h.self
    have hv : Shows f .call [("name", .string name), ("args", .array (args.map Arg.toValue))] s
      (f (call name args none s).toValue) := by
      rw [toValue]
      exact shows_record hf hs (by simp)
    rw [read?_call hv (hv.part _ (by decide) (by decide)), hv.part _ (by decide) (by decide),
      argsOf?_eq hf hargs (hv.part _ (by decide) (by decide))]
    simp [Entries.get?, hf.string?]
  | call name args (some nested) s => by
    intro h
    obtain ⟨hself, hnested⟩ := all_call_iff.mp h
    obtain ⟨hs, hargs⟩ : s.Fits ∧ ∀ a ∈ args, a.source.Fixed f := hself
    have hv : Shows f .call [("name", .string name), ("args", .array (args.map Arg.toValue)),
      ("nested", nested.toValue)] s (f (call name args (some nested) s).toValue) := by
      rw [toValue]
      exact shows_record hf hs (by simp)
    have hread := read?_toValue hf true nested (hnested nested rfl)
    rw [read?_call_nested hv (hv.part _ (by decide) (by decide)) (ne_null_of_read? hread),
      hv.part _ (by decide) (by decide),
      argsOf?_eq hf hargs (hv.part _ (by decide) (by decide)), hread]
    simp [Entries.get?, hf.string?]

theorem readAll?_toValues (hf : Arrangement f) :
    (ns : List Node) → (∀ n ∈ ns, n.All (Kept f)) → readAll? ((toValues ns).map f) = some ns
  | [], _ => by
    rw [toValues, List.map_nil, readAll?]
  | n :: ns, h => by
    obtain ⟨hn, hns⟩ := List.forall_mem_cons.mp h
    rw [toValues, List.map_cons, readAll?, read?_toValue hf true n hn, readAll?_toValues hf ns hns]
    rfl

end

end Node

namespace Definition

/-- The strings of an array come back one by one. -/
theorem strings?_back (hf : Arrangement f) (names : List String) :
    (f (.array (names.map .string))).strings? = some names :=
  hf.mapM_items fun name _ => hf.string? name

/-- A definition is read back. -/
theorem ofValue?_toValue (hf : Arrangement f) {d : Definition} (hs : d.span.Fits)
    (hb : d.body.All (Node.Kept f)) : ofValue? (f d.toValue) = some d := by
  obtain ⟨name, parameters, body, version, s⟩ := d
  let fields : List (String × Value) := [("name", .string name),
    ("parameters", .array (parameters.map .string)), ("body", body.toValue)] ++
      Value.present [("version", version.map .string)]
  have hkeys : (fields.map Prod.fst).Nodup ∧ "span" ∉ fields.map Prod.fst := by
    cases version <;> simp [fields, Value.present]
  have hv : toValue ⟨name, parameters, body, version, s⟩ = .object (fields ++ s.field) := rfl
  have hpart : ∀ name, name ≠ "span" → (f (.object (fields ++ s.field))).part? layout name =
      (Entries.get? name fields).map f :=
    fun name hne => Span.part?_fields hf hkeys.1 hkeys.2 hne
  have hadmits : layout.admits (f (.object (fields ++ s.field))) = true :=
    hf.admits (Span.keys_nodup hkeys.1 hkeys.2)
  have hname : ((f (.object (fields ++ s.field))).part? layout "name").bind Value.string? =
      some name := by
    rw [hpart _ (by decide)]
    exact hf.string? name
  have hparameters : ((f (.object (fields ++ s.field))).part? layout "parameters").bind
      Value.strings? = some parameters := by
    rw [hpart _ (by decide)]
    exact strings?_back hf parameters
  have hbody : ((f (.object (fields ++ s.field))).part? layout "body").bind Node.ofValue? =
      some body := by
    rw [hpart _ (by decide)]
    exact Node.read?_toValue hf false body hb
  have hversion : versionOf? (f (.object (fields ++ s.field))) = some version := by
    rw [versionOf?, hpart _ (by decide)]
    cases version <;> simp [fields, Value.present, Entries.get?, hf.string, Value.string?]
  rw [hv, ofValue?, hadmits, hname, hparameters, hbody, hversion,
    Span.partOf?_fields hf hkeys.1 hkeys.2 hs]
  rfl

end Definition

end Workflow
