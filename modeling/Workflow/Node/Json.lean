import Workflow.Json.Record
import Workflow.Node.Basic

/-!
The JSON form of trees and definitions, written and read. Written are objects; a span that is all
zero, an absent block and an absent version are left out. Read are arrays too, which give the fields
by position; fields of an object that mean nothing are skipped.
-/

namespace Workflow

def maxWord : Nat := 18446744073709551616

namespace Span

def toValue (s : Span) : Value :=
  .object [("start", .nat s.start), ("end", .nat s.stop),
    ("start_line", .nat s.startLine), ("start_col", .nat s.startCol),
    ("end_line", .nat s.stopLine), ("end_col", .nat s.stopCol)]

def layout : Layout := ⟨["start", "end", "start_line", "start_col", "end_line", "end_col"], []⟩

def ofValue? (v : Value) : Option Span := do
  guard (layout.admits v)
  let word (name : String) := (v.part? layout name).bind (Value.natBelow? maxWord)
  let start ← word "start"
  let stop ← word "end"
  let startLine ← word "start_line"
  let startCol ← word "start_col"
  let stopLine ← word "end_line"
  let stopCol ← word "end_col"
  some ⟨start, stop, startLine, startCol, stopLine, stopCol⟩

/-- The field of a span, unless it is all zero. -/
def field (s : Span) : List (String × Value) :=
  if s = zero then [] else [("span", s.toValue)]

/-- The span among the fields of a record, all zero when there is none. -/
def partOf? (l : Layout) (v : Value) : Option Span :=
  match v.part? l "span" with
  | none => some zero
  | some w => ofValue? w

end Span

namespace ArgSource

def toValue : ArgSource → Value
  | param name => .object [("t", .string "Param"), ("v", .string name)]
  | literal value => .object [("t", .string "Literal"), ("v", value)]

def layout : Layout := ⟨["t", "v"], []⟩

def tags : List String := ["Param", "Literal"]

/-- The tag in an object is a text or the one field of an object without a content; in an array it
is a text or a number. -/
def tagOf? : Value → Option String
  | .object fields =>
    match Entries.get? "t" fields with
    | some (.string tag) => some tag
    | some (.object [(tag, .null)]) => some tag
    | some (.object [(tag, .object [])]) => some tag
    | _ => none
  | .array (.string tag :: _) => some tag
  | .array (.number (.integer (.ofNat n)) :: _) => tags[n]?
  | _ => none

def ofValue? (v : Value) : Option ArgSource := do
  guard (layout.admits v)
  let tag ← tagOf? v
  let content ← v.part? layout "v"
  if tag = "Param" then content.string?.map param
  else if tag = "Literal" then some (literal content)
  else none

end ArgSource

namespace Arg

def toValue (a : Arg) : Value :=
  .object [("key", .string a.key), ("source", a.source.toValue)]

def layout : Layout := ⟨["key", "source"], []⟩

def ofValue? (v : Value) : Option Arg := do
  guard (layout.admits v)
  let key ← (v.part? layout "key").bind Value.string?
  let source ← (v.part? layout "source").bind ArgSource.ofValue?
  some ⟨key, source⟩

end Arg

namespace Binding

def toValue (b : Binding) : Value :=
  .object [("list", .string b.list), ("element", .string b.element)]

def layout : Layout := ⟨["list", "element"], []⟩

def ofValue? (v : Value) : Option Binding := do
  guard (layout.admits v)
  let list ← (v.part? layout "list").bind Value.string?
  let element ← (v.part? layout "element").bind Value.string?
  some ⟨list, element⟩

end Binding

namespace Node

mutual

def toValue : Node → Value
  | leaf worker args span =>
    .object ([("t", .string "Leaf"), ("worker", .string worker),
      ("args", .array (args.map Arg.toValue))] ++ span.field)
  | sequence steps span =>
    .object ([("t", .string "Sequence"), ("steps", .array (toValues steps))] ++ span.field)
  | batch bindings body span =>
    .object ([("t", .string "Batch"), ("bindings", .array (bindings.map Binding.toValue)),
      ("body", body.toValue)] ++ span.field)
  | call name args none span =>
    .object ([("t", .string "Call"), ("name", .string name),
      ("args", .array (args.map Arg.toValue))] ++ span.field)
  | call name args (some nested) span =>
    .object ([("t", .string "Call"), ("name", .string name),
      ("args", .array (args.map Arg.toValue)), ("nested", nested.toValue)] ++ span.field)

def toValues : List Node → List Value
  | [] => []
  | n :: ns => n.toValue :: toValues ns

end

inductive Kind where
  | leaf
  | sequence
  | batch
  | call
deriving DecidableEq

namespace Kind

def all : List Kind := [leaf, sequence, batch, call]

def tag : Kind → String
  | leaf => "Leaf"
  | sequence => "Sequence"
  | batch => "Batch"
  | call => "Call"

def layout : Kind → Layout
  | leaf => ⟨["t", "worker", "args"], ["span"]⟩
  | sequence => ⟨["t", "steps"], ["span"]⟩
  | batch => ⟨["t", "bindings", "body"], ["span"]⟩
  | call => ⟨["t", "name", "args"], ["nested", "span"]⟩

/-- The kind of a tree by its tag, which inside of another tree may be a number. -/
def ofTag? (isInner : Bool) : Value → Option Kind
  | .string s => all.find? fun k => k.tag = s
  | .number (.integer (.ofNat n)) => if isInner then all[n]? else none
  | _ => none

def tagLayout : Layout := ⟨["t"], []⟩

/-- The kind of a record of a tree, if the record has the form that goes with it. -/
def ofValue? (isInner : Bool) (v : Value) : Option Kind := do
  let k ← (v.part? tagLayout "t").bind (ofTag? isInner)
  if k.layout.admits v then some k else none

end Kind

/-- The arguments among the fields of a record. -/
def argsOf? (l : Layout) (v : Value) : Option (List Arg) :=
  ((v.part? l "args").bind Value.items?).bind (·.mapM Arg.ofValue?)

def bindingsOf? (l : Layout) (v : Value) : Option (List Binding) :=
  ((v.part? l "bindings").bind Value.items?).bind (·.mapM Binding.ofValue?)

mutual

def read? (isInner : Bool) (v : Value) : Option Node := do
  let kind ← Kind.ofValue? isInner v
  let span ← Span.partOf? kind.layout v
  match kind with
  | .leaf =>
    let worker ← (v.part? Kind.leaf.layout "worker").bind Value.string?
    let args ← argsOf? Kind.leaf.layout v
    some (leaf worker args span)
  | .sequence =>
    match _h : v.part? Kind.sequence.layout "steps" with
    | some (.array steps) => (readAll? steps).map (sequence · span)
    | _ => none
  | .batch =>
    let bindings ← bindingsOf? Kind.batch.layout v
    match _h : v.part? Kind.batch.layout "body" with
    | some body => (read? true body).map (batch bindings · span)
    | none => none
  | .call =>
    let name ← (v.part? Kind.call.layout "name").bind Value.string?
    let args ← argsOf? Kind.call.layout v
    match _h : v.part? Kind.call.layout "nested" with
    | none => some (call name args none span)
    | some .null => some (call name args none span)
    | some nested => (read? true nested).map fun n => call name args (some n) span
termination_by sizeOf v
decreasing_by
  · have := Value.sizeOf_part? _h
    simp at this
    omega
  · exact Value.sizeOf_part? _h
  · exact Value.sizeOf_part? _h

def readAll? : List Value → Option (List Node)
  | [] => some []
  | v :: vs => do
    let n ← read? true v
    let ns ← readAll? vs
    some (n :: ns)
termination_by vs => sizeOf vs

end

def ofValue? (v : Value) : Option Node := read? false v

end Node

namespace Definition

def toValue (d : Definition) : Value :=
  .object ([("name", .string d.name), ("parameters", .array (d.parameters.map .string)),
    ("body", d.body.toValue)] ++ Value.present [("version", d.version.map .string)] ++ d.span.field)

def layout : Layout := ⟨["name", "parameters", "body"], ["version", "span"]⟩

/-- The version may be null or missing. -/
def versionOf? (v : Value) : Option (Option String) :=
  match v.part? layout "version" with
  | none => some none
  | some .null => some none
  | some w => w.string?.map some

def ofValue? (v : Value) : Option Definition := do
  guard (layout.admits v)
  let name ← (v.part? layout "name").bind Value.string?
  let parameters ← (v.part? layout "parameters").bind Value.strings?
  let body ← (v.part? layout "body").bind Node.ofValue?
  let version ← versionOf? v
  let span ← Span.partOf? layout v
  some ⟨name, parameters, body, version, span⟩

end Definition

end Workflow
