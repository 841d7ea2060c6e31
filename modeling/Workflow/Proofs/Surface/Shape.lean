import Workflow.Proofs.Data.Except
import Workflow.Surface.Reading

/-!
The shape of the trees in a definition file: every sequence has steps, and every batch binds a list.
-/

namespace Workflow

namespace Node

/-- A property of the node and of every node below it. -/
def All (P : Node → Prop) (n : Node) : Prop := ∀ m ∈ n.all, P m

/-- A sequence has steps, and a batch binds a list. -/
def Whole : Node → Prop
  | sequence steps _ => steps ≠ []
  | batch bindings _ _ => bindings ≠ []
  | _ => True

section All

variable {P : Node → Prop} {span : Span}

theorem All.self {n : Node} (h : n.All P) : P n := h n (mem_all_self n)

theorem forall_mem_allOf {ns : List Node} :
    (∀ m ∈ allOf ns, P m) ↔ ∀ n ∈ ns, n.All P := by
  induction ns with
  | nil => simp [allOf]
  | cons n ns ih =>
    rw [allOf, List.forall_mem_append, ih, List.forall_mem_cons]
    rfl

theorem all_leaf_iff {worker : String} {args : List Arg} :
    (leaf worker args span).All P ↔ P (leaf worker args span) := by
  simp [All, all]

theorem all_sequence_iff {steps : List Node} :
    (sequence steps span).All P ↔ P (sequence steps span) ∧ ∀ n ∈ steps, n.All P := by
  rw [All, all, List.forall_mem_cons, forall_mem_allOf]

theorem all_batch_iff {bindings : List Binding} {body : Node} :
    (batch bindings body span).All P ↔ P (batch bindings body span) ∧ body.All P := by
  rw [All, all, List.forall_mem_cons]
  rfl

theorem all_call_iff {name : String} {args : List Arg} {nested : Option Node} :
    (call name args nested span).All P ↔
      P (call name args nested span) ∧ ∀ body, nested = some body → body.All P := by
  cases nested with
  | none => simp [All, all]
  | some body =>
    rw [All, all, List.forall_mem_cons]
    simp [All]

end All

end Node

namespace Surface

theorem assemble_whole {holder : Holder} {span : Span} {nodes : List Node} {n : Node}
    (h : assemble holder span nodes = .ok n) (hw : ∀ m ∈ nodes, m.All Node.Whole) :
    n.All Node.Whole := by
  match nodes with
  | [] => cases h
  | [m] =>
    cases h
    exact hw n (List.mem_singleton_self n)
  | m :: m' :: rest =>
    cases h
    exact Node.all_sequence_iff.mpr ⟨List.cons_ne_nil m _, hw⟩

mutual

theorem Statement.toNode_whole {lines : Lines} {n : Node} :
    (s : Statement) → s.toNode lines = .ok n → n.All Node.Whole
  | .batch phrases body e => by
    intro h
    simp only [Statement.toNode, Except.bind_eq_ok_iff] at h
    obtain ⟨bindings, _, node, hnode, h⟩ := h
    split at h
    · cases h
    · rename_i hne
      cases h
      have hbody : node.All Node.Whole := body.toNode_whole hnode
      exact Node.all_batch_iff.mpr ⟨by simpa [Node.Whole] using hne, hbody⟩
  | .call name args none e => by
    intro h
    simp only [Statement.toNode, Except.bind_eq_ok_iff] at h
    obtain ⟨args, _, h⟩ := h
    cases h
    exact Node.all_call_iff.mpr ⟨trivial, nofun⟩
  | .call name args (some block) e => by
    intro h
    simp only [Statement.toNode, Except.bind_eq_ok_iff] at h
    obtain ⟨args, _, nested, hnested, h⟩ := h
    cases h
    refine Node.all_call_iff.mpr ⟨trivial, fun body hbody => ?_⟩
    cases hbody
    exact block.toNode_whole hnested

theorem Block.toNode_whole {lines : Lines} {holder : Holder} {n : Node} :
    (b : Block) → b.toNode lines holder = .ok n → n.All Node.Whole
  | .mk statements e => by
    intro h
    simp only [Block.toNode, Except.bind_eq_ok_iff] at h
    obtain ⟨nodes, hnodes, h⟩ := h
    exact assemble_whole h (toNodes_whole statements hnodes)

theorem toNodes_whole {lines : Lines} {nodes : List Node} :
    (statements : List Statement) → toNodes lines statements = .ok nodes →
      ∀ m ∈ nodes, m.All Node.Whole
  | [] => by
    intro h
    cases h
    simp
  | s :: rest => by
    intro h
    simp only [toNodes, Except.bind_eq_ok_iff] at h
    obtain ⟨n, hn, ns, hns, h⟩ := h
    cases h
    exact List.forall_mem_cons.mpr ⟨s.toNode_whole hn, toNodes_whole rest hns⟩

end

theorem DefinitionPhrase.toDefinition_whole {lines : Lines} {p : DefinitionPhrase}
    {d : Definition} (h : p.toDefinition lines = .ok d) : d.body.All Node.Whole := by
  simp only [DefinitionPhrase.toDefinition, Except.bind_eq_ok_iff] at h
  obtain ⟨parameters, _, body, hbody, h⟩ := h
  cases h
  exact p.body.toNode_whole hbody

theorem readItems_whole {lines : Lines} {items : List Item} {file : DefinitionFile}
    (h : readItems lines items = .ok file) : ∀ d ∈ file.definitions, d.body.All Node.Whole := by
  induction items generalizing file with
  | nil =>
    cases h
    simp
  | cons item rest ih =>
    cases item with
    | workers names =>
      simp only [readItems, Except.bind_eq_ok_iff] at h
      obtain ⟨file', hfile, h⟩ := h
      have hrest := ih hfile
      cases h
      exact hrest
    | definition phrase =>
      simp only [readItems, Except.bind_eq_ok_iff] at h
      obtain ⟨d, hd, file', hfile, h⟩ := h
      have hrest := ih hfile
      cases h
      exact List.forall_mem_cons.mpr ⟨phrase.toDefinition_whole hd, hrest⟩

end Surface

/-- No definition of a file that can be read has an empty part. -/
theorem parseFile_whole {source : String} {file : DefinitionFile}
    (h : parseFile source = .ok file) : ∀ d ∈ file.definitions, d.body.All Node.Whole := by
  unfold parseFile at h
  simp only at h
  split at h
  · cases h
  · exact Surface.readItems_whole h

end Workflow
