import Workflow.Proofs.Forest.Table
import Workflow.Proofs.Plan.Accepted
import Workflow.Proofs.Review.Expansion

/-!
The rule on reads is exact. In a body that invokes workers only, the rule finds something if and
only if there are values for the parameters with which the body reads a name that has none. Such
values are lists of one element in one another, at least as deep as the body: with them every
batch has one row, so nothing else can fail, and every tree of the body is come to.
-/

namespace Workflow

/-- A list of one element that is such a list in turn, so many lists deep. -/
def singly : Nat → Value
  | 0 => .null
  | depth + 1 => .array [singly depth]

/-- Exactly the names of a list have values, and each value is lists of one element, so many lists
deep or more. -/
structure Scope.Deep (s : Scope) (depth : Nat) (bound : List String) : Prop where
  names : ∀ x, (SortedMap.get? s x).isSome = true ↔ x ∈ bound
  values : ∀ x v, SortedMap.get? s x = some v → ∃ k, depth ≤ k ∧ v = singly k

/-- Either nothing is found and there is a value, or something is found and a name is read that
is not bound. -/
def Settles {α : Type} (found : List Finding) (x : Except CompileError α) : Prop :=
  (found = [] ∧ ∃ a, x = .ok a) ∨ (found ≠ [] ∧ ∃ name, x = .error (.unbound name))

/-- What a node invokes is a worker. -/
def Node.Plain (r : Registry) (n : Node) : Prop :=
  ∀ name, n.invoked? = some name → r.resolve name = some .worker

/-! ### Computations that settle -/

namespace Settles

variable {α β : Type} {found more : List Finding} {x : Except CompileError α}

theorem pure (a : α) : Settles [] (Pure.pure a : Except CompileError α) :=
  .inl ⟨rfl, a, rfl⟩

/-- One computation after another settles where both do; the second need not if the first fails. -/
theorem bind {f : α → Except CompileError β} (hx : Settles found x)
    (hf : ∀ a, x = .ok a → Settles more (f a)) : Settles (found ++ more) (x >>= f) := by
  rcases hx with ⟨rfl, a, rfl⟩ | ⟨hne, name, rfl⟩
  · exact hf a rfl
  · exact .inr ⟨List.append_ne_nil_of_left_ne_nil hne _, name, rfl⟩

theorem map {f : α → β} (hx : Settles found x) :
    Settles found (x >>= fun a => Pure.pure (f a)) := by
  have h := hx.bind fun a _ => Settles.pure (f a)
  rwa [List.append_nil] at h

end Settles

theorem unboundNames_cons (complaint : String → Complaint) (bound : List String) (span : Span)
    (name : String) (names : List String) :
    unboundNames complaint bound span (name :: names) =
      unboundNames complaint bound span [name] ++ unboundNames complaint bound span names := by
  by_cases h : name ∈ bound <;> simp [unboundNames, h]

/-! ### Scopes -/

namespace Scope.Deep

variable {s : Scope} {depth depth' : Nat} {bound names : List String} {values : List Value}
  {bindings : List Binding} {lists : List (List Value)} {span : Span}

theorem mono (h : s.Deep depth bound) (hle : depth' ≤ depth) : s.Deep depth' bound where
  names := h.names
  values := by
    intro x v hv
    obtain ⟨k, hk, rfl⟩ := h.values x v hv
    exact ⟨k, Nat.le_trans hle hk, rfl⟩

theorem bind (h : s.Deep depth bound) (hlen : names.length = values.length)
    (hv : ∀ v ∈ values, ∃ k, depth ≤ k ∧ v = singly k) :
    (s.bind names values).Deep depth (names ++ bound) where
  names := by
    intro x
    rw [Scope.bind, SortedMap.get?_insertAll_isSome, h.names,
      List.map_fst_zip (Nat.le_of_eq hlen), List.mem_append, or_comm]
  values := by
    intro x v hx
    rcases SortedMap.mem_of_get?_insertAll hx with hmem | hx
    · exact hv v (List.of_mem_zip hmem).2
    · exact h.values x v hx

theorem lookup (h : s.Deep depth bound) (complaint : String → Complaint) (span : Span)
    (name : String) : Settles (unboundNames complaint bound span [name]) (s.lookup name) := by
  unfold Scope.lookup
  cases hs : SortedMap.get? s name with
  | none =>
    have hname : name ∉ bound := by
      rw [← h.names, hs]
      exact Bool.false_ne_true
    exact .inr ⟨by simp [unboundNames, hname], name, rfl⟩
  | some v =>
    have hname : name ∈ bound := by
      rw [← h.names, hs]
      rfl
    exact .inl ⟨by simp [unboundNames, hname], v, rfl⟩

theorem evaluate (h : s.Deep depth bound) (complaint : String → Complaint) (span : Span)
    (args : List Arg) :
    Settles (unboundNames complaint bound span (args.filterMap Arg.read?)) (evaluate s args) := by
  induction args with
  | nil => exact .pure []
  | cons a rest ih =>
    obtain ⟨key, source⟩ := a
    cases source with
    | param name =>
      show Settles (unboundNames complaint bound span (name :: rest.filterMap Arg.read?)) _
      rw [unboundNames_cons]
      exact (h.lookup complaint span name).bind fun v _ => ih.map
    | literal v => exact ih.map

/-- What has a value is a list, so reading lists fails only where one has none. -/
theorem batchLists (h : s.Deep (depth + 1) bound) (span : Span) (bindings : List Binding) :
    Settles (unboundNames .unboundList bound span (bindings.map Binding.list))
      (batchLists s bindings) := by
  induction bindings with
  | nil => exact .pure []
  | cons b rest ih =>
    rw [List.map_cons, unboundNames_cons]
    refine (h.lookup .unboundList span b.list).bind fun v hv => ?_
    obtain ⟨k, hk, rfl⟩ := h.values b.list v (lookup_eq_ok_iff.mp hv)
    obtain ⟨k, rfl⟩ := Nat.exists_eq_add_of_le' hk
    exact ih.map

theorem singly_of_batchLists (h : s.Deep (depth + 1) bound)
    (hl : Workflow.batchLists s bindings = .ok lists) :
    ∀ items ∈ lists, ∃ k, depth ≤ k ∧ items = [singly k] := by
  have hlists := batchLists_eq_ok_iff.mp hl
  clear hl
  induction hlists with
  | nil => simp
  | @cons b items bindings lists hb _ ih =>
    refine List.forall_mem_cons.mpr ⟨?_, ih⟩
    obtain ⟨k, hk, hv⟩ := h.values b.list _ hb
    obtain ⟨k, rfl⟩ := Nat.exists_eq_add_of_le' hk
    exact ⟨k + depth, Nat.le_add_left _ _, Value.array.inj hv⟩

end Scope.Deep

/-! ### Trees -/

section Trees

variable {r : Registry} {opened bound : List String} {s : Scope} {depth : Nat}

theorem expandAll_settles {ns : List Node}
    (h : ∀ n ∈ ns, Settles (undefinedReads bound n) (expand r opened s n)) :
    Settles (undefinedReadsOf bound ns) (expandAll r opened s ns) := by
  induction ns with
  | nil =>
    rw [expandAll]
    exact .pure []
  | cons n rest ih =>
    rw [expandAll]
    refine (h n List.mem_cons_self).bind fun f _ => ?_
    exact (ih fun m hm => h m (List.mem_cons_of_mem _ hm)).map

/-- Where values are deep enough, a batch has one row, and its elements are one list less deep. -/
theorem expand_batch_settles {bindings : List Binding} {body : Node} {span : Span}
    (hne : bindings ≠ []) (hs : s.Deep (depth + 1) bound)
    (hbody : ∀ s' : Scope, s'.Deep depth (bindings.map Binding.element ++ bound) →
      Settles (undefinedReads (bindings.map Binding.element ++ bound) body)
        (expand r opened s' body)) :
    Settles (undefinedReads bound (.batch bindings body span))
      (expand r opened s (.batch bindings body span)) := by
  rw [expand, undefinedReads, if_neg (mt List.isEmpty_iff.mp hne)]
  refine (hs.batchLists span bindings).bind fun lists hl => ?_
  have hlists := hs.singly_of_batchLists hl
  have hlen := (batchLists_eq_ok_iff.mp hl).length_eq
  have hone : ∀ items ∈ lists, items.length = 1 := by
    intro items hi
    obtain ⟨k, -, rfl⟩ := hlists items hi
    rfl
  have hcount : (lists.head?.map List.length).getD 0 = 1 := by
    refine lengths_eq_first ?_ hone
    rintro rfl
    exact hne (List.length_eq_zero_iff.mp hlen)
  have hc : checkLengths 1 bindings lists = .ok () := (checkLengths_eq_ok_iff hlen).mpr hone
  have hrow : lists.filterMap List.head? ∈ rows 1 lists := List.mem_cons_self
  have hdeep : (s.bind (bindings.map Binding.element) (lists.filterMap List.head?)).Deep depth
      (bindings.map Binding.element ++ bound) := by
    refine (hs.mono (Nat.le_succ depth)).bind ?_ fun v hv => ?_
    · rw [List.length_map, length_of_mem_rows hl hc _ hrow]
    · obtain ⟨items, hi, hv⟩ := List.mem_filterMap.mp hv
      obtain ⟨k, hk, rfl⟩ := hlists items hi
      exact ⟨k, hk, (Option.some.inj hv).symm⟩
  simp only [hcount, hc]
  exact (hbody _ hdeep).map.map

/-- Where values are as deep as a tree has nodes, its expansion fails exactly where the rule finds
something, and then for a name that is not bound. -/
theorem expand_settles {n : Node} (hwhole : n.All Node.Whole) (hplain : n.All (Node.Plain r))
    (hdepth : n.all.length ≤ depth) (hs : s.Deep depth bound) :
    Settles (undefinedReads bound n) (expand r opened s n) := by
  induction opened, n using expansion_induction r generalizing s depth bound with
  | sequence opened steps span ih =>
    obtain ⟨hne, hwhole⟩ := Node.all_sequence_iff.mp hwhole
    obtain ⟨-, hplain⟩ := Node.all_sequence_iff.mp hplain
    rw [expand, undefinedReads, if_neg (mt List.isEmpty_iff.mp hne)]
    refine expandAll_settles fun n hn => ih n hn (hwhole n hn) (hplain n hn) ?_ hs
    have := Node.length_all_le_allOf hn
    rw [Node.all, List.length_cons] at hdepth
    omega
  | leaf opened worker args span =>
    have hw := Registry.hasWorker_of_resolve (hplain.self worker rfl)
    rw [expand, undefinedReads, if_pos hw]
    exact (hs.evaluate .undefinedParameter span args).map
  | batch opened bindings body span ih =>
    obtain ⟨hne, hwhole⟩ := Node.all_batch_iff.mp hwhole
    obtain ⟨-, hplain⟩ := Node.all_batch_iff.mp hplain
    -- The body has a node less than the batch, and what is bound in it is one list less deep.
    rw [Node.all, List.length_cons] at hdepth
    exact expand_batch_settles hne (hs.mono hdepth) fun s' hs' =>
      ih hwhole hplain (Nat.le_refl _) hs'
  | call opened name args nested span ihd ihn =>
    obtain ⟨-, hwhole⟩ := Node.all_call_iff.mp hwhole
    obtain ⟨hname, hplain⟩ := Node.all_call_iff.mp hplain
    have hres := hname name rfl
    rw [expand_worker (Registry.resolve_eq_worker hres),
      if_pos (Registry.hasWorker_of_resolve hres)]
    cases nested with
    | none =>
      rw [undefinedReads]
      exact (hs.evaluate .undefinedParameter span args).map
    | some body =>
      rw [Node.all, List.length_cons] at hdepth
      rw [undefinedReads]
      refine (hs.evaluate .undefinedParameter span args).bind fun values _ => ?_
      exact (ihn body rfl (hwhole body rfl) (hplain body rfl) (by omega) hs).map

end Trees

/-! ### Bodies that invoke workers only -/

section Plain

variable {r : Registry} {n m : Node}

theorem Node.Plain.resolves (h : n.Plain r) : n.Resolves r := by
  cases n with
  | leaf worker args span => exact Registry.hasWorker_of_resolve (h worker rfl)
  | call name args nested span => exact Option.isSome_iff_exists.mpr ⟨_, h name rfl⟩
  | sequence => trivial
  | batch => trivial

/-- No superworker is opened where only workers are invoked. -/
theorem Reaches.mem_all (h : Reaches r n m) (hplain : n.All (Node.Plain r)) : m ∈ n.all := by
  induction h with
  | inside hm => exact hm
  | through _ hd _ ih => cases (Registry.resolve_eq_worker (hplain _ ih _ rfl)).symm.trans hd

theorem resolveNames_of_plain (hplain : n.All (Node.Plain r)) : resolveNames r n = .ok () :=
  resolveNames_eq_ok_iff.mpr fun m hm => (hplain m (hm.mem_all hplain)).resolves

theorem Node.all_plain_iff :
    n.All (Node.Plain r) ↔ ∀ name ∈ n.invoked, r.resolve name = some .worker := by
  rw [Node.invoked]
  constructor
  · intro h name hname
    obtain ⟨m, hm, hmn⟩ := List.mem_filterMap.mp hname
    exact h m hm name hmn
  · intro h m hm name hmn
    exact h name (List.mem_filterMap.mpr ⟨m, hm, hmn⟩)

end Plain

/-- There are values for any names that are so many lists deep. -/
theorem Scope.exists_deep (depth : Nat) (names : List String) :
    ∃ s : Scope, s.Deep depth names := by
  have hempty : Deep SortedMap.empty depth [] := ⟨by simp [SortedMap.get?_empty], nofun⟩
  have h := hempty.bind (names.length_map fun _ => singly depth).symm fun v hv => by
    obtain ⟨_, _, rfl⟩ := List.mem_map.mp hv
    exact ⟨depth, Nat.le_refl _, rfl⟩
  rw [List.append_nil] at h
  exact ⟨_, h⟩

/-- In a body that invokes workers only, the rule on reads finds something if and only if there are
values for exactly the parameters with which compiling fails for a name that is not bound. -/
theorem undefinedParameter_exact {r : Registry} {d : Definition} (o : Option Registry)
    (hwhole : d.body.All Node.Whole)
    (hworkers : ∀ name ∈ d.body.invoked, r.resolve name = some .worker) :
    ReviewRule.findings o d .undefinedParameter ≠ [] ↔
      ∃ args : Scope, (∀ x, (SortedMap.get? args x).isSome = true ↔ x ∈ d.parameters) ∧
        ∃ name, compile r args d.body = .error (.unbound name) := by
  have hplain := Node.all_plain_iff.mpr hworkers
  have hcompile (args : Scope) (name : String) : compile r args d.body = .error (.unbound name) ↔
      expand r [] args d.body = .error (.unbound name) := by
    rw [compile_eq_expand, resolveNames_of_plain hplain]
    exact Except.map_eq_error_iff
  simp only [hcompile]
  rw [ReviewRule.findings]
  constructor
  · intro hfound
    obtain ⟨args, hargs⟩ := Scope.exists_deep d.body.all.length d.parameters
    have h : Settles (undefinedReads d.parameters d.body) (expand r [] args d.body) :=
      expand_settles hwhole hplain (Nat.le_refl _) hargs
    obtain ⟨hnone, -⟩ | ⟨-, hfail⟩ := h
    · exact absurd hnone hfound
    · exact ⟨args, hargs.names, hfail⟩
  · intro h hnone
    obtain ⟨args, hargs, name, hfail⟩ := h
    have hsound : d.body.Sound r d.parameters :=
      ⟨hnone, hwhole, fun m hm => (hplain m hm).resolves⟩
    refine expand_error_unreviewed (fun callee d' hcall hd => ?_) hsound
      (fun x hx => (hargs x).mpr hx) hfail
    obtain ⟨args, nested, span, hcall⟩ := hcall
    have hworker := hplain _ (hcall.mem_all hplain) callee rfl
    cases (Registry.resolve_eq_worker hworker).symm.trans hd

/-- A body that reads a name which neither the parameters nor the batch around it bind. -/
def announce : Definition where
  name := "Announce"
  parameters := ["ids"]
  body := .batch [⟨"ids", "id"⟩] (.leaf "Notify" [.param "id", .param "team"] Span.zero) Span.zero
  version := none
  span := Span.zero

theorem announce_unbound :
    ∃ args : Scope, (∀ x, (SortedMap.get? args x).isSome = true ↔ x ∈ announce.parameters) ∧
      ∃ name, compile notifier args announce.body = .error (.unbound name) := by
  refine (undefinedParameter_exact none ?_ ?_).mp ?_
  · simp [announce, Node.All, Node.all, Node.Whole]
  · intro name hname
    obtain rfl : "Notify" = name := by
      simpa [announce, Node.invoked, Node.all, Node.invoked?] using hname
    rfl
  · decide

end Workflow
