import Mathlib.Data.List.Nodup
import Workflow.Proofs.Data.SortedMap
import Workflow.Proofs.Library.Load

/-!
The order of definition files does not matter. A load succeeds exactly when every file can be
parsed and the names of all workers and all definitions get along, and it then holds these workers
and definitions and the findings of each file; none of this tells in which order they came.
-/

namespace Workflow

namespace Registry

variable {r r' : Registry}

def withWorkers (r : Registry) (names : List String) : Registry :=
  { r with workers := r.workers.insertAll (names.map fun name => (name, ())) }

def withDefinitions (r : Registry) (ds : List Definition) : Registry :=
  { r with definitions := r.definitions.insertAll (ds.map fun d => (d.name, d)) }

/-- Workers may have these names beside the definitions that are there. -/
def AdmitsWorkers (r : Registry) (names : List String) : Prop :=
  ∀ name ∈ names, isStructuralName name = false ∧ r.definitions.contains name = false

/-- Definitions may have their names beside each other and what is there. -/
structure AdmitsDefinitions (r : Registry) (ds : List Definition) : Prop where
  free : ∀ d ∈ ds, isStructuralName d.name = false ∧ r.hasWorker d.name = false ∧
    r.definitions.contains d.name = false
  nodup : (ds.map Definition.name).Nodup

theorem addWorker_eq_ok_iff {name : String} :
    r.addWorker name = .ok r' ↔ (isStructuralName name = false ∧
      r.definitions.contains name = false) ∧
        r' = { r with workers := r.workers.insert name () } := by
  cases hs : isStructuralName name <;> cases hd : r.definitions.contains name <;>
    simp [addWorker, hs, hd, eq_comm]

theorem addDefinition_eq_ok_iff {d : Definition} :
    r.addDefinition d = .ok r' ↔ (isStructuralName d.name = false ∧
      r.hasWorker d.name = false ∧ r.definitions.contains d.name = false) ∧
        r' = { r with definitions := r.definitions.insert d.name d } := by
  cases hs : isStructuralName d.name <;> cases hw : r.hasWorker d.name <;>
    cases hd : r.definitions.contains d.name <;> simp [addDefinition, hs, hw, hd, eq_comm]

theorem addWorkers_eq_ok_iff {names : List String} :
    r.addWorkers names = .ok r' ↔ r.AdmitsWorkers names ∧ r' = r.withWorkers names := by
  induction names generalizing r with
  | nil =>
    rw [addWorkers, Except.ok.injEq]
    exact ⟨fun h => ⟨List.forall_mem_nil _, h.symm⟩, fun h => h.2.symm⟩
  | cons name rest ih =>
    have hcons : r.addWorkers (name :: rest) = .ok r' ↔
        ∃ r₁, r.addWorker name = .ok r₁ ∧ r₁.addWorkers rest = .ok r' := by
      rw [addWorkers]
      cases r.addWorker name <;> simp
    rw [hcons, AdmitsWorkers, List.forall_mem_cons]
    constructor
    · intro hx
      obtain ⟨r₁, hfirst, hrest⟩ := hx
      obtain ⟨hname, rfl⟩ := addWorker_eq_ok_iff.mp hfirst
      obtain ⟨hnames, rfl⟩ := ih.mp hrest
      exact ⟨⟨hname, hnames⟩, rfl⟩
    · intro hx
      obtain ⟨⟨hname, hnames⟩, rfl⟩ := hx
      exact ⟨_, addWorker_eq_ok_iff.mpr ⟨hname, rfl⟩, ih.mpr ⟨hnames, rfl⟩⟩

theorem addDefinitions_eq_ok_iff {ds : List Definition} :
    r.addDefinitions ds = .ok r' ↔ r.AdmitsDefinitions ds ∧ r' = r.withDefinitions ds := by
  induction ds generalizing r with
  | nil =>
    rw [addDefinitions, Except.ok.injEq]
    exact ⟨fun h => ⟨⟨List.forall_mem_nil _, List.nodup_nil⟩, h.symm⟩, fun h => h.2.symm⟩
  | cons d rest ih =>
    rw [addDefinitions, Except.bind_eq_ok_iff]
    constructor
    · intro hx
      obtain ⟨r₁, hfirst, hrest⟩ := hx
      obtain ⟨hname, rfl⟩ := addDefinition_eq_ok_iff.mp hfirst
      obtain ⟨hnames, rfl⟩ := ih.mp hrest
      have hapart : ∀ e ∈ rest, e.name ≠ d.name ∧ r.definitions.contains e.name = false :=
        fun e he => SortedMap.contains_insert_eq_false_iff.mp (hnames.free e he).2.2
      refine ⟨⟨List.forall_mem_cons.mpr ⟨hname, fun e he => ?_⟩, ?_⟩, rfl⟩
      · exact ⟨(hnames.free e he).1, (hnames.free e he).2.1, (hapart e he).2⟩
      · refine List.nodup_cons.mpr ⟨fun hd => ?_, hnames.nodup⟩
        obtain ⟨e, he, hname⟩ := List.mem_map.mp hd
        exact (hapart e he).1 hname
    · intro hx
      obtain ⟨⟨hfree, hnodup⟩, rfl⟩ := hx
      obtain ⟨hname, hrest⟩ := List.forall_mem_cons.mp hfree
      obtain ⟨hnot, hnodup⟩ := List.nodup_cons.mp hnodup
      refine ⟨_, addDefinition_eq_ok_iff.mpr ⟨hname, rfl⟩, ih.mpr ⟨⟨fun e he => ?_, hnodup⟩, rfl⟩⟩
      obtain ⟨hs, hw, hd⟩ := hrest e he
      refine ⟨hs, hw, SortedMap.contains_insert_eq_false_iff.mpr ⟨fun hname => hnot ?_, hd⟩⟩
      exact List.mem_map.mpr ⟨e, he, hname⟩

theorem addDefinitions_append {ds ds' : List Definition} :
    r.addDefinitions (ds ++ ds') = r.addDefinitions ds >>= (·.addDefinitions ds') := by
  induction ds generalizing r with
  | nil => rfl
  | cons d rest ih =>
    simp only [List.cons_append, addDefinitions, bind_assoc]
    exact bind_congr fun r₁ => ih

end Registry

namespace Library

variable {r r' : Registry} {files files' : List SourceFile} {workers workers' : List String}

/-- What a file declares; nothing if it cannot be parsed. -/
def contents (f : SourceFile) : DefinitionFile := (parseFile f.source).toOption.getD ⟨[], []⟩

def Parses (f : SourceFile) : Prop := ∃ file, parseFile f.source = .ok file

def parsed (f : SourceFile) : ParsedFile := stamp f (contents f)

/-- The findings of one file. -/
def diagnosticsOf (r : Registry) (f : SourceFile) : List Diagnostic := diagnose r (parsed f)

def allWorkers (files : List SourceFile) (workers : List String) : List String :=
  workers ++ files.flatMap fun f => (contents f).workers

def allDefinitions (files : List SourceFile) : List Definition :=
  files.flatMap fun f => (parsed f).definitions

/-- Workers are registered before all definitions. -/
def registryOf (files : List SourceFile) (workers : List String) : Registry :=
  (Registry.empty.withWorkers (allWorkers files workers)).withDefinitions (allDefinitions files)

/-- What files and workers have to be like so that they can be loaded. -/
structure Loadable (files : List SourceFile) (workers : List String) : Prop where
  parses : ∀ f ∈ files, Parses f
  plain : ∀ name ∈ allWorkers files workers, isStructuralName name = false
  free : ∀ d ∈ allDefinitions files,
    isStructuralName d.name = false ∧ d.name ∉ allWorkers files workers
  nodup : ((allDefinitions files).map Definition.name).Nodup

theorem contents_of_parseFile {f : SourceFile} {file : DefinitionFile}
    (h : parseFile f.source = .ok file) : contents f = file := by
  rw [contents, h]
  rfl

theorem parseFiles_eq_ok_iff {out : List ParsedFile} :
    parseFiles r files = .ok (r', out) ↔ (∀ f ∈ files, Parses f) ∧
      r.AdmitsWorkers (files.flatMap fun f => (contents f).workers) ∧
      r' = r.withWorkers (files.flatMap fun f => (contents f).workers) ∧
      out = files.map parsed := by
  induction files generalizing r r' out with
  | nil =>
    rw [parseFiles, Except.ok.injEq, Prod.mk.injEq]
    constructor
    · intro hx
      obtain ⟨rfl, rfl⟩ := hx
      exact ⟨List.forall_mem_nil _, List.forall_mem_nil _, rfl, rfl⟩
    · intro hx
      exact ⟨hx.2.2.1.symm, hx.2.2.2.symm⟩
  | cons f rest ih =>
    simp only [parseFiles, Except.bind_eq_ok_iff, Except.mapError_eq_ok_iff,
      Except.pure_eq_ok_iff, Registry.addWorkers_eq_ok_iff, List.forall_mem_cons,
      List.flatMap_cons, List.map_cons]
    constructor
    · intro hx
      obtain ⟨file, hfile, r₁, ⟨hnames, rfl⟩, ⟨r₂, more⟩, hmore, he⟩ := hx
      obtain ⟨rfl, rfl⟩ := Prod.mk.inj he
      obtain ⟨hparses, hadmits, rfl, rfl⟩ := ih.mp hmore
      have hcontents := contents_of_parseFile hfile
      rw [parsed, hcontents]
      refine ⟨⟨⟨file, hfile⟩, hparses⟩, List.forall_mem_append.mpr ⟨hnames, hadmits⟩, ?_, rfl⟩
      simp only [Registry.withWorkers, List.map_append, SortedMap.insertAll_append]
    · intro hx
      obtain ⟨⟨⟨file, hfile⟩, hparses⟩, hadmits, rfl, rfl⟩ := hx
      have hcontents := contents_of_parseFile hfile
      obtain ⟨hnames, hrest⟩ := List.forall_mem_append.mp hadmits
      rw [hcontents] at hnames
      refine ⟨file, hfile, _, ⟨hnames, rfl⟩, _, ih.mpr ⟨hparses, hrest, rfl, rfl⟩, ?_⟩
      simp only [parsed, hcontents, Registry.withWorkers, List.map_append,
        SortedMap.insertAll_append]

theorem defineFiles_eq_ok_iff {parsed : List ParsedFile} :
    defineFiles r parsed = .ok r' ↔
      r.addDefinitions (parsed.flatMap ParsedFile.definitions) = .ok r' := by
  induction parsed generalizing r with
  | nil =>
    rw [defineFiles, List.flatMap_nil, Registry.addDefinitions, Except.ok.injEq, Except.ok.injEq]
  | cons f rest ih =>
    simp only [defineFiles, List.flatMap_cons, Registry.addDefinitions_append,
      Except.bind_eq_ok_iff, Except.mapError_eq_ok_iff, ih]

theorem hasWorker_withWorkers {names : List String} {name : String} :
    (Registry.empty.withWorkers names).hasWorker name = true ↔ name ∈ names := by
  rw [Registry.hasWorker, SortedMap.contains, Registry.withWorkers,
    SortedMap.get?_insertAll_isSome]
  simp [Registry.empty, SortedMap.get?_empty]

/-- A load that succeeds holds all workers and definitions, and the findings file by file. -/
theorem load_eq_ok_iff {l : Library} :
    load files workers = .ok l ↔ Loadable files workers ∧
      l = ⟨registryOf files workers,
        files.flatMap (diagnosticsOf (registryOf files workers))⟩ := by
  have hdefs : (files.map parsed).flatMap ParsedFile.definitions = allDefinitions files :=
    List.flatMap_map _ _ _
  have hdiagnose : ∀ r, (files.map parsed).flatMap (diagnose r) = files.flatMap (diagnosticsOf r) :=
    fun r => List.flatMap_map _ _ _
  have hall : (Registry.empty.withWorkers workers).withWorkers
      (files.flatMap fun f => (contents f).workers) =
        Registry.empty.withWorkers (allWorkers files workers) := by
    simp only [Registry.withWorkers, allWorkers, List.map_append, SortedMap.insertAll_append]
  have hempty : ∀ {ds : SortedMap String Definition} {name : String},
      ds = Registry.empty.definitions →
      ds.contains name = false := by
    rintro ds name rfl
    rfl
  simp only [load, Except.bind_eq_ok_iff, Except.mapError_eq_ok_iff, Except.pure_eq_ok_iff,
    Registry.addWorkers_eq_ok_iff, defineFiles_eq_ok_iff, Registry.addDefinitions_eq_ok_iff]
  constructor
  · intro hx
    obtain ⟨_, ⟨hworkers, rfl⟩, ⟨r₂, out⟩, hparse, r₃, hdefine, rfl⟩ := hx
    obtain ⟨hparses, hnames, rfl, rfl⟩ := parseFiles_eq_ok_iff.mp hparse
    simp only [hall, hdefs] at hdefine
    obtain ⟨hadmits, rfl⟩ := hdefine
    refine ⟨⟨hparses, fun name hname => ?_, fun d hd => ?_, hadmits.nodup⟩, ?_⟩
    · rcases List.mem_append.mp hname with hname | hname
      · exact (hworkers name hname).1
      · exact (hnames name hname).1
    · obtain ⟨hs, hw, -⟩ := hadmits.free d hd
      refine ⟨hs, fun hmem => ?_⟩
      rw [hasWorker_withWorkers.mpr hmem] at hw
      cases hw
    · rw [hdiagnose]
      rfl
  · intro hx
    obtain ⟨hload, rfl⟩ := hx
    have hnames := List.forall_mem_append.mp hload.plain
    -- No definition is registered before the workers are, so none can be in their way.
    refine ⟨_, ⟨fun name hname => ⟨hnames.1 name hname, hempty rfl⟩, rfl⟩, _,
      parseFiles_eq_ok_iff.mpr ⟨hload.parses, fun name hname => ⟨hnames.2 name hname, hempty rfl⟩,
        rfl, rfl⟩, registryOf files workers, ?_, ?_⟩
    · simp only [hall, hdefs]
      refine ⟨⟨fun d hd => ?_, hload.nodup⟩, rfl⟩
      obtain ⟨hs, hw⟩ := hload.free d hd
      have hfree := mt hasWorker_withWorkers.mp hw
      exact ⟨hs, Bool.eq_false_iff.mpr hfree, hempty rfl⟩
    · rw [hdiagnose]

theorem exists_load_iff : (∃ l, load files workers = .ok l) ↔ Loadable files workers := by
  simp [load_eq_ok_iff]

/-! ### Another order -/

section Perm

variable (hf : files.Perm files') (hw : workers.Perm workers')

include hf in
theorem allDefinitions_perm : (allDefinitions files).Perm (allDefinitions files') :=
  hf.flatMap_right _

include hf hw in
theorem allWorkers_perm : (allWorkers files workers).Perm (allWorkers files' workers') :=
  hw.append (hf.flatMap_right _)

include hf hw in
theorem Loadable.perm (h : Loadable files workers) : Loadable files' workers' where
  parses f hfile := h.parses f (hf.mem_iff.mpr hfile)
  plain name hname := h.plain name ((allWorkers_perm hf hw).mem_iff.mpr hname)
  free d hd := by
    obtain ⟨hs, hnot⟩ := h.free d ((allDefinitions_perm hf).mem_iff.mpr hd)
    exact ⟨hs, fun hmem => hnot ((allWorkers_perm hf hw).mem_iff.mpr hmem)⟩
  nodup := ((allDefinitions_perm hf).map _).nodup_iff.mp h.nodup

include hf hw in
theorem registryOf_perm (h : Loadable files workers) :
    registryOf files workers = registryOf files' workers' := by
  have hworkers := (allWorkers_perm hf hw).map fun name => (name, ())
  have hdefinitions := (allDefinitions_perm hf).map fun d => (d.name, d)
  have hsame : ∀ k a b, (k, a) ∈ (allDefinitions files).map (fun d => (d.name, d)) →
      (k, b) ∈ (allDefinitions files).map (fun d => (d.name, d)) → a = b := by
    intro k a b ha hb
    obtain ⟨d, hd, hda⟩ := List.mem_map.mp ha
    obtain ⟨e, he, heb⟩ := List.mem_map.mp hb
    obtain ⟨hdk, rfl⟩ := Prod.mk.inj hda
    obtain ⟨hek, rfl⟩ := Prod.mk.inj heb
    exact List.inj_on_of_nodup_map h.nodup hd he (hdk.trans hek.symm)
  simp only [registryOf, Registry.withWorkers, Registry.withDefinitions,
    SortedMap.insertAll_perm hworkers fun _ _ _ _ _ => rfl,
    SortedMap.insertAll_perm hdefinitions hsame]

include hf hw in
theorem exists_load_perm :
    (∃ l, load files workers = .ok l) ↔ ∃ l, load files' workers' = .ok l := by
  rw [exists_load_iff, exists_load_iff]
  exact ⟨fun h => h.perm hf hw, fun h => h.perm hf.symm hw.symm⟩

include hf hw in
/-- Two loads of the same files and workers, in two orders. -/
theorem load_same {l l' : Library} (hl : load files workers = .ok l)
    (hl' : load files' workers' = .ok l') : l.registry = l'.registry ∧
      l.diagnostics = files.flatMap (diagnosticsOf l.registry) ∧
      l'.diagnostics = files'.flatMap (diagnosticsOf l.registry) ∧
      (l.errors = [] ↔ l'.errors = []) := by
  obtain ⟨h, rfl⟩ := load_eq_ok_iff.mp hl
  obtain ⟨-, rfl⟩ := load_eq_ok_iff.mp hl'
  have hregistry := registryOf_perm hf hw h
  have hdiagnostics := hf.flatMap_right (diagnosticsOf (registryOf files workers))
  refine ⟨hregistry, rfl, by rw [hregistry], ?_⟩
  rw [errors, errors, ← hregistry]
  exact ⟨fun hnil => ((hdiagnostics.filter _).symm.trans (.of_eq hnil)).eq_nil,
    fun hnil => ((hdiagnostics.filter _).trans (.of_eq hnil)).eq_nil⟩

end Perm

/-- Every definition that was loaded comes from a file and carries the digest of that file. -/
theorem registryOf_get? {name : String} {d : Definition}
    (h : (registryOf files workers).get? name = some d) : ∃ f ∈ files,
      ∃ e ∈ (contents f).definitions, d = { e with version := some (Sha256.ofText f.source) } := by
  rcases SortedMap.mem_of_get?_insertAll h with hd | hd
  · obtain ⟨d', hd', hname⟩ := List.mem_map.mp hd
    obtain ⟨-, rfl⟩ := Prod.mk.inj hname
    obtain ⟨f, hf, hd⟩ := List.mem_flatMap.mp hd'
    obtain ⟨e, he, rfl⟩ := List.mem_map.mp hd
    exact ⟨f, hf, e, he, rfl⟩
  · cases hd

end Library

theorem registerDefinitions_toOption {files : List SourceFile} {workers : List String} :
    (registerDefinitions files workers).toOption =
      (Library.load files workers).toOption.bind fun l =>
        if l.errors = [] then some l.registry else none := by
  rw [registerDefinitions]
  cases Library.load files workers with
  | error e => rfl
  | ok l =>
    cases herrors : l.errors with
    | nil => simp [Except.mapError, bind, Except.bind, Except.toOption, herrors, pure, Except.pure]
    | cons e rest =>
      simp [Except.mapError, bind, Except.bind, Except.toOption, herrors, throw, throwThe,
        MonadExceptOf.throw]

theorem registerDefinitions_perm {files files' : List SourceFile} {workers workers' : List String}
    (hf : files.Perm files') (hw : workers.Perm workers') :
    (registerDefinitions files workers).toOption =
      (registerDefinitions files' workers').toOption := by
  have hiff := Library.exists_load_perm hf hw
  rw [registerDefinitions_toOption, registerDefinitions_toOption]
  cases hl : Library.load files workers with
  | ok l =>
    obtain ⟨l', hl'⟩ := hiff.mp ⟨l, hl⟩
    obtain ⟨hregistry, -, -, herrors⟩ := Library.load_same hf hw hl hl'
    simp only [hl', Except.toOption, Option.bind_some, herrors, hregistry]
  | error e =>
    cases hl' : Library.load files' workers' with
    | error e' => rfl
    | ok l' =>
      obtain ⟨l, hl''⟩ := hiff.mpr ⟨l', hl'⟩
      rw [hl] at hl''
      cases hl''

/-- Files and workers in another order load exactly when they did before, into the same registry
and with the same findings file by file. -/
theorem load_perm {files files' : List SourceFile} {workers workers' : List String}
    (hf : files.Perm files') (hw : workers.Perm workers') :
    ((∃ l, Library.load files workers = .ok l) ↔ ∃ l, Library.load files' workers' = .ok l) ∧
    (∀ l l', Library.load files workers = .ok l → Library.load files' workers' = .ok l' →
      l.registry = l'.registry ∧
      (∀ name d, l.registry.get? name = some d → ∃ f ∈ files,
        ∃ e ∈ (Library.contents f).definitions,
          d = { e with version := some (Sha256.ofText f.source) }) ∧
      l.diagnostics = files.flatMap (Library.diagnosticsOf l.registry) ∧
      l'.diagnostics = files'.flatMap (Library.diagnosticsOf l.registry) ∧
      (l.errors = [] ↔ l'.errors = [])) ∧
    (registerDefinitions files workers).toOption =
      (registerDefinitions files' workers').toOption := by
  refine ⟨Library.exists_load_perm hf hw, fun l l' hl hl' => ?_, registerDefinitions_perm hf hw⟩
  obtain ⟨hregistry, hfiles, hfiles', herrors⟩ := Library.load_same hf hw hl hl'
  refine ⟨hregistry, fun name d hd => ?_, hfiles, hfiles', herrors⟩
  obtain ⟨-, rfl⟩ := Library.load_eq_ok_iff.mp hl
  exact Library.registryOf_get? hd

/-- A superworker that calls one of another file. -/
def nightly : SourceFile :=
  ⟨"nightly.sw", "workers Charge superworker Nightly :users do Charge :users Notify end"⟩

def notify : SourceFile := ⟨"notify.sw", "superworker Notify do Audit end"⟩

theorem nightly_load_perm : [nightly, notify].Perm [notify, nightly] ∧
    ["Audit", "Mail"].Perm ["Mail", "Audit"] ∧
    ∃ l l', Library.load [nightly, notify] ["Audit", "Mail"] = .ok l ∧
      Library.load [notify, nightly] ["Mail", "Audit"] = .ok l' ∧ l.registry = l'.registry ∧
      l'.diagnostics = [notify, nightly].flatMap (Library.diagnosticsOf l.registry) := by
  have hf : [nightly, notify].Perm [notify, nightly] := .swap ..
  have hw : ["Audit", "Mail"].Perm ["Mail", "Audit"] := .swap ..
  obtain ⟨hiff, hsame, -⟩ := load_perm hf hw
  obtain ⟨l, hl⟩ : ∃ l, Library.load [nightly, notify] ["Audit", "Mail"] = .ok l := by
    have hsome : (Library.load [nightly, notify] ["Audit", "Mail"]).isOk = true := by
      decide +kernel
    cases h : Library.load [nightly, notify] ["Audit", "Mail"] with
    | ok l => exact ⟨l, rfl⟩
    | error e =>
      rw [h] at hsome
      cases hsome
  obtain ⟨l', hl'⟩ := hiff.mp ⟨l, hl⟩
  obtain ⟨hregistry, -, -, hdiagnostics, -⟩ := hsame l l' hl hl'
  exact ⟨hf, hw, l, l', hl, hl', hregistry, hdiagnostics⟩

end Workflow
