import Workflow.Library.Load
import Workflow.Proofs.Review.Sound

/-!
Where the definitions of a loaded registry come from: each stands in one of the files and has been
reviewed with the registry as it is in the end.
-/

namespace Workflow

namespace Registry

theorem addWorker_definitions {r r' : Registry} {name : String}
    (h : r.addWorker name = .ok r') : r'.definitions = r.definitions := by
  unfold addWorker at h
  split at h
  · cases h
  split at h
  · cases h
  cases h
  rfl

theorem addWorkers_definitions {r r' : Registry} {names : List String}
    (h : r.addWorkers names = .ok r') : r'.definitions = r.definitions := by
  induction names generalizing r with
  | nil =>
    cases h
    rfl
  | cons name rest ih =>
    rw [addWorkers] at h
    split at h
    · cases h
    · rename_i hadd
      rw [ih h, addWorker_definitions hadd]

/-- A new definition is bound to its name, and nothing else changes. -/
theorem addDefinition_get? {r r' : Registry} {d : Definition} (h : r.addDefinition d = .ok r')
    (name : String) : r'.get? name = if name = d.name then some d else r.get? name := by
  unfold addDefinition at h
  split at h
  · cases h
  split at h
  · cases h
  split at h
  · cases h
  cases h
  exact SortedMap.get?_insert _ _ _ _

theorem addDefinitions_get? {r r' : Registry} {ds : List Definition} {name : String}
    {d : Definition} (h : r.addDefinitions ds = .ok r') (hd : r'.get? name = some d) :
    d ∈ ds ∨ r.get? name = some d := by
  induction ds generalizing r with
  | nil =>
    cases h
    exact .inr hd
  | cons e rest ih =>
    rw [addDefinitions, Except.bind_eq_ok_iff] at h
    obtain ⟨r₁, hadd, h⟩ := h
    rcases ih h with hrest | hget
    · exact .inl (List.mem_cons_of_mem _ hrest)
    · rw [addDefinition_get? hadd] at hget
      split at hget
      · cases hget
        exact .inl List.mem_cons_self
      · exact .inr hget

end Registry

namespace Library

def Whole (f : ParsedFile) : Prop := ∀ d ∈ f.definitions, d.body.All Node.Whole

theorem stamp_whole {f : SourceFile} {file : DefinitionFile}
    (h : parseFile f.source = .ok file) : Whole (stamp f file) := by
  intro d hd
  obtain ⟨d', hd', rfl⟩ := List.mem_map.mp hd
  exact parseFile_whole h d' hd'

/-- Parsing files adds no definition yet. -/
theorem parseFiles_eq_ok {r r' : Registry} {files : List SourceFile} {parsed : List ParsedFile}
    (h : parseFiles r files = .ok (r', parsed)) :
    r'.definitions = r.definitions ∧ ∀ f ∈ parsed, Whole f := by
  induction files generalizing r r' parsed with
  | nil =>
    cases h
    simp
  | cons f rest ih =>
    simp only [parseFiles, Except.bind_eq_ok_iff, Except.mapError_eq_ok_iff] at h
    obtain ⟨file, hfile, r₁, hworkers, ⟨r₂, more⟩, hmore, h⟩ := h
    cases h
    obtain ⟨hdefs, hwhole⟩ := ih hmore
    rw [Registry.addWorkers_definitions hworkers] at hdefs
    exact ⟨hdefs, List.forall_mem_cons.mpr ⟨stamp_whole hfile, hwhole⟩⟩

theorem defineFiles_get? {r r' : Registry} {files : List ParsedFile} {name : String}
    {d : Definition} (h : defineFiles r files = .ok r') (hd : r'.get? name = some d) :
    (∃ f ∈ files, d ∈ f.definitions) ∨ r.get? name = some d := by
  induction files generalizing r with
  | nil =>
    cases h
    exact .inr hd
  | cons f rest ih =>
    simp only [defineFiles, Except.bind_eq_ok_iff, Except.mapError_eq_ok_iff] at h
    obtain ⟨r₁, hadd, h⟩ := h
    rcases ih h with ⟨f', hf', hd'⟩ | hget
    · exact .inl ⟨f', List.mem_cons_of_mem _ hf', hd'⟩
    · rcases Registry.addDefinitions_get? hadd hget with hd' | hget
      · exact .inl ⟨f, List.mem_cons_self, hd'⟩
      · exact .inr hget

/-- Every definition of a loaded registry is without a gap, and all that a review with this
registry finds in it is among the diagnostics. -/
theorem load_reviewed {files : List SourceFile} {workers : List String} {l : Library}
    (h : load files workers = .ok l) {name : String} {d : Definition}
    (hd : l.registry.get? name = some d) :
    d.body.All Node.Whole ∧
      ∀ f ∈ d.review (some l.registry), ∃ g ∈ l.diagnostics, g.finding = f := by
  simp only [load, Except.bind_eq_ok_iff, Except.mapError_eq_ok_iff] at h
  obtain ⟨r₁, hworkers, ⟨r₂, parsed⟩, hparse, r₃, hdefine, h⟩ := h
  cases h
  obtain ⟨hdefs, hwhole⟩ := parseFiles_eq_ok hparse
  rcases defineFiles_get? hdefine hd with ⟨f, hf, hdf⟩ | hget
  · refine ⟨hwhole f hf d hdf, fun finding hfinding => ?_⟩
    refine ⟨⟨f.path, d.name, finding⟩, List.mem_flatMap.mpr ⟨f, hf, ?_⟩, rfl⟩
    exact List.mem_flatMap.mpr ⟨d, hdf, List.mem_map.mpr ⟨finding, hfinding, rfl⟩⟩
  · rw [Registry.get?, hdefs, Registry.addWorkers_definitions hworkers] at hget
    cases hget

end Library

/-- A registry of definitions that are not rejected is sound. -/
theorem registerDefinitions_sound {files : List SourceFile} {workers : List String}
    {r : Registry} (h : registerDefinitions files workers = .ok r) : r.Sound := by
  simp only [registerDefinitions, Except.bind_eq_ok_iff, Except.mapError_eq_ok_iff] at h
  obtain ⟨l, hload, h⟩ := h
  split at h
  · rename_i herrors
    cases h
    intro name d hd
    obtain ⟨hwhole, hreview⟩ := Library.load_reviewed hload hd
    have hclean : ∀ f ∈ d.review (some l.registry), f.isError = false := by
      intro f hf
      obtain ⟨g, hg, rfl⟩ := hreview f hf
      have hnone := List.filter_eq_nil_iff.mp herrors g hg
      simpa [Diagnostic.isError] using hnone
    obtain ⟨hreads, hresolves⟩ := Definition.review_clean_iff.mp hclean
    exact ⟨hreads, hwhole, hresolves⟩
  · cases h

end Workflow
