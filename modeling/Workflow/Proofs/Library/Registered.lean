import Workflow.Proofs.Forest.Table
import Workflow.Proofs.Library.Load
import Workflow.Proofs.Review.Expansion

/-!
Compiling a registered superworker. Definitions that are registered have passed their review, so
that compiling one of them with its parameters bound can only fail for what no review looks for.
-/

namespace Workflow

/-- A sound tree in a sound registry compiles, or fails for what no review looks for. -/
theorem compile_of_sound {r : Registry} {bound : List String} {args : Scope} {n : Node}
    (hr : r.Sound) (hn : n.Sound r bound) (ha : args.Binds bound) :
    (∃ t, compile r args n = .ok t) ∨ ∃ e, compile r args n = .error e ∧ e.Unreviewed := by
  have hnames : resolveNames r n = .ok () := resolveNames_eq_ok_iff.mpr (hn.known hr)
  rw [compile_eq_expand, hnames]
  simp only [bind, Except.bind]
  cases hf : expand r [] args n with
  | ok f => exact .inl ⟨_, rfl⟩
  | error e =>
    exact .inr ⟨e, rfl, expand_error_unreviewed (fun name d _ hd => hr name d hd) hn ha hf⟩

/-- The call that a superworker is compiled from is sound where its parameters are bound. -/
theorem passing_sound {r : Registry} {name : String} {d : Definition}
    (hd : r.get? name = some d) :
    (Node.Builder.passing name d.parameters).Sound r d.parameters := by
  refine Node.sound_call_iff.mpr ⟨by simp [Registry.resolve, hd], ?_, nofun⟩
  simp [List.filterMap_map, Arg.param, Arg.read?, Function.comp_def]

/-- A registered superworker with its parameters bound compiles, or fails for the values it is
given, for a wrong number of arguments or for a cycle of calls. -/
theorem compileDefinition_registered {files : List SourceFile} {workers : List String}
    {r : Registry} {name : String} {d : Definition} {args : Scope}
    (h : registerDefinitions files workers = .ok r) (hd : r.get? name = some d)
    (ha : args.Binds d.parameters) :
    (∃ t, compileDefinition r args name = .ok t) ∨
      ∃ e, compileDefinition r args name = .error e ∧ e.Unreviewed := by
  have hcompile : compileDefinition r args name =
      compile r args (Node.Builder.passing name d.parameters) := by
    simp only [compileDefinition, hd]
  rw [hcompile]
  exact compile_of_sound (registerDefinitions_sound h) (passing_sound hd) ha

/-- A superworker that sends to each of its teams. -/
def pager : SourceFile :=
  ⟨"pager.sw", "superworker Page :teams do batch teams: :team do Send :team end end"⟩

def twoTeams : Scope := SortedMap.ofList [("teams", .array [.string "night", .string "day"])]

theorem pager_parameters :
    ((registerDefinitions [pager] ["Send"]).toOption.bind (·.get? "Page")).map
      Definition.parameters = some ["teams"] := by
  decide +kernel

theorem pager_registered :
    ∃ r d, registerDefinitions [pager] ["Send"] = .ok r ∧ r.get? "Page" = some d ∧
      twoTeams.Binds d.parameters ∧
      ((∃ t, compileDefinition r twoTeams "Page" = .ok t) ∨
        ∃ e, compileDefinition r twoTeams "Page" = .error e ∧ e.Unreviewed) := by
  obtain ⟨d, hd, hparams⟩ := Option.map_eq_some_iff.mp pager_parameters
  obtain ⟨r, hr, hget⟩ := Option.bind_eq_some_iff.mp hd
  have hload : registerDefinitions [pager] ["Send"] = .ok r := by
    cases h : registerDefinitions [pager] ["Send"] with
    | error e => simp [h, Except.toOption] at hr
    | ok r' =>
      rw [h] at hr
      exact congrArg Except.ok (Option.some.inj hr)
  have hbinds : twoTeams.Binds d.parameters := by
    rw [hparams]
    exact List.forall_mem_singleton.mpr (by decide)
  exact ⟨r, d, hload, hget, hbinds, compileDefinition_registered hload hget hbinds⟩

end Workflow
