import Workflow.Proofs.Expand.Passing
import Workflow.Proofs.Forest.Elsewhere
import Workflow.Proofs.Review.Unused

/-!
A parameter that a review tells to be unused does not matter. Whatever value it is given, the
superworker compiles to the same jobs or fails in the same way, and the value is seen in the first
job alone.
-/

namespace Workflow

/-- Two jobs that differ in the values of `p` at most. -/
structure Job.AlikeBut (p : String) (j j' : Job) : Prop where
  rest : j' = { j with values := j'.values }
  length : j'.values.length = j.values.length
  values : ∀ i : Nat, j.keys[i]? ≠ some (ArgKey.name p) → j'.values[i]? = j.values[i]?

/-- Two tables with the same ids and jobs, but for the values of `p` in the first job. -/
structure Table.AlikeBut (p : String) (t t' : Table) : Prop extends t.SameLater t' where
  first : ∃ j j', SortedMap.get? t 1 = some j ∧ SortedMap.get? t' 1 = some j' ∧
    j.AlikeBut p j'

section Unread

variable {r : Registry} {name p : String} {d : Definition} {s s' : Scope}

/-- A body that never reads a name expands alike for all its values. -/
theorem expand_only_unread {opened : List String} (hp : p ∉ d.body.reads)
    (hsame : ∀ x, x ≠ p → SortedMap.get? s x = SortedMap.get? s' x) :
    expand r opened (s.only d.parameters) d.body =
      expand r opened (s'.only d.parameters) d.body := by
  apply expand_congr
  intro x hx
  have hread : x ∈ d.body.reads := (Node.mem_reads_iff []).mpr (.inl hx)
  have hne : x ≠ p := fun he => hp (he ▸ hread)
  exact Scope.get?_only_congr (hsame x hne)

theorem passedTree_alikeBut (hsame : ∀ x, x ≠ p → SortedMap.get? s x = SortedMap.get? s' x)
    (f : Forest) : (passedTree name d s f).table.AlikeBut p (passedTree name d s' f).table where
  toSameLater := JobTree.table_sameLater rfl
  first := by
    refine ⟨_, _, JobTree.table_first, JobTree.table_first, rfl, ?_, ?_⟩
    · rw [List.length_map, List.length_map]
    · intro i hi
      rw [List.getElem?_map, List.getElem?_map]
      rw [List.getElem?_map] at hi
      cases hx : d.parameters[i]? with
      | none => rfl
      | some x =>
        have hne : x ≠ p := by
          intro he
          apply hi
          rw [hx, he]
          rfl
        rw [Option.map_some, Option.map_some, Scope.valueOf, Scope.valueOf, hsame x hne]

/-- Where a review tells that a parameter is unused, compiling the superworker with two values for
it fails in the same way, or gives the same jobs but for its value in the first. -/
theorem compileDefinition_unread {o : Option Registry} (hd : r.get? name = some d)
    (hp : ⟨.unusedParameter p d.name, d.span⟩ ∈ ReviewRule.findings o d .unusedParameter)
    (hs : s.Binds d.parameters) (hs' : s'.Binds d.parameters)
    (hsame : ∀ x, x ≠ p → SortedMap.get? s x = SortedMap.get? s' x) :
    (∃ e, compileDefinition r s name = .error e ∧ compileDefinition r s' name = .error e) ∨
      ∃ t t', compileDefinition r s name = .ok t ∧ compileDefinition r s' name = .ok t' ∧
        t.AlikeBut p t' := by
  have hread : p ∉ d.body.reads := (unusedParameter_mem_iff.mp hp).2
  rw [compileDefinition_eq_expand hd hs, compileDefinition_eq_expand hd hs',
    expand_only_unread hread hsame]
  cases resolveNames r (Node.Builder.passing name d.parameters) with
  | error e => exact .inl ⟨e, rfl, rfl⟩
  | ok u =>
    cases expand r [name] (s'.only d.parameters) d.body with
    | error e => exact .inl ⟨e, rfl, rfl⟩
    | ok f => exact .inr ⟨_, _, rfl, rfl, passedTree_alikeBut hsame f⟩

end Unread

/-- A registry in which each of the teams of a page is sent to. -/
def notedPages : Registry where
  definitions := SortedMap.ofList [("Page", noted)]
  workers := SortedMap.ofList [("Send", ())]

def pageArgs (note : String) : Scope :=
  (SortedMap.ofList [("teams", .array [.string "a", .string "b"])]).insert "note" (.string note)

theorem noted_unread : ∃ t t', compileDefinition notedPages (pageArgs "low") "Page" = .ok t ∧
    compileDefinition notedPages (pageArgs "high") "Page" = .ok t' ∧ t.AlikeBut "note" t' := by
  have hd : notedPages.get? "Page" = some noted := rfl
  have hp : ⟨.unusedParameter "note" noted.name, noted.span⟩ ∈
      ReviewRule.findings none noted .unusedParameter := by decide
  have hlow : (pageArgs "low").Binds noted.parameters := by
    unfold Scope.Binds
    decide
  have hhigh : (pageArgs "high").Binds noted.parameters := by
    unfold Scope.Binds
    decide
  have hsame : ∀ x, x ≠ "note" →
      SortedMap.get? (pageArgs "low") x = SortedMap.get? (pageArgs "high") x := by
    intro x hx
    rw [pageArgs, pageArgs, SortedMap.get?_insert, SortedMap.get?_insert, if_neg hx, if_neg hx]
  have hworker : notedPages.hasWorker "Send" = true := by decide
  have hnames : resolveNames notedPages (Node.Builder.passing "Page" noted.parameters) =
      .ok () := by cbv
  have hteams : SortedMap.get? ((pageArgs "low").only ["teams", "note"]) "teams" =
      some (.array [.string "a", .string "b"]) := by decide
  have hteam : ∀ s v, SortedMap.get? (Scope.bind s ["team"] [v]) "team" = some v := by
    intro s v
    simp [Scope.bind, SortedMap.insertAll, SortedMap.get?_insert]
  have hok : ∃ f, expand notedPages ["Page"] ((pageArgs "low").only noted.parameters) noted.body =
      .ok f := by
    simp [noted, expand, expandRows, batchLists, checkLengths, rows, evaluate, Scope.lookup,
      Arg.param, hteams, hteam, hworker, bind, Except.bind, pure, Except.pure]
  obtain ⟨e, he, -⟩ | h := compileDefinition_unread hd hp hlow hhigh hsame
  · obtain ⟨f, hf⟩ := hok
    rw [compileDefinition_eq_expand hd hlow, hnames, hf] at he
    cases he
  · exact h

end Workflow
