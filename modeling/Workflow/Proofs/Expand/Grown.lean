import Workflow.Proofs.Expand.Scope
import Workflow.Proofs.Expand.Unknown
import Workflow.Proofs.Registry.Registrations

/-!
Registering more. No later registration changes what a name means that means something already, so
whatever a tree compiles to, or fails for, once all names that it reaches are known stays as it is.
-/

namespace Workflow

namespace Registry

variable {r r' r'' : Registry} {c : Registration} {cs : List Registration} {name : String}

/-- Nothing is missing or replaced in the other registry, and what is a worker is not made a
superworker there. -/
structure Grows (r r' : Registry) : Prop extends r.Extends r' where
  plain : ∀ name, r.hasWorker name = true → r.get? name = none → r'.get? name = none

theorem Grows.refl (r : Registry) : r.Grows r := ⟨Extends.refl r, fun _ _ h => h⟩

theorem Grows.trans (h : r.Grows r') (h' : r'.Grows r'') : r.Grows r'' where
  toExtends := h.toExtends.trans h'.toExtends
  plain := by
    intro name hw hd
    exact h'.plain name (h.worker name hw) (h.plain name hw hd)

theorem grows_holding (hc : r.Admits c) : r.Grows (r.holding c) where
  toExtends := extends_holding hc
  plain := by
    intro name hw hd
    cases c with
    | worker n => exact hd
    | definition d =>
      obtain ⟨-, hfree, -⟩ := hc
      have hne : name ≠ d.name := by
        intro he
        rw [he, hfree] at hw
        cases hw
      rw [get?_holding_definition, if_neg hne, hd]

theorem grows_of_registerAll (h : r.registerAll cs = .ok r') : r.Grows r' := by
  induction cs generalizing r with
  | nil =>
    cases h
    exact Grows.refl _
  | cons c cs ih =>
    obtain ⟨hc, hcs⟩ := registerAll_cons_eq_ok_iff.mp h
    exact (grows_holding hc).trans (ih hcs)

/-- A name that means something calls the same definition in the larger registry, or none. -/
theorem Grows.get?_eq (h : r.Grows r') (hr : (r.resolve name).isSome = true) :
    r'.get? name = r.get? name := by
  cases hd : r.get? name with
  | some d => exact h.definition name d hd
  | none =>
    apply h.plain name _ hd
    simpa [resolve, hd] using hr

theorem Grows.resolves {n : Node} (h : r.Grows r') (hn : n.Resolves r) : n.Resolves r' := by
  cases n with
  | leaf worker args span => exact h.worker worker hn
  | call name args nested span =>
    have hd := h.get?_eq hn
    rw [Node.Resolves, resolve] at hn ⊢
    rw [hd]
    cases hd : r.get? name with
    | some d => rfl
    | none =>
      have hw : r.hasWorker name = true := by simpa [hd] using hn
      rw [h.worker name hw]
      rfl
  | sequence steps span => trivial
  | batch bindings body span => trivial

end Registry

section Grown

variable {r r' : Registry} {n : Node}

/-- A tree whose names are all known reaches nothing new. -/
theorem Reaches.of_grown {m : Node} (h : r.Grows r') (hn : n.Known r) (hm : Reaches r' n m) :
    Reaches r n m := by
  induction hm with
  | inside hm => exact .inside hm
  | through _ hd hm ih =>
    have hcall := hn _ ih
    rw [h.get?_eq hcall] at hd
    exact .through ih hd hm

theorem Node.Known.grown (h : r.Grows r') (hn : n.Known r) : n.Known r' :=
  fun m hm => h.resolves (hn m (hm.of_grown h hn))

theorem Node.Known.mem {m : Node} (hn : n.Known r) (h : ∀ k ∈ m.all, k ∈ n.all) : m.Known r := by
  intro k hk
  apply hn
  induction hk with
  | inside hk => exact .inside (h _ hk)
  | through _ hd hk ih => exact .through ih hd hk

/-- A tree whose names are all known expands alike, whatever else is registered. -/
theorem expand_grown {opened : List String} {s : Scope} (h : r.Grows r') (hn : n.Known r) :
    expand r' opened s n = expand r opened s n := by
  induction opened, n using expansion_induction r generalizing s with
  | sequence opened steps span ih =>
    have hsteps : expandAll r' opened s steps = expandAll r opened s steps := by
      apply expandAll_congr
      intro n hstep
      exact ih n hstep (hn.mem fun k hk => List.mem_cons_of_mem _ (Node.mem_allOf hstep hk))
    rw [expand, expand, hsteps]
  | leaf opened worker args span =>
    have hw : r.hasWorker worker = true := hn _ (.inside (Node.mem_all_self _))
    rw [expand, expand, hw, h.worker worker hw]
  | batch opened bindings body span ih =>
    have hbody : ∀ s, expand r' opened s body = expand r opened s body :=
      fun s => ih (hn.mem fun k hk => List.mem_cons_of_mem _ hk)
    rw [expand, expand]
    simp only [hbody]
  | call opened name args nested span ihd ihn =>
    have hself : Reaches r (.call name args nested span) (.call name args nested span) :=
      .inside (Node.mem_all_self _)
    have hr : (r.resolve name).isSome = true := hn _ hself
    have hblock : expandBlock r' opened s nested = expandBlock r opened s nested := by
      cases nested with
      | none => rfl
      | some body => exact ihn body rfl (hn.mem fun k hk => List.mem_cons_of_mem _ hk)
    have hd' := h.get?_eq hr
    cases hd : r.get? name with
    | none =>
      have hw : r.hasWorker name = true := by simpa [Registry.resolve, hd] using hr
      rw [expand_worker hd, expand_worker (hd'.trans hd), hw, h.worker name hw, hblock]
    | some d =>
      rw [expand_superworker hd, expand_superworker (hd'.trans hd), hblock]
      by_cases ho : name ∈ opened
      · simp only [if_pos ho]
      · have hbody : ∀ s, expand r' (name :: opened) s d.body =
            expand r (name :: opened) s d.body :=
          fun s => ihd d hd ho fun m hm => hn m (hself.trans hd hm)
        simp only [hbody]

end Grown

/-- Names are all known where compiling does not fail for one. -/
theorem known_of_ne_unknown {r : Registry} {args : Scope} {n : Node}
    (h : ∀ name, compile r args n ≠ .error (.unknownWorker name)) : n.Known r := by
  cases hr : resolveNames r n with
  | ok u => exact resolveNames_eq_ok_iff.mp hr
  | error e =>
    obtain ⟨_, _, name, _, _, rfl⟩ := resolveNames_error hr
    exact absurd (compile_of_resolveNames_error hr args) (h name)

theorem compile_of_grows {r r' : Registry} {args : Scope} {n : Node} (hg : r.Grows r')
    (h : ∀ name, compile r args n ≠ .error (.unknownWorker name)) :
    compile r' args n = compile r args n := by
  have hn := known_of_ne_unknown h
  rw [compile_eq_expand, compile_eq_expand, expand_grown hg hn, resolveNames_eq_ok_iff.mpr hn,
    resolveNames_eq_ok_iff.mpr (hn.grown hg)]

/-- After further calls that all succeed, a tree or a superworker compiles to the same table or
fails for the same reason as before, unless it failed for an unknown name. -/
theorem compile_grown {r r' : Registry} {cs : List Registration} (h : r.registerAll cs = .ok r')
    (args : Scope) :
    (∀ n, (∀ name, compile r args n ≠ .error (.unknownWorker name)) →
      compile r' args n = compile r args n) ∧
    ∀ name, (∀ bad, compileDefinition r args name ≠ .error (.unknownWorker bad)) →
      compileDefinition r' args name = compileDefinition r args name := by
  have hg := Registry.grows_of_registerAll h
  refine ⟨fun n hn => compile_of_grows hg hn, fun name hname => ?_⟩
  rw [compileDefinition] at hname
  cases hd : r.get? name with
  | none =>
    rw [hd] at hname
    exact absurd rfl (hname name)
  | some d =>
    rw [hd] at hname
    rw [compileDefinition, compileDefinition, hd, hg.definition name d hd]
    exact compile_of_grows hg hname

/-- A worker, and a superworker that sends to a team by it. -/
def paging : Registry where
  definitions := SortedMap.ofList [("Page", Registry.page)]
  workers := SortedMap.ofList [("Send", ())]

/-- A worker and a superworker that calls it. -/
def logging : List Registration :=
  [.worker "Log", .definition ⟨"Note", [], .call "Log" [] none Span.zero, none, Span.zero⟩]

theorem paging_grown : ∃ r, paging.registerAll logging = .ok r ∧
    compile r SortedMap.empty (.call "Page" [] none Span.zero) =
      .error (.arityMismatch "Page" 1 0) ∧
    (compileDefinition r (SortedMap.ofList [("team", .null)]) "Page").isOk = true := by
  have hlogging : (paging.registerAll logging).isOk = true := by decide +kernel
  have harity : compile paging SortedMap.empty (.call "Page" [] none Span.zero) =
      .error (.arityMismatch "Page" 1 0) := by cbv
  have hpage : (compileDefinition paging (SortedMap.ofList [("team", .null)]) "Page").isOk =
      true := by cbv
  cases hr : paging.registerAll logging with
  | error e =>
    rw [hr] at hlogging
    cases hlogging
  | ok r =>
    refine ⟨r, rfl, ?_, ?_⟩
    · rw [(compile_grown hr _).1 _ (by simp [harity]), harity]
    · rw [(compile_grown hr _).2 "Page", hpage]
      intro bad hbad
      rw [hbad] at hpage
      cases hpage

end Workflow
