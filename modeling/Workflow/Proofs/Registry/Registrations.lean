import Workflow.Proofs.Library.Order

/-!
Registering names one by one. A call stores its own name or is refused and stores nothing, so a
registry only grows and never holds one name twice. Two calls that both succeed do not get in each
other's way, so calls that all succeed may come in any order.
-/

namespace Workflow

/-- What one call registers. -/
inductive Registration where
  | worker (name : String)
  | definition (d : Definition)

namespace Registry

variable {r r' r'' : Registry} {c a b : Registration} {cs cs' : List Registration}

def register (r : Registry) : Registration → Except RegistryError Registry
  | .worker name => r.addWorker name
  | .definition d => r.addDefinition d

/-- The registry after a call, be it refused or not. -/
def after (r : Registry) (c : Registration) : Registry :=
  match r.register c with
  | .ok r' => r'
  | .error _ => r

def afterAll (r : Registry) (cs : List Registration) : Registry := cs.foldl after r

/-- The registry after calls of which none may be refused. -/
def registerAll (r : Registry) : List Registration → Except RegistryError Registry
  | [] => .ok r
  | c :: cs => r.register c >>= (·.registerAll cs)

/-- What a call registered is there. -/
def Holds (r : Registry) : Registration → Prop
  | .worker name => r.hasWorker name = true
  | .definition d => r.get? d.name = some d

/-- No name means two things, none is that of a structural job, and definitions stand under their
names. -/
structure Consistent (r : Registry) : Prop where
  apart : ∀ name, r.hasWorker name = true → r.get? name = none
  worker : ∀ name, r.hasWorker name = true → isStructuralName name = false
  definition : ∀ name d, r.get? name = some d → d.name = name ∧ isStructuralName name = false

/-- Nothing of a registry is missing or replaced in another. -/
structure Extends (r r' : Registry) : Prop where
  worker : ∀ name, r.hasWorker name = true → r'.hasWorker name = true
  definition : ∀ name d, r.get? name = some d → r'.get? name = some d

theorem Extends.refl (r : Registry) : r.Extends r := ⟨fun _ h => h, fun _ _ h => h⟩

theorem Extends.trans (h : r.Extends r') (h' : r'.Extends r'') : r.Extends r'' :=
  ⟨fun name hw => h'.worker name (h.worker name hw),
    fun name d hd => h'.definition name d (h.definition name d hd)⟩

theorem Extends.holds (h : r.Extends r') (hc : r.Holds c) : r'.Holds c := by
  cases c with
  | worker name => exact h.worker name hc
  | definition d => exact h.definition d.name d hc

/-! ### One call -/

/-- When a call is not refused. -/
def Admits (r : Registry) : Registration → Prop
  | .worker name => isStructuralName name = false ∧ r.definitions.contains name = false
  | .definition d => isStructuralName d.name = false ∧ r.hasWorker d.name = false ∧
    r.definitions.contains d.name = false

/-- The registry with what a call registers. -/
def holding (r : Registry) : Registration → Registry
  | .worker name => { r with workers := r.workers.insert name () }
  | .definition d => { r with definitions := r.definitions.insert d.name d }

theorem register_eq_ok_iff : r.register c = .ok r' ↔ r.Admits c ∧ r' = r.holding c := by
  cases c with
  | worker name => exact addWorker_eq_ok_iff
  | definition d => exact addDefinition_eq_ok_iff

theorem hasWorker_holding_worker {name n : String} :
    (r.holding (.worker n)).hasWorker name = true ↔ name = n ∨ r.hasWorker name = true := by
  rw [hasWorker, SortedMap.contains, holding, SortedMap.get?_insert]
  by_cases h : name = n
  · simp [h]
  · simp [h, hasWorker, SortedMap.contains]

theorem get?_holding_definition {name : String} {d : Definition} :
    (r.holding (.definition d)).get? name = if name = d.name then some d else r.get? name :=
  SortedMap.get?_insert _ _ _ _

theorem Consistent.holding (h : r.Consistent) (hc : r.Admits c) : (r.holding c).Consistent := by
  cases c with
  | worker n =>
    obtain ⟨hplain, hfree⟩ := hc
    have hnone : r.get? n = none := by
      rwa [SortedMap.contains, Option.isSome_eq_false_iff, Option.isNone_iff_eq_none] at hfree
    refine ⟨fun name hname => ?_, fun name hname => ?_, h.definition⟩
    · rcases hasWorker_holding_worker.mp hname with rfl | hname
      · exact hnone
      · exact h.apart name hname
    · rcases hasWorker_holding_worker.mp hname with rfl | hname
      · exact hplain
      · exact h.worker name hname
  | definition d =>
    obtain ⟨hplain, hworker, -⟩ := hc
    refine ⟨fun name hname => ?_, h.worker, fun name e he => ?_⟩
    · have hne : name ≠ d.name := by
        intro he
        rw [he] at hname
        exact Bool.false_ne_true (hworker.symm.trans hname)
      rw [get?_holding_definition, if_neg hne]
      exact h.apart name hname
    · rw [get?_holding_definition] at he
      split at he
      · rename_i hname
        obtain rfl := Option.some.inj he
        exact ⟨hname.symm, hname ▸ hplain⟩
      · exact h.definition name e he

theorem extends_holding (hc : r.Admits c) : r.Extends (r.holding c) := by
  cases c with
  | worker n => exact ⟨fun name h => hasWorker_holding_worker.mpr (.inr h), fun _ _ h => h⟩
  | definition d =>
    obtain ⟨-, -, hfree⟩ := hc
    refine ⟨fun _ h => h, fun name e he => ?_⟩
    have hne : name ≠ d.name := by
      intro hname
      rw [SortedMap.contains, Option.isSome_eq_false_iff, Option.isNone_iff_eq_none] at hfree
      rw [hname] at he
      cases hfree.symm.trans he
    rwa [get?_holding_definition, if_neg hne]

theorem holds_holding : (r.holding c).Holds c := by
  cases c with
  | worker n => exact hasWorker_holding_worker.mpr (.inl rfl)
  | definition d => exact get?_holding_definition.trans (if_pos rfl)

/-- A call is refused and changes nothing, or it adds what it registers. -/
theorem register_cases (r : Registry) (c : Registration) :
    (∃ e, r.register c = .error e ∧ r.after c = r) ∨
      r.register c = .ok (r.after c) ∧ r.Admits c ∧ r.after c = r.holding c := by
  rw [after]
  cases h : r.register c with
  | error e => exact .inl ⟨e, rfl, rfl⟩
  | ok r' => exact .inr ⟨rfl, register_eq_ok_iff.mp h⟩

theorem Consistent.after (h : r.Consistent) (c : Registration) : (r.after c).Consistent := by
  rcases register_cases r c with ⟨-, -, hsame⟩ | ⟨-, hc, hnew⟩
  · rwa [hsame]
  · exact hnew ▸ h.holding hc

theorem extends_after (r : Registry) (c : Registration) : r.Extends (r.after c) := by
  rcases register_cases r c with ⟨-, -, hsame⟩ | ⟨-, hc, hnew⟩
  · exact hsame.symm ▸ Extends.refl r
  · exact hnew ▸ extends_holding hc

/-! ### Many calls -/

theorem consistent_empty : empty.Consistent := ⟨nofun, nofun, nofun⟩

theorem Consistent.afterAll (h : r.Consistent) (cs : List Registration) :
    (r.afterAll cs).Consistent := by
  induction cs generalizing r with
  | nil => exact h
  | cons c cs ih => exact ih (h.after c)

theorem extends_afterAll (r : Registry) (cs : List Registration) : r.Extends (r.afterAll cs) := by
  induction cs generalizing r with
  | nil => exact Extends.refl r
  | cons c cs ih => exact (extends_after r c).trans (ih (r.after c))

theorem afterAll_append {before later : List Registration} :
    r.afterAll (before ++ later) = (r.afterAll before).afterAll later :=
  List.foldl_append

theorem afterAll_of_registerAll (h : r.registerAll cs = .ok r') : r.afterAll cs = r' := by
  induction cs generalizing r with
  | nil => exact Except.ok.inj h
  | cons c cs ih =>
    obtain ⟨r₁, hc, hcs⟩ := Except.bind_eq_ok_iff.mp h
    have hafter : r.after c = r₁ := by rw [after, hc]
    exact (congrArg (·.afterAll cs) hafter).trans (ih hcs)

/-- What two calls in turn ask for, they also ask for in the other order. -/
theorem admits_swap (ha : r.Admits a) (hb : (r.holding a).Admits b) :
    r.Admits b ∧ (r.holding b).Admits a ∧ (r.holding b).holding a = (r.holding a).holding b := by
  cases a with
  | worker m =>
    cases b with
    | worker n =>
      refine ⟨hb, ha, ?_⟩
      simp only [holding, SortedMap.insert_comm fun _ => rfl]
    | definition e =>
      obtain ⟨hplain, hworker, hfree⟩ := hb
      obtain ⟨hne, hworker⟩ := SortedMap.contains_insert_eq_false_iff.mp hworker
      exact ⟨⟨hplain, hworker, hfree⟩,
        ⟨ha.1, SortedMap.contains_insert_eq_false_iff.mpr ⟨hne.symm, ha.2⟩⟩, rfl⟩
  | definition d =>
    cases b with
    | worker n =>
      obtain ⟨hplain, hfree⟩ := hb
      obtain ⟨hne, hfree⟩ := SortedMap.contains_insert_eq_false_iff.mp hfree
      obtain ⟨hd, hworker, hnew⟩ := ha
      exact ⟨⟨hplain, hfree⟩,
        ⟨hd, SortedMap.contains_insert_eq_false_iff.mpr ⟨hne.symm, hworker⟩, hnew⟩, rfl⟩
    | definition e =>
      obtain ⟨hplain, hworker, hfree⟩ := hb
      obtain ⟨hne, hfree⟩ := SortedMap.contains_insert_eq_false_iff.mp hfree
      obtain ⟨hd, hd', hnew⟩ := ha
      refine ⟨⟨hplain, hworker, hfree⟩,
        ⟨hd, hd', SortedMap.contains_insert_eq_false_iff.mpr ⟨hne.symm, hnew⟩⟩, ?_⟩
      simp only [holding, SortedMap.insert_comm fun hname => absurd hname hne]

theorem registerAll_cons_eq_ok_iff :
    r.registerAll (c :: cs) = .ok r' ↔ r.Admits c ∧ (r.holding c).registerAll cs = .ok r' := by
  rw [registerAll, Except.bind_eq_ok_iff]
  constructor
  · intro hx
    obtain ⟨r₁, hc, hcs⟩ := hx
    obtain ⟨hadmits, rfl⟩ := register_eq_ok_iff.mp hc
    exact ⟨hadmits, hcs⟩
  · intro hx
    exact ⟨_, register_eq_ok_iff.mpr ⟨hx.1, rfl⟩, hx.2⟩

theorem registerAll_perm (h : cs.Perm cs') (hr : r.registerAll cs = .ok r') :
    r.registerAll cs' = .ok r' := by
  induction h generalizing r with
  | nil => exact hr
  | cons c _ ih =>
    obtain ⟨hadmits, hcs⟩ := registerAll_cons_eq_ok_iff.mp hr
    exact registerAll_cons_eq_ok_iff.mpr ⟨hadmits, ih hcs⟩
  | swap a b cs =>
    obtain ⟨hb, hrest⟩ := registerAll_cons_eq_ok_iff.mp hr
    obtain ⟨ha, hcs⟩ := registerAll_cons_eq_ok_iff.mp hrest
    obtain ⟨ha, hb, hsame⟩ := admits_swap hb ha
    rw [← hsame] at hcs
    exact registerAll_cons_eq_ok_iff.mpr ⟨ha, registerAll_cons_eq_ok_iff.mpr ⟨hb, hcs⟩⟩
  | trans _ _ ih ih' => exact ih' (ih hr)

/-- A registry only grows. Each state on the way is consistent, each call is refused and changes
nothing or stores what is still there in the end, and calls that all succeed do so in every order
and with the same registry. -/
theorem registrations_kept (cs : List Registration) :
    (∀ before later, cs = before ++ later → (empty.afterAll before).Consistent ∧
      (empty.afterAll before).Extends (empty.afterAll cs)) ∧
    (∀ before c later, cs = before ++ c :: later →
      (∃ e, (empty.afterAll before).register c = .error e ∧
        empty.afterAll (before ++ [c]) = empty.afterAll before) ∨
      (empty.afterAll before).register c = .ok (empty.afterAll (before ++ [c])) ∧
        (empty.afterAll cs).Holds c) ∧
    ∀ r cs', empty.registerAll cs = .ok r → cs.Perm cs' →
      empty.registerAll cs' = .ok r ∧ empty.afterAll cs' = r := by
  have hsplit : ∀ before later : List Registration, cs = before ++ later →
      (empty.afterAll before).Extends (empty.afterAll cs) := by
    intro before later hcs
    rw [hcs, afterAll_append]
    exact extends_afterAll _ later
  refine ⟨fun before later hcs => ?_, fun before c later hcs => ?_, fun r cs' hr hperm => ?_⟩
  · exact ⟨consistent_empty.afterAll before, hsplit before later hcs⟩
  · have hlast : empty.afterAll (before ++ [c]) = (empty.afterAll before).after c := afterAll_append
    have hkept := hsplit (before ++ [c]) later (by rw [hcs, List.append_assoc, List.singleton_append])
    rw [hlast] at hkept ⊢
    rcases register_cases (empty.afterAll before) c with hrefused | ⟨hok, -, hnew⟩
    · exact .inl hrefused
    · exact .inr ⟨hok, hkept.holds (hnew ▸ holds_holding)⟩
  · have hr' := registerAll_perm hperm hr
    exact ⟨hr', afterAll_of_registerAll hr'⟩

/-- A superworker that sends to a team. -/
def page : Definition :=
  ⟨"Page", ["team"], .call "Send" [.param "team"] none Span.zero, none, Span.zero⟩

theorem page_registrations_kept :
    (empty.afterAll [.worker "Send", .definition page, .worker "Page"]).Holds (.definition page) ∧
    (∃ e, (empty.afterAll [.worker "Send", .definition page]).register (.worker "Page") =
      .error e) ∧
    ∃ r, empty.registerAll [.worker "Send", .definition page, .worker "Send"] = .ok r ∧
      empty.registerAll [.definition page, .worker "Send", .worker "Send"] = .ok r := by
  have hrefused : ((empty.afterAll [.worker "Send", .definition page]).register
      (.worker "Page")).isOk = false := by
    decide +kernel
  have hstored : ((empty.afterAll [.worker "Send"]).register (.definition page)).isOk = true := by
    decide +kernel
  have hall : (empty.registerAll [.worker "Send", .definition page, .worker "Send"]).isOk = true := by
    decide +kernel
  obtain ⟨-, hcalls, -⟩ :=
    registrations_kept [.worker "Send", .definition page, .worker "Page"]
  obtain ⟨-, -, horder⟩ :=
    registrations_kept [.worker "Send", .definition page, .worker "Send"]
  refine ⟨?_, ?_, ?_⟩
  · rcases hcalls [.worker "Send"] _ [.worker "Page"] rfl with ⟨e, he, -⟩ | ⟨-, hholds⟩
    · rw [he] at hstored
      cases hstored
    · exact hholds
  · rcases hcalls [.worker "Send", .definition page] _ [] rfl with ⟨e, he, -⟩ | ⟨hok, -⟩
    · exact ⟨e, he⟩
    · rw [hok] at hrefused
      cases hrefused
  · cases hr : empty.registerAll [.worker "Send", .definition page, .worker "Send"] with
    | error e =>
      rw [hr] at hall
      cases hall
    | ok r => exact ⟨r, rfl, (horder r _ hr (.swap ..)).1⟩

end Registry

end Workflow
