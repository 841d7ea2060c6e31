import Workflow.Proofs.Data.Except
import Workflow.Expand.Names

/-!
The nodes that a tree reaches through the superworkers that it calls. The names of a tree are
accepted if and only if the name of every node that it reaches can be resolved.
-/

namespace Workflow

/-- The name of a node means something: a leaf names a worker, a call a worker or a
superworker. -/
def Node.Resolves (r : Registry) : Node → Prop
  | .leaf worker _ _ => r.hasWorker worker = true
  | .call name _ _ _ => (r.resolve name).isSome = true
  | _ => True

/-- A node stands in a tree or in the body of a superworker that the tree calls, directly or
through other superworkers. -/
inductive Reaches (r : Registry) (n : Node) : Node → Prop
  | inside {m : Node} (h : m ∈ n.all) : Reaches r n m
  | through {name : String} {args : List Arg} {nested : Option Node} {span : Span}
      {d : Definition} {m : Node} (hc : Reaches r n (.call name args nested span))
      (hd : r.get? name = some d) (h : m ∈ d.body.all) : Reaches r n m

def Node.Known (r : Registry) (n : Node) : Prop := ∀ m, Reaches r n m → m.Resolves r

/-- What the body of a called superworker reaches is reached by the caller. -/
theorem Reaches.trans {r : Registry} {n m : Node} {name : String} {args : List Arg}
    {nested : Option Node} {span : Span} {d : Definition}
    (hc : Reaches r n (.call name args nested span)) (hd : r.get? name = some d)
    (h : Reaches r d.body m) : Reaches r n m := by
  induction h with
  | inside h => exact .through hc hd h
  | through _ hd' h ih => exact .through ih hd' h

/-- A call of the name stands in the tree. -/
def Node.Calls (n : Node) (name : String) : Prop :=
  ∃ args nested span, .call name args nested span ∈ n.all

/-- A call of the name is reached, in the tree or through superworkers. -/
def Node.LeadsTo (r : Registry) (n : Node) (name : String) : Prop :=
  ∃ args nested span, Reaches r n (.call name args nested span)

/-- A superworker is called among the nodes of a list. -/
def CalledIn (r : Registry) (ns : List Node) (name : String) : Prop :=
  ∃ args nested span, .call name args nested span ∈ ns ∧ ∃ d, r.get? name = some d

/-- A list of nodes is refused only for the name of one of them. -/
theorem superworkersOf_error {r : Registry} {ns : List Node} {e : CompileError}
    (h : superworkersOf r ns = .error e) :
    ∃ m ∈ ns, ∃ name, m.invoked? = some name ∧ ¬ m.Resolves r ∧ e = .unknownWorker name := by
  induction ns with
  | nil => cases h
  | cons n rest ih =>
    have next (hrest : superworkersOf r rest = .error e) : ∃ m ∈ n :: rest, ∃ name,
        m.invoked? = some name ∧ ¬ m.Resolves r ∧ e = .unknownWorker name := by
      obtain ⟨m, hm, hx⟩ := ih hrest
      exact ⟨m, List.mem_cons_of_mem _ hm, hx⟩
    cases n with
    | leaf worker args span =>
      simp only [superworkersOf] at h
      split at h
      · exact next h
      · rename_i hw
        exact ⟨_, List.mem_cons_self, worker, rfl, hw, (Except.error.inj h).symm⟩
    | call name args nested span =>
      simp only [superworkersOf] at h
      split at h
      · rename_i hr
        exact ⟨_, List.mem_cons_self, name, rfl, by simp [Node.Resolves, hr],
          (Except.error.inj h).symm⟩
      · exact next h
      · exact next (Except.map_eq_error_iff.mp h)
    | sequence => exact next h
    | batch => exact next h

theorem superworkersOf_resolves {r : Registry} {ns : List Node} {called : List String}
    (h : superworkersOf r ns = .ok called) : ∀ m ∈ ns, m.Resolves r := by
  induction ns generalizing called with
  | nil => simp
  | cons n rest ih =>
    have both {c : List String} (hn : n.Resolves r) (hrest : superworkersOf r rest = .ok c) :
        ∀ m ∈ n :: rest, m.Resolves r := List.forall_mem_cons.mpr ⟨hn, ih hrest⟩
    cases n with
    | leaf worker args span =>
      simp only [superworkersOf] at h
      split at h
      · rename_i hw
        exact both hw h
      · cases h
    | call name args nested span =>
      simp only [superworkersOf] at h
      split at h
      · cases h
      · rename_i hr
        exact both (by simp [Node.Resolves, hr]) h
      · rename_i hr
        obtain ⟨c, hc, _⟩ := Except.map_eq_ok_iff.mp h
        exact both (by simp [Node.Resolves, hr]) hc
    | sequence => exact both trivial h
    | batch => exact both trivial h

theorem Registry.resolve_eq_superworker_iff {r : Registry} {name : String} {d : Definition} :
    r.resolve name = some (.superworker d) ↔ r.get? name = some d := by
  unfold Registry.resolve
  cases hd : r.get? name with
  | some d' => simp
  | none => cases hw : r.hasWorker name <;> simp

theorem Registry.resolve_eq_worker {r : Registry} {name : String}
    (h : r.resolve name = some .worker) : r.get? name = none := by
  unfold Registry.resolve at h
  cases hd : r.get? name with
  | some d => simp [hd] at h
  | none => rfl

theorem Registry.hasWorker_of_resolve {r : Registry} {name : String}
    (h : r.resolve name = some .worker) : r.hasWorker name = true := by
  unfold Registry.resolve at h
  cases hw : r.hasWorker name with
  | true => rfl
  | false => cases hd : r.get? name <;> simp [hd, hw] at h

theorem mem_superworkersOf_iff {r : Registry} {ns : List Node} {called : List String}
    (h : superworkersOf r ns = .ok called) (name : String) :
    name ∈ called ↔ CalledIn r ns name := by
  induction ns generalizing called with
  | nil =>
    cases h
    simp [CalledIn]
  | cons n rest ih =>
    have skip {c : List String} (hrest : superworkersOf r rest = .ok c)
        (hn : ∀ args nested span d, n = .call name args nested span → r.get? name ≠ some d) :
        name ∈ c ↔ CalledIn r (n :: rest) name := by
      rw [ih hrest]
      constructor
      · intro hx
        obtain ⟨args, nested, span, hm, hd⟩ := hx
        exact ⟨args, nested, span, List.mem_cons_of_mem _ hm, hd⟩
      · intro hx
        obtain ⟨args, nested, span, hm, d, hd⟩ := hx
        rcases List.mem_cons.mp hm with he | hm
        · exact absurd hd (hn args nested span d he.symm)
        · exact ⟨args, nested, span, hm, d, hd⟩
    cases n with
    | leaf worker args span =>
      simp only [superworkersOf] at h
      split at h
      · exact skip h nofun
      · cases h
    | call callee args nested span =>
      simp only [superworkersOf] at h
      split at h
      · cases h
      · rename_i hr
        refine skip h ?_
        rintro _ _ _ d ⟨⟩ hd
        simp [Registry.resolve_eq_worker hr] at hd
      · rename_i d hr
        obtain ⟨c, hc, rfl⟩ := Except.map_eq_ok_iff.mp h
        by_cases hname : name = callee
        · subst hname
          simp only [List.mem_cons, true_or, true_iff]
          exact ⟨args, nested, span, List.mem_cons_self, d,
            Registry.resolve_eq_superworker_iff.mp hr⟩
        · rw [List.mem_cons, or_iff_right hname]
          exact skip hc fun _ _ _ _ he => absurd (Node.call.inj he).1.symm hname
    | sequence => exact skip h nofun
    | batch => exact skip h nofun

/-- When names are accepted, those opened on the way form a set that the bodies do not lead out
of, and everything in the bodies resolves. -/
theorem checkNames_closed {r : Registry} {seen pending : List String}
    (h : checkNames r seen pending = .ok ()) :
    ∃ opened : List String, (∀ name ∈ seen, name ∈ opened) ∧ (∀ name ∈ pending, name ∈ opened) ∧
      ∀ name ∈ opened, name ∉ seen → ∀ d, r.get? name = some d →
        (∀ m ∈ d.body.all, m.Resolves r) ∧
        ∀ callee, CalledIn r d.body.all callee → callee ∈ opened := by
  fun_induction checkNames r seen pending with
  | case1 seen => exact ⟨seen, fun _ hm => hm, by simp, fun _ hm hn => absurd hm hn⟩
  | case2 seen name rest hs ih =>
    obtain ⟨opened, hseen, hrest, hclosed⟩ := ih h
    exact ⟨opened, hseen, List.forall_mem_cons.mpr ⟨hseen name hs, hrest⟩, hclosed⟩
  -- A pending name that is no superworker has no body, so it may count as opened.
  | case3 seen name rest hs hd ih =>
    obtain ⟨opened, hseen, hrest, hclosed⟩ := ih h
    refine ⟨name :: opened, fun m hm => List.mem_cons_of_mem _ (hseen m hm),
      List.forall_mem_cons.mpr ⟨List.mem_cons_self, fun m hm => List.mem_cons_of_mem _ (hrest m hm)⟩,
      fun m hm hn d hd' => ?_⟩
    rcases List.mem_cons.mp hm with rfl | hm
    · cases hd.symm.trans hd'
    · obtain ⟨hres, hcalled⟩ := hclosed m hm hn d hd'
      exact ⟨hres, fun callee hc => List.mem_cons_of_mem _ (hcalled callee hc)⟩
  | case4 => cases h
  | case5 seen name rest hs d hd called hc ih =>
    obtain ⟨opened, hseen, hrest, hclosed⟩ := ih h
    refine ⟨opened, fun m hm => hseen m (List.mem_cons_of_mem _ hm),
      List.forall_mem_cons.mpr ⟨hseen name List.mem_cons_self,
        fun m hm => hrest m (List.mem_append_right _ hm)⟩,
      fun m hm hn d' hd' => ?_⟩
    by_cases hname : m = name
    · subst hname
      cases hd.symm.trans hd'
      exact ⟨superworkersOf_resolves hc, fun callee hcallee =>
        hrest callee (List.mem_append_left _ ((mem_superworkersOf_iff hc callee).mpr hcallee))⟩
    · exact hclosed m hm (by simp [hname, hn]) d' hd'

/-- Names are refused only for a node in a body that they lead to. -/
theorem checkNames_error {r : Registry} {seen pending : List String} {e : CompileError}
    (h : checkNames r seen pending = .error e) :
    ∃ name ∈ pending, ∃ d, r.get? name = some d ∧ ∃ m, Reaches r d.body m ∧
      ∃ bad, m.invoked? = some bad ∧ ¬ m.Resolves r ∧ e = .unknownWorker bad := by
  fun_induction checkNames r seen pending with
  | case1 => cases h
  | case2 seen name rest hs ih =>
    obtain ⟨k, hk, hx⟩ := ih h
    exact ⟨k, List.mem_cons_of_mem _ hk, hx⟩
  | case3 seen name rest hs hd ih =>
    obtain ⟨k, hk, hx⟩ := ih h
    exact ⟨k, List.mem_cons_of_mem _ hk, hx⟩
  | case4 seen name rest hs d hd e' he =>
    cases h
    obtain ⟨m, hm, hx⟩ := superworkersOf_error he
    exact ⟨name, List.mem_cons_self, d, hd, m, .inside hm, hx⟩
  | case5 seen name rest hs d hd called hc ih =>
    obtain ⟨k, hk, d', hd', m, hm, hx⟩ := ih h
    rcases List.mem_append.mp hk with hk | hk
    · obtain ⟨args, nested, span, hcall, _⟩ := (mem_superworkersOf_iff hc k).mp hk
      exact ⟨name, List.mem_cons_self, d, hd, m, Reaches.trans (.inside hcall) hd' hm, hx⟩
    · exact ⟨k, List.mem_cons_of_mem _ hk, d', hd', m, hm, hx⟩

theorem resolveNames_error {r : Registry} {n : Node} {e : CompileError}
    (h : resolveNames r n = .error e) :
    ∃ m, Reaches r n m ∧ ∃ bad, m.invoked? = some bad ∧ ¬ m.Resolves r ∧
      e = .unknownWorker bad := by
  rw [resolveNames, Except.bind_eq_error_iff] at h
  rcases h with h | ⟨called, hc, h⟩
  · obtain ⟨m, hm, hx⟩ := superworkersOf_error h
    exact ⟨m, .inside hm, hx⟩
  · obtain ⟨name, hn, d, hd, m, hm, hx⟩ := checkNames_error h
    obtain ⟨args, nested, span, hcall, _⟩ := (mem_superworkersOf_iff hc name).mp hn
    exact ⟨m, Reaches.trans (.inside hcall) hd hm, hx⟩

/-- The names of a tree are accepted if and only if every name that it reaches resolves. -/
theorem resolveNames_eq_ok_iff {r : Registry} {n : Node} :
    resolveNames r n = .ok () ↔ n.Known r := by
  constructor
  · intro h
    rw [resolveNames, Except.bind_eq_ok_iff] at h
    obtain ⟨called, hc, h⟩ := h
    obtain ⟨opened, _, hpending, hclosed⟩ := checkNames_closed h
    have inner (m : Node) (hm : Reaches r n m) :
        m.Resolves r ∧ ∀ callee, CalledIn r [m] callee → callee ∈ opened := by
      induction hm with
      | inside hm =>
        refine ⟨superworkersOf_resolves hc _ hm, fun callee hcallee => hpending callee ?_⟩
        obtain ⟨args, nested, span, he, hd⟩ := hcallee
        cases List.mem_singleton.mp he
        exact (mem_superworkersOf_iff hc callee).mpr ⟨args, nested, span, hm, hd⟩
      | @through name args nested span d m hcall hd hm ih =>
        have hname := ih.2 name ⟨args, nested, span, List.mem_singleton_self _, d, hd⟩
        obtain ⟨hres, hcalled⟩ := hclosed name hname (by simp) d hd
        refine ⟨hres m hm, fun callee hcallee => hcalled callee ?_⟩
        obtain ⟨args, nested, span, he, hd⟩ := hcallee
        cases List.mem_singleton.mp he
        exact ⟨args, nested, span, hm, hd⟩
    exact fun m hm => (inner m hm).1
  · intro h
    cases hr : resolveNames r n with
    | ok u => rfl
    | error e =>
      obtain ⟨m, hm, _, _, hbad, _⟩ := resolveNames_error hr
      exact absurd (h m hm) hbad

end Workflow
