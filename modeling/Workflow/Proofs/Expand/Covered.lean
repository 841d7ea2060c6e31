import Workflow.Proofs.Data.SortedMap
import Workflow.Proofs.Expand.Unknown
import Workflow.Proofs.Node.Scoping
import Workflow.Proofs.Surface.Shape

/-!
What an expansion that succeeds has come to. Every part that the tree reaches stands at a point
that is visited, unless it is reached from the body of a batch whose lists are empty: no branch is
made of such a body, and nothing in it is looked at but names.
-/

namespace Workflow

section Members

variable {r : Registry} {opened : List String} {s : Scope} {n : Node} {f : Forest}

theorem ExpandsAll.of_mem {ns : List Node} (h : ExpandsAll r opened s ns f) (hn : n ∈ ns) :
    ∃ g, Expands r opened s n g := by
  induction ns generalizing f with
  | nil => cases hn
  | cons m ns ih =>
    cases h with
    | cons hm hrest =>
      rcases List.mem_cons.mp hn with rfl | hn
      · exact ⟨_, hm⟩
      · exact ih hrest hn

theorem ExpandsRows.of_mem {elements : List String} {body : Node} {table : List (List Value)}
    {row : List Value} (h : ExpandsRows r opened s elements body table f) (hrow : row ∈ table) :
    ∃ g, Expands r opened (s.bind elements row) body g := by
  induction table generalizing f with
  | nil => cases hrow
  | cons row' table ih =>
    cases h with
    | cons hb hrest =>
      rcases List.mem_cons.mp hrow with rfl | hrow
      · exact ⟨_, hb⟩
      · exact ih hrest hrow

theorem Expands.whole (h : Expands r opened s n f) : n.Whole := by
  cases h with
  | sequence hne _ => exact hne
  | batch hne _ _ _ => exact hne
  | leaf => trivial
  | worker => trivial
  | superworker => trivial

/-- The lists of a batch that has a binding are those that it is read with, and as many rows come of
them as the first is long. -/
theorem lists_of_expands {bindings : List Binding} {lists : List (List Value)} {count : Nat}
    (hne : bindings ≠ []) (hl : List.Forall₂ (Binding.HasItems s) bindings lists)
    (hc : ∀ items ∈ lists, items.length = count) :
    batchLists s bindings = .ok lists ∧ (lists.head?.map List.length).getD 0 = count ∧
      checkLengths count bindings lists = .ok () := by
  have hlists : lists ≠ [] := by
    rintro rfl
    cases hl
    exact hne rfl
  exact ⟨batchLists_eq_ok_iff.mpr hl, lengths_eq_first hlists hc,
    (checkLengths_eq_ok_iff hl.length_eq).mpr hc⟩

theorem hasItems_nil {bindings : List Binding} {lists : List (List Value)}
    (hl : List.Forall₂ (Binding.HasItems s) bindings lists)
    (hc : ∀ items ∈ lists, items.length = 0) : ∀ b ∈ bindings, b.HasItems s [] := by
  induction hl with
  | nil => simp
  | cons hb _ ih =>
    obtain ⟨hitems, hrest⟩ := List.forall_mem_cons.mp hc
    cases List.eq_nil_of_length_eq_zero hitems
    exact List.forall_mem_cons.mpr ⟨hb, ih hrest⟩

end Members

namespace Point

variable {r : Registry} {x y : Point} {m : Node}

/-- The tree at a point expands. -/
def Succeeds (r : Registry) (x : Point) : Prop := ∃ f, Expands r x.opened x.scope x.node f

/-- The tree at a point is a batch over this body, and its lists are all there and empty. -/
def Skips (x : Point) (body : Node) : Prop :=
  ∃ bindings span, x.node = .batch bindings body span ∧ bindings ≠ [] ∧
    ∀ b ∈ bindings, b.HasItems x.scope []

/-- The part is come to, or left aside with a body. -/
def Covers (r : Registry) (x : Point) (m : Node) : Prop :=
  ∃ y, x.Visits r y ∧ (y.node = m ∨ ∃ body, y.Skips body ∧ Reaches r body m)

theorem Covers.head (h : x.Enters r y) (hm : y.Covers r m) : x.Covers r m := by
  obtain ⟨z, hz, hcov⟩ := hm
  exact ⟨z, .head h hz, hcov⟩

theorem Covers.of_visits (h : x.Visits r y) (hm : y.Covers r m) : x.Covers r m := by
  obtain ⟨z, hz, hcov⟩ := hm
  exact ⟨z, h.trans hz, hcov⟩

/-- Whatever is entered from a tree that expands expands. -/
theorem Succeeds.enters (hx : x.Succeeds r) (h : x.Enters r y) : y.Succeeds r := by
  obtain ⟨f, hf⟩ := hx
  cases h with
  | step hn =>
    cases hf with
    | sequence _ hall => exact hall.of_mem hn
  | @row opened s bindings body span lists row hl hc hrow =>
    cases hf with
    | @batch _ _ _ _ _ lists' count _ hne hl' hc' hb =>
      obtain ⟨hread, hcount, -⟩ := lists_of_expands hne hl' hc'
      cases hl.symm.trans hread
      rw [hcount, rows_eq_elementsAt] at hrow
      exact hb.of_mem hrow
  | block =>
    have hblock {opened : List String} {s : Scope} {n : Node} {g : Forest}
        (h : ExpandsBlock r opened s (some n) g) : Succeeds r ⟨opened, s, n⟩ := by
      cases h with
      | present hn => exact ⟨g, hn⟩
    cases hf with
    | worker _ _ _ hn => exact hblock hn
    | superworker _ _ _ _ _ hn => exact hblock hn
  | body hd hlen ho hv =>
    cases hf with
    | worker hd' => cases hd.symm.trans hd'
    | superworker hd' _ _ hv' hb _ =>
      cases hd.symm.trans hd'
      cases hv.symm.trans (evaluate_eq_ok_iff.mpr hv')
      exact ⟨_, hb⟩

theorem Visits.succeeds (h : x.Visits r y) (hx : x.Succeeds r) : y.Succeeds r := by
  induction h with
  | refl => exact hx
  | tail _ hyz ih => exact ih.enters hyz

/-- What stands in the tree is come to, or left aside with the body of a batch. -/
theorem covers_of_standsIn {n : Node} {bound : List String} (h : Node.StandsIn m n bound)
    {opened : List String} {s : Scope} (hx : Succeeds r ⟨opened, s, n⟩) :
    Covers r ⟨opened, s, n⟩ m := by
  induction h generalizing s with
  | self => exact ⟨_, .refl, .inl rfl⟩
  | step hn _ ih => exact (ih (hx.enters (.step hn))).head (.step hn)
  | block _ ih => exact (ih (hx.enters .block)).head .block
  | @body bindings body span bound hm ih =>
    obtain ⟨f, hf⟩ := id hx
    cases hf with
    | @batch _ _ _ _ _ lists count _ hne hl hc hb =>
      obtain ⟨hread, hcount, hlen⟩ := lists_of_expands hne hl hc
      cases count with
      | zero =>
        have hskips : Skips ⟨opened, s, .batch bindings body span⟩ body :=
          ⟨bindings, span, rfl, hne, hasItems_nil hl hc⟩
        exact ⟨_, .refl, .inr ⟨body, hskips, .inside hm.mem_all⟩⟩
      | succ count =>
        have hrow : elementsAt lists 0 ∈ rows ((lists.head?.map List.length).getD 0) lists := by
          rw [hcount, rows_eq_elementsAt]
          exact List.mem_map_of_mem (List.mem_range.mpr (Nat.succ_pos count))
        rw [← hcount] at hlen
        exact (ih (hx.enters (.row hread hlen hrow))).head (.row hread hlen hrow)

/-- What is reached from a tree that expands is come to, or left aside with the body of a batch. -/
theorem Succeeds.covers (hx : x.Succeeds r) (hm : Reaches r x.node m) : x.Covers r m := by
  induction hm with
  | inside hm =>
    obtain ⟨bound, hstands⟩ := Node.exists_standsIn _ hm
    exact covers_of_standsIn hstands hx
  | @through name args nested span d m _ hd hm ih =>
    obtain ⟨y, hy, hcall | ⟨body, hskips, hbody⟩⟩ := ih
    · obtain ⟨opened, s, n⟩ := y
      obtain rfl : n = .call name args nested span := hcall
      obtain ⟨f, hf⟩ := hy.succeeds hx
      cases hf with
      | worker hd' => cases hd.symm.trans hd'
      | superworker hd' ho hlen hv hb _ =>
        cases hd.symm.trans hd'
        obtain ⟨bound, hstands⟩ := Node.exists_standsIn _ hm
        have hvalues := evaluate_eq_ok_iff.mpr hv
        exact ((covers_of_standsIn hstands ⟨_, hb⟩).head (.body hd hlen ho hvalues)).of_visits hy
    · exact ⟨y, hy, .inr ⟨body, hskips, .through hbody hd hm⟩⟩

end Point

/-! ### Misshapen parts -/

/-- What is wrong with a part that no tree should have. -/
def Misshape.Of : Misshape → Node → Prop
  | noSteps, n => ∃ span, n = .sequence [] span
  | noBindings, n => ∃ body span, n = .batch [] body span

theorem Misshape.Of.not_whole {part : Misshape} {n : Node} (h : part.Of n) : ¬ n.Whole := by
  cases part with
  | noSteps =>
    obtain ⟨span, rfl⟩ := h
    exact fun hw => hw rfl
  | noBindings =>
    obtain ⟨body, span, rfl⟩ := h
    exact fun hw => hw rfl

theorem Point.Fault.misshape {r : Registry} {x : Point} {part : Misshape}
    (h : x.Fault r (.misshapen part)) : part.Of x.node := by
  cases h with
  | noSteps h => exact ⟨_, h⟩
  | noBindings h => exact ⟨_, _, h⟩

theorem succeeds_of_compile {r : Registry} {args : Scope} {n : Node} {t : Table}
    (h : compile r args n = .ok t) : Point.Succeeds r ⟨[], args, n⟩ := by
  obtain ⟨-, f, hf, -⟩ := compile_eq_ok_iff.mp h
  exact ⟨f, hf⟩

/-- A tree with an empty sequence or a batch that binds no list, in itself or in a superworker that
it calls, directly or through others, is not compiled, unless the part is reached from the body of
a batch whose lists are all empty as it is come to. A tree that comes to such a part is not compiled
in any case, and none is refused as misshapen but for a part that it comes to. -/
theorem compile_misshapen (r : Registry) (args : Scope) (n : Node) :
    (∀ m part, Reaches r n m → Misshape.Of part m →
      (∀ y body, Point.Visits r ⟨[], args, n⟩ y → y.Skips body → ¬ Reaches r body m) →
      ∃ e, compile r args n = .error e) ∧
    (∀ y part, Point.Visits r ⟨[], args, n⟩ y → Misshape.Of part y.node →
      ∃ e, compile r args n = .error e) ∧
    ∀ part, compile r args n = .error (.misshapen part) →
      ∃ y, Point.Visits r ⟨[], args, n⟩ y ∧ Misshape.Of part y.node := by
  have hvisited : ∀ y part, Point.Visits r ⟨[], args, n⟩ y → Misshape.Of part y.node →
      ∃ e, compile r args n = .error e := by
    intro y part hy hbad
    cases hc : compile r args n with
    | error e => exact ⟨e, rfl⟩
    | ok t =>
      obtain ⟨g, hg⟩ := hy.succeeds (succeeds_of_compile hc)
      exact absurd hg.whole hbad.not_whole
  refine ⟨fun m part hm hbad hskips => ?_, hvisited, fun part he => ?_⟩
  · cases hc : compile r args n with
    | error e => exact ⟨e, rfl⟩
    | ok t =>
      obtain ⟨y, hy, rfl | ⟨body, hskip, hbody⟩⟩ := (succeeds_of_compile hc).covers hm
      · obtain ⟨e, he⟩ := hvisited y part hy hbad
        exact ⟨e, hc.symm.trans he⟩
      · exact absurd hbody (hskips y body hy hskip)
  · rw [compile_eq_expand, Except.bind_eq_error_iff] at he
    obtain he | ⟨u, -, he⟩ := he
    · obtain ⟨_, _, _, _, _, hunknown⟩ := resolveNames_error he
      cases hunknown
    · obtain ⟨y, hy, hfault⟩ := expand_error_fault (Except.map_eq_error_iff.mp he)
      exact ⟨y, hy, hfault.misshape⟩

/-- A superworker that has an empty step. -/
def stub : Definition where
  name := "Stub"
  parameters := []
  body := .sequence [.sequence [] Span.zero] Span.zero
  version := none
  span := Span.zero

def stubs : Registry where
  definitions := SortedMap.ofList [("Stub", stub)]
  workers := SortedMap.ofList [("Ping", ())]

def ping : Node := .leaf "Ping" [] Span.zero

/-- A ping for each round, then the superworker. -/
def rounds : Node :=
  .sequence [.batch [⟨"rounds", "round"⟩] ping Span.zero, .call "Stub" [] none Span.zero] Span.zero

theorem reaches_ping {r : Registry} {m : Node} (h : Reaches r ping m) : m = ping := by
  induction h with
  | inside h => exact List.mem_singleton.mp h
  | through _ _ _ ih => exact Node.noConfusion ih

theorem batch_of_reaches_rounds {m : Node} (h : Reaches stubs rounds m) {bindings : List Binding}
    {body : Node} {span : Span} (hm : m = .batch bindings body span) : body = ping := by
  cases h with
  | inside h => simp_all [rounds, ping, Node.all, Node.allOf]
  | through _ hd h =>
    have hmem := Entries.mem_of_get? hd
    cases List.mem_singleton.mp hmem
    simp_all [stub, Node.all, Node.allOf]

theorem stub_refused :
    ∃ e, compile stubs (SortedMap.ofList [("rounds", .array [])]) rounds = .error e := by
  have hcall : Reaches stubs rounds (.call "Stub" [] none Span.zero) :=
    .inside (by simp [rounds, ping, Node.all, Node.allOf])
  have hempty : Reaches stubs rounds (.sequence [] Span.zero) :=
    .through hcall (d := stub) rfl (by simp [stub, Node.all, Node.allOf])
  refine (compile_misshapen stubs (SortedMap.ofList [("rounds", .array [])]) rounds).1 _ .noSteps
    hempty ⟨_, rfl⟩ ?_
  intro y body hy hskips hbad
  obtain ⟨bindings, span, hnode, -, -⟩ := hskips
  have hreached := hy.reaches y.node y.node.mem_all_self
  rw [batch_of_reaches_rounds hreached hnode] at hbad
  exact Node.noConfusion (reaches_ping hbad)

theorem misshapen_compiled :
    (compile stubs (SortedMap.ofList [("rounds", .array [])])
      (.batch [⟨"rounds", "round"⟩] (.sequence [] Span.zero) Span.zero)).isOk = true ∧
    (compile stubs (SortedMap.ofList [("rounds", .array [.null])])
      (.batch [⟨"rounds", "round"⟩, ⟨"rounds", "again"⟩] ping Span.zero)).isOk = true ∧
    (compile stubs (SortedMap.ofList [("rounds", .array [.null]), ("turns", .array [.null])])
      (.batch [⟨"rounds", "round"⟩, ⟨"turns", "round"⟩] ping Span.zero)).isOk = true := by
  have hempty : ∀ bindings,
      resolveNames stubs (.batch bindings (.sequence [] Span.zero) Span.zero) = .ok () :=
    fun _ => by cbv
  have hping : ∀ bindings,
      resolveNames stubs (.batch bindings ping Span.zero) = .ok () := fun _ => by cbv
  refine ⟨?_, ?_, ?_⟩
  · rw [compile, hempty]
    simp only [headCount, emitBody, emit]
    rfl
  · rw [compile, hping]
    simp only [ping, headCount, emitBody, emit]
    rfl
  · rw [compile, hping]
    simp only [ping, headCount, emitBody, emit]
    rfl

end Workflow
