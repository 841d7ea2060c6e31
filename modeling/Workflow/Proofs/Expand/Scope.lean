import Workflow.Proofs.Data.SortedMap
import Workflow.Proofs.Forest.Rules
import Workflow.Proofs.Node.Scoping
import Workflow.Proofs.Review.Expansion

/-!
What an expansion takes from around it. It reads no name but those that the tree reads past its own
batches, so it is the same wherever these have the same values. And where it succeeds, it does so
with the same forest wherever more is bound or fewer superworkers are being expanded.
-/

namespace Workflow

/-! ### Scopes -/

namespace SortedMap

variable {κ α : Type} [Key κ] [DecidableEq κ] {m m' : SortedMap κ α} {l : List (κ × α)}

/-- What is bound anew does not depend on what was bound before. -/
theorem get?_insertAll_congr {k : κ} (h : k ∉ l.map Prod.fst → m.get? k = m'.get? k) :
    (m.insertAll l).get? k = (m'.insertAll l).get? k := by
  induction l generalizing m m' with
  | nil => exact h (by simp)
  | cons e l ih =>
    obtain ⟨j, a⟩ := e
    rw [insertAll, insertAll]
    apply ih
    intro hk
    rw [get?_insert, get?_insert]
    by_cases hj : k = j
    · rw [if_pos hj, if_pos hj]
    · rw [if_neg hj, if_neg hj]
      apply h
      simp [hj, hk]

theorem get?_insertAll_mono (h : ∀ k a, m.get? k = some a → m'.get? k = some a) :
    ∀ k a, (m.insertAll l).get? k = some a → (m'.insertAll l).get? k = some a := by
  induction l generalizing m m' with
  | nil => exact h
  | cons e l ih =>
    apply ih
    intro k a ha
    rw [get?_insert] at ha ⊢
    by_cases hk : k = e.1
    · rwa [if_pos hk] at ha ⊢
    · rw [if_neg hk] at ha ⊢
      exact h k a ha

end SortedMap

namespace Scope

variable {s s' : Scope} {names : List String} {values : List Value}

theorem get?_bind_congr {x : String} (hlen : names.length = values.length)
    (h : x ∉ names → SortedMap.get? s x = SortedMap.get? s' x) :
    SortedMap.get? (s.bind names values) x = SortedMap.get? (s'.bind names values) x := by
  have hkeys : (names.zip values).map Prod.fst = names := List.map_fst_zip (Nat.le_of_eq hlen)
  apply SortedMap.get?_insertAll_congr
  rwa [hkeys]

/-- Whatever has a value in the one has the same value in the other. -/
def Within (s s' : Scope) : Prop :=
  ∀ x v, SortedMap.get? s x = some v → SortedMap.get? s' x = some v

theorem Within.bind (h : s.Within s') : (s.bind names values).Within (s'.bind names values) :=
  SortedMap.get?_insertAll_mono h

theorem Within.refl (s : Scope) : s.Within s := fun _ _ h => h

end Scope

/-! ### Where the names that are read have the same values -/

section Congr

variable {r : Registry} {opened : List String} {s s' : Scope}

theorem lookup_congr {x : String} (h : SortedMap.get? s x = SortedMap.get? s' x) :
    s.lookup x = s'.lookup x := by
  unfold Scope.lookup
  rw [h]

theorem evaluate_congr {args : List Arg}
    (h : ∀ x ∈ args.filterMap Arg.read?, SortedMap.get? s x = SortedMap.get? s' x) :
    evaluate s args = evaluate s' args := by
  induction args with
  | nil => rfl
  | cons a rest ih =>
    have hrest : evaluate s rest = evaluate s' rest :=
      ih fun x hx => h x (List.filterMap_subset _ (List.subset_cons_self a rest) hx)
    obtain ⟨key, source⟩ := a
    cases source with
    | param name =>
      have hname := lookup_congr (h name (by simp [Arg.read?]))
      simp only [evaluate, hname, hrest]
    | literal v => simp only [evaluate, hrest]

theorem batchLists_congr {bindings : List Binding}
    (h : ∀ x ∈ bindings.map Binding.list, SortedMap.get? s x = SortedMap.get? s' x) :
    batchLists s bindings = batchLists s' bindings := by
  induction bindings with
  | nil => rfl
  | cons b rest ih =>
    have hlist := lookup_congr (h b.list List.mem_cons_self)
    have hrest := ih fun x hx => h x (List.mem_cons_of_mem _ hx)
    simp only [batchLists, hlist, hrest]

theorem expandRows_congr {body body' : Scope → Except CompileError Forest}
    {elements : List String} {table : List (List Value)}
    (h : ∀ row ∈ table, body (s.bind elements row) = body' (s'.bind elements row)) :
    expandRows body s elements table = expandRows body' s' elements table := by
  induction table with
  | nil => rfl
  | cons row rest ih =>
    have hrest := ih fun row' hrow => h row' (List.mem_cons_of_mem _ hrow)
    simp only [expandRows, h row List.mem_cons_self, hrest]

theorem expandAll_congr {r' : Registry} {ns : List Node}
    (h : ∀ n ∈ ns, expand r opened s n = expand r' opened s' n) :
    expandAll r opened s ns = expandAll r' opened s' ns := by
  induction ns with
  | nil => rw [expandAll, expandAll]
  | cons n rest ih =>
    have hrest := ih fun m hm => h m (List.mem_cons_of_mem _ hm)
    rw [expandAll, expandAll, h n List.mem_cons_self, hrest]

/-- An expansion depends on the values of those names that the tree reads past its batches, and on
no others. -/
theorem expand_congr {n : Node}
    (h : ∀ x, n.ReadsPast [] x → SortedMap.get? s x = SortedMap.get? s' x) :
    expand r opened s n = expand r opened s' n := by
  have hread {n : Node} {s s' : Scope}
      (h : ∀ x, n.ReadsPast [] x → SortedMap.get? s x = SortedMap.get? s' x) :
      ∀ x ∈ n.readHere, SortedMap.get? s x = SortedMap.get? s' x :=
    fun x hx => h x (Node.readsPast_self hx List.not_mem_nil)
  induction opened, n using expansion_induction r generalizing s s' with
  | sequence opened steps span ih =>
    rw [expand, expand, expandAll_congr fun n hn => ih n hn fun x hx => h x (hx.step hn)]
  | leaf opened worker args span =>
    rw [expand, expand, evaluate_congr (hread h)]
  | batch opened bindings body span ih =>
    rw [expand, expand, batchLists_congr (hread h)]
    split
    · rfl
    cases hl : batchLists s' bindings with
    | error e => rfl
    | ok lists =>
      simp only [bind, Except.bind]
      cases hc : checkLengths ((lists.head?.map List.length).getD 0) bindings lists with
      | error e => rfl
      | ok _ =>
        have hrows : expandRows (fun s' => expand r opened s' body) s
              (bindings.map Binding.element)
              (rows ((lists.head?.map List.length).getD 0) lists) =
            expandRows (fun s' => expand r opened s' body) s' (bindings.map Binding.element)
              (rows ((lists.head?.map List.length).getD 0) lists) := by
          apply expandRows_congr
          intro row hrow
          apply ih
          intro x hx
          -- What an element hides may differ; the rest of what the body reads, the batch reads.
          apply Scope.get?_bind_congr
          · rw [List.length_map, length_of_mem_rows hl hc row hrow]
          · intro hfree
            apply h
            apply Node.ReadsPast.body
            rw [List.append_nil]
            exact Node.readsPast_iff.mpr ⟨hx, hfree⟩
        simp only [hrows]
  | call opened name args nested span ihd ihn =>
    have hblock : expandBlock r opened s nested = expandBlock r opened s' nested := by
      cases nested with
      | none => rfl
      | some body => exact ihn body rfl fun x hx => h x hx.block
    cases hd : r.get? name with
    | none => rw [expand_worker hd, expand_worker hd, evaluate_congr (hread h), hblock]
    | some d => rw [expand_superworker hd, expand_superworker hd, evaluate_congr (hread h), hblock]

end Congr

/-! ### Where more is bound and less is being expanded -/

section Mono

variable {r : Registry} {opened opened' : List String} {s s' : Scope} {f f' : Forest}

theorem Arg.HasValue.mono {a : Arg} {v : Value} (hs : s.Within s') (h : a.HasValue s v) :
    a.HasValue s' v := by
  obtain ⟨key, source⟩ := a
  cases source with
  | param name => exact hs name v h
  | literal w => exact h

theorem hasValues_mono {args : List Arg} {values : List Value} (hs : s.Within s')
    (h : List.Forall₂ (Arg.HasValue s) args values) :
    List.Forall₂ (Arg.HasValue s') args values :=
  h.imp fun _ _ ha => ha.mono hs

theorem expandsAll_mono {ns : List Node}
    (ih : ∀ n ∈ ns, ∀ f, Expands r opened s n f → Expands r opened' s' n f)
    (h : ExpandsAll r opened s ns f) : ExpandsAll r opened' s' ns f := by
  induction ns generalizing f with
  | nil =>
    cases h
    exact .nil
  | cons n rest ihs =>
    cases h with
    | cons hn hrest =>
      exact .cons (ih n List.mem_cons_self _ hn)
        (ihs (fun m hm => ih m (List.mem_cons_of_mem _ hm)) hrest)

theorem expandsRows_mono {elements : List String} {body : Node} {table : List (List Value)}
    (ih : ∀ row f, Expands r opened (s.bind elements row) body f →
      Expands r opened' (s'.bind elements row) body f)
    (h : ExpandsRows r opened s elements body table f) :
    ExpandsRows r opened' s' elements body table f := by
  induction table generalizing f with
  | nil =>
    cases h
    exact .nil
  | cons row rest ihs =>
    cases h with
    | cons hb hm => exact .cons (ih row _ hb) (ihs hm)

/-- An expansion that succeeds is the same where more is bound and less is being expanded. -/
theorem Expands.mono {n : Node} (h : Expands r opened s n f) (ho : opened' ⊆ opened)
    (hs : s.Within s') : Expands r opened' s' n f := by
  induction opened, n using expansion_induction r generalizing opened' s s' f with
  | sequence opened steps span ih =>
    cases h with
    | sequence hne h => exact .sequence hne (expandsAll_mono (fun n hn f hf => ih n hn hf ho hs) h)
  | leaf opened worker args span =>
    cases h with
    | leaf hw hv => exact .leaf hw (hasValues_mono hs hv)
  | batch opened bindings body span ih =>
    cases h with
    | batch hne hl hc hb =>
      have hlists := hl.imp fun b items hb => hs b.list (.array items) hb
      exact .batch hne hlists hc (expandsRows_mono (fun row f hf => ih hf ho hs.bind) hb)
  | call opened name args nested span ihd ihn =>
    have hblock : ∀ f, ExpandsBlock r opened s nested f →
        ExpandsBlock r opened' s' nested f := by
      intro f hf
      cases hf with
      | absent => exact .absent
      | present hn => exact .present (ihn _ rfl hn ho hs)
    cases h with
    | worker hd hw hv hn => exact .worker hd hw (hasValues_mono hs hv) (hblock _ hn)
    | superworker hd hname hlen hv hb hn =>
      -- The body sees the same parameters, so only what is being expanded is less there.
      have hinner := ihd _ hd hname hb (List.cons_subset_cons name ho) (.refl _)
      exact .superworker hd (fun hm => hname (ho hm)) hlen (hasValues_mono hs hv) hinner
        (hblock _ hn)

/-- A tree expands to one forest at most, whatever is being expanded. -/
theorem Expands.unique {n : Node} (h : Expands r opened s n f) (h' : Expands r opened' s n f') :
    f = f' := by
  have hf := expand_eq_ok_iff.mpr (h.mono (List.nil_subset _) (.refl s))
  have hf' := expand_eq_ok_iff.mpr (h'.mono (List.nil_subset _) (.refl s))
  exact Except.ok.inj (hf.symm.trans hf')

end Mono

end Workflow
