import Workflow.Proofs.Assembly.Build
import Workflow.Proofs.Plan.Accepted

/-!
What a body leaves in the table it is written into. It takes the ids that come next and leaves
every other job as it was, and its heads are a chain under the given parent, as many as the count
of the body says. So a first head is always there, and a root is put over the steps of a tree
exactly when it has several heads.
-/

namespace Workflow

namespace Assembly

/-- Writes a tree under `parent` and lets its heads follow one another. -/
def body (r : Registry) (s : Scope) (parent : Option JobId) (w : Assembly) (n : Node) :
    Except CompileError w.Built :=
  (build r s parent w n).map Built.chained

/-- Writes a root that holds all that is bound, and a body under it. -/
def wrapped (r : Registry) (args : Scope) (n : Node) : Except CompileError empty.Built := do
  let root := empty.push (plainJob · superworkerName (args.keys.map .name) args.values none)
  let below ← body r args (some root.lastId) root n
  pure (.listing root.lastId below.after (below.heads.take 1) below.opened)

theorem body_eq_expand (r : Registry) (s : Scope) (parent : Option JobId) (w : Assembly)
    (n : Node) : body r s parent w n =
      (expand r w.opened s n).map fun f => (w.numbered parent f).chained := by
  rw [body, build_eq_expand r w.opened n s parent w rfl]
  cases expand r w.opened s n <;> rfl

/-- Written in place, a body is its block behind the last id, and it fails where the block does. -/
theorem body_eq_emitBody (r : Registry) (s : Scope) (parent : Option JobId) (w : Assembly)
    (n : Node) :
    body r s parent w n = (emitBody r w.opened s parent w.lastId n).map w.taking := by
  rw [body_eq_expand, emitBody, emit_eq_expand]
  cases expand r w.opened s n with
  | error e => rfl
  | ok f => exact congrArg Except.ok (numbered_chained w parent f)

theorem wrapped_eq_expand (r : Registry) (args : Scope) (n : Node) :
    wrapped r args n = (expand r [] args n).map fun f =>
      empty.numbered none [.node (.call superworkerName) (args.keys.map .name) args.values f] := by
  rw [wrapped, body_eq_expand, push_opened]
  change (expand r [] args n).map _ >>= _ = (expand r [] args n).map _
  cases expand r [] args n with
  | error e => rfl
  | ok f => exact congrArg Except.ok (listing_eq_numbered (numbered_chained_after ..) rfl)

/-- How a body stands in the table that it has been written into. -/
structure Framed (w : Assembly) (parent : Option JobId) (n : Node) (b : w.Built) : Prop where
  /-- There is a first head. -/
  nonempty : b.heads ≠ []
  ascending : b.heads.Pairwise (· < ·)
  counted : b.heads.length = headCount n
  /-- The heads are new ids. -/
  fresh : ∀ k ∈ b.heads, w.lastId < k ∧ k ≤ b.after.lastId
  /-- Every head stands under the given parent, followed by the next head; nothing follows the
  last one. -/
  linked : ∀ i k, b.heads[i]? = some k →
    ∃ j, b.after.jobs.get? k = some j ∧ j.parent = parent ∧ j.next = b.heads[i + 1]?
  /-- The superworkers that are being expanded are those from before. -/
  stack : b.after.opened = w.opened
  /-- No job that was there has changed. -/
  kept : ∀ k, k ≤ w.lastId → b.after.jobs.get? k = w.jobs.get? k
  /-- Every id from there to the last one is that of a new job. -/
  filled : ∀ k, w.lastId < k → k ≤ b.after.lastId → ∃ j, b.after.jobs.get? k = some j ∧ j.id = k
  /-- Nothing has been written further on. -/
  beyond : ∀ k, b.after.lastId < k → b.after.jobs.get? k = w.jobs.get? k

/-- The job of a head in a numbered chain. -/
theorem exists_head (parent : Option JobId) {id k : JobId} {f : Forest} {i : Nat}
    (h : (headIds id f)[i]? = some k) :
    ∃ j ∈ numberAll true parent id f, j.id = k ∧ j.parent = parent ∧
      j.next = (headIds id f)[i + 1]? := by
  induction f generalizing id i with
  | nil => simp [headIds] at h
  | cons t f ih =>
    cases i with
    | zero =>
      obtain rfl : id = k := by simpa [headIds] using h
      obtain ⟨kind, keys, values, below⟩ := t
      refine ⟨_, List.mem_append_left _ List.mem_cons_self, rfl, rfl, ?_⟩
      simp [headIds, List.head?_eq_getElem?]
    | succ i =>
      obtain ⟨j, hj, hlinks⟩ := ih (by simpa [headIds] using h)
      refine ⟨j, List.mem_append_right _ hj, ?_⟩
      simpa [headIds] using hlinks

theorem framed_numbered {w : Assembly} {parent : Option JobId} {n : Node} {f : Forest}
    (hne : f ≠ []) (hcount : f.length = headCount n) :
    w.Framed parent n (w.numbered parent f).chained := by
  have hafter := numbered_chained_after w parent f
  have hids : (numberAll true parent (w.lastId + 1) f).map Job.id =
      List.range' (w.lastId + 1) (forestSize f) := numberAll_ids ..
  have hlast : (w.numbered parent f).chained.after.lastId = w.lastId + forestSize f := by
    rw [hafter, extend_lastId, numberAll_length]
  have hstored : ∀ j ∈ numberAll true parent (w.lastId + 1) f,
      (w.numbered parent f).chained.after.jobs.get? j.id = some j := by
    intro j hj
    rw [hafter]
    exact get?_extend_of_mem (hids ▸ List.nodup_range') hj
  have hother : ∀ k, k ≤ w.lastId ∨ w.lastId + forestSize f < k →
      (w.numbered parent f).chained.after.jobs.get? k = w.jobs.get? k := by
    intro k hk
    rw [hafter]
    refine get?_extend_of_not_mem ?_
    rw [hids, List.mem_range'_1]
    lia
  refine ⟨?_, headIds_pairwise _ f, ?_, fun k hk => ?_, fun i k hk => ?_, ?_,
    fun k hk => hother k (.inl hk), fun k hk hk' => ?_, fun k hk => hother k (.inr (hlast ▸ hk))⟩
  · cases f with
    | nil => exact absurd rfl hne
    | cons t f => exact List.cons_ne_nil _ _
  · exact (headIds_length _ f).trans hcount
  · have hb := headIds_bounds hk
    rw [hlast]
    lia
  · obtain ⟨j, hj, rfl, hlinks⟩ := exists_head parent hk
    exact ⟨j, hstored j hj, hlinks⟩
  · exact (w.numbered parent f).chained.opened
  · have hmem : k ∈ (numberAll true parent (w.lastId + 1) f).map Job.id := by
      rw [hids, List.mem_range'_1]
      lia
    obtain ⟨j, hj, rfl⟩ := List.mem_map.mp hmem
    exact ⟨j, hstored j hj, rfl⟩

theorem after_jobs_numbered_empty (t : JobTree) :
    (empty.numbered none [t]).after.jobs = t.table := by
  simp [numbered, taking, Block.ofForest, numberAll_singleton, JobTree.table, Table.ofJobs,
    extend, empty, SortedMap.ofList]

/-- Compiling writes the body of a tree into an empty table, below a root if it has several
heads. -/
theorem compile_eq_body (r : Registry) (args : Scope) (n : Node) :
    compile r args n = (do
      resolveNames r n
      let bare ← body r args none empty n
      let b ← if 1 < bare.heads.length then wrapped r args n else pure bare
      pure b.after.jobs) := by
  rw [compile_eq_expand, body_eq_expand, wrapped_eq_expand]
  cases resolveNames r n with
  | error e => rfl
  | ok u =>
    change (expand r [] args n).map _ = (expand r [] args n).map _ >>= _
    cases hf : expand r [] args n with
    | error e => rfl
    | ok f =>
      have hpos := List.length_pos_iff.mpr (expands_ne_nil (expand_eq_ok_iff.mp hf))
      have hlength : (empty.numbered none f).chained.heads.length = f.length := headIds_length ..
      simp only [Except.map, bind, Except.bind, pure, Except.pure, hlength]
      by_cases hone : 1 < f.length
      · rw [if_pos hone, rooted_of_one_lt hone, after_jobs_numbered_empty]
      · obtain ⟨t, rfl⟩ := List.length_eq_one_iff.mp (show f.length = 1 by lia)
        rw [if_neg hone, rooted_singleton, ← after_jobs_numbered_empty]
        rfl

/-- Where the body of a tree can be written under a parent, in whatever table, its heads are a
chain of new jobs under that parent, as many as its count, and nothing else in the table changes.
What is written is the block that the compiler makes. So every body has a first head, and the
compiler puts a root over a tree exactly when the body of the tree has several heads. -/
theorem body_framed {r : Registry} {s : Scope} {parent : Option JobId} {w : Assembly} {n : Node}
    {b : w.Built} (h : body r s parent w n = .ok b) :
    w.Framed parent n b ∧
    body r s parent w n = (emitBody r w.opened s parent w.lastId n).map w.taking ∧
    ∀ args, compile r args n = (do
      resolveNames r n
      let bare ← body r args none empty n
      let b ← if 1 < bare.heads.length then wrapped r args n else pure bare
      pure b.after.jobs) := by
  refine ⟨?_, body_eq_emitBody r s parent w n, fun args => compile_eq_body r args n⟩
  rw [body_eq_expand] at h
  obtain ⟨f, hf, rfl⟩ := Except.map_eq_ok_iff.mp h
  have hx := expand_eq_ok_iff.mp hf
  exact framed_numbered (expands_ne_nil hx) (expands_length hx)

/-- Two steps, the first with a block. -/
def notifyAgain : Node :=
  .sequence
    [.call "Notify" [] (some (.leaf "Notify" [] Span.zero)) Span.zero,
      .leaf "Notify" [] Span.zero]
    Span.zero

/-- A table that so far has a root, while a superworker is being expanded. -/
def started : Assembly :=
  (empty.push (plainJob · superworkerName [] [] none)).enter "Report"

theorem notifyAgain_framed : ∃ b,
    body notifier SortedMap.empty (some 1) started notifyAgain = .ok b ∧ b.heads = [2, 4] ∧
      started.Framed (some 1) notifyAgain b := by
  have hworker : notifier.hasWorker "Notify" = true := by decide
  have hnone : notifier.get? "Notify" = none := by decide
  have hx : Expands notifier started.opened SortedMap.empty notifyAgain
      [.node (.call "Notify") [] [] [.node (.call "Notify") [] [] []],
        .node (.call "Notify") [] [] []] :=
    .sequence (List.cons_ne_nil _ _)
      (.cons (.worker hnone hworker .nil (.present (.leaf hworker .nil)))
        (.cons (.leaf hworker .nil) .nil))
  have hbody := body_eq_expand notifier SortedMap.empty (some 1) started notifyAgain
  rw [expand_eq_ok_iff.mpr hx] at hbody
  exact ⟨_, hbody, rfl, (body_framed hbody).1⟩

end Assembly

end Workflow
