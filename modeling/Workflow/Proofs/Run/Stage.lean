import Workflow.Proofs.Run.Phase
import Workflow.Run.Machine

/-!
How far each job has come in a run, to the point where it shows in the events, the queue and the
units in flight, and how the jobs advance one at a time.
-/

namespace Workflow

namespace Plan

/-- Whether a job ends its chain by its own work; structural jobs have none. -/
def breaks (p : Plan) (fails : JobId → Bool) (id : JobId) : Bool :=
  !p.isStructural id && fails id

end Plan

namespace Run

/-- `called`, `worked`, `closing` and `telling` are waits for an event to be handled. -/
inductive Stage where
  | idle
  | called
  | queued
  | flying
  | worked (failed : Bool)
  | waiting
  | closing (failed : Bool)
  | telling (e : Ending)
  | told (e : Ending)
  | passed
deriving DecidableEq

namespace Stage

def phase : Stage → Phase
  | idle => .idle
  | called | queued | flying | worked _ | telling .broken => .busy
  | waiting => .waiting
  | closing failed | telling (.settled failed) => .settling failed
  | told e => .ended e
  | passed => .passed

theorem phase_eq_idle_iff {x : Stage} : x.phase = .idle ↔ x = .idle := by
  cases x with
  | telling e => cases e <;> simp [phase]
  | _ => simp [phase]

theorem phase_eq_waiting_iff {x : Stage} : x.phase = .waiting ↔ x = .waiting := by
  cases x with
  | telling e => cases e <;> simp [phase]
  | _ => simp [phase]

theorem phase_eq_passed_iff {x : Stage} : x.phase = .passed ↔ x = .passed := by
  cases x with
  | telling e => cases e <;> simp [phase]
  | _ => simp [phase]

/-- How often a job has advanced at least when it comes to a stage. -/
def rank : Stage → Nat
  | idle => 0
  | called => 1
  | queued => 2
  | flying => 3
  | worked _ => 4
  | waiting => 5
  | closing _ => 6
  | telling _ => 7
  | told _ | passed => 8

theorem rank_le (x : Stage) : x.rank ≤ 8 := by
  cases x <;> simp [rank]

/-- What the stage of a job says about the job. -/
def Fits (p : Plan) (fails : JobId → Bool) (id : JobId) : Stage → Prop
  | idle | called => True
  | queued | flying => p.isStructural id = false
  | worked failed => failed = p.breaks fails id
  | waiting | closing _ => p.breaks fails id = false
  | telling .broken | told .broken => p.breaks fails id = true
  | telling (.settled failed) | told (.settled failed) =>
    p.breaks fails id = false ∧ (failed = false → p.next? id = none)
  | passed => p.breaks fails id = false ∧ p.next? id ≠ none

end Stage

/-- Jobs that have not begun are called. -/
def callAll (ids : List JobId) (st : JobId → Stage) : JobId → Stage := fun id =>
  if id ∈ ids then .called else st id

/-- Jobs that can be called: none of them has begun. -/
structure Fresh (p : Plan) (st : JobId → Stage) (ids : List JobId) : Prop where
  nodup : ids.Nodup
  mem : ∀ k ∈ ids, k ∈ p.ids
  idle : ∀ k ∈ ids, st k = .idle

/-- One job advances; what it calls and the owner that it tells advance with it. -/
inductive Advance (p : Plan) (fails : JobId → Bool) (st : JobId → Stage) : (JobId → Stage) → Prop
  | start {id : JobId} (h : st id = .called) :
    Advance p fails st
      (Function.update st id (if p.isStructural id then .worked false else .queued))
  | dispatch {id : JobId} (h : st id = .queued) :
    Advance p fails st (Function.update st id .flying)
  | finish {id : JobId} (h : st id = .flying) :
    Advance p fails st (Function.update st id (.worked (fails id)))
  | fail {id : JobId} (h : st id = .worked true) :
    Advance p fails st (Function.update st id (.telling .broken))
  | branch {id : JobId} (h : st id = .worked false) (hb : p.branches id ≠ []) :
    Advance p fails st (Function.update (callAll (p.branches id) st) id .waiting)
  | close {id : JobId} (h : st id = .worked false) (hb : p.branches id = []) :
    Advance p fails st (Function.update st id (.closing false))
  | pass {id n : JobId} (h : st id = .closing false) (hn : p.next? id = some n) :
    Advance p fails st (Function.update (callAll [n] st) id .passed)
  | settle {id : JobId} {failed : Bool} (h : st id = .closing failed)
    (hn : failed = true ∨ p.next? id = none) :
    Advance p fails st (Function.update st id (.telling (.settled failed)))
  | tell {id : JobId} {e : Ending} (h : st id = .telling e)
    (hmore : ∀ o, p.parent? id = some o →
      ∃ c, c ≠ id ∧ p.parent? c = some o ∧ (st c).phase.isLive = true) :
    Advance p fails st (Function.update st id (.told e))
  | tellLast {id o : JobId} {e : Ending} {failed : Bool} (h : st id = .telling e)
    (ho : p.parent? id = some o)
    (hlast : ∀ c, c ≠ id → p.parent? c = some o → (st c).phase.isLive = false)
    (hf : failed = true ↔ ∃ c, p.parent? c = some o ∧
      (Function.update st id (.told e) c).phase.isLost = true) :
    Advance p fails st (Function.update (Function.update st id (.told e)) o (.closing failed))

/-- Stages that jobs can have together. -/
structure Consistent (p : Plan) (fails : JobId → Bool) (st : JobId → Stage) : Prop where
  coherent : Coherent p fun id => (st id).phase
  fits : ∀ id, (st id).Fits p fails id

def Stages.initial (p : Plan) : JobId → Stage := Function.update (fun _ => .idle) p.root .called

variable {p : Plan} {fails : JobId → Bool} {st st' : JobId → Stage}

theorem phase_update (st : JobId → Stage) (id : JobId) (x : Stage) :
    (fun k => (Function.update st id x k).phase) =
      Function.update (fun k => (st k).phase) id x.phase :=
  Function.comp_update Stage.phase st id x

theorem callAll_nil (st : JobId → Stage) : callAll [] st = st := by
  funext k
  simp [callAll]

theorem callAll_cons (id : JobId) (ids : List JobId) (st : JobId → Stage) :
    callAll (id :: ids) st = Function.update (callAll ids st) id .called := by
  funext k
  by_cases hk : k = id
  · simp [hk, callAll]
  · simp [hk, callAll]

namespace Fresh

variable {ids : List JobId}

theorem nil (p : Plan) (st : JobId → Stage) : Fresh p st [] where
  nodup := List.nodup_nil
  mem := by simp
  idle := by simp

theorem of_cons {id : JobId} (h : Fresh p st (id :: ids)) : Fresh p st ids where
  nodup := (List.nodup_cons.mp h.nodup).2
  mem := (List.forall_mem_cons.mp h.mem).2
  idle := (List.forall_mem_cons.mp h.idle).2

/-- A call changes nothing for a job that has begun. -/
theorem callAll_of_begun (h : Fresh p st ids) {id : JobId} (hid : st id ≠ .idle) :
    callAll ids st id = st id := by
  rw [callAll, if_neg]
  intro hm
  exact hid (h.idle id hm)

/-- What is the same of idle and called jobs is the same after a call. -/
theorem apply_callAll (h : Fresh p st ids) {β : Sort*} (f : Stage → β)
    (hf : f .called = f .idle) (k : JobId) : f (callAll ids st k) = f (st k) := by
  rw [callAll]
  split
  · rename_i hm
    rw [h.idle k hm, hf]
  · rfl

end Fresh

namespace Consistent

theorem initial (hp : p.Branching) (fails : JobId → Bool) :
    Consistent p fails (Stages.initial p) where
  coherent := by
    rw [Stages.initial, phase_update]
    exact Coherent.initial hp
  fits := by
    intro id
    by_cases hid : id = p.root <;> simp [Stages.initial, hid, Stage.Fits]

theorem mem_ids (h : Consistent p fails st) {id : JobId} (hid : st id ≠ .idle) : id ∈ p.ids :=
  h.coherent.inside id fun hphase => hid (Stage.phase_eq_idle_iff.mp hphase)

theorem fits_update (h : Consistent p fails st) {id : JobId} {x : Stage}
    (hx : x.Fits p fails id) (k : JobId) : (Function.update st id x k).Fits p fails k := by
  by_cases hk : k = id
  · rw [hk, Function.update_self]
    exact hx
  · rw [Function.update_of_ne hk]
    exact h.fits k

theorem update_of_phase (h : Consistent p fails st) {id : JobId} {x : Stage}
    (hphase : x.phase = (st id).phase) (hx : x.Fits p fails id) :
    Consistent p fails (Function.update st id x) where
  coherent := by
    rw [phase_update, hphase, Function.update_eq_self]
    exact h.coherent
  fits := h.fits_update hx

theorem fits_callAll (h : Consistent p fails st) {id : JobId} {x : Stage}
    (hx : x.Fits p fails id) (ids : List JobId) (k : JobId) :
    (Function.update (callAll ids st) id x k).Fits p fails k := by
  by_cases hk : k = id
  · rw [hk, Function.update_self]
    exact hx
  · rw [Function.update_of_ne hk, callAll]
    split
    · trivial
    · exact h.fits k

theorem phase_callAll (ids : List JobId) (st : JobId → Stage) (id : JobId) (x : Stage) :
    (fun k => (Function.update (callAll ids st) id x k).phase) =
      fun k => if k = id then x.phase else if k ∈ ids then .busy else (st k).phase := by
  funext k
  by_cases hk : k = id
  · simp [hk]
  · by_cases hm : k ∈ ids <;> simp [hk, hm, callAll, Stage.phase]

theorem child_idle (h : Consistent p fails st) {id c : JobId}
    (hopen : (st id).phase.isOpen = false) (hc : p.parent? c = some id) : st c = .idle :=
  Stage.phase_eq_idle_iff.mp (h.coherent.child_idle hopen hc)

theorem ends_of_telling {id : JobId} {e : Ending} (h : st id = .telling e) :
    Coherent.Ends (st id).phase e := by
  cases e with
  | broken => simpa [h, Stage.phase] using Coherent.Ends.broken
  | settled failed => simpa [h, Stage.phase] using Coherent.Ends.settled failed

theorem isLive_of_telling {id : JobId} {e : Ending} (h : st id = .telling e) :
    (st id).phase.isLive = true :=
  (ends_of_telling h).isLive

/-- The owner that a job is about to tell waits for it. -/
theorem owner_waiting (h : Consistent p fails st) {id o : JobId} {e : Ending}
    (hst : st id = .telling e) (ho : p.parent? id = some o) : st o = .waiting :=
  Stage.phase_eq_waiting_iff.mp (h.coherent.live id o ho (isLive_of_telling hst))

/-- What follows a job begins when the job is passed. -/
theorem next_idle (h : Consistent p fails st) {id n : JobId} (hn : p.next? id = some n)
    (hst : st id ≠ .passed) : st n = .idle := by
  by_contra hne
  have hphase : (st n).phase ≠ .idle := fun he => hne (Stage.phase_eq_idle_iff.mp he)
  exact hst (Stage.phase_eq_passed_iff.mp ((h.coherent.next id n hn).mp hphase))

/-- The branches of a job are there to be called until its own work is done. -/
theorem fresh_branches (hp : p.Branching) (h : Consistent p fails st) {id : JobId}
    (hopen : (st id).phase.isOpen = false) : Fresh p st (p.branches id) where
  nodup := hp.nodup id
  mem k hk := Plan.mem_ids_of_parent? (hp.branch id k hk)
  idle k hk := h.child_idle hopen (hp.branch id k hk)

/-- What follows a job is there to be called until the job is passed. -/
theorem fresh_next (hp : p.Branching) (h : Consistent p fails st) {id n : JobId}
    (hn : p.next? id = some n) (hst : st id ≠ .passed) : Fresh p st [n] where
  nodup := List.nodup_singleton n
  mem := by simpa using (hp.next id n hn).1
  idle := by simpa using h.next_idle hn hst

/-- Stages that jobs can have together stay such when one advances. -/
theorem advance (hp : p.Branching) (h : Consistent p fails st) (ha : Advance p fails st st') :
    Consistent p fails st' := by
  cases ha with
  | @start id hst =>
    refine h.update_of_phase ?_ ?_
    · split <;> simp [hst, Stage.phase]
    · split
      · rename_i hs
        simp [Stage.Fits, Plan.breaks, hs]
      · rename_i hs
        simpa [Stage.Fits] using hs
  | @dispatch id hst =>
    have hfit := h.fits id
    rw [hst] at hfit
    exact h.update_of_phase (by rw [hst]; rfl) hfit
  | @finish id hst =>
    have hfit := h.fits id
    rw [hst] at hfit
    refine h.update_of_phase (by rw [hst]; rfl) ?_
    simp [Stage.Fits, Plan.breaks, show p.isStructural id = false from hfit]
  | @fail id hst =>
    have hfit := h.fits id
    rw [hst] at hfit
    refine h.update_of_phase (by rw [hst]; rfl) ?_
    exact Eq.symm hfit
  | @branch id hst hb =>
    have hfit := h.fits id
    rw [hst] at hfit
    refine ⟨?_, h.fits_callAll (x := .waiting) (Eq.symm hfit) _⟩
    rw [phase_callAll]
    exact h.coherent.open_branches hp (by rw [hst]; rfl) hb
  | @close id hst hb =>
    have hfit := h.fits id
    rw [hst] at hfit
    refine ⟨?_, h.fits_update (Eq.symm hfit)⟩
    rw [phase_update]
    exact h.coherent.close_leaf hp (by rw [hst]; rfl) hb
  | @pass id n hst hn =>
    have hfit := h.fits id
    rw [hst] at hfit
    refine ⟨?_, h.fits_callAll (x := .passed) ⟨hfit, by simp [hn]⟩ _⟩
    rw [phase_callAll]
    simp only [List.mem_singleton]
    exact h.coherent.pass_on hp (by rw [hst]; rfl) hn
  | @settle id failed hst hn =>
    have hfit := h.fits id
    rw [hst] at hfit
    refine h.update_of_phase (by rw [hst]; rfl) ⟨hfit, ?_⟩
    rintro rfl
    simpa using hn
  | @tell id e hst hmore =>
    have hfit := h.fits id
    rw [hst] at hfit
    refine ⟨?_, h.fits_update (by cases e <;> exact hfit)⟩
    rw [phase_update]
    exact h.coherent.tell hp (ends_of_telling hst) hmore
  | @tellLast id o e failed hst ho hlast hf =>
    have hfit := h.fits id
    rw [hst] at hfit
    have hne : o ≠ id := by
      have := (hp.parent id o ho).2
      lia
    constructor
    · rw [phase_update, phase_update]
      refine h.coherent.tell_last hp (ends_of_telling hst) ho hlast ?_
      rw [hf]
      refine exists_congr fun c => and_congr_right fun _ => ?_
      rw [congrFun (phase_update st id (.told e)) c]
      rfl
    · have hopen := h.fits o
      rw [h.owner_waiting hst ho] at hopen
      have htold : (Stage.told e).Fits p fails id := by cases e <;> exact hfit
      intro k
      by_cases hk : k = o
      · rw [hk, Function.update_self]
        exact hopen
      · rw [Function.update_of_ne hk]
        exact h.fits_update htold k

end Consistent

end Run

end Workflow
