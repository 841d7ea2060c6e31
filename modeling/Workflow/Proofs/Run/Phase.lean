import Mathlib.Logic.Function.Basic
import Workflow.Proofs.Plan.Branching

/-!
How far the jobs of a plan have come in a run, told coarsely: enough to say which jobs may have
begun when others have, and why the end of a chain is the end of everything before it.
-/

namespace Workflow

namespace Run

/-- How a chain ended at a job: the work of the job itself failed, or all below it is done. -/
inductive Ending where
  | broken
  | settled (failed : Bool)
deriving DecidableEq

def Ending.failed : Ending → Bool
  | broken => true
  | settled failed => failed

/-- `busy` is a job with its own work, `settling` one below which all is done, `passed` one whose
successor has begun. -/
inductive Phase where
  | idle
  | busy
  | waiting
  | settling (failed : Bool)
  | ended (e : Ending)
  | passed
deriving DecidableEq

namespace Phase

/-- The job's own work is done and went well. -/
def isOpen : Phase → Bool
  | idle | busy | ended .broken => false
  | waiting | settling _ | ended (.settled _) | passed => true

/-- The owner of the job has to wait for it. -/
def isLive : Phase → Bool
  | busy | waiting | settling _ => true
  | idle | ended _ | passed => false

/-- The chain of the job ended with it and failed. -/
def isLost : Phase → Bool
  | ended e => e.failed
  | idle | busy | waiting | settling _ | passed => false

/-- Whether something below the job failed, once that is known. -/
def verdict? : Phase → Option Bool
  | settling failed | ended (.settled failed) => some failed
  | passed => some false
  | idle | busy | waiting | ended .broken => none

end Phase

/-- What holds between the phases of jobs that lead to one another. -/
structure Coherent (p : Plan) (F : JobId → Phase) : Prop where
  inside : ∀ id, F id ≠ .idle → id ∈ p.ids
  root : F p.root ≠ .idle
  parent : ∀ c o, p.parent? c = some o → F c ≠ .idle → (F o).isOpen = true
  branch : ∀ o, ∀ b ∈ p.branches o, (F o).isOpen = true → F b ≠ .idle
  next : ∀ q n, p.next? q = some n → (F n ≠ .idle ↔ F q = .passed)
  live : ∀ c o, p.parent? c = some o → (F c).isLive = true → F o = .waiting
  waiting : ∀ o, F o = .waiting → ∃ c, p.parent? c = some o ∧ (F c).isLive = true
  verdict : ∀ o f, (F o).verdict? = some f →
    (f = true ↔ ∃ c, p.parent? c = some o ∧ (F c).isLost = true)

namespace Coherent

variable {p : Plan} {F : JobId → Phase} {id : JobId}

theorem initial (hp : p.Branching) :
    Coherent p (Function.update (fun _ => .idle) p.root .busy) where
  inside := by
    intro id h
    by_cases hid : id = p.root
    · rw [hid]
      exact hp.root
    · simp [hid] at h
  root := by simp
  parent := by
    intro c o hc h
    by_cases hid : c = p.root
    · simp [hid, hp.root_parent] at hc
    · simp [hid] at h
  branch := by
    intro o b hb h
    by_cases hid : o = p.root <;> simp [hid, Phase.isOpen] at h
  next := by
    intro q n hn
    have hne : n ≠ p.root := by
      rintro rfl
      obtain ⟨-, hlt, hpar⟩ := hp.next q _ hn
      rw [hp.root_parent] at hpar
      have hq := hp.parent_none q (Plan.mem_ids_of_next? hn) hpar.symm
      lia
    by_cases hq : q = p.root <;> simp [hne, hq]
  live := by
    intro c o hc h
    by_cases hid : c = p.root
    · simp [hid, hp.root_parent] at hc
    · simp [hid, Phase.isLive] at h
  waiting := by
    intro o h
    by_cases hid : o = p.root <;> simp [hid] at h
  verdict := by
    intro o f h
    by_cases hid : o = p.root <;> simp [hid, Phase.verdict?] at h

theorem child_idle (h : Coherent p F) (hid : (F id).isOpen = false) {c : JobId}
    (hc : p.parent? c = some id) : F c = .idle := by
  by_contra hne
  rw [h.parent c id hc hne] at hid
  cases hid

/-- The branches of a job begin together when its own work is done. -/
theorem open_branches (hp : p.Branching) (h : Coherent p F) (hid : F id = .busy)
    (hb : p.branches id ≠ []) :
    Coherent p fun k => if k = id then .waiting else if k ∈ p.branches id then .busy else F k := by
  have hidle : ∀ c, p.parent? c = some id → F c = .idle := fun c =>
    h.child_idle (by rw [hid]; rfl)
  have hlt : ∀ c o, p.parent? c = some o → o < c := fun c o hc => (hp.parent c o hc).2
  constructor
  case inside => grind [h.inside, → Plan.Branching.branch, Plan.mem_ids_of_parent?]
  case root => grind [h.root]
  case parent => grind [h.parent, → Plan.Branching.branch, Phase.isOpen]
  case branch => grind [h.branch, → Plan.Branching.branch, Phase.isOpen]
  case next => grind [h.next, → Plan.Branching.branch, hp.branch_ne_next, hp.next]
  case live => grind [h.live, → Plan.Branching.branch, Phase.isLive]
  case waiting =>
    intro o ho
    by_cases hoid : o = id
    · obtain ⟨b, hmem⟩ := List.exists_mem_of_ne_nil _ hb
      refine ⟨b, by grind [→ Plan.Branching.branch], ?_⟩
      have hne : b ≠ id := by grind [→ Plan.Branching.branch]
      simp [hne, hmem, Phase.isLive]
    · grind [h.waiting, → Plan.Branching.branch, Phase.isLive]
  case verdict => grind [h.verdict, → Plan.Branching.branch, Phase.verdict?, Phase.isLost]

theorem close_leaf (hp : p.Branching) (h : Coherent p F) (hid : F id = .busy)
    (hb : p.branches id = []) : Coherent p (Function.update F id (.settling false)) := by
  have hidle : ∀ c, p.parent? c = some id → F c = .idle := fun c =>
    h.child_idle (by rw [hid]; rfl)
  have hlt : ∀ c o, p.parent? c = some o → o < c := fun c o hc => (hp.parent c o hc).2
  constructor
  case inside => grind [h.inside, Function.update_apply]
  case root => grind [h.root, Function.update_apply]
  case parent => grind [h.parent, Phase.isOpen, Function.update_apply]
  case branch => grind [h.branch, Phase.isOpen, Function.update_apply]
  case next => grind [h.next, Function.update_apply]
  case live => grind [h.live, Phase.isLive, Function.update_apply]
  case waiting => grind [h.waiting, Phase.isLive, Function.update_apply]
  case verdict => grind [h.verdict, Phase.verdict?, Phase.isLost, Function.update_apply]

theorem pass_on (hp : p.Branching) (h : Coherent p F) (hid : F id = .settling false) {n : JobId}
    (hn : p.next? id = some n) :
    Coherent p fun k => if k = id then .passed else if k = n then .busy else F k := by
  obtain ⟨hmem, hlt, hpar⟩ := hp.next id n hn
  have hidle : F n = .idle := by
    by_contra hne
    have := (h.next id n hn).mp hne
    simp [hid] at this
  have hup : ∀ c o, p.parent? c = some o → o < c := fun c o hc => (hp.parent c o hc).2
  have hbelow : ∀ c, p.parent? c = some n → F c = .idle := fun c =>
    h.child_idle (by rw [hidle]; rfl)
  constructor
  case inside => grind [h.inside]
  case root => grind [h.root]
  case parent => grind [h.parent, Phase.isOpen]
  case branch => grind [h.branch, Phase.isOpen, → Plan.Branching.branch]
  case next => grind [h.next, hp.next_inj, hp.next]
  case live => grind [h.live, Phase.isLive]
  case waiting =>
    intro o ho
    obtain ⟨c, hc, hl⟩ := h.waiting o (by grind)
    -- If the owner waited for the job that is passed, it now waits for the one behind it.
    by_cases hcid : c = id
    · refine ⟨n, by rw [hpar, ← hcid, hc], ?_⟩
      have hne : n ≠ id := by lia
      simp [hne, Phase.isLive]
    · refine ⟨c, hc, ?_⟩
      have hcn : c ≠ n := by
        rintro rfl
        simp [hidle, Phase.isLive] at hl
      simp [hcid, hcn, hl]
  case verdict =>
    intro o f ho
    have hlost : ∀ c, (if c = id then .passed else if c = n then .busy else F c : Phase).isLost =
        (F c).isLost := by
      grind [Phase.isLost]
    simp only [hlost]
    exact h.verdict o f (by grind [Phase.verdict?])

/-- A job that is about to tell its owner how its chain ended. -/
structure Ends (x : Phase) (e : Ending) : Prop where
  isLive : x.isLive = true
  ne_waiting : x ≠ .waiting
  isOpen : x.isOpen = (Phase.ended e).isOpen
  verdict : x.verdict? = (Phase.ended e).verdict?

theorem Ends.broken : Ends .busy .broken := ⟨rfl, nofun, rfl, rfl⟩

theorem Ends.settled (failed : Bool) : Ends (.settling failed) (.settled failed) :=
  ⟨rfl, nofun, rfl, rfl⟩

/-- An owner is told and still waits for others. -/
theorem tell {e : Ending} (hp : p.Branching) (h : Coherent p F) (hid : Ends (F id) e)
    (hmore : ∀ o, p.parent? id = some o → ∃ c, c ≠ id ∧ p.parent? c = some o ∧
      (F c).isLive = true) :
    Coherent p (Function.update F id (.ended e)) := by
  have hup : ∀ c o, p.parent? c = some o → o < c := fun c o hc => (hp.parent c o hc).2
  have hbegun : F id ≠ .idle ∧ F id ≠ .passed := by grind [hid.isLive, Phase.isLive]
  have howner : ∀ o, p.parent? id = some o → F o = .waiting := fun o ho =>
    h.live id o ho hid.isLive
  constructor
  case inside => grind [h.inside, Function.update_apply]
  case root => grind [h.root, Function.update_apply]
  case parent => grind [h.parent, hid.isOpen, Function.update_apply]
  case branch => grind [h.branch, hid.isOpen, Function.update_apply]
  case next => grind [h.next, Function.update_apply]
  case live => grind [h.live, hid.ne_waiting, Phase.isLive, Function.update_apply]
  case waiting => grind [h.waiting, Phase.isLive, Function.update_apply]
  case verdict =>
    intro o f ho
    have hne : p.parent? id ≠ some o := by
      intro hpar
      have hw := howner o hpar
      have hself := hup id o hpar
      grind [Phase.verdict?, Function.update_apply]
    have hv : (F o).verdict? = some f := by grind [hid.verdict, Function.update_apply]
    rw [h.verdict o f hv]
    refine exists_congr fun c => and_congr_right fun hc => ?_
    rw [Function.update_of_ne (by grind)]

/-- The last one that an owner waits for tells it, and the owner settles. -/
theorem tell_last {e : Ending} {o : JobId} {f : Bool} (hp : p.Branching) (h : Coherent p F)
    (hid : Ends (F id) e) (ho : p.parent? id = some o)
    (hlast : ∀ c, c ≠ id → p.parent? c = some o → (F c).isLive = false)
    (hf : f = true ↔
      ∃ c, p.parent? c = some o ∧ (Function.update F id (.ended e) c).isLost = true) :
    Coherent p (Function.update (Function.update F id (.ended e)) o (.settling f)) := by
  have hup : ∀ c o, p.parent? c = some o → o < c := fun c o hc => (hp.parent c o hc).2
  have hbegun : F id ≠ .idle ∧ F id ≠ .passed := by grind [hid.isLive, Phase.isLive]
  have howner : F o = .waiting := h.live id o ho hid.isLive
  constructor
  case inside => grind [h.inside, Function.update_apply]
  case root => grind [h.root, Function.update_apply]
  case parent => grind [h.parent, hid.isOpen, Phase.isOpen, Function.update_apply]
  case branch => grind [h.branch, hid.isOpen, Phase.isOpen, Function.update_apply]
  case next => grind [h.next, Function.update_apply]
  case live => grind [h.live, hid.ne_waiting, Phase.isLive, Function.update_apply]
  case waiting => grind [h.waiting, Phase.isLive, Function.update_apply]
  case verdict =>
    intro q g hq
    by_cases hqo : q = o
    · subst hqo
      have hfg : f = g := by simpa [Phase.verdict?] using hq
      rw [← hfg, hf]
      refine exists_congr fun c => and_congr_right fun hc => ?_
      have hcq : c ≠ q := by grind
      rw [Function.update_of_ne hcq]
    · have hv : (F q).verdict? = some g := by grind [hid.verdict, Function.update_apply]
      rw [h.verdict q g hv]
      refine exists_congr fun c => and_congr_right fun hc => ?_
      have hcid : c ≠ id := by grind
      grind [Phase.isLost, Function.update_apply]

end Coherent

end Run

end Workflow
