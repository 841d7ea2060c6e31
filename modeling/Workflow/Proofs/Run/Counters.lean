import Workflow.Proofs.Run.Simulation

/-!
Counters seen through what is outstanding: what a call changes, for the id that it names and for
all others.
-/

namespace Workflow

namespace Counters

variable {c : Counters} {id k : JobId} {n : Nat}

theorem outstanding_ofSize (size : Nat) (id : JobId) : (ofSize size).outstanding id = 0 := by
  cases id with
  | zero => rfl
  | succ id =>
    simp only [outstanding, get?, ofSize, List.getElem?_replicate]
    split <;> rfl

theorem outstanding_of_get? (h : c.get? id = some n) : c.outstanding id = n := by
  rw [outstanding, h]
  rfl

theorem outstanding_set_self (h : (c.get? id).isSome = true) (n : Nat) :
    (c.set id n).outstanding id = n := by
  obtain ⟨m, hm⟩ := Option.isSome_iff_exists.mp h
  exact outstanding_of_get? (by rw [get?_set, if_pos rfl, hm, Option.map_some])

theorem outstanding_set_of_ne (h : k ≠ id) (n : Nat) :
    (c.set id n).outstanding k = c.outstanding k := by
  rw [outstanding, get?_set, if_neg h, outstanding]

theorem outstanding_arm (c : Counters) (id : JobId) (n : Nat) :
    (c.arm id n).outstanding id = n ∨ (c.arm id n).outstanding id = 0 := by
  rw [arm]
  cases hg : c.get? id with
  | none => exact .inr (by rw [outstanding, get?_set, if_pos rfl, hg]; rfl)
  | some m => exact .inl (outstanding_set_self (by rw [hg]; rfl) n)

/-- Something is outstanding for an id that has a counter, and completing counts it down. -/
theorem complete_of_pos (h : 0 < c.outstanding id) :
    ∃ n, c.get? id = some (n + 1) ∧ c.complete id = (n == 0, c.set id n) := by
  cases hg : c.get? id with
  | none => simp [outstanding, hg] at h
  | some m =>
    cases m with
    | zero => simp [outstanding, hg] at h
    | succ n => exact ⟨n, rfl, by rw [complete, hg]⟩

theorem complete_of_zero (h : c.outstanding id = 0) : c.complete id = (false, c) := by
  rw [complete]
  cases hg : c.get? id with
  | none => rfl
  | some m =>
    obtain rfl : m = 0 := (outstanding_of_get? hg).symm.trans h
    rfl

theorem outstanding_complete_of_ne (h : k ≠ id) :
    (c.complete id).2.outstanding k = c.outstanding k := by
  rcases Nat.eq_zero_or_pos (c.outstanding id) with hzero | hpos
  · rw [complete_of_zero hzero]
  · obtain ⟨n, -, hc⟩ := complete_of_pos hpos
    rw [hc, outstanding_set_of_ne h]

end Counters

end Workflow
