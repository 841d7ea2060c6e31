import Workflow.Proofs.Run.Counters

/-!
Counters under any sequence of requests, whoever makes them. An id that is armed with `n` branches
tells the `n`-th completion after that, and no other one, that it is the last. Requests on other ids
make no difference to it.
-/

namespace Workflow

namespace Counters

/-- What is asked of counters. Requests of several callers are served one by one, in any order. -/
inductive Request where
  | arm (id : JobId) (branches : Nat)
  | complete (id : JobId)
deriving DecidableEq

/-- The id that a request is about. -/
def Request.id : Request → JobId
  | .arm id _ | .complete id => id

@[simp] theorem Request.id_arm (id : JobId) (n : Nat) : (arm id n).id = id := rfl

@[simp] theorem Request.id_complete (id : JobId) : (complete id).id = id := rfl

/-- What the caller of a request is told, if anything, and the counters after the request. -/
def serve (c : Counters) : Request → Option Bool × Counters
  | .arm id n => (none, c.arm id n)
  | .complete id => ((c.complete id).1, (c.complete id).2)

def after (c : Counters) (rs : List Request) : Counters := rs.foldl (fun c r => (c.serve r).2) c

/-- What the completions of an id are told, in order. -/
def answers (c : Counters) (id : JobId) : List Request → List Bool
  | [] => []
  | r :: rs =>
    (if r.id = id then (c.serve r).1.toList else []) ++ (c.serve r).2.answers id rs

/-- How many completions of an id there are among requests. -/
def completions (id : JobId) (rs : List Request) : Nat := rs.count (.complete id)

/-- Requests that leave an id as it was armed before. -/
def Unarmed (id : JobId) (rs : List Request) : Prop := ∀ n, .arm id n ∉ rs

variable {c c' : Counters} {id k : JobId} {n size : Nat} {r : Request} {rs rs' : List Request}

/-! ### One request -/

theorem complete_fst (c : Counters) (id : JobId) :
    (c.complete id).1 = decide (c.get? id = some 1) := by
  rw [complete]
  rcases c.get? id with _ | _ | _ | n <;> simp

theorem get?_complete (c : Counters) (id k : JobId) :
    (c.complete id).2.get? k = if k = id then (c.get? id).map Nat.pred else c.get? k := by
  rw [complete]
  rcases h : c.get? id with _ | _ | n
  · by_cases hk : k = id <;> simp [hk, h]
  · by_cases hk : k = id <;> simp [hk, h]
  · simp [get?_set, h]

theorem get?_serve_of_ne (h : k ≠ r.id) : (c.serve r).2.get? k = c.get? k := by
  cases r with
  | arm id n =>
    rw [serve, arm, get?_set]
    exact if_neg h
  | complete id =>
    rw [serve, get?_complete]
    exact if_neg h

/-- What a request is told and makes of its id depends on the counter of the id alone. -/
theorem serve_congr (h : c.get? r.id = c'.get? r.id) :
    (c.serve r).1 = (c'.serve r).1 ∧ (c.serve r).2.get? r.id = (c'.serve r).2.get? r.id := by
  cases r with
  | arm id n =>
    refine ⟨rfl, ?_⟩
    simp only [serve, arm, get?_set, Request.id] at h ⊢
    rw [h]
  | complete id =>
    simp only [serve, get?_complete, complete_fst, Request.id] at h ⊢
    rw [h]
    exact ⟨rfl, rfl⟩

/-- Whether an id has a counter never changes. -/
theorem isSome_get?_serve (c : Counters) (r : Request) (k : JobId) :
    ((c.serve r).2.get? k).isSome = (c.get? k).isSome := by
  by_cases hk : k = r.id
  · subst hk
    cases r with
    | arm id n => simp [serve, arm, get?_set]
    | complete id => simp [serve, get?_complete]
  · rw [get?_serve_of_ne hk]

theorem isSome_get?_after (c : Counters) (rs : List Request) (k : JobId) :
    ((c.after rs).get? k).isSome = (c.get? k).isSome := by
  induction rs generalizing c with
  | nil => rfl
  | cons r rs ih => exact (ih (c.serve r).2).trans (isSome_get?_serve c r k)

theorem get?_ofSize_eq_none (h : id = 0 ∨ size < id) : (ofSize size).get? id = none := by
  cases id with
  | zero => rfl
  | succ id =>
    have hle : size ≤ id := Nat.le_of_lt_succ (h.resolve_left (Nat.succ_ne_zero id))
    simp [get?, ofSize, hle]

/-- Setting what is not there changes nothing. -/
theorem set_of_get?_none (h : c.get? id = none) (n : Nat) : c.set id n = c := by
  cases id with
  | zero => rfl
  | succ id =>
    have hlen : c.counts.length ≤ id := List.getElem?_eq_none_iff.mp h
    rw [set, List.set_eq_of_length_le hlen]

/-! ### Between two times that an id is armed -/

/-- The `k`-th completion from 0 is told to be the last if `k + 1` branches were awaited. -/
theorem answers_of_unarmed (hrs : Unarmed id rs) (h : c.get? id = some n) :
    c.answers id rs = (List.range (completions id rs)).map (fun k => decide (k + 1 = n)) ∧
      (c.after rs).get? id = some (n - completions id rs) := by
  induction rs generalizing c n with
  | nil => exact ⟨rfl, h⟩
  | cons r rs ih =>
    have hrest : Unarmed id rs := fun n hn => hrs n (List.mem_cons_of_mem _ hn)
    by_cases hid : r.id = id
    · cases r with
      | arm k m =>
        obtain rfl : k = id := hid
        exact absurd List.mem_cons_self (hrs m)
      | complete k =>
        obtain rfl : k = id := hid
        have hcount : completions k (.complete k :: rs) = completions k rs + 1 :=
          List.count_cons_self
        have hget : (c.serve (.complete k)).2.get? k = some (n - 1) := by
          rw [serve, get?_complete, if_pos rfl, h]
          rfl
        have htold : (c.serve (.complete k)).1 = some (decide (0 + 1 = n)) := by
          rw [serve, complete_fst, h]
          simp [eq_comm]
        obtain ⟨hanswers, hafter⟩ := ih hrest hget
        rw [hcount, List.range_succ_eq_map, answers, if_pos (Request.id_complete k), htold,
          hanswers]
        refine ⟨?_, hafter.trans (congrArg some (by omega))⟩
        simp only [List.map_cons, List.map_map, Option.toList_some, List.singleton_append]
        refine congrArg _ (List.map_congr_left fun k _ => ?_)
        simp only [Function.comp_apply, decide_eq_decide]
        omega
    · have hne : r ≠ .complete id := fun he => hid (he ▸ rfl)
      have hcount : completions id (r :: rs) = completions id rs := List.count_cons_of_ne hne
      have hget : (c.serve r).2.get? id = some n := by
        rw [get?_serve_of_ne (Ne.symm hid), h]
      rw [hcount, answers, if_neg hid]
      exact ih hrest hget

/-- One completion in a row of them is the `n`-th, if there are so many. -/
theorem count_nth (m n : Nat) : ((List.range m).map fun k => decide (k + 1 = n)).count true =
    if 0 < n ∧ n ≤ m then 1 else 0 := by
  induction m with
  | zero =>
    rw [if_neg (by omega)]
    rfl
  | succ m ih =>
    rw [List.range_succ, List.map_append, List.count_append, ih]
    by_cases hn : m + 1 = n
    · subst hn
      simp
    · have hiff : (0 < n ∧ n ≤ m + 1) ↔ (0 < n ∧ n ≤ m) := by omega
      simp [hn, hiff]

/-! ### Requests on other ids -/

/-- What an id is told, and its counter, depend on the requests on it alone. -/
theorem answers_filter (h : c.get? id = c'.get? id) (rs : List Request) :
    c.answers id rs = c'.answers id (rs.filter (·.id = id)) ∧
      (c.after rs).get? id = (c'.after (rs.filter (·.id = id))).get? id := by
  induction rs generalizing c c' with
  | nil => exact ⟨rfl, h⟩
  | cons r rs ih =>
    by_cases hid : r.id = id
    · subst hid
      obtain ⟨htold, hget⟩ := serve_congr h
      obtain ⟨hanswers, hafter⟩ := ih hget
      rw [List.filter_cons_of_pos (by simp), answers, answers, htold, hanswers]
      exact ⟨rfl, hafter⟩
    · rw [List.filter_cons_of_neg (by simpa using hid), answers, if_neg hid]
      exact ih ((get?_serve_of_ne (Ne.symm hid)).trans h)

/-! ### Counters from the beginning -/

/-- What counters for the ids from 1 to `size` do, whatever is asked of them. -/
structure Counting (size : Nat) : Prop where
  /-- The completions of an id since it was armed: the `n`-th is told to be the last, and the
  counter stops at zero. -/
  armed : ∀ id n before between, 1 ≤ id → id ≤ size → Unarmed id between →
    let c := (ofSize size).after (before ++ [.arm id n])
    c.answers id between =
      (List.range (completions id between)).map (fun k => decide (k + 1 = n)) ∧
    (c.answers id between).count true = (if 0 < n ∧ n ≤ completions id between then 1 else 0) ∧
    (c.after between).outstanding id = n - completions id between
  /-- Before an id is armed nothing is outstanding, and no completion is told to be the last. -/
  unarmed : ∀ id rs, 1 ≤ id → id ≤ size → Unarmed id rs →
    true ∉ (ofSize size).answers id rs ∧ ((ofSize size).after rs).outstanding id = 0
  /-- A request leaves the counters of all other ids alone. -/
  others : ∀ rs r k, k ≠ r.id →
    (((ofSize size).after rs).serve r).2.get? k = ((ofSize size).after rs).get? k
  /-- How requests on different ids come one after another does not show. -/
  apart : ∀ id rs rs', rs.filter (·.id = id) = rs'.filter (·.id = id) →
    (ofSize size).answers id rs = (ofSize size).answers id rs' ∧
    ((ofSize size).after rs).outstanding id = ((ofSize size).after rs').outstanding id
  /-- Other ids have no counter. -/
  outside : ∀ id rs, id = 0 ∨ size < id →
    let c := (ofSize size).after rs
    c.get? id = none ∧ (∀ n, c.arm id n = c) ∧ c.complete id = (false, c) ∧ c.outstanding id = 0

theorem exists_get?_after (hid : 1 ≤ id ∧ id ≤ size) (rs : List Request) :
    ∃ m, ((ofSize size).after rs).get? id = some m := by
  refine Option.isSome_iff_exists.mp ?_
  rw [isSome_get?_after, get?_ofSize hid, Option.isSome_some]

theorem get?_after_eq_none (hid : id = 0 ∨ size < id) (rs : List Request) :
    ((ofSize size).after rs).get? id = none := by
  rw [← Option.not_isSome_iff_eq_none, isSome_get?_after, get?_ofSize_eq_none hid]
  simp

/-- Counters count for each id by itself, from each time that it is armed. -/
theorem counting (size : Nat) : Counting size := by
  constructor
  case armed =>
    intro id n before between hpos hle hbetween
    obtain ⟨m, hm⟩ := exists_get?_after ⟨hpos, hle⟩ before
    have hget : ((ofSize size).after (before ++ [.arm id n])).get? id = some n := by
      rw [after, List.foldl_append, List.foldl_cons, List.foldl_nil, serve, arm, get?_set,
        if_pos rfl]
      exact congrArg (Option.map fun _ => n) hm
    obtain ⟨hanswers, hafter⟩ := answers_of_unarmed hbetween hget
    exact ⟨hanswers, by rw [hanswers, count_nth], outstanding_of_get? hafter⟩
  case unarmed =>
    intro id rs hpos hle hrs
    obtain ⟨hanswers, hafter⟩ := answers_of_unarmed hrs (get?_ofSize ⟨hpos, hle⟩)
    refine ⟨by simp [hanswers], ?_⟩
    rw [outstanding_of_get? hafter, Nat.zero_sub]
  case others => exact fun rs r k => get?_serve_of_ne
  case apart =>
    intro id rs rs' h
    have hstart : (ofSize size).get? id = (ofSize size).get? id := rfl
    obtain ⟨hanswers, hget⟩ := answers_filter hstart rs
    obtain ⟨hanswers', hget'⟩ := answers_filter hstart rs'
    refine ⟨by rw [hanswers, hanswers', h], ?_⟩
    rw [outstanding, outstanding, hget, hget', h]
  case outside =>
    intro id rs hid
    have hnone := get?_after_eq_none hid rs
    refine ⟨hnone, set_of_get?_none hnone, ?_, ?_⟩
    · rw [complete, hnone]
    · rw [outstanding, hnone, Option.getD_none]

/-- The second completion after an id was armed with two branches is the last one, whatever other
ids are asked between. -/
theorem counting_second :
    ((ofSize 3).after [.complete 2, .arm 2 2]).answers 2
      [.complete 2, .arm 1 0, .complete 1, .complete 2, .arm 3 4, .complete 2] =
        [false, true, false] := by
  have hunarmed : Unarmed 2
      [.complete 2, .arm 1 0, .complete 1, .complete 2, .arm 3 4, .complete 2] := by
    intro n
    simp
  exact ((counting 3).armed 2 2 [.complete 2] _ (by decide) (by decide) hunarmed).1

end Counters

end Workflow
