import Workflow.Proofs.Data.SortedMap
import Workflow.Proofs.Forest.Basic

/-!
A table while it is being written. A job is stored under the next id, and its links are set later,
when the jobs that they lead to are there. A block of jobs that is set in place gives the table in
which the block has been set before it is stored.
-/

namespace Workflow

/-- A table that is being written, the last id that it has given out, and the superworkers that
are being expanded, innermost first. -/
structure Assembly where
  jobs : Table
  lastId : JobId
  opened : List String

namespace Assembly

def empty : Assembly := ⟨SortedMap.empty, 0, []⟩

/-- Stores a job under the next id. -/
def push (w : Assembly) (job : JobId → Job) : Assembly :=
  { w with jobs := w.jobs.insert (w.lastId + 1) (job (w.lastId + 1)), lastId := w.lastId + 1 }

/-- Changes the job of an id, if there is one. -/
def amend (w : Assembly) (id : JobId) (f : Job → Job) : Assembly :=
  match w.jobs.get? id with
  | some j => { w with jobs := w.jobs.insert id (f j) }
  | none => w

def setNext (w : Assembly) (id next : JobId) : Assembly := w.amend id ({ · with next := some next })

def setBranches (w : Assembly) (id : JobId) (ids : List JobId) : Assembly :=
  w.amend id ({ · with branches := if ids.isEmpty then none else some ids })

/-- Lets every job of a list be followed by the one after it. -/
def chain (w : Assembly) : List JobId → Assembly
  | a :: b :: rest => (w.setNext a b).chain (b :: rest)
  | _ => w

/-- Lets the last job of a list be followed by the first one of another. -/
def join (w : Assembly) (before after : List JobId) : Assembly :=
  match before.getLast?, after.head? with
  | some a, some b => w.setNext a b
  | _, _ => w

def enter (w : Assembly) (name : String) : Assembly := { w with opened := name :: w.opened }

def leave (w : Assembly) : Assembly := { w with opened := w.opened.tail }

@[simp] theorem push_opened (w : Assembly) (job : JobId → Job) :
    (w.push job).opened = w.opened := rfl

@[simp] theorem enter_opened (w : Assembly) (name : String) :
    (w.enter name).opened = name :: w.opened := rfl

@[simp] theorem leave_opened (w : Assembly) : w.leave.opened = w.opened.tail := rfl

@[simp] theorem amend_opened (w : Assembly) (id : JobId) (f : Job → Job) :
    (w.amend id f).opened = w.opened := by
  unfold amend
  split <;> rfl

@[simp] theorem setNext_opened (w : Assembly) (id next : JobId) :
    (w.setNext id next).opened = w.opened := amend_opened ..

@[simp] theorem setBranches_opened (w : Assembly) (id : JobId) (ids : List JobId) :
    (w.setBranches id ids).opened = w.opened := amend_opened ..

@[simp] theorem chain_opened (w : Assembly) (ids : List JobId) :
    (w.chain ids).opened = w.opened := by
  induction ids generalizing w with
  | nil => rfl
  | cons a rest ih =>
    cases rest with
    | nil => rfl
    | cons b rest => rw [chain, ih, setNext_opened]

@[simp] theorem join_opened (w : Assembly) (before after : List JobId) :
    (w.join before after).opened = w.opened := by
  unfold join
  split
  · exact setNext_opened ..
  · rfl

/-! ### Storing whole blocks -/

/-- Stores jobs that have the next ids. -/
def extend (w : Assembly) (jobs : List Job) : Assembly :=
  ⟨w.jobs.insertAll (jobs.map fun j => (j.id, j)), w.lastId + jobs.length, w.opened⟩

@[simp] theorem extend_lastId (w : Assembly) (jobs : List Job) :
    (w.extend jobs).lastId = w.lastId + jobs.length := rfl

@[simp] theorem extend_opened (w : Assembly) (jobs : List Job) :
    (w.extend jobs).opened = w.opened := rfl

theorem extend_append (w : Assembly) (xs ys : List Job) :
    w.extend (xs ++ ys) = (w.extend xs).extend ys := by
  simp [extend, SortedMap.insertAll_append, Nat.add_assoc]

theorem push_eq_extend {w : Assembly} (job : JobId → Job)
    (h : (job (w.lastId + 1)).id = w.lastId + 1) : w.push job = w.extend [job (w.lastId + 1)] := by
  simp [push, extend, SortedMap.insertAll, h]

section Lookup

variable {w : Assembly} {jobs : List Job} {id : JobId}

theorem get?_extend_singleton (j : Job) :
    (w.extend [j]).jobs.get? id = if id = j.id then some j else w.jobs.get? id :=
  SortedMap.get?_insert ..

theorem get?_extend_of_not_mem (h : id ∉ jobs.map Job.id) :
    (w.extend jobs).jobs.get? id = w.jobs.get? id := by
  induction jobs generalizing w with
  | nil => rfl
  | cons j jobs ih =>
    obtain ⟨hne, hrest⟩ := not_or.mp (mt List.mem_cons.mpr h)
    rw [← List.singleton_append, extend_append, ih hrest, get?_extend_singleton, if_neg hne]

/-- Of jobs with different ids each is stored under its own. -/
theorem get?_extend_of_mem (hids : (jobs.map Job.id).Nodup) {j : Job} (hj : j ∈ jobs) :
    (w.extend jobs).jobs.get? j.id = some j := by
  induction jobs generalizing w with
  | nil => cases hj
  | cons k jobs ih =>
    obtain ⟨hk, hrest⟩ := List.nodup_cons.mp hids
    rw [← List.singleton_append, extend_append]
    rcases List.mem_cons.mp hj with rfl | hj
    · rw [get?_extend_of_not_mem hk, get?_extend_singleton, if_pos rfl]
    · exact ih hrest hj

theorem map_amend_ids {f : Job → Job} (hf : ∀ j, (f j).id = j.id) (id : JobId)
    (jobs : List Job) :
    (jobs.map fun j => if j.id = id then f j else j).map Job.id = jobs.map Job.id := by
  rw [List.map_map]
  refine List.map_congr_left fun j _ => ?_
  simp only [Function.comp_apply]
  split
  · exact hf j
  · rfl

/-- Changing a job that has been stored is storing it changed. -/
theorem amend_extend (hids : (jobs.map Job.id).Nodup) (hid : id ∈ jobs.map Job.id)
    {f : Job → Job} (hf : ∀ j, (f j).id = j.id) :
    (w.extend jobs).amend id f = w.extend (jobs.map fun j => if j.id = id then f j else j) := by
  obtain ⟨j, hj, rfl⟩ := List.mem_map.mp hid
  have hids' := hids
  rw [← map_amend_ids hf j.id jobs] at hids'
  have htable : (w.extend jobs).jobs.insert j.id (f j) =
      (w.extend (jobs.map fun k => if k.id = j.id then f k else k)).jobs := by
    refine SortedMap.ext_get? fun k => ?_
    rw [SortedMap.get?_insert]
    split
    · rename_i hk
      have hmem : f j ∈ jobs.map fun k => if k.id = j.id then f k else k :=
        List.mem_map.mpr ⟨j, hj, if_pos rfl⟩
      rw [hk]
      exact ((congrArg _ (hf j)).symm.trans (get?_extend_of_mem hids' hmem)).symm
    · rename_i hk
      by_cases hm : k ∈ jobs.map Job.id
      · obtain ⟨i, hi, rfl⟩ := List.mem_map.mp hm
        have hmem : i ∈ jobs.map fun k => if k.id = j.id then f k else k :=
          List.mem_map.mpr ⟨i, hi, if_neg hk⟩
        rw [get?_extend_of_mem hids hi, get?_extend_of_mem hids' hmem]
      · rw [get?_extend_of_not_mem hm, get?_extend_of_not_mem (by rwa [map_amend_ids hf])]
  rw [amend, get?_extend_of_mem hids hj]
  simp only [extend_lastId, extend_opened, htable]
  simp [extend]

/-- Changing the first of the stored jobs. -/
theorem amend_extend_cons {j : Job} (hids : ((j :: jobs).map Job.id).Nodup) {f : Job → Job}
    (hf : ∀ j, (f j).id = j.id) :
    (w.extend (j :: jobs)).amend j.id f = w.extend (f j :: jobs) := by
  have hrest : (jobs.map fun k => if k.id = j.id then f k else k) = jobs := by
    refine (List.map_congr_left fun k hk => if_neg fun he => ?_).trans (List.map_id jobs)
    exact (List.nodup_cons.mp hids).1 (he ▸ List.mem_map_of_mem hk)
  rw [amend_extend hids (List.mem_map_of_mem List.mem_cons_self) hf, List.map_cons, if_pos rfl,
    hrest]

theorem link_ids (a b : JobId) (jobs : List Job) :
    (link a b jobs).map Job.id = jobs.map Job.id :=
  map_amend_ids (f := ({ · with next := some b })) (fun _ => rfl) a jobs

theorem setNext_extend {next : JobId} (hids : (jobs.map Job.id).Nodup)
    (hid : id ∈ jobs.map Job.id) :
    (w.extend jobs).setNext id next = w.extend (link id next jobs) :=
  amend_extend hids hid fun _ => rfl

/-- Chaining jobs that have been stored is storing them as a chain. -/
theorem chain_extend {ids : List JobId} (hids : (jobs.map Job.id).Nodup)
    (hmem : ∀ id ∈ ids, id ∈ jobs.map Job.id) :
    (w.extend jobs).chain ids = w.extend (Workflow.chain ids jobs) := by
  induction ids generalizing jobs with
  | nil => rfl
  | cons a rest ih =>
    cases rest with
    | nil => rfl
    | cons b rest =>
      rw [chain, Workflow.chain, setNext_extend hids (hmem a List.mem_cons_self)]
      refine ih (by rwa [link_ids]) fun id hid => ?_
      rw [link_ids]
      exact hmem id (List.mem_cons_of_mem a hid)

end Lookup

end Assembly

end Workflow
