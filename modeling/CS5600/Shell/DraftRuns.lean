/-
  CS5600.Shell.DraftRuns — runs of the draft shell (`Assignment4_Shell/shell_draft.c`): `shell_init`,
  `launch_process`, `run_job` and `check_zombie`, and what becomes of the job table.

  A run is a list of events: `check_zombie` hears of a child, or `run_job` gets a job. `launch_process`
  is called for the first process only, and only if it has an input file; the rest of the loop of
  `run_job` (`finish`) comes once for each process, also behind `remove_job`, which frees the job.

  Proved (`table_iff`): the table is as it should be along a run (`Law`, `Good`) exactly when
    - slot 10 was NULL in the memory `shell_init` got, since its loop ends before that slot, and
    - whenever `run_job` gets a command, fewer than ten jobs are in the table, or the command is a
      foreground job that cannot be launched; and a builtin's input file can be opened (`Room`).
  Otherwise `run_job` passes -1 to `remove_job` or `print_pids_of_job`, whose test is of the upper
  side only: it is used as an index (`eleventh_job`).
-/

import CS5600.Lib.Runs
import CS5600.Lib.Slots
import CS5600.Shell.DraftJobs

namespace CS5600.Shell.Draft

open CS5600.Lib.Runs
open CS5600.Lib.Slots

/-! ## The functions -/

/-- `jobs` and `heap` are what `malloc` returns. -/
def shellInit (jobs : Nat → Option Nat) (heap : Nat → Job) : St :=
  ⟨fun i => if i < numJobs then none else jobs i, heap, []⟩

/-- `insert_job`; the caller notes the job if it gets a number for it. -/
def noteInsert (st : St) (a : Nat) : St × Int :=
  let (st, jobId) := insertJob st a
  (if jobId < 0 then st else { st with present := a :: st.present }, jobId)

/-- `remove_job`; the job that had the number is no longer noted if the answer is 0. -/
def noteRemove (st : St) (jobId : Int) : Except Stop (St × Int) := do
  let (st', answer) ← removeJob st jobId
  return (if answer < 0 then st' else { st' with present := (st.jobs jobId.toNat).elim st.present st.present.erase }, answer)

/-- One round of the loop of `check_zombie`: `waitpid` has returned `pid`. -/
def checkZombie (nullReads : Bool) (st : St) (pid status : Int) : Except Stop St := do
  let st :=
    if wifexited status then setProcessStatus st pid statusDone
    else if wifstopped status then setProcessStatus st pid statusSuspended
    else if wifcontinued status then setProcessStatus st pid statusContinued
    else st
  let jobId := getJobByPid st pid
  if jobId > 0 then
    if (← checkCompletion st jobId) ≠ 0 then
      let _ ← printJobStatus nullReads st jobId
      let (st, _) ← noteRemove st jobId
      return st
    else return st
  else return st

/-- For the first process of the job at `a`: `run_job` launches no other. -/
def launchProcess (os : Os) (a : Nat) (mode : Mode) (st : St) : Except Stop (St × Int) :=
  match (st.heap a).root with
  | [] => .error .null
  | process :: rest =>
    let process := { process with status := statusRunning }
    let st := { st with heap := Function.update st.heap a { st.heap a with root := process :: rest } }
    match process.type with
    | .exit => .error .exit
    | .external =>
      match os.fork with
      | none => .ok (st, -1)
      | some child =>
        let job := st.heap a
        let job := { job with
          root := { process with pid := child } :: rest
          pgid := if job.pgid > 0 then job.pgid else child }
        let st := { st with heap := Function.update st.heap a job }
        if mode = .foreground then
          let waited := waitJob os st job.id
          match waited.status with
          | .error stop => .error stop
          | .ok status => .ok (waited.st, status)
        else .ok (st, 0)
    | _ => .ok (st, 0)

def isExternal (job : Job) : Bool := (job.root.map (·.type)).head? = some .external

/-- The end of the body of the loop of `run_job`. -/
def finish (a : Nat) (jobId status : Int) (st : St) : Except Stop St := do
  if isExternal (st.heap a) then
    if status ≥ 0 ∧ (st.heap a).mode = .foreground then
      let (st, _) ← noteRemove st jobId
      return st
    else if (st.heap a).mode = .background then
      let _ ← printPidsOfJob st jobId
      return st
    else return st
  else return st

/-- It comes once for each process. -/
def finishAll (a : Nat) (jobId status : Int) : Nat → St → Except Stop St
  | 0, st => .ok st
  | n + 1, st => do
    let st ← finish a jobId status st
    finishAll a jobId status n st

/-- `run_job` behind its call of `check_zombie`, for the job at `a`. -/
def runJob (os : Os) (a : Nat) (st : St) : Except Stop St := do
  let job := st.heap a
  match job.root with
  | [] => throw .null
  | root :: rest =>
    let (st, jobId) := if root.type = .external then noteInsert st a else (st, -1)
    match root.inPath with
    | none => finishAll a jobId 0 job.root.length st
    | some _ =>
      if os.opens then
        let (st, status) ← launchProcess os a (if rest = [] then job.mode else .pipeline) st
        finishAll a jobId status job.root.length st
      else
        let (st, _) ← noteRemove st jobId
        return st

/-! ## Runs -/

inductive Ev where
  /-- `check_zombie` hears of a child -/
  | zombie (nullReads : Bool) (pid status : Int)
  /-- `run_job` on the job that `parse_line` put at `a` -/
  | run (os : Os) (a : Nat) (job : Job)

/-- The job is in memory before `run_job` gets it. -/
def parsed (st : St) (a : Nat) (job : Job) : St := { st with heap := Function.update st.heap a job }

def exec (st : St) : Ev → Except Stop St
  | .zombie nullReads pid status => checkZombie nullReads st pid status
  | .run os a job => runJob os a (parsed st a job)

def step (st : St) (e : Ev) : Option St := (exec st e).toOption

/-- `malloc` does not return the memory of a job in the table, and `parse_line` marks no job PIPELINE. -/
def Legal (st : St) : Ev → Prop
  | .zombie _ pid _ => 0 < pid
  | .run _ a job => a ∉ st.present ∧ job.mode ≠ .pipeline

theorem legal_of_parseLine {st : St} {junk : Junk} {line : Line} {job : Job} (h : parseLine junk line = some job)
    (os : Os) {a : Nat} (ha : a ∉ st.present) : Legal st (.run os a job) := ⟨ha, parseLine_mode h⟩

/-! ## What should hold -/

structure Law (st : St) : Prop where
  slots : ∀ i ≤ numJobs, ∀ a, st.jobs i = some a → a ∈ st.present ∧ (st.heap a).id = i
  once : ∀ i ≤ numJobs, ∀ j ≤ numJobs, ∀ a, st.jobs i = some a → st.jobs j = some a → i = j
  full : ∀ a, (insertJob st a).2 = -1 ↔ st.present.length = numJobs
  least : ∀ a, st.present.length ≠ numJobs → ∃ k : Nat, 1 ≤ k ∧ k ≤ numJobs ∧ st.jobs k = none ∧
    (∀ j, 1 ≤ j → j < k → st.jobs j ≠ none) ∧ (insertJob st a).2 = k

/-- No index outside the table, and `P` if the shell goes on. -/
def Safe {α : Type} (P : α → Prop) (r : Except Stop α) : Prop := Yields (fun stop : Stop => ∀ i, stop ≠ .index i) P r

structure Good (st : St) (e : Ev) : Prop where
  before : Law st
  /-- behind the `insert_job` of `run_job` -/
  inserted : ∀ os a job, e = .run os a job → isExternal job = true → Law (noteInsert (parsed st a job) a).1
  after : Safe Law (exec st e)

/-- There is no child, or the child is waited for under the number that `parse_line` left in the job, and `wait_job`
    returns a negative number for it. The first child of a pipeline is not waited for. -/
def LaunchFails (os : Os) (st : St) (a : Nat) (job : Job) (root : Process) (rest : List Process) : Prop :=
  match os.fork with
  | none => True
  | some child =>
    let job := { job with
      root := { root with status := statusRunning, pid := child } :: rest
      pgid := if job.pgid > 0 then job.pgid else child }
    rest = [] ∧ Safe (· < 0) (waitJob os (parsed st a job) job.id).status

/-- A command finds room in the table, or it is a foreground job whose launch fails; a builtin finds
    its input. -/
def Room (st : St) : Ev → Prop
  | .zombie .. => True
  | .run os a job => ∀ root rest, job.root = root :: rest →
    if root.type = .external then
      st.present.length < numJobs ∨
        (job.mode = .foreground ∧ root.inPath ≠ none ∧ os.opens = true ∧ LaunchFails os st a job root rest)
    else root.inPath = none ∨ os.opens = true

/-! ## What leaves the table alone -/

/-- What `finish` reads of a job, and its id. -/
def Job.shape (job : Job) : Int × Mode × List Command := (job.id, job.mode, job.root.map (·.type))

structure Same (st st' : St) : Prop where
  jobs : st'.jobs = st.jobs
  present : st'.present = st.present
  shape : ∀ a, (st'.heap a).shape = (st.heap a).shape

theorem Same.refl (st : St) : Same st st := ⟨rfl, rfl, fun _ => rfl⟩

theorem Same.trans {st st' st'' : St} (h : Same st st') (h' : Same st' st'') : Same st st'' :=
  ⟨h'.jobs.trans h.jobs, h'.present.trans h.present, fun a => (h'.shape a).trans (h.shape a)⟩

section Shape

variable {job job' : Job} (h : job'.shape = job.shape)

include h

theorem Job.shape_id : job'.id = job.id := congrArg Prod.fst h

theorem Job.shape_mode : job'.mode = job.mode := congrArg (·.2.1) h

theorem Job.shape_external : isExternal job' = isExternal job := by
  have htypes : job'.root.map (·.type) = job.root.map (·.type) := congrArg (·.2.2) h
  rw [isExternal, htypes, isExternal]

end Shape

theorem same_update (st : St) (a : Nat) {job : Job} (h : job.shape = (st.heap a).shape) :
    Same st { st with heap := Function.update st.heap a job } := by
  refine ⟨rfl, rfl, fun b => ?_⟩
  by_cases e : b = a
  · subst e
    simpa using h
  · simp [Function.update_of_ne e]

theorem setProcessStatus_same (st : St) (pid status : Int) : Same st (setProcessStatus st pid status) := by
  refine ⟨rfl, rfl, fun a => ?_⟩
  unfold setProcessStatus
  dsimp only
  split
  · have htypes : ((st.heap a).setStatus pid status).root.map (·.type) = (st.heap a).root.map (·.type) := by
      simp only [Job.setStatus, List.map_map]
      refine List.map_congr_left fun p _ => ?_
      show (if p.pid = pid then _ else p : Process).type = p.type
      split <;> rfl
    simp only [Job.shape, htypes]
    rfl
  · rfl

theorem waitRound_same (os : Os) (jobId num : Int) (counter : Nat) (st : St) (status : Int) :
    Same st (waitRound os jobId num counter st status).1 := by
  unfold waitRound
  dsimp only
  repeat' split
  all_goals first | exact setProcessStatus_same .. | exact Same.refl _

theorem waitLoop_same (os : Os) (jobId num : Int) (counter : Nat) (st : St) (status : Int) :
    Same st (waitLoop os jobId num counter st status).st := by
  fun_induction waitLoop os jobId num counter st status with
  | case1 counter st status st' stop h =>
    have := waitRound_same os jobId num (counter + 1) st status
    rwa [h] at this
  | case2 counter st status st' status' h hlt ih =>
    have := waitRound_same os jobId num (counter + 1) st status
    rw [h] at this
    exact this.trans ih
  | case3 counter st status st' status' h hlt =>
    have := waitRound_same os jobId num (counter + 1) st status
    rwa [h] at this

theorem waitJob_same (os : Os) (st : St) (jobId : Int) : Same st (waitJob os st jobId).st := by
  unfold waitJob
  split
  · exact Same.refl _
  · exact Same.refl _
  · split
    · exact Same.refl _
    · exact waitLoop_same ..

/-- How a launch can go. -/
inductive Launched (os : Os) (a : Nat) (mode : Mode) (st : St) : Except Stop (St × Int) → Prop
  | empty : isExternal (st.heap a) = false → Launched os a mode st (.error .null)
  | exits : isExternal (st.heap a) = false → Launched os a mode st (.error .exit)
  | builtin {st' : St} : isExternal (st.heap a) = false → Same st st' → Launched os a mode st (.ok (st', 0))
  | noChild {st' : St} : Same st st' → Launched os a mode st (.ok (st', -1))
  | unwaited {st' : St} : mode ≠ .foreground → Same st st' → Launched os a mode st (.ok (st', 0))
  | waited {st' : St} {status : Int} : mode = .foreground → Same st st' →
      (waitJob os st' (st.heap a).id).status = .ok status →
      Launched os a mode st (.ok ((waitJob os st' (st.heap a).id).st, status))
  | stopped {st' : St} {stop : Stop} : isExternal (st.heap a) = true → mode = .foreground → Same st st' →
      (waitJob os st' (st.heap a).id).status = .error stop → Launched os a mode st (.error stop)

theorem launchProcess_launched (os : Os) (a : Nat) (mode : Mode) (st : St) :
    Launched os a mode st (launchProcess os a mode st) := by
  unfold launchProcess
  split
  · rename_i hroot
    exact .empty (by simp [isExternal, hroot])
  · rename_i process rest hroot
    have hrun := same_update st a
      (show Job.shape { st.heap a with root := { process with status := statusRunning } :: rest } = _ by
        simp [Job.shape, hroot])
    have hext : isExternal (st.heap a) = decide (process.type = .external) := by simp [isExternal, hroot]
    dsimp only
    split
    · rename_i htype
      exact .exits (by simp [hext, htype])
    · rename_i htype
      split
      · exact .noChild hrun
      · rename_i child _
        have hsame := hrun.trans (same_update _ a
          (show Job.shape { st.heap a with
              root := { process with pid := child, status := statusRunning } :: rest
              pgid := if (st.heap a).pgid > 0 then (st.heap a).pgid else child } = _ by simp [Job.shape]))
        simp only [Function.update_self]
        split
        · rename_i hmode
          split
          · exact .stopped (by simp [hext, htype]) hmode hsame ‹_›
          · exact .waited hmode hsame ‹_›
        · exact .unwaited ‹_› hsame
    · rename_i htype
      exact .builtin (by simpa [hext] using htype) hrun

theorem launchProcess_same {os : Os} {a : Nat} {mode : Mode} {st st' : St} {status : Int}
    (h : launchProcess os a mode st = .ok (st', status)) : Same st st' := by
  have hl := launchProcess_launched os a mode st
  rw [h] at hl
  cases hl with
  | builtin _ hs => exact hs
  | noChild hs => exact hs
  | unwaited _ hs => exact hs
  | waited _ hs _ => exact hs.trans (waitJob_same ..)

/-! ## Indices -/

theorem Safe.bind {α β : Type} {Q : α → Prop} {P : β → Prop} {r : Except Stop α} {k : α → Except Stop β}
    (h : Safe Q r) (hk : ∀ x, Q x → Safe P (k x)) : Safe P (r >>= k) := Yields.bind h hk

theorem Safe.ne_index {α : Type} {P : α → Prop} {r : Except Stop α} (h : Safe P r) (i : Int) : r ≠ .error (.index i) := by
  intro e
  rw [e] at h
  exact h i rfl

section Indices

variable {jobId : Int} (st : St) (h : 0 ≤ jobId)

include h

theorem lookup_safe : Safe (fun x => ∀ a, x = some a → jobId ≤ numJobs ∧ st.jobs jobId.toNat = some a) (lookup st jobId) := by
  unfold lookup
  split
  · intro a ha
    cases ha
  · rw [slot, if_pos ⟨h, by omega⟩]
    intro a ha
    exact ⟨by omega, ha⟩

theorem countNumProcess_safe (filter : Filter) : Safe (fun _ => True) (countNumProcess st jobId filter) := by
  refine (lookup_safe st h).bind fun x _ => ?_
  cases x <;> trivial

theorem printPidsOfJob_safe : Safe (fun _ => True) (printPidsOfJob st jobId) := by
  refine (lookup_safe st h).bind fun x _ => ?_
  cases x <;> trivial

theorem checkCompletion_safe : Safe (fun _ => True) (checkCompletion st jobId) := by
  refine (lookup_safe st h).bind fun x _ => ?_
  cases x <;> trivial

theorem printJobStatus_safe (nullReads : Bool) : Safe (fun _ => True) (printJobStatus nullReads st jobId) := by
  refine (lookup_safe st h).bind fun x _ => ?_
  cases x with
  | none => trivial
  | some a =>
    cases nullReads with
    | true => trivial
    | false =>
      intro i hi
      cases hi

theorem removeJob_safe : Safe (fun r => r = (st, -1) ∨ ∃ a, jobId ≤ numJobs ∧ st.jobs jobId.toNat = some a ∧
    r = ({ st with jobs := Function.update st.jobs jobId.toNat none }, 0)) (removeJob st jobId) := by
  refine (lookup_safe st h).bind fun x hx => ?_
  cases x with
  | none => exact .inl rfl
  | some a =>
    obtain ⟨hle, hjob⟩ := hx a rfl
    have hrelease : Safe (fun _ => True) (releaseJob st jobId) := by
      refine (lookup_safe st h).bind fun x _ => ?_
      cases x <;> trivial
    exact hrelease.bind fun _ _ => .inr ⟨a, hle, hjob, rfl⟩

theorem waitRound_safe (os : Os) (num : Int) (counter : Nat) (status : Int) :
    Safe (fun _ => True) (waitRound os jobId num counter st status).2 := by
  unfold waitRound
  dsimp only
  split
  · trivial
  · split
    · trivial
    · split
      · split
        · have hp := printJobStatus_safe (setProcessStatus st (os.waits counter).pid statusSuspended) h os.nullReads
          revert hp
          cases printJobStatus os.nullReads (setProcessStatus st (os.waits counter).pid statusSuspended) jobId with
          | error stop => exact id
          | ok x => exact id
        · trivial
      · trivial

theorem waitLoop_safe (os : Os) (num : Int) (counter : Nat) (status : Int) :
    Safe (fun _ => True) (waitLoop os jobId num counter st status).status := by
  fun_induction waitLoop os jobId num counter st status with
  | case1 counter st status st' stop hr =>
    have := waitRound_safe st h os num (counter + 1) status
    rwa [hr] at this
  | case2 counter st status st' status' hr hlt ih => exact ih
  | case3 => trivial

theorem waitJob_safe (os : Os) : Safe (fun _ => True) (waitJob os st jobId).status := by
  have hlookup := lookup_safe st h
  have hcount := countNumProcess_safe st h .remain
  unfold waitJob
  split
  · rename_i hl
    rwa [hl] at hlookup
  · trivial
  · split
    · rename_i hc
      rwa [hc] at hcount
    · exact waitLoop_safe st h os _ 0 0

end Indices

theorem launchProcess_safe (os : Os) {a : Nat} (mode : Mode) {st : St}
    (h : isExternal (st.heap a) = true → 0 ≤ (st.heap a).id) :
    Safe (fun r => Same st r.1) (launchProcess os a mode st) := by
  have hl := launchProcess_launched os a mode st
  cases hr : launchProcess os a mode st with
  | ok r => exact launchProcess_same hr
  | error stop =>
    rw [hr] at hl
    intro i hi
    subst hi
    cases hl with
    | stopped hext _ _ hw => exact (waitJob_safe _ (h hext) os).ne_index i hw

/-- A command that is not waited for does not stop the shell. -/
theorem launchProcess_unwaited (os : Os) {a : Nat} {mode : Mode} {st : St} (h : isExternal (st.heap a) = true)
    (hmode : mode ≠ .foreground) : ∃ r, launchProcess os a mode st = .ok r := by
  have hl := launchProcess_launched os a mode st
  cases hr : launchProcess os a mode st with
  | ok r => exact ⟨r, rfl⟩
  | error stop =>
    rw [hr] at hl
    cases hl with
    | empty hext => cases hext.symm.trans h
    | exits hext => cases hext.symm.trans h
    | stopped _ hfg _ _ => exact absurd hfg hmode

theorem launchFails_iff (os : Os) (st : St) {a : Nat} {job : Job} {root : Process} {rest : List Process}
    (hroot : job.root = root :: rest) (htype : root.type = .external) :
    LaunchFails os st a job root rest ↔
      Safe (fun r => r.2 < 0) (launchProcess os a (if rest = [] then .foreground else .pipeline) (parsed st a job)) := by
  have hheap : (parsed st a job).heap a = job := Function.update_self ..
  unfold LaunchFails launchProcess
  simp only [hheap, hroot, htype]
  cases os.fork with
  | none => exact iff_of_true trivial (show (-1 : Int) < 0 by decide)
  | some child =>
    dsimp only
    by_cases hrest : rest = []
    · rw [if_pos hrest, if_pos rfl]
      simp only [parsed, Function.update_self, Function.update_idem]
      refine (and_iff_right hrest).trans ?_
      generalize waitJob os _ job.id = waited
      obtain ⟨st', calls, status⟩ := waited
      cases status with
      | error stop => exact Iff.rfl
      | ok status => exact Iff.rfl
    · rw [if_neg hrest, if_neg (show Mode.pipeline ≠ .foreground by decide)]
      exact iff_of_false (fun h => hrest h.1) (show ¬ (0 : Int) < 0 by decide)

/-! ## The table -/

structure Inv (st : St) : Prop where
  held : st.present.Perm (occupants (List.range' 1 numJobs) st.jobs)
  nodup : st.present.Nodup
  ids : ∀ i ≤ numJobs, ∀ a, st.jobs i = some a → (st.heap a).id = i
  zero : st.jobs 0 = none

theorem mem_slots {i : Nat} : i ∈ List.range' 1 numJobs ↔ 1 ≤ i ∧ i ≤ numJobs := by
  rw [List.mem_range'_1]
  omega

theorem nodup_slots : (List.range' 1 numJobs).Nodup := List.nodup_range'

namespace Inv

variable {st st' : St} {a : Nat}

theorem pos (h : Inv st) {i : Nat} (hj : st.jobs i = some a) : 1 ≤ i := by
  by_contra hi
  have : i = 0 := by omega
  rw [this, h.zero] at hj
  cases hj

theorem mem (h : Inv st) {i : Nat} (hi : i ≤ numJobs) (hj : st.jobs i = some a) : a ∈ st.present :=
  h.held.mem_iff.mpr (mem_occupants.mpr ⟨i, mem_slots.mpr ⟨h.pos hj, hi⟩, hj⟩)

theorem length_le (h : Inv st) : st.present.length ≤ numJobs := by
  rw [h.held.length_eq]
  exact (List.length_filterMap_le ..).trans (List.length_range' ..).le

theorem same (h : Inv st) (hs : Same st st') : Inv st' where
  held := by
    rw [hs.present, hs.jobs]
    exact h.held
  nodup := by
    rw [hs.present]
    exact h.nodup
  ids i hi b hb := by
    rw [hs.jobs] at hb
    rw [Job.shape_id (hs.shape b)]
    exact h.ids i hi b hb
  zero := by
    rw [hs.jobs]
    exact h.zero

/-- Memory outside the table may change. -/
theorem update (h : Inv st) (ha : a ∉ st.present) (job : Job) :
    Inv { st with heap := Function.update st.heap a job } where
  held := h.held
  nodup := h.nodup
  ids i hi b hb := by
    have hne : b ≠ a := fun e => ha (e ▸ h.mem hi hb)
    dsimp only
    rw [Function.update_of_ne hne]
    exact h.ids i hi b hb
  zero := h.zero

theorem insert_full (h : Inv st) (hlen : st.present.length = numJobs) (a : Nat) : insertJob st a = (st, -1) := by
  have hnone : (List.range' 1 numJobs).find? (fun i => (st.jobs i).isNone) = none := by
    rw [free_none_iff, ← h.held.length_eq, hlen, List.length_range']
  have hnext : getNextJob st = -1 := by
    unfold getNextJob
    rw [hnone]
  unfold insertJob
  rw [hnext]
  rfl

/-- The job goes into the first free slot. -/
theorem insert_room (h : Inv st) (hlen : st.present.length ≠ numJobs) (a : Nat) :
    ∃ k : Nat, 1 ≤ k ∧ k ≤ numJobs ∧ st.jobs k = none ∧ (∀ j, 1 ≤ j → j < k → st.jobs j ≠ none) ∧
      insertJob st a = (⟨Function.update st.jobs k (some a),
        Function.update st.heap a { st.heap a with id := k }, st.present⟩, (k : Int)) := by
  cases hfind : (List.range' 1 numJobs).find? (fun i => (st.jobs i).isNone) with
  | none =>
    rw [free_none_iff, ← h.held.length_eq, List.length_range'] at hfind
    exact absurd hfind hlen
  | some k =>
    obtain ⟨hk, hmem, hbefore⟩ := List.find?_range'_eq_some.mp hfind
    obtain ⟨hk1, hk2⟩ := mem_slots.mp hmem
    have hnext : getNextJob st = k := by
      unfold getNextJob
      rw [hfind]
    refine ⟨k, hk1, hk2, Option.isNone_iff_eq_none.mp hk, ?_, ?_⟩
    · intro j hj hjk hnone
      have := hbefore j hj hjk
      simp [hnone] at this
    · unfold insertJob
      rw [hnext]
      simp only [Int.toNat_natCast]
      rw [if_neg (by omega)]

theorem noteInsert_full (h : Inv st) (hlen : st.present.length = numJobs) (a : Nat) : noteInsert st a = (st, -1) := by
  rw [noteInsert, h.insert_full hlen]
  rfl

theorem noteInsert_room (h : Inv st) (hlen : st.present.length ≠ numJobs) (a : Nat) :
    ∃ k : Nat, 1 ≤ k ∧ k ≤ numJobs ∧ st.jobs k = none ∧
      noteInsert st a = (⟨Function.update st.jobs k (some a),
        Function.update st.heap a { st.heap a with id := k }, a :: st.present⟩, (k : Int)) := by
  obtain ⟨k, hk1, hk2, hfree, -, heq⟩ := h.insert_room hlen a
  refine ⟨k, hk1, hk2, hfree, ?_⟩
  rw [noteInsert, heq]
  dsimp only
  rw [if_neg (by omega)]

theorem insert (h : Inv st) (ha : a ∉ st.present) : Inv (noteInsert st a).1 := by
  by_cases hlen : st.present.length = numJobs
  · rw [h.noteInsert_full hlen]
    exact h
  · obtain ⟨k, hk1, hk2, hfree, heq⟩ := h.noteInsert_room hlen a
    rw [heq]
    have hput := occupants_put nodup_slots (mem_slots.mpr ⟨hk1, hk2⟩) hfree a
    refine ⟨(h.held.cons a).trans hput.symm, List.nodup_cons.mpr ⟨ha, h.nodup⟩, ?_, ?_⟩
    · intro i hi b hb
      dsimp only at hb ⊢
      by_cases e : i = k
      · subst e
        simp only [Function.update_self, Option.some.injEq] at hb
        subst hb
        simp
      · rw [Function.update_of_ne e] at hb
        have hne : b ≠ a := fun e => ha (e ▸ h.mem hi hb)
        rw [Function.update_of_ne hne]
        exact h.ids i hi b hb
    · dsimp only
      rw [Function.update_of_ne (by omega)]
      exact h.zero

theorem remove (h : Inv st) {jobId : Int} (hid : 0 ≤ jobId) :
    Safe (fun r => Inv r.1 ∧ r.1.heap = st.heap) (noteRemove st jobId) := by
  refine (removeJob_safe st hid).bind fun r hr => ?_
  rcases hr with rfl | ⟨a, hle, hjob, rfl⟩
  · exact ⟨h, rfl⟩
  · simp only [hjob, Option.elim_some]
    rw [if_neg (by decide)]
    refine ⟨⟨?_, h.nodup.erase a, ?_, ?_⟩, rfl⟩
    · have hclear := occupants_clear nodup_slots (mem_slots.mpr ⟨h.pos hjob, by omega⟩) hjob
      have := (h.held.trans hclear).erase a
      rwa [List.erase_cons_head] at this
    · intro i hi b hb
      dsimp only at hb ⊢
      have hne : i ≠ jobId.toNat := by
        intro e
        rw [e, Function.update_self] at hb
        cases hb
      rw [Function.update_of_ne hne] at hb
      exact h.ids i hi b hb
    · have := h.pos hjob
      dsimp only
      rw [Function.update_of_ne (by omega)]
      exact h.zero

theorem law (h : Inv st) : Law st where
  slots i hi a ha := ⟨h.mem hi ha, h.ids i hi a ha⟩
  once i hi j hj a hia hja := by
    have := (h.ids i hi a hia).symm.trans (h.ids j hj a hja)
    omega
  full a := by
    constructor
    · intro hr
      by_contra hlen
      obtain ⟨k, -, -, -, -, heq⟩ := h.insert_room hlen a
      rw [heq] at hr
      omega
    · intro hlen
      rw [h.insert_full hlen]
  least a hlen := by
    obtain ⟨k, hk1, hk2, hfree, hbefore, heq⟩ := h.insert_room hlen a
    exact ⟨k, hk1, hk2, hfree, hbefore, by rw [heq]⟩

end Inv

/-! ## The end of `run_job` -/

section Finish

variable {a : Nat} {jobId status : Int} {st : St}

theorem finish_held (h : Inv st) (hid : 0 ≤ jobId) : Safe Inv (finish a jobId status st) := by
  unfold finish
  split
  · split
    · exact (h.remove hid).bind fun r hr => hr.1
    · split
      · exact (printPidsOfJob_safe st hid).bind fun _ _ => h
      · exact h
  · exact h

theorem finishAll_held (h : Inv st) (hid : 0 ≤ jobId) (n : Nat) : Safe Inv (finishAll a jobId status n st) := by
  induction n generalizing st with
  | zero => exact h
  | succ n ih => exact (finish_held h hid).bind fun st' h' => ih h'

theorem finishAll_eq (h : finish a jobId status st = .ok st) (n : Nat) : finishAll a jobId status n st = .ok st := by
  induction n with
  | zero => rfl
  | succ n ih =>
    rw [finishAll, h]
    exact ih

theorem finish_builtin (h : isExternal (st.heap a) = false) : finish a jobId status st = .ok st := by
  unfold finish
  rw [h]
  rfl

theorem finish_failed (hstatus : status < 0) (hmode : (st.heap a).mode = .foreground) :
    finish a jobId status st = .ok st := by
  unfold finish
  split
  · rw [if_neg (by omega), hmode]
    rfl
  · rfl

/-- The number of a job without a slot is an index into the table. -/
theorem finish_missing (h : isExternal (st.heap a) = true) (hmode : (st.heap a).mode ≠ .pipeline)
    (hbad : ¬ (status < 0 ∧ (st.heap a).mode = .foreground)) : finish a (-1) status st = .error (.index (-1)) := by
  unfold finish
  rw [if_pos h]
  cases hm : (st.heap a).mode with
  | pipeline => exact absurd hm hmode
  | foreground =>
    rw [if_pos ⟨by rw [hm] at hbad; simpa using hbad, rfl⟩]
    rfl
  | background =>
    rw [if_neg (fun e => by cases e.2)]
    rfl

theorem finishAll_missing {P : St → Prop} {n : Nat} (h : isExternal (st.heap a) = true)
    (hmode : (st.heap a).mode ≠ .pipeline) (hsafe : Safe P (finishAll a (-1) status (n + 1) st)) :
    status < 0 ∧ (st.heap a).mode = .foreground := by
  by_contra hbad
  rw [finishAll, finish_missing h hmode hbad] at hsafe
  exact hsafe.ne_index (-1) rfl

end Finish

/-! ## One event -/

theorem checkZombie_inv {st : St} (h : Inv st) (nullReads : Bool) (pid status : Int) :
    Safe Inv (checkZombie nullReads st pid status) := by
  have key : ∀ st : St, Inv st → Safe Inv (do
      let jobId := getJobByPid st pid
      if jobId > 0 then
        if (← checkCompletion st jobId) ≠ 0 then
          let _ ← printJobStatus nullReads st jobId
          let (st, _) ← noteRemove st jobId
          return st
        else return st
      else return st) := by
    intro st h
    dsimp only
    split
    · rename_i hpos
      have hid : 0 ≤ getJobByPid st pid := by omega
      refine (checkCompletion_safe st hid).bind fun r _ => ?_
      split
      · exact (printJobStatus_safe st hid nullReads).bind fun _ _ => (h.remove hid).bind fun r hr => hr.1
      · exact h
    · exact h
  unfold checkZombie
  apply key
  repeat' split
  · exact h.same (setProcessStatus_same ..)
  · exact h.same (setProcessStatus_same ..)
  · exact h.same (setProcessStatus_same ..)
  · exact h

section RunJob

variable {os : Os} {a : Nat} {st : St} {root : Process} {rest : List Process}

theorem runJob_room (h : Inv st) (ha : a ∉ st.present) (hroot : (st.heap a).root = root :: rest)
    (htype : root.type = .external) (hlen : st.present.length ≠ numJobs) : Safe Inv (runJob os a st) := by
  obtain ⟨k, -, -, -, heq⟩ := h.noteInsert_room hlen a
  have hinv := h.insert ha
  have hid : ((noteInsert st a).1.heap a).id = k := by
    rw [heq]
    simp
  unfold runJob
  simp only [hroot, htype, if_true]
  rw [heq] at hinv hid ⊢
  dsimp only at hinv hid ⊢
  split
  · exact finishAll_held hinv (by omega) _
  · split
    · refine (launchProcess_safe os _ (fun _ => hid.symm ▸ Int.natCast_nonneg k)).bind fun r hr => ?_
      exact finishAll_held (hinv.same hr) (by omega) _
    · exact (hinv.remove (by omega)).bind fun r hr => hr.1

theorem runJob_builtin (h : Inv st) (hroot : (st.heap a).root = root :: rest) (htype : root.type ≠ .external)
    (hin : root.inPath = none ∨ os.opens = true) : Safe Inv (runJob os a st) := by
  have hext : isExternal (st.heap a) = false := by simpa [isExternal, hroot] using htype
  unfold runJob
  simp only [hroot, if_neg htype]
  split
  · rw [finishAll_eq (finish_builtin hext)]
    exact h
  · rename_i path hpath
    rw [if_pos (hin.resolve_left (by rw [hpath]; simp))]
    refine (launchProcess_safe os _ (fun e => by rw [hext] at e; cases e)).bind fun r hr => ?_
    have hext' : isExternal (r.1.heap a) = false := (Job.shape_external (hr.shape a)).trans hext
    show Safe Inv (finishAll a (-1) r.2 _ r.1)
    rw [finishAll_eq (finish_builtin hext')]
    exact h.same hr

theorem runJob_builtin_input {P : St → Prop} (hroot : (st.heap a).root = root :: rest) (htype : root.type ≠ .external)
    (hsafe : Safe P (runJob os a st)) : root.inPath = none ∨ os.opens = true := by
  by_contra hbad
  obtain ⟨hin, hopens⟩ := not_or.mp hbad
  obtain ⟨path, hpath⟩ := Option.ne_none_iff_exists'.mp hin
  unfold runJob at hsafe
  simp only [hroot, if_neg htype, hpath, if_neg hopens] at hsafe
  exact hsafe.ne_index (-1) rfl

theorem runJob_full (h : Inv st) (hroot : (st.heap a).root = root :: rest)
    (htype : root.type = .external) (hlen : st.present.length = numJobs) (hmode : (st.heap a).mode = .foreground)
    (hin : root.inPath ≠ none) (hopens : os.opens = true)
    (hfails : Safe (fun r => r.2 < 0) (launchProcess os a (if rest = [] then .foreground else .pipeline) st)) :
    Safe Inv (runJob os a st) := by
  obtain ⟨path, hpath⟩ := Option.ne_none_iff_exists'.mp hin
  unfold runJob
  simp only [hroot, htype, if_true, h.noteInsert_full hlen, hpath, hopens, hmode]
  cases hl : launchProcess os a (if rest = [] then .foreground else .pipeline) st with
  | error stop =>
    rw [hl] at hfails
    exact hfails
  | ok r =>
    rw [hl] at hfails
    have hsame := launchProcess_same hl
    show Safe Inv (finishAll a (-1) r.2 _ r.1)
    rw [finishAll_eq (finish_failed hfails ((Job.shape_mode (hsame.shape a)).trans hmode))]
    exact h.same hsame

/-- The same behind a launch. -/
theorem launched_missing {P : St → Prop} {mode : Mode} {n : Nat} {r : St × Int} (hext : isExternal (st.heap a) = true)
    (hmode : (st.heap a).mode ≠ .pipeline) (hl : launchProcess os a mode st = .ok r)
    (hsafe : Safe P (finishAll a (-1) r.2 (n + 1) r.1)) : r.2 < 0 ∧ (st.heap a).mode = .foreground := by
  have hshape := (launchProcess_same hl).shape a
  have hm := Job.shape_mode hshape
  rw [← hm] at hmode ⊢
  exact finishAll_missing ((Job.shape_external hshape).trans hext) hmode hsafe

theorem runJob_full_fails {P : St → Prop} (h : Inv st) (hroot : (st.heap a).root = root :: rest)
    (htype : root.type = .external) (hlen : st.present.length = numJobs) (hmode : (st.heap a).mode ≠ .pipeline)
    (hsafe : Safe P (runJob os a st)) :
    (st.heap a).mode = .foreground ∧ root.inPath ≠ none ∧ os.opens = true ∧
      Safe (fun r => r.2 < 0) (launchProcess os a (if rest = [] then .foreground else .pipeline) st) := by
  have hext : isExternal (st.heap a) = true := by simp [isExternal, hroot, htype]
  unfold runJob at hsafe
  simp only [hroot, htype, if_true, h.noteInsert_full hlen] at hsafe
  cases hin : root.inPath with
  | none =>
    simp only [hin] at hsafe
    obtain ⟨hneg, -⟩ := finishAll_missing hext hmode hsafe
    omega
  | some path =>
    simp only [hin] at hsafe
    by_cases hopens : os.opens = true
    · rw [if_pos hopens] at hsafe
      have hfg : (st.heap a).mode = .foreground := by
        by_contra hne
        have hmode' : (if rest = [] then (st.heap a).mode else .pipeline) ≠ .foreground := by
          split
          · exact hne
          · decide
        obtain ⟨r, hr⟩ := launchProcess_unwaited os hext hmode'
        rw [hr] at hsafe
        exact hne (launched_missing hext hmode hr hsafe).2
      rw [hfg] at hsafe
      refine ⟨hfg, by simp, hopens, ?_⟩
      cases hl : launchProcess os a (if rest = [] then .foreground else .pipeline) st with
      | error stop =>
        rw [hl] at hsafe
        exact hsafe
      | ok r =>
        rw [hl] at hsafe
        exact (launched_missing hext hmode hl hsafe).1
    · rw [if_neg hopens] at hsafe
      exact absurd rfl (hsafe.ne_index (-1))

end RunJob

theorem Inv.exec_safe {st : St} (h : Inv st) {e : Ev} (hlegal : Legal st e) (hroom : Room st e) : Safe Inv (exec st e) := by
  cases e with
  | zombie nullReads pid status => exact checkZombie_inv h nullReads pid status
  | run os a job =>
    have hinv : Inv (parsed st a job) := h.update hlegal.1 job
    have hheap : (parsed st a job).heap a = job := Function.update_self ..
    show Safe Inv (runJob os a (parsed st a job))
    cases hroot : job.root with
    | nil =>
      unfold runJob
      simp only [hheap, hroot]
      intro i hi
      cases hi
    | cons root rest =>
      have hr := hroom root rest hroot
      have hlaunch := launchFails_iff os st (a := a) hroot
      rw [← hheap] at hroot
      by_cases htype : root.type = .external
      · rw [if_pos htype] at hr
        by_cases hlen : st.present.length = numJobs
        · obtain ⟨hmode, hin, hopens, hfails⟩ := hr.resolve_left (by omega)
          exact runJob_full hinv hroot htype hlen (by rw [hheap, hmode]) hin hopens ((hlaunch htype).mp hfails)
        · exact runJob_room hinv hlegal.1 hroot htype hlen
      · rw [if_neg htype] at hr
        exact runJob_builtin hinv hroot htype hr

theorem Inv.room_of_safe {st : St} (h : Inv st) {e : Ev} (hlegal : Legal st e) {P : St → Prop} (hsafe : Safe P (exec st e)) :
    Room st e := by
  cases e with
  | zombie nullReads pid status => trivial
  | run os a job =>
    have hinv : Inv (parsed st a job) := h.update hlegal.1 job
    have hheap : (parsed st a job).heap a = job := Function.update_self ..
    intro root rest hroot
    have hlaunch := launchFails_iff os st (a := a) hroot
    rw [← hheap] at hroot
    split
    · rename_i htype
      by_cases hlen : st.present.length = numJobs
      · have hfails := runJob_full_fails hinv hroot htype hlen (by rw [hheap]; exact hlegal.2) hsafe
        rw [hheap, ← hlaunch htype] at hfails
        exact Or.inr hfails
      · have := h.length_le
        exact Or.inl (by omega)
    · rename_i htype
      exact runJob_builtin_input hroot htype hsafe

theorem Inv.good_iff {st : St} (h : Inv st) {e : Ev} (hlegal : Legal st e) : Good st e ↔ Room st e := by
  constructor
  · intro hgood
    exact h.room_of_safe hlegal hgood.after
  · intro hroom
    refine ⟨h.law, ?_, Yields.mono (h.exec_safe hlegal hroom) fun _ h' => h'.law⟩
    intro os a job he _
    subst he
    have hinv : Inv (parsed st a job) := h.update hlegal.1 job
    exact (hinv.insert hlegal.1).law

/-! ## Whole runs -/

theorem shellInit_inv {jobs : Nat → Option Nat} (heap : Nat → Job) (h : jobs numJobs = none) :
    Inv (shellInit jobs heap) := by
  have hnone : ∀ i ≤ numJobs, (shellInit jobs heap).jobs i = none := by
    intro i hi
    show (if i < numJobs then none else jobs i) = none
    split
    · rfl
    · have : i = numJobs := by omega
      rw [this, h]
  refine ⟨?_, List.nodup_nil, ?_, rfl⟩
  · have : occupants (List.range' 1 numJobs) (shellInit jobs heap).jobs = [] :=
      List.filterMap_eq_nil_iff.mpr fun i hi => hnone i (mem_slots.mp hi).2
    rw [this]
    exact List.Perm.nil
  · intro i hi a ha
    rw [hnone i hi] at ha
    cases ha

/-- Slot `NUM_JOBS` keeps what was in the memory. -/
theorem shellInit_law_iff (jobs : Nat → Option Nat) (heap : Nat → Job) :
    Law (shellInit jobs heap) ↔ jobs numJobs = none := by
  constructor
  · intro h
    cases hj : jobs numJobs with
    | none => rfl
    | some a => cases (h.slots numJobs le_rfl a hj).1
  · intro h
    exact (shellInit_inv heap h).law

/-- The table keeps its invariant along a run exactly when slot 10 happened to be NULL before
    `shell_init` and every job finds room, or fails before it is missed. -/
theorem table_iff (jobs : Nat → Option Nat) (heap : Nat → Job) (es : List Ev)
    (hlegal : ∀ x ∈ trail step (shellInit jobs heap) es, Legal x.1 x.2) :
    (Law (shellInit jobs heap) ∧ ∀ x ∈ trail step (shellInit jobs heap) es, Good x.1 x.2) ↔
      jobs numJobs = none ∧ ∀ x ∈ trail step (shellInit jobs heap) es, Room x.1 x.2 := by
  rw [shellInit_law_iff]
  refine and_congr_right fun hjobs => ?_
  refine trail_iff Inv Legal Room Good (fun st e h hl => h.good_iff hl) ?_ es _ (shellInit_inv heap hjobs) hlegal
  intro st e st' h hl hroom hstep
  have hsafe := h.exec_safe hl hroom
  unfold step at hstep
  cases hx : exec st e with
  | error stop =>
    rw [hx] at hstep
    cases hstep
  | ok r =>
    rw [hx] at hstep hsafe
    cases hstep
    exact hsafe

/-! ### Two runs -/

/-- `ls`, in the background -/
def lsJob : Job := ⟨0, [lsProcess 0], ['l', 's'], -1, .background⟩

/-- Jobs in the memory at 0, 1, …, one after the other. -/
def lsJobs (n : Nat) : List Ev := (List.range n).map fun a => .run allEnded a lsJob

/-- What `malloc` returns is all NULL. -/
def nullTable : St := shellInit (fun _ => none) (fun _ => lsJob)

theorem table_ls : Law nullTable ∧ ∀ x ∈ trail step nullTable (lsJobs 1), Good x.1 x.2 := by
  have htrail : trail step nullTable (lsJobs 1) = [(nullTable, .run allEnded 0 lsJob)] := rfl
  have hlegal : ∀ x ∈ trail step nullTable (lsJobs 1), Legal x.1 x.2 := by
    rw [htrail, List.forall_mem_singleton]
    exact ⟨List.not_mem_nil, by decide⟩
  refine (table_iff (fun _ => none) (fun _ => lsJob) (lsJobs 1) hlegal).mpr ⟨rfl, ?_⟩
  show ∀ x ∈ trail step nullTable (lsJobs 1), Room x.1 x.2
  rw [htrail, List.forall_mem_singleton]
  intro root rest hroot
  cases hroot
  exact Or.inl (by decide)

/-- A slot 10 that was not NULL is not made NULL; and after ten jobs in the background the shell prints
    the pids of the job in slot -1. -/
theorem eleventh_job : ¬ Law (shellInit (fun _ => some 64) (fun _ => lsJob)) ∧
    ∃ st, after step nullTable (lsJobs 10) = some st ∧ st.present.length = 10 ∧
      exec st (.run allEnded 10 lsJob) = .error (.index (-1)) := by
  refine ⟨fun h => ?_, _, rfl, rfl, rfl⟩
  cases (h.slots numJobs le_rfl 64 rfl).1

end CS5600.Shell.Draft
