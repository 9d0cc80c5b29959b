/-
  CS5600.Shell.DraftJobs — the jobs of the draft shell (`Assignment4_Shell/shell_draft.c`): the table
  `myShell->jobs`, the functions that look at it, and `wait_job`.

  The table holds pointers, and `heap` is what they lead to: a pointer nobody stored leads to what
  happens to be there, and a freed job stays as it was (`run_job` goes on reading the job that
  `remove_job` has freed). An index outside 0..10 stops the shell, and so does a read through
  NULL, as at the end of `print_job_status`, if the system does not let it pass (`nullReads`).

  Proved (`wait_counts_iff`): PROC_FILTER_REMAIN counts the finished processes, as PROC_FILTER_DONE
  does, and `wait_job` waits once for each of them, but at least once. So the counts add up and the
  waits are one for each unfinished process only if there are as many of them as of the others,
  and not none. `waits_for_the_finished` is a job of one running process and two that are done.
-/

import CS5600.Shell.DraftParse

namespace CS5600.Shell.Draft

/-- NUM_JOBS -/
def numJobs : Nat := 10

/-- STATUS_RUNNING and the others -/
def statusRunning : Int := 0
def statusDone : Int := 1
def statusSuspended : Int := 2
def statusContinued : Int := 3
def statusTerminated : Int := 4

structure St where
  jobs : Nat → Option Nat
  heap : Nat → Job
  /-- the jobs inserted and not removed since, as the callers note them; no function reads it -/
  present : List Nat

inductive Stop where
  /-- `jobs` is indexed outside 0..10 -/
  | index (i : Int)
  /-- a read through NULL -/
  | null
  /-- the builtin -/
  | exit
  deriving DecidableEq

/-! ## The table -/

def slot (st : St) (i : Int) : Except Stop (Option Nat) :=
  if 0 ≤ i ∧ i ≤ numJobs then .ok (st.jobs i.toNat) else .error (.index i)

/-- The test most functions begin with, `job_id > NUM_JOBS || myShell->jobs[job_id] == NULL`: `none`
    if it holds. -/
def lookup (st : St) (jobId : Int) : Except Stop (Option Nat) :=
  if jobId > numJobs then .ok none else slot st jobId

/-- PROC_FILTER_ALL, PROC_FILTER_DONE and PROC_FILTER_REMAIN -/
inductive Filter where
  | all
  | done
  | remain
  deriving DecidableEq

def Filter.counts (filter : Filter) (process : Process) : Bool :=
  filter = .all || (filter = .done && process.status = statusDone) || (filter = .remain && process.status = statusDone)

def countNumProcess (st : St) (id : Int) (filter : Filter) : Except Stop Int := do
  match ← lookup st id with
  | none => return -1
  | some a => return (st.heap a).root.countP filter.counts

def getNextJob (st : St) : Int :=
  match (List.range' 1 numJobs).find? (fun i => (st.jobs i).isNone) with
  | some i => i
  | none => -1

def printPidsOfJob (st : St) (jobId : Int) : Except Stop Int := do
  match ← lookup st jobId with
  | none => return -1
  | some _ => return 0

/-- Its loop ends with `process` at NULL, and then it reads `process->next`. -/
def printJobStatus (nullReads : Bool) (st : St) (jobId : Int) : Except Stop Int := do
  match ← lookup st jobId with
  | none => return -1
  | some _ => if nullReads then return 0 else throw .null

/-- It frees the job and its processes. -/
def releaseJob (st : St) (jobId : Int) : Except Stop Int := do
  match ← lookup st jobId with
  | none => return -1
  | some _ => return 0

def insertJob (st : St) (a : Nat) : St × Int :=
  let jobId := getNextJob st
  if jobId < 0 then (st, -1)
  else
    ({ st with
       jobs := Function.update st.jobs jobId.toNat (some a)
       heap := Function.update st.heap a { st.heap a with id := jobId } }, jobId)

def removeJob (st : St) (jobId : Int) : Except Stop (St × Int) := do
  match ← lookup st jobId with
  | none => return (st, -1)
  | some _ =>
    let _ ← releaseJob st jobId
    return ({ st with jobs := Function.update st.jobs jobId.toNat none }, 0)

def checkCompletion (st : St) (jobId : Int) : Except Stop Int := do
  match ← lookup st jobId with
  | none => return -1
  | some a => return if (st.heap a).root.any (·.status ≠ statusDone) then 0 else 1

def getJobByPid (st : St) (pid : Int) : Int :=
  (List.range (numJobs + 1)).foldl (fun jobId i =>
    match st.jobs i with
    | some a => if (st.heap a).root.any (·.pid = pid) then i else jobId
    | none => jobId) (-1)

def Job.setStatus (pid status : Int) (job : Job) : Job :=
  { job with root := job.root.map fun process => if process.pid = pid then { process with status := status } else process }

/-- Nobody looks at what it returns. -/
def setProcessStatus (st : St) (pid status : Int) : St :=
  { st with heap := fun a =>
      if (List.range' 1 numJobs).any (fun i => st.jobs i = some a) then (st.heap a).setStatus pid status else st.heap a }

/-! ## Waiting -/

/-- The words of `sys/wait.h`, as the bits of an `int`. -/
def wifexited (w : Int) : Bool := w % 128 = 0
def wifsignaled (w : Int) : Bool := 0 < w % 128 ∧ w % 128 < 127
def wifstopped (w : Int) : Bool := w % 256 = 127
def wifcontinued (w : Int) : Bool := w = 65535
def wstopsig (w : Int) : Int := w / 256 % 256

/-- What `waitpid` returns, and what it stores in `status` if it does. -/
structure Answer where
  pid : Int
  status : Option Int

/-- What the system answers while a line is run. -/
structure Os where
  waits : Nat → Answer
  opens : Bool
  /-- the pid of the child -/
  fork : Option Int
  nullReads : Bool

/-- The body of the loop of `wait_job`; `counter` calls of `waitpid` are done after it. -/
def waitRound (os : Os) (jobId num : Int) (counter : Nat) (st : St) (status : Int) : St × Except Stop Int :=
  let answer := os.waits counter
  let status := answer.status.getD status
  if wifexited status then (setProcessStatus st answer.pid statusDone, .ok status)
  else if wifsignaled status then (setProcessStatus st answer.pid statusTerminated, .ok status)
  else if wstopsig status ≠ 0 then
    let st := setProcessStatus st answer.pid statusSuspended
    if counter = num then (st, (printJobStatus os.nullReads st jobId).map fun _ => -1)
    else (st, .ok (-1))
  else (st, .ok status)

structure Waited where
  st : St
  /-- the calls of `waitpid` -/
  calls : Nat
  status : Except Stop Int

/-- The `do … while`, with `counter` calls done. -/
def waitLoop (os : Os) (jobId num : Int) (counter : Nat) (st : St) (status : Int) : Waited :=
  match waitRound os jobId num (counter + 1) st status with
  | (st, .error stop) => ⟨st, counter + 1, .error stop⟩
  | (st, .ok status) =>
    if counter + 1 < num then waitLoop os jobId num (counter + 1) st status else ⟨st, counter + 1, .ok status⟩
termination_by (num - counter).toNat
decreasing_by omega

def waitJob (os : Os) (st : St) (jobId : Int) : Waited :=
  match lookup st jobId with
  | .error stop => ⟨st, 0, .error stop⟩
  | .ok none => ⟨st, 0, .ok (-1)⟩
  | .ok (some _) =>
    match countNumProcess st jobId .remain with
    | .error stop => ⟨st, 0, .error stop⟩
    | .ok num => waitLoop os jobId num 0 st 0

/-! ### How often it waits -/

def Job.finished (job : Job) : Nat := job.root.countP (·.status = statusDone)

def Job.unfinished (job : Job) : Nat := job.root.countP (·.status ≠ statusDone)

theorem Job.length_root (job : Job) : job.root.length = job.finished + job.unfinished := by
  have h := List.length_eq_countP_add_countP (fun p : Process => decide (p.status = statusDone)) (l := job.root)
  simpa [Job.finished, Job.unfinished] using h

section Held

variable {st : St} {id a : Nat} (hid : id ≤ numJobs) (hjob : st.jobs id = some a)

include hid hjob

theorem lookup_held : lookup st id = .ok (some a) := by
  rw [lookup, if_neg (by omega), slot, if_pos ⟨by omega, by omega⟩, Int.toNat_natCast, hjob]

/-- Both filters count the finished processes. -/
theorem countNumProcess_held (filter : Filter) :
    countNumProcess st id filter =
      .ok (if filter = .all then ((st.heap a).finished + (st.heap a).unfinished : Nat)
        else ((st.heap a).finished : Nat)) := by
  have hcount : (st.heap a).root.countP filter.counts =
      if filter = .all then (st.heap a).root.length else (st.heap a).finished := by
    cases filter with
    | all => exact List.countP_eq_length.mpr fun p _ => rfl
    | done => exact List.countP_congr fun p _ => by simp [Filter.counts]
    | remain => exact List.countP_congr fun p _ => by simp [Filter.counts]
  unfold countNumProcess
  rw [lookup_held hid hjob, ← Job.length_root]
  show Except.ok (((st.heap a).root.countP filter.counts : Nat) : Int) = _
  rw [hcount]
  split <;> rfl

end Held

/-- The loop stops before its last round at no answer. -/
theorem waitRound_stops {os : Os} {jobId num : Int} {counter : Nat} {st st' : St} {status : Int} {stop : Stop}
    (h : waitRound os jobId num counter st status = (st', .error stop)) : counter = num := by
  unfold waitRound at h
  dsimp only at h
  split at h
  · cases h
  · split at h
    · cases h
    · split at h
      · split at h
        · assumption
        · cases h
      · cases h

theorem waitLoop_calls (os : Os) (jobId : Int) (num counter : Nat) (st : St) (status : Int) :
    (waitLoop os jobId num counter st status).calls = max (counter + 1) num := by
  induction hn : num - counter generalizing counter st status with
  | zero =>
    rw [waitLoop]
    split
    · show counter + 1 = _
      omega
    · rw [if_neg (by omega)]
      show counter + 1 = _
      omega
  | succ n ih =>
    rw [waitLoop]
    split
    · rename_i hstop
      have := waitRound_stops hstop
      show counter + 1 = _
      omega
    · split
      · rw [ih (counter + 1) _ _ (by omega)]
        omega
      · show counter + 1 = _
        omega

theorem waitJob_calls (os : Os) {st : St} {id a : Nat} (hid : id ≤ numJobs) (hjob : st.jobs id = some a) :
    (waitJob os st id).calls = max 1 (st.heap a).finished := by
  unfold waitJob
  rw [lookup_held hid hjob]
  simp only [countNumProcess_held hid hjob]
  exact waitLoop_calls ..

/-- The counts add up and `wait_job` waits once for each unfinished process exactly when as many
    processes are finished as not, and there are some. -/
theorem wait_counts_iff (os : Os) {st : St} {id a : Nat} (hid : id ≤ numJobs) (hjob : st.jobs id = some a) :
    ((∃ done remain all, countNumProcess st id .done = .ok done ∧ countNumProcess st id .remain = .ok remain ∧
        countNumProcess st id .all = .ok all ∧ done + remain = all) ∧
      (waitJob os st id).calls = (st.heap a).unfinished) ↔
    (st.heap a).finished = (st.heap a).unfinished ∧ 0 < (st.heap a).finished := by
  rw [waitJob_calls os hid hjob]
  simp only [countNumProcess_held hid hjob]
  constructor
  · intro h
    obtain ⟨⟨d, r, t, hd, hr, ht, hsum⟩, hcalls⟩ := h
    cases hd
    cases hr
    cases ht
    simp only [reduceCtorEq, if_false, if_true] at hsum
    omega
  · intro h
    refine ⟨⟨_, _, _, rfl, rfl, rfl, ?_⟩, by omega⟩
    simp only [reduceCtorEq, if_false, if_true]
    omega

/-! ### Two jobs -/

/-- A process with the given status, as `parse_process_command` makes it of `ls`. -/
def lsProcess (status : Int) : Process := ⟨['l', 's'], 1, [some ['l', 's'], none], none, none, -1, .external, status⟩

/-- Processes with the given statuses, in slot 1 and nowhere else. -/
def oneJob (statuses : List Int) : St where
  jobs i := if i = 1 then some 64 else none
  heap _ := ⟨1, statuses.map lsProcess, ['l', 's'], -1, .foreground⟩
  present := [64]

/-- Every child has ended. -/
def allEnded : Os := ⟨fun _ => ⟨100, some 0⟩, true, some 100, false⟩

theorem wait_counts_even : (waitJob allEnded (oneJob [statusDone, statusRunning]) (1 : Nat)).calls = 1 :=
  ((wait_counts_iff allEnded (by decide) (show (oneJob [statusDone, statusRunning]).jobs 1 = some 64 from rfl)).mpr
    ⟨by decide, by decide⟩).2

/-- One process is not done: `count_num_process` finds two that remain, and `wait_job` waits twice. -/
theorem waits_for_the_finished : let st := oneJob [statusRunning, statusDone, statusDone]
    (st.heap 64).unfinished = 1 ∧ countNumProcess st 1 .remain = .ok 2 ∧ countNumProcess st 1 .done = .ok 2 ∧
      countNumProcess st 1 .all = .ok 3 ∧ ∀ os : Os, (waitJob os st (1 : Nat)).calls = 2 :=
  ⟨by decide, rfl, rfl, rfl, fun os => waitJob_calls os (by decide) rfl⟩

end CS5600.Shell.Draft
