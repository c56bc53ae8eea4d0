import Dstore.Lib.Inevitable
import Dstore.Lib.Lists
import Dstore.Lib.Runs
/-!
# The thread pool

`ThreadPool` is a queue of jobs under a mutex and a condition variable. What
happens under the mutex happens at once, and between two such moments the
threads come in any order: a caller that has pushed its job and not yet
notified, a worker that has been woken and not yet taken the lock, a destructor
between `stop_` and `notify_all`. Waking may also be spurious.

A `System` is the pool with what its callers are about to do, and with a record
of the jobs submitted, started and finished that no thread reads.
-/
open Dstore.Lib

namespace Dstore

variable {Job : Type}

/-- Where a worker's thread is in `run`. -/
inductive Worker (Job : Type) where
  /-- It will take the lock: a round begins, or the wait was ended. -/
  | ready
  /-- In `cv_.wait`, without the lock. -/
  | waiting
  | running (job : Job)
  /-- Out of `run`; it can be joined. -/
  | returned

namespace Worker

def isReady : Worker Job → Bool
  | .ready => true
  | _ => false

def isWaiting : Worker Job → Bool
  | .waiting => true
  | _ => false

/-- The job it runs. -/
def job? : Worker Job → Option Job
  | .running job => some job
  | _ => none

/-- What `notify_all` does to it. -/
def notified : Worker Job → Worker Job
  | .waiting => .ready
  | w => w

end Worker

structure ThreadPool (Job : Type) where
  stop : Bool := false
  jobs : List Job := []
  workers : List (Worker Job)

namespace ThreadPool

/-- The constructor. -/
def create (workers : Nat) : ThreadPool Job := { workers := List.replicate (if workers = 0 then 1 else workers) .ready }

/-- One turn of `run` under the lock: the wait's test, and after it the exit or
the job in front. -/
def turn (stop : Bool) : List Job → Worker Job × List Job
  | [] => if stop then (.returned, []) else (.waiting, [])
  | job :: jobs => (.running job, jobs)

/-- The jobs that run, in the order of the workers. -/
def running (pool : ThreadPool Job) : List Job := pool.workers.filterMap Worker.job?

/-- Where the thread that destroys the pool is in `~ThreadPool`. -/
inductive Destructor where
  | notCalled
  /-- `stop_` is set and the lock released. -/
  | stopped
  /-- The first `i` workers have been joined; with all of them it returns. -/
  | joining (i : Nat)
  deriving DecidableEq

structure System (Job : Type) where
  pool : ThreadPool Job
  /-- Calls of `submit` that have released the lock and not notified yet. -/
  notifying : Nat := 0
  destructor : Destructor := .notCalled
  submitted : List Job := []
  started : List Job := []
  finished : List Job := []

inductive Event (Job : Type) where
  /-- `submit` up to the release of the lock. -/
  | submit (job : Job)
  /-- The rest of a `submit`; it wakes worker `i`, or nobody where nobody waits. -/
  | notify_one (woken : Option Nat)
  /-- Worker `i` has the lock for a turn of `run`. -/
  | turn (i : Nat)
  /-- The job of worker `i` ends. -/
  | finish (i : Nat)
  /-- Worker `i` wakes without a notification. -/
  | spurious (i : Nat)
  | set_stop
  | notify_all
  /-- The destructor's next `join` returns. -/
  | join

namespace Event

/-- Neither a new job nor a spurious wakeup. -/
def quiet : Event Job → Prop
  | .submit _ | .spurious _ => False
  | _ => True

/-- A step that takes a job to its end, by a caller or a worker. -/
def working : Event Job → Prop
  | .notify_one _ | .turn _ | .finish _ => True
  | _ => False

theorem working.quiet {e : Event Job} (h : e.working) : e.quiet := by
  cases e with
  | submit _ | spurious _ => exact h
  | _ => trivial

end Event

namespace System

def create (workers : Nat) : System Job := { pool := .create workers }

def setWorker (s : System Job) (i : Nat) (w : Worker Job) : System Job :=
  { s with pool := { s.pool with workers := s.pool.workers.set i w } }

/-- A pool may be used until it is destroyed: `submit` is called, and returns,
before the destructor is. -/
def step (s : System Job) : Event Job → Option (System Job)
  | .submit job =>
    if s.destructor = .notCalled then
      some { s with
        pool := { s.pool with jobs := s.pool.jobs ++ [job] }
        notifying := s.notifying + 1
        submitted := s.submitted ++ [job] }
    else none
  | .notify_one none =>
    if 0 < s.notifying ∧ s.pool.workers.any Worker.isWaiting = false then some { s with notifying := s.notifying - 1 }
    else none
  | .notify_one (some i) =>
    match s.pool.workers[i]? with
    | some .waiting => if 0 < s.notifying then some { s.setWorker i .ready with notifying := s.notifying - 1 } else none
    | _ => none
  | .turn i =>
    match s.pool.workers[i]? with
    | some .ready =>
      let (w, jobs) := ThreadPool.turn s.pool.stop s.pool.jobs
      some { s with
        pool := { s.pool with jobs, workers := s.pool.workers.set i w }
        started := s.started ++ w.job?.toList }
    | _ => none
  | .finish i =>
    match s.pool.workers[i]? with
    | some (.running job) => some { s.setWorker i .ready with finished := s.finished ++ [job] }
    | _ => none
  | .spurious i =>
    match s.pool.workers[i]? with
    | some .waiting => some (s.setWorker i .ready)
    | _ => none
  | .set_stop =>
    if s.destructor = .notCalled ∧ s.notifying = 0 then
      some { s with pool := { s.pool with stop := true }, destructor := .stopped }
    else none
  | .notify_all =>
    if s.destructor = .stopped then
      some { s with
        pool := { s.pool with workers := s.pool.workers.map Worker.notified }
        destructor := .joining 0 }
    else none
  | .join =>
    match s.destructor with
    | .joining i =>
      match s.pool.workers[i]? with
      | some .returned => some { s with destructor := .joining (i + 1) }
      | _ => none
    | _ => none

/-- The destructor has returned. -/
def destroyed (s : System Job) : Prop := s.destructor = .joining s.pool.workers.length

/-- A pool's life under some interleaving. -/
abbrev Execution (Job : Type) (workers : Nat) := Run (fun (s : System Job) e s' => s.step e = some s') (create workers)

@[simp] theorem setWorker_pool (s : System Job) (i : Nat) (w : Worker Job) :
    (s.setWorker i w).pool = { s.pool with workers := s.pool.workers.set i w } := rfl
@[simp] theorem setWorker_destructor (s : System Job) (i : Nat) (w : Worker Job) :
    (s.setWorker i w).destructor = s.destructor := rfl
@[simp] theorem setWorker_notifying (s : System Job) (i : Nat) (w : Worker Job) :
    (s.setWorker i w).notifying = s.notifying := rfl
@[simp] theorem setWorker_submitted (s : System Job) (i : Nat) (w : Worker Job) :
    (s.setWorker i w).submitted = s.submitted := rfl
@[simp] theorem setWorker_started (s : System Job) (i : Nat) (w : Worker Job) :
    (s.setWorker i w).started = s.started := rfl
@[simp] theorem setWorker_finished (s : System Job) (i : Nat) (w : Worker Job) :
    (s.setWorker i w).finished = s.finished := rfl

/-- What a step can do, with what has to hold for it. -/
inductive Does (s : System Job) : Event Job → System Job → Prop
  | submit (job : Job) : s.destructor = .notCalled →
      Does s (.submit job) { s with
        pool := { s.pool with jobs := s.pool.jobs ++ [job] }
        notifying := s.notifying + 1
        submitted := s.submitted ++ [job] }
  | notify_nobody : 0 < s.notifying → .waiting ∉ s.pool.workers →
      Does s (.notify_one none) { s with notifying := s.notifying - 1 }
  | notify {i : Nat} : s.pool.workers[i]? = some .waiting → 0 < s.notifying →
      Does s (.notify_one (some i)) { s.setWorker i .ready with notifying := s.notifying - 1 }
  | take {i : Nat} {job : Job} {jobs : List Job} : s.pool.workers[i]? = some .ready → s.pool.jobs = job :: jobs →
      Does s (.turn i) { s with
        pool := { s.pool with jobs, workers := s.pool.workers.set i (.running job) }
        started := s.started ++ [job] }
  | wait {i : Nat} : s.pool.workers[i]? = some .ready → s.pool.jobs = [] → s.pool.stop = false →
      Does s (.turn i) (s.setWorker i .waiting)
  | exit {i : Nat} : s.pool.workers[i]? = some .ready → s.pool.jobs = [] → s.pool.stop = true →
      Does s (.turn i) (s.setWorker i .returned)
  | finish {i : Nat} {job : Job} : s.pool.workers[i]? = some (.running job) →
      Does s (.finish i) { s.setWorker i .ready with finished := s.finished ++ [job] }
  | spurious {i : Nat} : s.pool.workers[i]? = some .waiting → Does s (.spurious i) (s.setWorker i .ready)
  | set_stop : s.destructor = .notCalled → s.notifying = 0 →
      Does s .set_stop { s with pool := { s.pool with stop := true }, destructor := .stopped }
  | notify_all : s.destructor = .stopped →
      Does s .notify_all { s with
        pool := { s.pool with workers := s.pool.workers.map Worker.notified }
        destructor := .joining 0 }
  | join {i : Nat} : s.destructor = .joining i → s.pool.workers[i]? = some .returned →
      Does s .join { s with destructor := .joining (i + 1) }

theorem any_isWaiting {workers : List (Worker Job)} : workers.any Worker.isWaiting = false ↔ .waiting ∉ workers := by
  rw [List.any_eq_false]
  constructor
  · exact fun h hw => h _ hw rfl
  · intro h w hw hwait
    cases w with
    | waiting => exact h hw
    | _ => cases hwait

theorem step_iff {s s' : System Job} {e : Event Job} : s.step e = some s' ↔ s.Does e s' := by
  constructor
  · intro h
    cases e with
    | submit job =>
      rw [step] at h
      split at h <;> cases h
      exact .submit job ‹_›
    | notify_one woken =>
      cases woken with
      | none =>
        rw [step] at h
        split at h <;> cases h
        exact .notify_nobody (‹_ ∧ _›).1 (any_isWaiting.1 (‹_ ∧ _›).2)
      | some i =>
        rw [step] at h
        split at h
        · split at h <;> cases h
          exact .notify ‹_› ‹_›
        · cases h
    | turn i =>
      rw [step] at h
      split at h
      · rename_i hw
        cases hjobs : s.pool.jobs with
        | nil =>
          cases hstop : s.pool.stop
          · rw [hjobs, hstop] at h
            cases h
            simpa [setWorker, Worker.job?, hjobs, hstop] using Does.wait hw hjobs hstop
          · rw [hjobs, hstop] at h
            cases h
            simpa [setWorker, Worker.job?, hjobs, hstop] using Does.exit hw hjobs hstop
        | cons job jobs =>
          rw [hjobs] at h
          cases h
          exact .take hw hjobs
      · cases h
    | finish i =>
      rw [step] at h
      split at h <;> cases h
      exact .finish ‹_›
    | spurious i =>
      rw [step] at h
      split at h <;> cases h
      exact .spurious ‹_›
    | set_stop =>
      rw [step] at h
      split at h <;> cases h
      exact .set_stop (‹_ ∧ _›).1 (‹_ ∧ _›).2
    | notify_all =>
      rw [step] at h
      split at h <;> cases h
      exact .notify_all ‹_›
    | join =>
      rw [step] at h
      split at h
      · split at h <;> cases h
        exact .join ‹_› ‹_›
      · cases h
  · intro h
    cases h with
    | submit job hd => exact if_pos hd
    | notify_nobody hn hw => exact if_pos ⟨hn, any_isWaiting.2 hw⟩
    | notify hw hn => simp [step, hw, hn]
    | take hw hjobs => simp [step, hw, hjobs, turn, Worker.job?]
    | wait hw hjobs hstop => simp [step, setWorker, hw, hjobs, hstop, turn, Worker.job?]
    | exit hw hjobs hstop => simp [step, setWorker, hw, hjobs, hstop, turn, Worker.job?]
    | finish hw => simp [step, hw]
    | spurious hw => simp [step, hw]
    | set_stop hd hn => exact if_pos ⟨hd, hn⟩
    | notify_all hd => exact if_pos hd
    | join hd hw => simp [step, hd, hw]

/-- No thread is added or taken away. -/
theorem step_workers {s s' : System Job} {e : Event Job} (hstep : s.step e = some s') :
    s'.pool.workers.length = s.pool.workers.length := by
  cases step_iff.1 hstep with
  | submit _ _ | notify_nobody _ _ | set_stop _ _ | join _ _ => rfl
  | notify_all _ => exact List.length_map _
  | _ => exact List.length_set

/-! ## The queue

Jobs leave the queue in the order they came, each to one worker. -/

theorem running_set {workers : List (Worker Job)} {i : Nat} {w : Worker Job} (h : workers[i]? = some w) (w' : Worker Job) :
    (w.job?.toList ++ (workers.set i w').filterMap Worker.job?).Perm
      (w'.job?.toList ++ workers.filterMap Worker.job?) := by
  have hperm := (set_perm h w').filterMap Worker.job?
  rw [List.filterMap_cons, List.filterMap_cons] at hperm
  cases w <;> cases w' <;> exact hperm

theorem running_notified (workers : List (Worker Job)) :
    (workers.map Worker.notified).filterMap Worker.job? = workers.filterMap Worker.job? := by
  rw [List.filterMap_map]
  refine List.filterMap_congr fun w _ => ?_
  cases w <;> rfl

structure Ledger (s : System Job) : Prop where
  /-- What has been started and what waits is what was submitted, in that order. -/
  queue : s.started ++ s.pool.jobs = s.submitted
  /-- What has been started has ended or runs. -/
  ran : s.started.Perm (s.finished ++ s.pool.running)

theorem ledger_create (n : Nat) : (System.create n : System Job).Ledger where
  queue := rfl
  ran := by simp [System.create, ThreadPool.create, running, Worker.job?]

theorem ledger_step {s s' : System Job} {e : Event Job} (h : s.Ledger) (hstep : s.step e = some s') : s'.Ledger := by
  obtain ⟨hqueue, hran⟩ := h
  -- a worker that neither had a job nor gets one
  have hidle : ∀ {i : Nat} {w w' : Worker Job}, s.pool.workers[i]? = some w → w.job? = none → w'.job? = none →
      s.started.Perm (s.finished ++ (s.pool.workers.set i w').filterMap Worker.job?) := by
    intro i w w' hw hnone hnone'
    have hset := running_set hw w'
    rw [hnone, hnone'] at hset
    exact hran.trans (hset.symm.append_left _)
  cases step_iff.1 hstep with
  | submit job hd => exact ⟨by rw [← List.append_assoc, hqueue], hran⟩
  | notify_nobody hn hw => exact ⟨hqueue, hran⟩
  | notify hw hn => exact ⟨hqueue, hidle hw rfl rfl⟩
  | @take i job jobs hw hjobs =>
    refine ⟨by rw [← hqueue, hjobs, List.append_assoc]; rfl, ?_⟩
    have hset : ((s.pool.workers.set i (.running job)).filterMap Worker.job?).Perm (job :: s.pool.running) :=
      running_set hw (.running job)
    calc (s.started ++ [job]).Perm (s.finished ++ s.pool.running ++ [job]) := hran.append_right _
      List.Perm _ (s.finished ++ (s.pool.running ++ [job])) := by rw [List.append_assoc]
      List.Perm _ (s.finished ++ (job :: s.pool.running)) := (List.perm_append_singleton _ _).append_left _
      List.Perm _ _ := hset.symm.append_left _
  | wait hw hjobs hstop => exact ⟨hqueue, hidle hw rfl rfl⟩
  | exit hw hjobs hstop => exact ⟨hqueue, hidle hw rfl rfl⟩
  | @finish i job hw =>
    refine ⟨hqueue, ?_⟩
    have hset : (job :: (s.pool.workers.set i .ready).filterMap Worker.job?).Perm s.pool.running := running_set hw .ready
    calc s.started.Perm (s.finished ++ s.pool.running) := hran
      List.Perm _ (s.finished ++ (job :: (s.pool.workers.set i .ready).filterMap Worker.job?)) := hset.symm.append_left _
      List.Perm _ (s.finished ++ [job] ++ (s.pool.workers.set i .ready).filterMap Worker.job?) := by
        rw [List.append_assoc]; rfl
  | spurious hw => exact ⟨hqueue, hidle hw rfl rfl⟩
  | set_stop hd hn => exact ⟨hqueue, hran⟩
  | notify_all hd => exact ⟨hqueue, by rw [running, running_notified]; exact hran⟩
  | join hd hw => exact ⟨hqueue, hran⟩

/-! ## The destructor -/

/-- What the stages of the destructor are sure of. -/
structure Stopping (s : System Job) : Prop where
  some_worker : 0 < s.pool.workers.length
  stop_iff : s.pool.stop = true ↔ s.destructor ≠ .notCalled
  /-- Nobody is in `submit` any more. -/
  quiet : s.destructor ≠ .notCalled → s.notifying = 0
  /-- A worker leaves only when the pool stops and has no more jobs. -/
  exits : .returned ∈ s.pool.workers → s.pool.stop = true ∧ s.pool.jobs = []
  /-- After `notify_all` nobody waits, or ever will. -/
  awake : ∀ i, s.destructor = .joining i → .waiting ∉ s.pool.workers
  joined : ∀ i, s.destructor = .joining i → i ≤ s.pool.workers.length ∧ ∀ j < i, s.pool.workers[j]? = some .returned

theorem stopping_create (n : Nat) : (System.create n : System Job).Stopping where
  some_worker := by
    simp only [System.create, ThreadPool.create, List.length_replicate]
    split <;> omega
  stop_iff := by simp [System.create, ThreadPool.create]
  quiet h := absurd rfl h
  exits h := absurd (List.eq_of_mem_replicate h) (by simp)
  awake _ h := by cases h
  joined _ h := by cases h

/-- A worker that has not returned moves on, and does not wait after
`notify_all`. -/
theorem stopping_set {s : System Job} (h : s.Stopping) {i : Nat} {w : Worker Job} (hw : s.pool.workers[i]? = some w)
    (w' : Worker Job) (hne : w ≠ .returned) (hexit : w' = .returned → s.pool.stop = true ∧ s.pool.jobs = [])
    (hwait : w' = .waiting → s.pool.stop = false) : (s.setWorker i w').Stopping where
  some_worker := by simpa using h.some_worker
  stop_iff := h.stop_iff
  quiet := h.quiet
  exits hret := by
    rcases List.mem_or_eq_of_mem_set hret with hret | hret
    · exact h.exits hret
    · exact hexit hret.symm
  awake j hd hmem := by
    rcases List.mem_or_eq_of_mem_set hmem with hmem | hmem
    · exact h.awake j hd hmem
    · have hstop : s.pool.stop = true := h.stop_iff.2 (by rw [setWorker_destructor] at hd; simp [hd])
      rw [hwait hmem.symm] at hstop
      cases hstop
  joined j hd := by
    obtain ⟨hle, hret⟩ := h.joined j hd
    refine ⟨by simpa using hle, fun k hk => ?_⟩
    have hik : i ≠ k := by
      rintro rfl
      exact hne (Option.some.inj (hw.symm.trans (hret i hk)))
    rw [setWorker_pool, List.getElem?_set_ne hik]
    exact hret k hk

theorem stopping_step {s s' : System Job} {e : Event Job} (h : s.Stopping) (hstep : s.step e = some s') : s'.Stopping := by
  cases step_iff.1 hstep with
  | submit job hd =>
    have hstop : s.pool.stop ≠ true := fun hstop => h.stop_iff.1 hstop hd
    exact ⟨h.some_worker, h.stop_iff, fun hne => absurd hd hne, fun hret => absurd (h.exits hret).1 hstop, h.awake, h.joined⟩
  | notify_nobody hn hw =>
    exact ⟨h.some_worker, h.stop_iff, fun hne => by rw [h.quiet hne], h.exits, h.awake, h.joined⟩
  | notify hw hn =>
    have hset := stopping_set h hw .ready nofun nofun nofun
    exact ⟨hset.some_worker, hset.stop_iff, fun hne => by show s.notifying - 1 = 0; rw [h.quiet hne], hset.exits, hset.awake,
      hset.joined⟩
  | @take i job jobs hw hjobs =>
    have hset := stopping_set h hw (.running job) nofun nofun nofun
    refine ⟨hset.some_worker, hset.stop_iff, hset.quiet, fun hret => ?_, hset.awake, hset.joined⟩
    -- nobody has left while there was a job
    have hempty := (hset.exits hret).2
    rw [setWorker_pool, hjobs] at hempty
    cases hempty
  | wait hw hjobs hstop => exact stopping_set h hw .waiting nofun nofun fun _ => hstop
  | exit hw hjobs hstop => exact stopping_set h hw .returned nofun (fun _ => ⟨hstop, hjobs⟩) nofun
  | finish hw =>
    have hset := stopping_set h hw .ready nofun nofun nofun
    exact ⟨hset.some_worker, hset.stop_iff, hset.quiet, hset.exits, hset.awake, hset.joined⟩
  | spurious hw => exact stopping_set h hw .ready nofun nofun nofun
  | set_stop hd hn =>
    exact ⟨h.some_worker, by simp, fun _ => hn, fun hret => ⟨rfl, (h.exits hret).2⟩, nofun, nofun⟩
  | notify_all hd =>
    have hmem : ∀ w ∈ s.pool.workers.map Worker.notified, w ≠ .waiting := by
      intro w hw
      obtain ⟨v, -, rfl⟩ := List.mem_map.1 hw
      cases v <;> nofun
    have hret : .returned ∈ s.pool.workers.map Worker.notified → .returned ∈ s.pool.workers := by
      intro hw
      obtain ⟨v, hv, hvr⟩ := List.mem_map.1 hw
      cases v <;> first | exact hv | cases hvr
    refine ⟨by simpa using h.some_worker, ?_, fun _ => h.quiet (by simp [hd]), fun hw => h.exits (hret hw),
      fun _ _ hw => hmem _ hw rfl, ?_⟩
    · exact ⟨fun _ => nofun, fun _ => h.stop_iff.2 (by simp [hd])⟩
    · rintro _ ⟨⟩
      exact ⟨Nat.zero_le _, fun j hj => absurd hj (by omega)⟩
  | @join i hd hw =>
    refine ⟨h.some_worker, ⟨fun _ => nofun, fun _ => h.stop_iff.2 (by simp [hd])⟩, fun _ => h.quiet (by simp [hd]), h.exits,
      fun _ _ => h.awake i hd, ?_⟩
    rintro _ ⟨⟩
    refine ⟨(List.getElem?_eq_some_iff.1 hw).1, fun j hj => ?_⟩
    rcases Nat.lt_succ_iff_lt_or_eq.1 hj with hlt | rfl
    · exact (h.joined i hd).2 j hlt
    · exact hw

/-! ## Wakeups

While somebody waits, there is for each job in the queue a worker on its way to
the lock or a notification still to come. -/

def Heard (s : System Job) : Prop :=
  .waiting ∈ s.pool.workers → s.pool.jobs.length ≤ s.notifying + s.pool.workers.countP Worker.isReady

/-- A worker goes anywhere but into the wait. -/
theorem heard_set {s : System Job} (h : s.Heard) {i : Nat} {w : Worker Job} (hw : s.pool.workers[i]? = some w)
    (w' : Worker Job) (hne : w' ≠ .waiting) (hwait : .waiting ∈ s.pool.workers.set i w') :
    s.pool.jobs.length + (if w'.isReady then 1 else 0) ≤
      s.notifying + (s.pool.workers.set i w').countP Worker.isReady + if w.isReady then 1 else 0 := by
  have hmem : .waiting ∈ s.pool.workers := by
    rcases List.mem_or_eq_of_mem_set hwait with hmem | heq
    · exact hmem
    · exact absurd heq.symm hne
  have hcount := (set_perm hw w').countP_eq Worker.isReady
  rw [List.countP_cons, List.countP_cons] at hcount
  have := h hmem
  omega

theorem heard_create (n : Nat) : (System.create n : System Job).Heard := fun _ => Nat.zero_le _

theorem heard_step {s s' : System Job} {e : Event Job} (h : s.Heard) (hstep : s.step e = some s') : s'.Heard := by
  intro hwait
  cases step_iff.1 hstep with
  | submit job hd =>
    have := h hwait
    simp only [List.length_append, List.length_singleton]
    omega
  | notify_nobody hn hw => exact absurd hwait hw
  | notify hw hn =>
    have hbound : _ + 1 ≤ s.notifying + _ + 0 := heard_set h hw .ready nofun hwait
    show s.pool.jobs.length ≤ s.notifying - 1 + (s.pool.workers.set _ .ready).countP Worker.isReady
    omega
  | @take i job jobs hw hjobs =>
    have hbound : _ + 0 ≤ s.notifying + _ + 1 := heard_set h hw (.running job) nofun hwait
    rw [hjobs, List.length_cons] at hbound
    exact Nat.le_of_succ_le_succ hbound
  | wait hw hjobs hstop => simp [hjobs]
  | exit hw hjobs hstop => simp [hjobs]
  | finish hw => exact Nat.le_of_succ_le (heard_set h hw .ready nofun hwait)
  | spurious hw => exact Nat.le_of_succ_le (heard_set h hw .ready nofun hwait)
  | set_stop hd hn => exact h hwait
  | notify_all hd =>
    obtain ⟨v, -, hv⟩ := List.mem_map.1 hwait
    cases v <;> cases hv
  | join hd hw => exact h hwait

/-! ## What is left to do

Each step that is neither a `submit` nor a spurious wakeup takes something off
the work that is left. -/

/-- What a worker has before it, counting `k` for a wait. -/
def cost (k : Nat) : Worker Job → Nat
  | .ready => 1
  | .waiting => k
  | .running _ => 2
  | .returned => 0

def load (k : Nat) (s : System Job) : Nat := 2 * s.pool.jobs.length + (s.pool.workers.map (cost k)).sum

/-- A worker goes on to something that costs less. -/
theorem load_setWorker (k : Nat) {s : System Job} {i : Nat} {w : Worker Job} (hw : s.pool.workers[i]? = some w)
    {w' : Worker Job} (hless : cost k w' < cost k w) : (s.setWorker i w').load k < s.load k := by
  have hsum := sum_map_set hw w' (cost k)
  simp only [load, setWorker_pool]
  omega

/-- It takes a job from the queue, which costs more there. -/
theorem load_take (k : Nat) {s : System Job} {i : Nat} {job : Job} {jobs : List Job} (hw : s.pool.workers[i]? = some .ready)
    (hjobs : s.pool.jobs = job :: jobs) :
    2 * jobs.length + ((s.pool.workers.set i (.running job)).map (cost k)).sum < s.load k := by
  have hsum := sum_map_set hw (.running job) (cost k)
  simp only [load, hjobs, List.length_cons, cost] at hsum ⊢
  omega

/-- `notify_all` makes a waiting worker's `k` a turn. -/
theorem sum_notified (k : Nat) (workers : List (Worker Job)) :
    ((workers.map Worker.notified).map (cost k)).sum ≤ (workers.map (cost k)).sum + (1 - k) * workers.length := by
  induction workers with
  | nil => simp
  | cons w workers ih =>
    have hw : cost k w.notified ≤ cost k w + (1 - k) := by cases w <;> simp only [Worker.notified, cost] <;> omega
    simp only [List.map_cons, List.sum_cons, List.length_cons, Nat.mul_succ] at ih ⊢
    omega

/-- The steps of the destructor that are left. -/
def stage (n : Nat) : Destructor → Nat
  | .notCalled => 2 * n + 2
  | .stopped => 2 * n + 1
  | .joining i => n - i

/-- What is left when only quiet steps are taken. -/
def left (s : System Job) : Nat := s.load 0 + 2 * s.notifying + stage s.pool.workers.length s.destructor

theorem left_setWorker {s : System Job} {i : Nat} {w : Worker Job} (hw : s.pool.workers[i]? = some w) {w' : Worker Job}
    (hless : cost 0 w' < cost 0 w) : (s.setWorker i w').left < s.left := by
  have := load_setWorker 0 hw hless
  simp only [left, setWorker_pool, setWorker_destructor, setWorker_notifying, List.length_set] at this ⊢
  omega

theorem left_quiet {s s' : System Job} {e : Event Job} (he : e.quiet) (hstep : s.step e = some s') : s'.left < s.left := by
  cases step_iff.1 hstep with
  | submit job hd => exact he.elim
  | spurious hw => exact he.elim
  | notify_nobody hn hw =>
    simp only [left, load]
    omega
  | notify hw hn =>
    -- the turn that the worker gets costs less than the notification
    have := sum_map_set hw .ready (cost 0)
    simp only [left, load, cost, setWorker_pool, setWorker_destructor, List.length_set] at this ⊢
    omega
  | take hw hjobs =>
    have := load_take 0 hw hjobs
    simp only [left, load, List.length_set] at this ⊢
    omega
  | wait hw hjobs hstop => exact left_setWorker hw Nat.zero_lt_one
  | exit hw hjobs hstop => exact left_setWorker hw Nat.zero_lt_one
  | finish hw => exact left_setWorker hw Nat.one_lt_two
  | set_stop hd hn =>
    simp only [left, load, hd, stage]
    omega
  | notify_all hd =>
    have := sum_notified 0 s.pool.workers
    simp only [left, load, hd, stage, List.length_map] at this ⊢
    omega
  | @join i hd hw =>
    have := (List.getElem?_eq_some_iff.1 hw).1
    simp only [left, load, hd, stage]
    omega

theorem submitted_quiet {s s' : System Job} {e : Event Job} (he : e.quiet) (hstep : s.step e = some s') :
    s'.submitted = s.submitted := by
  cases step_iff.1 hstep with
  | submit job hd => exact he.elim
  | _ => rfl

/-- What is left once the destructor has been called: a wait is no way back any
more, so a spurious wakeup is progress too. -/
def leftStopping (s : System Job) : Nat := s.load 2 + stage s.pool.workers.length s.destructor

theorem leftStopping_setWorker {s : System Job} {i : Nat} {w : Worker Job} (hw : s.pool.workers[i]? = some w)
    {w' : Worker Job}
    (hless : cost 2 w' < cost 2 w) : (s.setWorker i w').leftStopping < s.leftStopping := by
  have := load_setWorker 2 hw hless
  simp only [leftStopping, setWorker_pool, setWorker_destructor, List.length_set] at this ⊢
  omega

theorem left_stopping {s s' : System Job} {e : Event Job} (h : s.Stopping) (hd : s.destructor ≠ .notCalled)
    (hstep : s.step e = some s') : s'.destructor ≠ .notCalled ∧ s'.leftStopping < s.leftStopping := by
  cases step_iff.1 hstep with
  | submit job hcalled => exact absurd hcalled hd
  | set_stop hcalled hn => exact absurd hcalled hd
  | notify_nobody hn hw => exact absurd hn (by rw [h.quiet hd]; decide)
  | notify hw hn => exact absurd hn (by rw [h.quiet hd]; decide)
  | take hw hjobs =>
    refine ⟨hd, ?_⟩
    have := load_take 2 hw hjobs
    simp only [leftStopping, load, List.length_set] at this ⊢
    omega
  | wait hw hjobs hstop =>
    rw [h.stop_iff.2 hd] at hstop
    cases hstop
  | exit hw hjobs hstop => exact ⟨hd, leftStopping_setWorker hw Nat.zero_lt_one⟩
  | finish hw => exact ⟨hd, leftStopping_setWorker hw Nat.one_lt_two⟩
  | spurious hw => exact ⟨hd, leftStopping_setWorker hw Nat.one_lt_two⟩
  | notify_all hstopped =>
    refine ⟨nofun, ?_⟩
    have := sum_notified 2 s.pool.workers
    simp only [leftStopping, load, hstopped, stage, List.length_map] at this ⊢
    omega
  | @join i hjoining hw =>
    refine ⟨nofun, ?_⟩
    have := (List.getElem?_eq_some_iff.1 hw).1
    simp only [leftStopping, load, hjoining, stage]
    omega

/-! ## Somebody can go on -/

structure Sound (s : System Job) : Prop where
  ledger : s.Ledger
  stopping : s.Stopping
  heard : s.Heard

theorem sound_step {s s' : System Job} {e : Event Job} (h : s.Sound) (hstep : s.step e = some s') : s'.Sound :=
  ⟨ledger_step h.ledger hstep, stopping_step h.stopping hstep, heard_step h.heard hstep⟩

theorem sound_run {workers : Nat} (r : Execution Job workers) (t : Nat) : (r.state t).Sound :=
  r.inv Sound ⟨ledger_create workers, stopping_create workers, heard_create workers⟩
    (fun _ _ _ h hstep => sound_step h hstep) t

/-- A worker that neither waits nor has left can take its next step. -/
theorem worker_moves {s : System Job} {i : Nat} {w : Worker Job} (hw : s.pool.workers[i]? = some w) (hwait : w ≠ .waiting)
    (hret : w ≠ .returned) : ∃ e s', Event.working e ∧ s.step e = some s' := by
  cases w with
  | waiting => exact absurd rfl hwait
  | returned => exact absurd rfl hret
  | running job => exact ⟨.finish i, _, trivial, step_iff.2 (.finish hw)⟩
  | ready =>
    rcases hjobs : s.pool.jobs with - | ⟨job, jobs⟩
    · rcases hstop : s.pool.stop
      · exact ⟨.turn i, _, trivial, step_iff.2 (.wait hw hjobs hstop)⟩
      · exact ⟨.turn i, _, trivial, step_iff.2 (.exit hw hjobs hstop)⟩
    · exact ⟨.turn i, _, trivial, step_iff.2 (.take hw hjobs)⟩

/-- Nobody runs a job where all workers wait or have left. -/
theorem running_nil {s : System Job} (h : ∀ w ∈ s.pool.workers, w = .waiting ∨ w = .returned) : s.pool.running = [] := by
  refine List.filterMap_eq_nil_iff.2 fun w hw => ?_
  rcases h w hw with rfl | rfl <;> rfl

theorem Ledger.finished_all {s : System Job} (h : s.Ledger) (hjobs : s.pool.jobs = []) (hrun : s.pool.running = []) :
    s.finished.Perm s.submitted := by
  have hran := h.ran
  have hqueue := h.queue
  rw [hrun, List.append_nil] at hran
  rw [hjobs, List.append_nil] at hqueue
  exact hqueue ▸ hran.symm

/-- Work that is left is in somebody's hands. -/
theorem job_moves {s : System Job} (h : s.Sound) (hleft : ¬ s.finished.Perm s.submitted) :
    ∃ e s', Event.working e ∧ s.step e = some s' := by
  by_cases hall : ∀ w ∈ s.pool.workers, w = .waiting ∨ w = .returned
  · have hjobs : s.pool.jobs ≠ [] := fun hjobs => hleft (h.ledger.finished_all hjobs (running_nil hall))
    have hnoret : .returned ∉ s.pool.workers := fun hret => hjobs (h.stopping.exits hret).2
    obtain ⟨w, hw⟩ : ∃ w, s.pool.workers[0]? = some w := ⟨_, List.getElem?_eq_getElem h.stopping.some_worker⟩
    have hw0 : w = .waiting := by
      rcases hall w (List.mem_of_getElem? hw) with rfl | rfl
      · rfl
      · exact absurd (List.mem_of_getElem? hw) hnoret
    subst hw0
    have hready : s.pool.workers.countP Worker.isReady = 0 := by
      refine List.countP_eq_zero.2 fun v hv => ?_
      rcases hall v hv with rfl | rfl <;> nofun
    have hbound := h.heard (List.mem_of_getElem? hw)
    have hpos := List.length_pos_iff.2 hjobs
    exact ⟨.notify_one (some 0), _, trivial, step_iff.2 (.notify hw (by omega))⟩
  · obtain ⟨w, hall⟩ := not_forall.1 hall
    obtain ⟨hw, hne⟩ := Classical.not_imp.1 hall
    obtain ⟨i, hi⟩ := List.mem_iff_getElem?.1 hw
    exact worker_moves hi (fun h => hne (.inl h)) (fun h => hne (.inr h))

/-- The destructor is not stuck. -/
theorem destructor_moves {s : System Job} (h : s.Stopping) (hd : s.destructor ≠ .notCalled) (hleft : ¬ s.destroyed) :
    ∃ s' e, s.step e = some s' := by
  cases hstage : s.destructor with
  | notCalled => exact absurd hstage hd
  | stopped => exact ⟨_, .notify_all, step_iff.2 (.notify_all hstage)⟩
  | joining i =>
    have hle := (h.joined i hstage).1
    have hne : i ≠ s.pool.workers.length := fun hi => hleft (by rw [destroyed, hstage, hi])
    obtain ⟨w, hw⟩ : ∃ w, s.pool.workers[i]? = some w := ⟨_, List.getElem?_eq_getElem (Nat.lt_of_le_of_ne hle hne)⟩
    by_cases hret : w = .returned
    · exact ⟨_, .join, step_iff.2 (.join hstage (hret ▸ hw))⟩
    · have hwait : w ≠ .waiting := fun hwait => h.awake i hstage (hwait ▸ List.mem_of_getElem? hw)
      obtain ⟨e, s', -, hstep⟩ := worker_moves hw hwait hret
      exact ⟨s', e, hstep⟩

/-- The destructor returns with the queue empty and all workers gone. -/
theorem destroyed_finished {s : System Job} (h : s.Sound) (hd : s.destroyed) : s.finished.Perm s.submitted := by
  have hret := (h.stopping.joined _ hd).2
  have hall : ∀ w ∈ s.pool.workers, w = .returned := by
    intro w hw
    obtain ⟨i, hi⟩ := List.mem_iff_getElem?.1 hw
    exact Option.some.inj (hi.symm.trans (hret i (List.getElem?_eq_some_iff.1 hi).1))
  have hsome := List.mem_of_getElem? (hret 0 h.stopping.some_worker)
  exact h.ledger.finished_all (h.stopping.exits hsome).2 (running_nil fun w hw => .inr (hall w hw))

end System

/-- Jobs are started in the order they were submitted, each on one worker and
once; what has been started has ended or runs; and when the destructor has
returned all have ended. So it is whatever the threads do and whoever wakes. -/
theorem each_job_once (workers : Nat) (r : System.Execution Job workers) (t : Nat) :
    (r.state t).started ++ (r.state t).pool.jobs = (r.state t).submitted ∧
      (r.state t).started.Perm ((r.state t).finished ++ (r.state t).pool.running) ∧
      ((r.state t).destroyed → (r.state t).finished.Perm (r.state t).submitted) :=
  ⟨(System.sound_run r t).ledger.queue, (System.sound_run r t).ledger.ran, System.destroyed_finished (System.sound_run r t)⟩

/-- No wakeup is lost: if from some moment on nothing is submitted and nobody
wakes spuriously, every job ends that was submitted before, with or without the
destructor. -/
theorem all_jobs_end (workers : Nat) (r : System.Execution Job workers) (t : Nat) :
    Inevitably (fun s s' => ∃ e : Event Job, e.quiet ∧ s.step e = some s') (fun s => s.finished.Perm s.submitted)
      (r.state t) := by
  refine .of_measure System.Sound System.left ?_ ?_ (System.sound_run r t)
  · rintro s s' h - ⟨e, he, hstep⟩
    exact .inr ⟨System.sound_step h hstep, System.left_quiet he hstep⟩
  · intro s h hleft
    obtain ⟨e, s', he, hstep⟩ := System.job_moves h hleft
    exact ⟨s', e, he.quiet, hstep⟩

/-- A destructor that has been called returns, also with spurious wakeups, and
then every job has ended. -/
theorem destructor_returns (workers : Nat) (r : System.Execution Job workers) (t : Nat)
    (hcalled : (r.state t).destructor ≠ .notCalled) :
    Inevitably (fun s s' => ∃ e : Event Job, s.step e = some s') (fun s => s.destroyed ∧ s.finished.Perm s.submitted)
      (r.state t) := by
  refine .of_measure (fun s => s.Sound ∧ s.destructor ≠ .notCalled) System.leftStopping ?_ ?_ ⟨System.sound_run r t, hcalled⟩
  · rintro s s' ⟨h, hd⟩ - ⟨e, hstep⟩
    obtain ⟨hd', hless⟩ := System.left_stopping h.stopping hd hstep
    exact .inr ⟨⟨System.sound_step h hstep, hd'⟩, hless⟩
  · rintro s ⟨h, hd⟩ hleft
    exact System.destructor_moves h.stopping hd fun hdone => hleft ⟨hdone, System.destroyed_finished h hdone⟩

/-- Two workers, destroyed before the only job has been started. -/
theorem destructor_returns_for_two :
    Inevitably (fun s s' => ∃ e : Event Nat, s.step e = some s') (fun s => s.destroyed ∧ s.finished.Perm s.submitted)
      ((Run.ofPartial System.step (System.create 2) [.turn 1, .submit 7, .notify_one (some 1), .set_stop]).state 4) :=
  destructor_returns 2 _ 4 (by decide)

end ThreadPool

end Dstore
