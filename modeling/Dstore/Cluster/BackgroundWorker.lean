import Dstore.Lib.Inevitable
import Dstore.Lib.Runs
/-!
# Starting and stopping a periodic worker

`PeriodicWorker` of `background_worker.cpp`, which sends the heartbeats. One
thread owns the worker: it calls `start` and `stop` in any order and any number
of times, and destroys it. The other thread is the loop that `start` spawns.
They share `running_`, and their steps come in any order.

Assigning to a joinable `std::thread`, or destroying one, ends the process; the
state says whether that has happened.
-/
open Dstore.Lib

namespace Dstore

namespace PeriodicWorker

/-- Where the spawned thread is in its loop. -/
inductive Loop where
  /-- About to load `running_`. -/
  | testing
  /-- In `task_`. -/
  | inTask
  | sleeping
  /-- Out of the loop; it can be joined. -/
  | ended
  deriving DecidableEq

/-- What the owner is doing. -/
inductive Owner where
  | idle
  /-- In `start`, `running_` has been set. -/
  | starting
  /-- In `stop`, `running_` has been cleared. -/
  | stopping
  /-- The same in the destructor. -/
  | destroying
  | gone
  deriving DecidableEq

end PeriodicWorker

open PeriodicWorker

structure PeriodicWorker where
  running : Bool := false
  /-- `thread_`, if it is joinable. -/
  thread : Option Loop := none
  owner : Owner := .idle
  /-- `std::terminate` has been called. -/
  terminated : Bool := false
  deriving DecidableEq

namespace PeriodicWorker

inductive Event where
  /-- `start` up to the compare-and-exchange. -/
  | start
  /-- The assignment to `thread_`. -/
  | spawn
  /-- `stop` up to the store. -/
  | stop
  /-- The destructor up to the store. -/
  | destroy
  /-- The rest of `stop`, and of the destructor. -/
  | join
  /-- The loop loads `running_`. -/
  | test
  /-- `task_` returns. -/
  | task_returns
  /-- `sleep_for` returns. -/
  | wake
  deriving DecidableEq

/-- `stop` after the store, for an owner that goes on as `next`. -/
def joined (s : PeriodicWorker) (next : Owner) : Option PeriodicWorker :=
  match s.thread with
  | none => some { s with owner := next }
  | some .ended => some { s with owner := next, thread := none }
  | some _ => none

def step (s : PeriodicWorker) : Event → Option PeriodicWorker
  | .start =>
    if s.owner = .idle then
      if s.running then some s else some { s with running := true, owner := .starting }
    else none
  | .spawn =>
    if s.owner = .starting then
      some { s with thread := some .testing, owner := .idle, terminated := s.terminated || s.thread.isSome }
    else none
  | .stop => if s.owner = .idle then some { s with running := false, owner := .stopping } else none
  | .destroy => if s.owner = .idle then some { s with running := false, owner := .destroying } else none
  | .join =>
    match s.owner with
    | .stopping => s.joined .idle
    | .destroying => (s.joined .gone).map fun s => { s with terminated := s.terminated || s.thread.isSome }
    | _ => none
  | .test =>
    if s.thread = some .testing then some { s with thread := some (if s.running then .inTask else .ended) } else none
  | .task_returns => if s.thread = some .inTask then some { s with thread := some .sleeping } else none
  | .wake => if s.thread = some .sleeping then some { s with thread := some .testing } else none

abbrev Execution := Run (fun (s : PeriodicWorker) e s' => s.step e = some s') {}

/-- Where the owner is says what there is of a thread: one while the worker
runs, and none, or one that is to end, otherwise. -/
structure Owned (s : PeriodicWorker) : Prop where
  alive : s.terminated = false
  idle : s.owner = .idle → s.thread.isSome = s.running ∧ s.thread ≠ some .ended
  starting : s.owner = .starting → s.running = true ∧ s.thread = none
  stopping : s.owner = .stopping ∨ s.owner = .destroying → s.running = false
  gone : s.owner = .gone → s.running = false ∧ s.thread = none

/-- A join returns only with no thread left. -/
theorem joined_eq {s s' : PeriodicWorker} {next : Owner} (h : s.joined next = some s') :
    s' = { s with owner := next, thread := none } := by
  unfold joined at h
  split at h
  · rename_i hthread
    cases h
    rw [hthread]
  · cases h
    rfl
  · cases h

theorem owned_step {s s' : PeriodicWorker} {e : Event} (h : s.Owned) (hstep : s.step e = some s') : s'.Owned := by
  obtain ⟨halive, hidle, hstarting, hstopping, hgone⟩ := h
  cases e with
  | start =>
    simp only [step] at hstep
    split at hstep
    · rename_i howner
      split at hstep <;> cases hstep
      · exact ⟨halive, hidle, hstarting, hstopping, hgone⟩
      · rename_i hrunning
        have hnone : s.thread = none := by simpa [hrunning] using (hidle howner).1
        exact ⟨halive, nofun, fun _ => ⟨rfl, hnone⟩, nofun, nofun⟩
    · cases hstep
  | spawn =>
    simp only [step] at hstep
    split at hstep <;> cases hstep
    obtain ⟨hrunning, hnone⟩ := hstarting ‹_›
    exact ⟨by simp [halive, hnone], fun _ => ⟨hrunning.symm, nofun⟩, nofun, nofun, nofun⟩
  | stop =>
    simp only [step] at hstep
    split at hstep <;> cases hstep
    exact ⟨halive, nofun, nofun, fun _ => rfl, nofun⟩
  | destroy =>
    simp only [step] at hstep
    split at hstep <;> cases hstep
    exact ⟨halive, nofun, nofun, fun _ => rfl, nofun⟩
  | join =>
    simp only [step] at hstep
    split at hstep
    · obtain rfl := joined_eq hstep
      exact ⟨halive, fun _ => ⟨(hstopping (.inl ‹_›)).symm, nofun⟩, nofun, nofun, nofun⟩
    · obtain ⟨x, hx, rfl⟩ := Option.map_eq_some_iff.1 hstep
      obtain rfl := joined_eq hx
      exact ⟨by simp [halive], nofun, nofun, nofun, fun _ => ⟨hstopping (.inr ‹_›), rfl⟩⟩
    · cases hstep
  | test =>
    simp only [step] at hstep
    split at hstep <;> cases hstep
    rename_i hthread
    refine ⟨halive, fun ho => ?_, fun ho => ?_, hstopping, fun ho => ?_⟩
    · have hrunning := (hidle ho).1
      rw [hthread, Option.isSome_some] at hrunning
      simp [← hrunning]
    · simp [(hstarting ho).2] at hthread
    · simp [(hgone ho).2] at hthread
  | task_returns | wake =>
    simp only [step] at hstep
    split at hstep <;> cases hstep
    rename_i hthread
    refine ⟨halive, fun ho => ?_, fun ho => ?_, hstopping, fun ho => ?_⟩
    · simpa [hthread] using hidle ho
    · simp [(hstarting ho).2] at hthread
    · simp [(hgone ho).2] at hthread

theorem owned_run (r : Execution) (t : Nat) : (r.state t).Owned :=
  r.inv Owned ⟨rfl, fun _ => ⟨rfl, nofun⟩, nofun, fun _ => rfl, nofun⟩
    (fun _ _ _ h hstep => owned_step h hstep) t

/-! ## A stop returns -/

/-- The owner is in `stop` and goes on as `idle`, or in the destructor. -/
def Leaving (s : PeriodicWorker) (next : Owner) : Prop :=
  (s.owner = .stopping ∧ next = .idle) ∨ (s.owner = .destroying ∧ next = .gone)

def Loop.left : Loop → Nat
  | .testing => 1
  | .inTask => 3
  | .sleeping => 2
  | .ended => 0

/-- The steps until the join returns, and that return. -/
def left (s : PeriodicWorker) : Nat :=
  (s.thread.elim 0 Loop.left) + if s.owner = .stopping ∨ s.owner = .destroying then 1 else 0

/-- With `running_` cleared the loop only goes on to its test and out. -/
theorem leaving_step {s s' : PeriodicWorker} {next : Owner} {e : Event} (h : s.Owned) (hl : s.Leaving next)
    (hstep : s.step e = some s') : (s'.Leaving next ∧ s'.left < s.left) ∨ (s'.owner = next ∧ s'.thread = none) := by
  have howner : s.owner = .stopping ∨ s.owner = .destroying := hl.imp And.left And.left
  have hrunning := h.stopping howner
  cases e with
  | start | spawn | stop | destroy => rcases hl with ⟨hl, -⟩ | ⟨hl, -⟩ <;> simp [step, hl] at hstep
  | join =>
    rcases hl with ⟨hl, rfl⟩ | ⟨hl, rfl⟩
    · simp only [step, hl] at hstep
      obtain rfl := joined_eq hstep
      exact .inr ⟨rfl, rfl⟩
    · simp only [step, hl] at hstep
      obtain ⟨x, hx, rfl⟩ := Option.map_eq_some_iff.1 hstep
      obtain rfl := joined_eq hx
      exact .inr ⟨rfl, rfl⟩
  | test | task_returns | wake =>
    simp only [step] at hstep
    split at hstep <;> cases hstep
    exact .inl ⟨hl, by simp [left, *, Loop.left]⟩

/-- Either the join returns now or the loop has a step to take. -/
theorem leaving_moves {s : PeriodicWorker} {next : Owner} (hl : s.Leaving next) : ∃ s' e, s.step e = some s' := by
  cases hthread : s.thread with
  | none => rcases hl with ⟨hl, -⟩ | ⟨hl, -⟩ <;> exact ⟨_, .join, by simp only [step, hl, joined, hthread]; rfl⟩
  | some loop =>
    cases loop with
    | testing => exact ⟨_, .test, if_pos hthread⟩
    | inTask => exact ⟨_, .task_returns, if_pos hthread⟩
    | sleeping => exact ⟨_, .wake, if_pos hthread⟩
    | ended => rcases hl with ⟨hl, -⟩ | ⟨hl, -⟩ <;> exact ⟨_, .join, by simp only [step, hl, joined, hthread]; rfl⟩

/-- However the owner's calls and the loop's steps fall, the process is not
ended by a thread that nobody joined; a worker that has been stopped has no
thread, so its task does not run before the next `start`; and every `stop`, and
the destructor, returns. -/
theorem stop_ends_the_loop (r : Execution) (t : Nat) :
    (r.state t).terminated = false ∧
      ((r.state t).owner = .idle ∨ (r.state t).owner = .gone → (r.state t).running = false → (r.state t).thread = none) ∧
      ∀ next, (r.state t).Leaving next →
        Inevitably (fun s s' => ∃ e : Event, s.step e = some s') (fun s => s.owner = next ∧ s.thread = none)
          (r.state t) := by
  have howned := owned_run r t
  refine ⟨howned.alive, ?_, fun next hl => ?_⟩
  · rintro (ho | ho) hrunning
    · simpa [hrunning] using (howned.idle ho).1
    · exact (howned.gone ho).2
  · refine .of_measure (fun s => s.Owned ∧ s.Leaving next) left ?_ (fun _ h _ => leaving_moves h.2) ⟨howned, hl⟩
    rintro s s' ⟨h, hl⟩ - ⟨e, hstep⟩
    rcases leaving_step h hl hstep with ⟨hl', hless⟩ | hdone
    · exact .inr ⟨⟨owned_step h hstep, hl'⟩, hless⟩
    · exact .inl hdone

end PeriodicWorker

end Dstore
