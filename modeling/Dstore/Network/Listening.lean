import Dstore.Common.ThreadPool
import Dstore.Network.Connections
/-!
# The loop that accepts connections

`HttpServer::run`: one thread accepts connections and submits a job for each,
and the workers of the pool run the jobs. It never returns, so the pool is not
destroyed while it does.

The handlers of several jobs run at the same time on shared state. What they
answer is not said here: `serve` may be another function for every job.
-/
open Dstore.Lib

namespace Dstore.HttpServer

/-- What a client sends before it closes its side, as it is received. -/
abbrev Connection := List Bytes

structure Listener where
  system : ThreadPool.System Connection
  /-- The connections whose jobs have ended, with what was done to their sockets. -/
  handled : List (Connection × List SocketAction) := []

namespace Listener

inductive Event where
  /-- `accept` returns, and `submit` releases the lock. -/
  | accept (client : Connection)
  /-- The rest of that `submit`. -/
  | notify_one (woken : Option Nat)
  /-- Worker `i` has the lock for a turn of its loop. -/
  | turn (i : Nat)
  /-- The job of worker `i` ends, with what the handlers answer to it. -/
  | answer (i : Nat) (serve : HttpRequest → HttpResponse)
  | spurious (i : Nat)

namespace Event

/-- What the pool sees. -/
def ofPool : Event → ThreadPool.Event Connection
  | .accept client => .submit client
  | .notify_one woken => .notify_one woken
  | .turn i => .turn i
  | .answer i _ => .finish i
  | .spurious i => .spurious i

/-- Neither a new connection nor a spurious wakeup. -/
def quiet (e : Event) : Prop := e.ofPool.quiet

end Event

variable (limit : Nat)

/-- What a job does to the socket when it ends. -/
def answered (workers : List (Worker Connection)) : Event → List (Connection × List SocketAction)
  | .answer i serve => (workers[i]?.bind Worker.job?).toList.map fun client => (client, job limit serve client)
  | _ => []

def step (s : Listener) (e : Event) : Option Listener :=
  (s.system.step e.ofPool).map fun system =>
    { system, handled := s.handled ++ answered limit s.system.pool.workers e }

/-- The constructor makes the pool. -/
def create (workers : Nat) : Listener := { system := .create workers }

abbrev Execution (workers : Nat) := Run (fun (s : Listener) e s' => s.step limit e = some s') (create workers)

/-- What becomes of a connection: it is sent one response to what was read from
it, a 400 if that was no request, and closed, unless the reading throws. Then
nothing is sent and it stays open. -/
def Settled (x : Connection × List SocketAction) : Prop :=
  (LengthReadable x.1 → ∃ parsed serve, parse_request x.1 = some parsed ∧
      x.2 = [.send ((serialize (answer serve parsed)).take (sendSize limit (serialize (answer serve parsed)).length)), .close]) ∧
    (¬ LengthReadable x.1 → x.2 = [])

variable {limit}

/-- The pool takes the step that it sees. -/
theorem step_system {s s' : Listener} {e : Event} (h : s.step limit e = some s') :
    s.system.step e.ofPool = some s'.system := by
  obtain ⟨system, hsystem, rfl⟩ := Option.map_eq_some_iff.1 h
  exact hsystem

theorem settled_job (serve : HttpRequest → HttpResponse) (client : Connection) :
    Settled limit (client, job limit serve client) := by
  rw [Settled, ← parse_request_isSome_iff, job]
  cases parse_request client with
  | none => exact ⟨fun h => absurd h Bool.false_ne_true, fun _ => rfl⟩
  | some parsed => exact ⟨fun _ => ⟨parsed, serve, rfl, rfl⟩, fun h => absurd rfl h⟩

variable (limit) in
/-- The records of the listener and of its pool agree. -/
structure Sound (workers : Nat) (s : Listener) : Prop where
  system : s.system.Sound
  running : s.system.destructor = .notCalled
  workers_length : s.system.pool.workers.length = max 1 workers
  handled : s.handled.map Prod.fst = s.system.finished
  settled : ∀ x ∈ s.handled, Settled limit x

theorem sound_create (workers : Nat) : Sound limit workers (create workers) where
  system := ⟨ThreadPool.System.ledger_create workers, ThreadPool.System.stopping_create workers,
    ThreadPool.System.heard_create workers⟩
  running := rfl
  workers_length := by
    rw [create, ThreadPool.System.create, ThreadPool.create, List.length_replicate]
    split <;> omega
  handled := rfl
  settled := nofun

/-- What the pool finishes is what the listener handles. -/
theorem finished_step {s : Listener} {e : Event} {system : ThreadPool.System Connection}
    (h : s.system.step e.ofPool = some system) :
    system.finished = s.system.finished ++ (answered limit s.system.pool.workers e).map Prod.fst ∧
      system.destructor = s.system.destructor := by
  cases e with
  | accept client =>
    cases ThreadPool.System.step_iff.1 h with
    | submit _ _ => exact ⟨(List.append_nil _).symm, rfl⟩
  | notify_one woken =>
    cases ThreadPool.System.step_iff.1 h with
    | notify_nobody _ _ => exact ⟨(List.append_nil _).symm, rfl⟩
    | notify _ _ => exact ⟨(List.append_nil _).symm, rfl⟩
  | turn i =>
    cases ThreadPool.System.step_iff.1 h with
    | take _ _ => exact ⟨(List.append_nil _).symm, rfl⟩
    | wait _ _ _ => exact ⟨(List.append_nil _).symm, rfl⟩
    | exit _ _ _ => exact ⟨(List.append_nil _).symm, rfl⟩
  | answer i serve =>
    cases ThreadPool.System.step_iff.1 h with
    | finish hw =>
      refine ⟨?_, rfl⟩
      rw [answered, hw]
      rfl
  | spurious i =>
    cases ThreadPool.System.step_iff.1 h with
    | spurious _ => exact ⟨(List.append_nil _).symm, rfl⟩

theorem settled_answered (workers : List (Worker Connection)) (e : Event) :
    ∀ x ∈ answered limit workers e, Settled limit x := by
  intro x hx
  cases e with
  | answer i serve =>
    obtain ⟨client, -, rfl⟩ := List.mem_map.1 hx
    exact settled_job serve client
  | _ => exact absurd hx List.not_mem_nil

theorem Sound.step {workers : Nat} {s s' : Listener} {e : Event} (h : Sound limit workers s)
    (hstep : s.step limit e = some s') :
    Sound limit workers s' := by
  obtain ⟨system, hsystem, rfl⟩ := Option.map_eq_some_iff.1 hstep
  obtain ⟨hfinished, hdestructor⟩ := @finished_step limit _ _ _ hsystem
  refine ⟨ThreadPool.System.sound_step h.system hsystem, hdestructor.trans h.running,
    (ThreadPool.System.step_workers hsystem).trans h.workers_length, ?_, ?_⟩
  · rw [List.map_append, h.handled, hfinished]
  · intro x hx
    rcases List.mem_append.1 hx with hx | hx
    · exact h.settled x hx
    · exact settled_answered _ e x hx

theorem sound_run {workers : Nat} (r : Execution limit workers) (t : Nat) : Sound limit workers (r.state t) :=
  r.inv (Sound limit workers) (sound_create workers) (fun _ _ _ h hstep => h.step hstep) t

/-- What a caller or a worker does is an event of the listener. -/
theorem exists_ofPool {e : ThreadPool.Event Connection} (h : e.working) : ∃ e' : Event, e'.ofPool = e := by
  cases e with
  | notify_one woken => exact ⟨.notify_one woken, rfl⟩
  | turn i => exact ⟨.turn i, rfl⟩
  | finish i => exact ⟨.answer i fun _ => ⟨200, [], []⟩, rfl⟩
  | _ => exact h.elim

end Listener

end Dstore.HttpServer
