import Mathlib.Algebra.Order.BigOperators.Group.List
import Dstore.Common.Metrics
import Dstore.Lib.Runs
import Dstore.Server.Routes
/-!
# What the metrics show

The route `/metrics` loads the counters one after the other while handlers on
other threads add to them, each of its additions a step of its own, between the
response it has found and its return. So a scrape is no snapshot. But each
number in it is what the counter was at one moment of the scrape: nothing that
was recorded by a request answered before is missing, and nothing is in it that
no handler has recorded (`scrape_regular`).

The counters live as long as the process; a run is one process.
-/
open Dstore.Lib

namespace Dstore

namespace Server

/-- The test of the route `/metrics`. -/
def Scrapes (req : HttpRequest) : Prop := req.method = lit "GET" ∧ lit "/metrics" <+: req.path

instance (req : HttpRequest) : Decidable (Scrapes req) := inferInstanceAs (Decidable (_ ∧ _))

/-- No other route takes a request for the metrics, so it does not matter where
in the table that route stands. -/
theorem not_matches_of_scrapes {H : HexHash} {hash64 : Str → Nat} {srv : Server} {route : Route}
    (hr : route ∈ srv.routes H hash64) {req : HttpRequest} (h : Scrapes req) : ¬ route.Matches req := by
  have hapart : ¬ (route.method = lit "GET" ∧ (route.start <+: lit "/metrics" ∨ lit "/metrics" <+: route.start)) := by
    simp only [routes, List.mem_cons, List.not_mem_nil, or_false] at hr
    rcases hr with rfl | rfl | rfl | rfl | rfl | rfl | rfl | rfl | rfl | rfl | rfl | rfl <;> dsimp only <;> decide
  rintro ⟨hmethod, hstart⟩
  exact hapart ⟨hmethod.symm.trans h.1, List.prefix_or_prefix_of_prefix hstart h.2⟩

/-- What the handler of a request records for its response: an upload, a
download or a delete that has worked. -/
def recorded (req : HttpRequest) (response : HttpResponse) : List Metrics.Addition :=
  if lit "/v1/objects/" <+: req.path then
    if req.method = lit "PUT" ∧ response.status = 201 then Metrics.record_upload (.ofNat req.body.length)
    else if req.method = lit "GET" ∧ response.status = 200 then Metrics.record_download (.ofNat response.body.length)
    else if req.method = lit "DELETE" ∧ response.status = 204 then Metrics.record_delete
    else []
  else []

/-- No handler records an error. -/
theorem total_recorded_errors (req : HttpRequest) (response : HttpResponse) :
    Metrics.total (recorded req response) .errors = 0 := by
  unfold recorded
  split
  · split
    · rfl
    · split
      · rfl
      · split <;> rfl
  · rfl

end Server

namespace Monitor

/-- The job of a request, as far as the counters go. -/
inductive Task where
  | handling (req : HttpRequest)
  /-- The response is found; it is returned when nothing is left to add. -/
  | recording (req : HttpRequest) (response : HttpResponse) (made left : List Metrics.Addition)
  /-- The route `/metrics`, with the counters that are not loaded yet. -/
  | scraping (left : List Counter) (values : List (Counter × UInt64))

namespace Task

def start (req : HttpRequest) : Task := if Server.Scrapes req then .scraping Metrics.order [] else .handling req

/-- What the request is answered with, when it is. -/
def answer : Task → Option HttpResponse
  | .recording _ response _ [] => some response
  | .scraping [] values => some ⟨200, lit "text/plain", Metrics.text values⟩
  | _ => none

/-- What it has added to a counter. -/
def made (c : Counter) : Task → Nat
  | .recording _ _ made _ => Metrics.total made c
  | _ => 0

/-- What it adds to a counter, once the response is found. -/
def recorded (c : Counter) : Task → Nat
  | .recording req response _ _ => Metrics.total (Server.recorded req response) c
  | _ => 0

/-- The same, once the response is returned. -/
def returned (c : Counter) : Task → Nat
  | .recording req response _ [] => Metrics.total (Server.recorded req response) c
  | _ => 0

end Task

end Monitor

open Monitor

structure Monitor where
  metrics : Metrics := {}
  tasks : List Task := []

namespace Monitor

inductive Event where
  | request (req : HttpRequest)
  /-- The handler of task `i` has its response. -/
  | respond (i : Nat) (response : HttpResponse)
  /-- Task `i` adds to a counter, or loads one. -/
  | advance (i : Nat)

def step (s : Monitor) : Event → Option Monitor
  | .request req => some { s with tasks := s.tasks ++ [.start req] }
  | .respond i response =>
    match s.tasks[i]? with
    | some (.handling req) =>
      some { s with tasks := s.tasks.set i (.recording req response [] (Server.recorded req response)) }
    | _ => none
  | .advance i =>
    match s.tasks[i]? with
    | some (.recording req response made (x :: left)) =>
      some { metrics := s.metrics.fetch_add x.2 x.1, tasks := s.tasks.set i (.recording req response (made ++ [x]) left) }
    | some (.scraping (c :: left) values) =>
      some { s with tasks := s.tasks.set i (.scraping left (values ++ [(c, s.metrics.load c)])) }
    | _ => none

abbrev Execution := Run (fun (s : Monitor) e s' => s.step e = some s') {}

/-- A count over all tasks. -/
def sum (f : Task → Nat) (s : Monitor) : Nat := (s.tasks.map f).sum

/-- What the requests that have been answered came to. -/
def returned (s : Monitor) (c : Counter) : Nat := s.sum (Task.returned c)

/-- What the requests whose handlers have a response come to. -/
def recorded (s : Monitor) (c : Counter) : Nat := s.sum (Task.recorded c)

/-! ## Steps -/

/-- A step of one task, and what it does to the counters. -/
inductive Moves (m : Metrics) : Task → Task → Metrics → Prop
  | respond (req : HttpRequest) (response : HttpResponse) :
      Moves m (.handling req) (.recording req response [] (Server.recorded req response)) m
  | add (req : HttpRequest) (response : HttpResponse) (made : List Metrics.Addition) (x : Metrics.Addition)
      (left : List Metrics.Addition) :
      Moves m (.recording req response made (x :: left)) (.recording req response (made ++ [x]) left) (m.fetch_add x.2 x.1)
  | load (c : Counter) (left : List Counter) (values : List (Counter × UInt64)) :
      Moves m (.scraping (c :: left) values) (.scraping left (values ++ [(c, m.load c)])) m

theorem step_cases {s s' : Monitor} {e : Event} (h : s.step e = some s') :
    (∃ req, s' = { s with tasks := s.tasks ++ [.start req] }) ∨
      ∃ i task task' m, s.tasks[i]? = some task ∧ Moves s.metrics task task' m ∧ s' = ⟨m, s.tasks.set i task'⟩ := by
  cases e with
  | request req =>
    cases h
    exact .inl ⟨req, rfl⟩
  | respond i response =>
    rw [step] at h
    split at h
    · cases h
      exact .inr ⟨i, _, _, _, ‹_›, .respond _ response, rfl⟩
    · cases h
  | advance i =>
    rw [step] at h
    split at h
    · cases h
      exact .inr ⟨i, _, _, _, ‹_›, .add _ _ _ _ _, rfl⟩
    · cases h
      exact .inr ⟨i, _, _, _, ‹_›, .load _ _ _, rfl⟩
    · cases h

theorem sum_append (f : Task → Nat) (s : Monitor) (task : Task) :
    sum f { s with tasks := s.tasks ++ [task] } = s.sum f + f task := by
  rw [sum, List.map_append, List.sum_append]
  rfl

/-- A count that no task lowers. -/
theorem sum_step {f : Task → Nat} (hf : ∀ m task task' m', Moves m task task' m' → f task ≤ f task')
    {s s' : Monitor} {e : Event}
    (h : s.step e = some s') : s.sum f ≤ s'.sum f := by
  rcases step_cases h with ⟨req, rfl⟩ | ⟨i, task, task', m, hi, hmoves, rfl⟩
  · rw [sum_append]
    exact Nat.le_add_right _ _
  · have hset := sum_map_set hi task' f
    have hle := hf _ _ _ _ hmoves
    simp only [sum]
    omega

theorem made_le {m m' : Metrics} {task task' : Task} (h : Moves m task task' m') (c : Counter) :
    task.made c ≤ task'.made c := by
  cases h with
  | respond => exact Nat.zero_le _
  | add req response made x left =>
    rw [Task.made, Task.made, Metrics.total_append]
    exact Nat.le_add_right _ _
  | load => exact Nat.le_refl _

theorem length_step {s s' : Monitor} {e : Event} (h : s.step e = some s') : s.tasks.length ≤ s'.tasks.length := by
  rcases step_cases h with ⟨req, rfl⟩ | ⟨i, task, task', m, hi, hmoves, rfl⟩
  · simp
  · simp

/-! ## The counters -/

/-- A task adds what it records, in that order. -/
def Task.Consistent : Task → Prop
  | .recording req response made left => made ++ left = Server.recorded req response
  | _ => True

structure Sound (s : Monitor) : Prop where
  consistent : ∀ task ∈ s.tasks, task.Consistent
  loads : ∀ c, s.metrics.load c = .ofNat (s.sum (Task.made c))

theorem consistent_start (req : HttpRequest) : (Task.start req).Consistent := by
  unfold Task.start
  split <;> trivial

theorem made_start (req : HttpRequest) (c : Counter) : (Task.start req).made c = 0 := by
  unfold Task.start
  split <;> rfl

theorem Moves.consistent {m m' : Metrics} {task task' : Task} (h : Moves m task task' m') (ht : task.Consistent) :
    task'.Consistent := by
  cases h with
  | respond => exact List.nil_append _
  | add => exact (List.append_assoc _ _ _).trans ht
  | load => trivial

theorem Moves.loads {m m' : Metrics} {task task' : Task} (h : Moves m task task' m') {c : Counter} {n : Nat}
    (hn : m.load c = .ofNat (n + task.made c)) : m'.load c = .ofNat (n + task'.made c) := by
  cases h with
  | respond => exact hn
  | add req response made x left =>
    rw [Metrics.load_fetch_add_of hn, Task.made, Task.made, Metrics.total_append, Nat.add_assoc]
  | load => exact hn

theorem sound_step {s s' : Monitor} {e : Event} (h : s.Sound) (hstep : s.step e = some s') : s'.Sound := by
  rcases step_cases hstep with ⟨req, rfl⟩ | ⟨i, task, task', m, hi, hmoves, rfl⟩
  · refine ⟨fun task ht => ?_, fun c => ?_⟩
    · rcases List.mem_append.1 ht with ht | ht
      · exact h.consistent task ht
      · rw [List.mem_singleton.1 ht]
        exact consistent_start req
    · rw [sum_append, made_start]
      exact h.loads c
  · have htask := List.mem_of_getElem? hi
    refine ⟨fun x hx => ?_, fun c => ?_⟩
    · rcases List.mem_or_eq_of_mem_set hx with hx | rfl
      · exact h.consistent x hx
      · exact hmoves.consistent (h.consistent task htask)
    · -- what the other tasks have added stays
      have hothers : _ = _ + 0 := sum_map_set hi (.scraping [] []) (Task.made c)
      have hset := sum_map_set hi task' (Task.made c)
      have hloads := h.loads c
      rw [sum, show (s.tasks.map (Task.made c)).sum = _ + task.made c from hothers.symm] at hloads
      rw [show m.load c = _ from hmoves.loads hloads]
      congr 1
      simp only [sum]
      omega

/-! ## A scrape -/

/-- The values that a scrape has loaded lie between what had been added when
`low` was, and what has been added now. -/
def Task.Between (low : Counter → Nat) (s : Monitor) : Task → Prop
  | .scraping left values => values.map Prod.fst ++ left = Metrics.order ∧
      ∀ x ∈ values, ∃ n, x.2 = .ofNat n ∧ low x.1 ≤ n ∧ n ≤ s.sum (Task.made x.1)
  | _ => True

theorem between_start (low : Counter → Nat) (s : Monitor) (req : HttpRequest) : (Task.start req).Between low s := by
  unfold Task.start
  split
  · exact ⟨rfl, nofun⟩
  · trivial

theorem Task.Between.mono {low : Counter → Nat} {s s' : Monitor} {task : Task} (h : task.Between low s)
    (hle : ∀ c, s.sum (Task.made c) ≤ s'.sum (Task.made c)) : task.Between low s' := by
  cases task with
  | scraping left values =>
    refine ⟨h.1, fun x hx => ?_⟩
    obtain ⟨n, hx, hlow, hn⟩ := h.2 x hx
    exact ⟨n, hx, hlow, Nat.le_trans hn (hle x.1)⟩
  | _ => trivial

theorem Moves.between {low : Counter → Nat} {s : Monitor} {task task' : Task} {m : Metrics} (hs : s.Sound)
    (hlow : ∀ c, low c ≤ s.sum (Task.made c)) (h : Moves s.metrics task task' m) (ht : task.Between low s) :
    task'.Between low s := by
  cases h with
  | respond => trivial
  | add => trivial
  | load c left values =>
    refine ⟨?_, fun x hx => ?_⟩
    · rw [List.map_append, List.append_assoc]
      exact ht.1
    · rcases List.mem_append.1 hx with hx | hx
      · exact ht.2 x hx
      · rw [List.mem_singleton.1 hx]
        exact ⟨_, hs.loads c, hlow c, Nat.le_refl _⟩

/-- What is known of a monitor from the moment on at which `low` had been added
and there were `tasks` tasks. -/
structure Since (low : Counter → Nat) (tasks : Nat) (s : Monitor) : Prop where
  sound : s.Sound
  low_le : ∀ c, low c ≤ s.sum (Task.made c)
  between : ∀ i task, tasks ≤ i → s.tasks[i]? = some task → task.Between low s

theorem since_step {low : Counter → Nat} {tasks : Nat} {s s' : Monitor} {e : Event} (h : Since low tasks s)
    (hstep : s.step e = some s') : Since low tasks s' := by
  have hgrows : ∀ c, s.sum (Task.made c) ≤ s'.sum (Task.made c) := fun c => sum_step (fun _ _ _ _ hm => made_le hm c) hstep
  refine ⟨sound_step h.sound hstep, fun c => Nat.le_trans (h.low_le c) (hgrows c), fun i x hi hx => ?_⟩
  rcases step_cases hstep with ⟨req, rfl⟩ | ⟨j, task, task', m, hj, hmoves, rfl⟩
  · by_cases hlt : i < s.tasks.length
    · rw [List.getElem?_append_left hlt] at hx
      exact (h.between i x hi hx).mono hgrows
    · rw [List.getElem?_append_right (Nat.le_of_not_lt hlt), List.getElem?_singleton] at hx
      split at hx <;> cases hx
      exact between_start low _ req
  · by_cases hij : j = i
    · subst hij
      rw [List.getElem?_set_self (List.getElem?_eq_some_iff.1 hj).1] at hx
      cases hx
      exact (hmoves.between h.sound h.low_le (h.between j task hi hj)).mono hgrows
    · rw [List.getElem?_set_ne hij] at hx
      exact (h.between i x hi hx).mono hgrows

/-- A scrape that nobody comes in between. -/
theorem loads_alone {s : Monitor} {i : Nat} {left : List Counter} {values : List (Counter × UInt64)}
    (h : s.tasks[i]? = some (.scraping left values)) :
    (List.replicate left.length (Event.advance i)).foldlM step s =
      some { s with tasks := s.tasks.set i (.scraping [] (values ++ left.map fun c => (c, s.metrics.load c))) } := by
  obtain ⟨hi, hget⟩ := List.getElem?_eq_some_iff.1 h
  induction left generalizing s values with
  | nil =>
    have hset : s.tasks.set i (.scraping [] values) = s.tasks := hget ▸ List.set_getElem_self hi
    rw [List.map_nil, List.append_nil, hset]
    rfl
  | cons c left ih =>
    have hstep : s.step (.advance i) =
        some { s with tasks := s.tasks.set i (.scraping left (values ++ [(c, s.metrics.load c)])) } := by simp [step, h]
    rw [List.length_cons, List.replicate_succ, List.foldlM_cons, hstep]
    refine (ih (List.getElem?_set_self hi) (by simpa using hi) (by simp)).trans ?_
    simp

/-- It shows what `prometheus` makes of the counters. -/
theorem prometheus_alone {s : Monitor} {i : Nat} (h : s.tasks[i]? = some (.scraping Metrics.order [])) :
    ∃ s', (List.replicate Metrics.order.length (Event.advance i)).foldlM step s = some s' ∧
      s'.tasks[i]?.bind Task.answer = some ⟨200, lit "text/plain", s.metrics.prometheus⟩ := by
  refine ⟨_, loads_alone h, ?_⟩
  rw [List.getElem?_set_self (List.getElem?_eq_some_iff.1 h).1]
  rfl

/-! ## What has been answered, and what will be -/

theorem returned_le_made {s : Monitor} (h : s.Sound) (c : Counter) : s.returned c ≤ s.sum (Task.made c) := by
  refine List.sum_le_sum fun task ht => ?_
  cases task with
  | recording req response made left =>
    cases left with
    | nil =>
      have hmade : made = Server.recorded req response := (List.append_nil made).symm.trans (h.consistent _ ht)
      rw [Task.returned, Task.made, hmade]
    | cons => exact Nat.zero_le _
  | _ => exact Nat.zero_le _

theorem made_le_recorded {s : Monitor} (h : s.Sound) (c : Counter) : s.sum (Task.made c) ≤ s.recorded c := by
  refine List.sum_le_sum fun task ht => ?_
  cases task with
  | recording req response made left =>
    rw [Task.made, Task.recorded, ← show made ++ left = _ from h.consistent _ ht, Metrics.total_append]
    exact Nat.le_add_right _ _
  | _ => exact Nat.zero_le _

theorem recorded_errors (s : Monitor) : s.recorded .errors = 0 := by
  refine List.sum_eq_zero fun n hn => ?_
  obtain ⟨task, -, rfl⟩ := List.mem_map.1 hn
  cases task with
  | recording req response made left => exact Server.total_recorded_errors req response
  | _ => rfl

theorem sound_run (r : Execution) (t : Nat) : (r.state t).Sound :=
  r.inv Sound ⟨nofun, fun c => by cases c <;> rfl⟩ (fun _ _ _ h hstep => sound_step h hstep) t

/-- A scrape that is not asked for yet at `before` and has been answered at
`after` shows the six counters in their order. The value of each is a number, up
to wrapping around, between what the requests came to that were answered before
and what those came to that had a response by the end; errors are never counted.
This is so for every interleaving of the additions and loads. -/
theorem scrape_regular (r : Execution) (before after i : Nat) (values : List (Counter × UInt64))
    (hbefore : (r.state before).tasks.length ≤ i) (hafter : (r.state after).tasks[i]? = some (.scraping [] values)) :
    values.map Prod.fst = Metrics.order ∧ ∀ x ∈ values,
      (∃ n, x.2 = .ofNat n ∧ (r.state before).returned x.1 ≤ n ∧ n ≤ (r.state after).recorded x.1) ∧
        (x.1 = .errors → x.2 = 0) := by
  have hle : before ≤ after := by
    by_contra hlt
    have hlength := r.mono (fun s s' => s.tasks.length ≤ s'.tasks.length) (fun _ => Nat.le_refl _)
      (fun _ _ _ => Nat.le_trans) (fun _ _ => length_step) after before (Nat.le_of_not_le hlt)
    have := (List.getElem?_eq_some_iff.1 hafter).1
    omega
  have hsince : Since (r.state before).returned i (r.state after) := by
    refine r.since (Since (r.state before).returned i) hle ?_ (fun _ _ _ _ h hstep => since_step h hstep)
    refine ⟨sound_run r before, fun c => returned_le_made (sound_run r before) c, fun j task hj hmem => ?_⟩
    have := (List.getElem?_eq_some_iff.1 hmem).1
    omega
  obtain ⟨horder, hvalues⟩ := hsince.between i _ (Nat.le_refl i) hafter
  refine ⟨(List.append_nil _).symm.trans horder, fun x hx => ?_⟩
  obtain ⟨n, hn, hlow, hmade⟩ := hvalues x hx
  have hrecorded := Nat.le_trans hmade (made_le_recorded hsince.sound x.1)
  refine ⟨⟨n, hn, hlow, hrecorded⟩, fun herrors => ?_⟩
  rw [herrors, recorded_errors, Nat.le_zero] at hrecorded
  rw [hn, hrecorded]
  rfl

/-- A scrape between the two additions of an upload of two bytes. -/
def scrapedUpload : Execution :=
  Run.ofPartial step {} [.request ⟨lit "PUT", lit "/v1/objects/b/x", ∅, lit "ab"⟩, .respond 0 ⟨201, [], []⟩, .advance 0,
    .request ⟨lit "GET", lit "/metrics", ∅, []⟩, .advance 1, .advance 0, .advance 1, .advance 1, .advance 1,
      .advance 1, .advance 1]

def uploadShown : List (Counter × UInt64) :=
  [(.uploads, 1), (.downloads, 0), (.deletes, 0), (.errors, 0), (.bytes_in, 2), (.bytes_out, 0)]

theorem uploadShown_regular : (scrapedUpload.state 3).tasks.length ≤ 1 ∧
    (scrapedUpload.state 11).tasks[1]? = some (.scraping [] uploadShown) ∧ ∀ x ∈ uploadShown,
      ∃ n, x.2 = .ofNat n ∧ (scrapedUpload.state 3).returned x.1 ≤ n ∧ n ≤ (scrapedUpload.state 11).recorded x.1 := by
  have hbefore : (scrapedUpload.state 3).tasks.length ≤ 1 := Nat.le_refl 1
  have hafter : (scrapedUpload.state 11).tasks[1]? = some (.scraping [] uploadShown) := rfl
  exact ⟨hbefore, hafter, fun x hx => ((scrape_regular scrapedUpload 3 11 1 uploadShown hbefore hafter).2 x hx).1⟩

end Monitor

end Dstore
