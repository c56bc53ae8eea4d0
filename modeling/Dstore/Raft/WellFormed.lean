import Dstore.Raft.LogMatching
/-!
# Well-formed logs

`append_entries` trusts the indices of the entries it is sent, and three
operations index the log by a computed position. Whatever the elections do, a
request carries the end of a log that some node had (`Carried`), so every log
keeps entry `i` at position `i - 1` with terms that do not go down, and no
access is out of range (`log_well_formed`).

Who makes a request, and whether anybody leads, does not matter here: a node
that has stepped down can still send what it has.
-/
open Dstore.Lib

namespace Dstore.Raft

/-- Append requests are made by any node and delivered to any node, at any
later time, any number of times. All other calls are free. -/
def Delivered (w : World) : Event → Prop
  | .append_entries _ m => m ∈ w.appendRequests
  | _ => True

/-- The terms of a log do not go down. -/
def Ascending (log : List RaftLogEntry) : Prop := log.Pairwise fun a b => a.term ≤ b.term

structure WellFormed (s : RaftNode) : Prop where
  indexed : WellIndexed s.log
  ascending : Ascending s.log
  terms : ∀ e ∈ s.log, e.term ≤ s.current_term
  commit_le : s.commit_index ≤ s.log.length

/-- The end of a log whose terms are at most the request's. -/
structure Carried (m : AppendEntriesRequest) (l : List RaftLogEntry) : Prop where
  indexed : WellIndexed l
  ascending : Ascending l
  terms : ∀ e ∈ l, e.term ≤ m.term
  entries : m.entries = l.drop m.prev_log_index
  prev : m.prev_log_index ≠ 0 → m.prev_log_term = (l[m.prev_log_index - 1]?.map (·.term)).getD 0

/-! ## One step -/

theorem carried_make {s : RaftNode} (h : WellFormed s) (f : Str) : Carried (s.make_append_entries f) s.log :=
  ⟨h.indexed, h.ascending, h.terms, (make_append_entries_eq h.indexed f).1, (make_append_entries_eq h.indexed f).2⟩

/-- What precedes an entry has no later term. -/
theorem Ascending.take_le {log : List RaftLogEntry} (h : Ascending log) {k : Nat} {e : RaftLogEntry}
    (he : log[k]? = some e) : ∀ a ∈ log.take (k + 1), a.term ≤ e.term := by
  intro a ha
  rw [List.take_add_one, he, Option.toList_some] at ha
  have hpair := h.sublist (List.take_sublist (k + 1) log)
  rw [List.take_add_one, he, Option.toList_some, List.pairwise_append] at hpair
  rcases List.mem_append.1 ha with ha | ha
  · exact hpair.2.2 a ha e (List.mem_singleton.2 rfl)
  · rw [List.mem_singleton.1 ha]

/-- What follows an entry has no earlier term. -/
theorem Ascending.le_drop {log : List RaftLogEntry} (h : Ascending log) {k : Nat} {e : RaftLogEntry}
    (he : log[k]? = some e) : ∀ b ∈ log.drop (k + 1), e.term ≤ b.term := by
  intro b hb
  obtain ⟨hk, hget⟩ := List.getElem?_eq_some_iff.1 he
  have hpair := h.sublist (List.drop_sublist k log)
  rw [List.drop_eq_getElem_cons hk, hget, List.pairwise_cons] at hpair
  exact hpair.1 b hb

/-- The entry that a request names as the one before its own. -/
theorem prev_entry {log : List RaftLogEntry} {m : AppendEntriesRequest} (h0 : m.prev_log_index ≠ 0)
    (hp : RaftNode.prevMatches log m = true) :
    ∃ e, log[m.prev_log_index - 1]? = some e ∧ e.term = m.prev_log_term := by
  simpa [RaftNode.prevMatches, h0] using hp

theorem prev_le {log : List RaftLogEntry} {m : AppendEntriesRequest} (hp : RaftNode.prevMatches log m = true) :
    m.prev_log_index ≤ log.length := by
  by_cases h0 : m.prev_log_index = 0
  · omega
  · obtain ⟨e, he, -⟩ := prev_entry h0 hp
    have := (List.getElem?_eq_some_iff.1 he).1
    omega

/-- The log after an accepted request: its own up to the matched position, and
the sender's from there on, unless nothing was sent. -/
theorem Carried.stored {m : AppendEntriesRequest} {l log : List RaftLogEntry} (h : Carried m l)
    (hp : RaftNode.prevMatches log m = true) :
    m.entries.foldl RaftNode.storeEntry log =
      if m.entries = [] then log else log.take m.prev_log_index ++ l.drop m.prev_log_index := by
  rw [← h.entries]
  apply foldl_storeEntry m.entries log m.prev_log_index (prev_le hp)
  intro k e hk
  rw [h.entries, List.getElem?_drop] at hk
  exact h.indexed _ e hk

theorem Carried.join_indexed {m : AppendEntriesRequest} {l log : List RaftLogEntry} (h : Carried m l)
    (hlog : WellIndexed log)
    (hp : RaftNode.prevMatches log m = true) : WellIndexed (log.take m.prev_log_index ++ l.drop m.prev_log_index) := by
  have hle := prev_le hp
  have hlen : (log.take m.prev_log_index).length = m.prev_log_index := by
    rw [List.length_take]
    omega
  intro k e hk
  rcases Nat.lt_or_ge k m.prev_log_index with hlt | hge
  · rw [List.getElem?_append_left (by omega), List.getElem?_take_of_lt hlt] at hk
    exact hlog k e hk
  · rw [List.getElem?_append_right (by omega), hlen, List.getElem?_drop] at hk
    have := h.indexed _ e hk
    omega

/-- The entries that are sent follow the matched one, whose term is the same in
both logs. -/
theorem Carried.join_ascending {m : AppendEntriesRequest} {l log : List RaftLogEntry} (h : Carried m l)
    (hlog : Ascending log)
    (hp : RaftNode.prevMatches log m = true) : Ascending (log.take m.prev_log_index ++ l.drop m.prev_log_index) := by
  refine List.pairwise_append.2 ⟨hlog.sublist (List.take_sublist _ _), h.ascending.sublist (List.drop_sublist _ _), ?_⟩
  intro a ha b hb
  by_cases h0 : m.prev_log_index = 0
  · simp [h0] at ha
  · obtain ⟨e, he, het⟩ := prev_entry h0 hp
    obtain ⟨k, hk⟩ : ∃ k, m.prev_log_index = k + 1 := ⟨m.prev_log_index - 1, by omega⟩
    have hterm := h.prev h0
    rw [hk] at ha hb
    rw [hk, Nat.add_sub_cancel] at he hterm
    have hlt : k < l.length := by
      have := List.length_pos_of_mem hb
      rw [List.length_drop] at this
      omega
    rw [List.getElem?_eq_getElem hlt] at hterm
    calc a.term ≤ e.term := hlog.take_le he a ha
      _ = l[k].term := by rw [het, hterm]; rfl
      _ ≤ b.term := h.ascending.le_drop (List.getElem?_eq_getElem hlt) b hb

/-- An accepted request leaves a well-formed node. -/
theorem Carried.wellFormed {m : AppendEntriesRequest} {l : List RaftLogEntry} (h : Carried m l) {s s' : RaftNode}
    (hs : WellFormed s) (ht : s.current_term ≤ m.term) (hp : RaftNode.prevMatches s.log m = true)
    (hl : s'.log = m.entries.foldl RaftNode.storeEntry s.log) (hterm : s'.current_term = m.term)
    (hc : s'.commit_index ≤ (s'.log.getLast?.map (·.index)).getD 0) : WellFormed s' := by
  rw [h.stored hp] at hl
  have hlog : WellIndexed s'.log ∧ Ascending s'.log ∧ ∀ e ∈ s'.log, e.term ≤ m.term := by
    rw [hl]
    split
    · exact ⟨hs.indexed, hs.ascending, fun e he => (hs.terms e he).trans ht⟩
    · refine ⟨h.join_indexed hs.indexed hp, h.join_ascending hs.ascending hp, fun e he => ?_⟩
      rcases List.mem_append.1 he with he | he
      · exact (hs.terms e (List.mem_of_mem_take he)).trans ht
      · exact h.terms e (List.mem_of_mem_drop he)
  refine ⟨hlog.1, hlog.2.1, by rw [hterm]; exact hlog.2.2, ?_⟩
  rw [hlog.1.getLast] at hc
  exact hc

/-- The same log in the same term or a later one. -/
theorem WellFormed.same {s s' : RaftNode} (h : WellFormed s) (hl : s'.log = s.log) (ht : s.current_term ≤ s'.current_term)
    (hc : s'.commit_index ≤ s.log.length) : WellFormed s' :=
  ⟨hl ▸ h.indexed, hl ▸ h.ascending, fun e he => (h.terms e (hl ▸ he)).trans ht, hl ▸ hc⟩

/-- Every call keeps its node well formed. -/
theorem Effect.wellFormed {s s' : RaftNode} {e : Event} (h : Effect e s s') (hs : WellFormed s)
    (hm : ∀ i m, e = .append_entries i m → ∃ l, Carried m l) : WellFormed s' := by
  have ht := h.progress.term_le
  cases h with
  | granted i q _ b hb => rcases hb with ⟨rfl, -⟩ | ⟨rfl, -⟩ <;> exact hs.same rfl ht hs.commit_le
  | commanded i c _ hr =>
    have hlen : s.last_index = s.log.length := hs.indexed.getLast
    refine ⟨?_, List.pairwise_append.2 ⟨hs.ascending, List.pairwise_singleton _ _, fun a ha b hb => ?_⟩, fun e he => ?_,
      by simp [hlen]⟩
    · simp only [hlen]
      exact hs.indexed.append _ _
    · rw [List.mem_singleton.1 hb]
      exact hs.terms a ha
    · rcases List.mem_append.1 he with he | he
      · exact hs.terms e he
      · rw [List.mem_singleton.1 he]
  | stored i m _ l ht hp hl =>
    obtain ⟨l', hcarried⟩ := hm i m rfl
    exact hcarried.wellFormed hs ht hp hl rfl (min_le_right _ _)
  | indexed _ _ ni mi c hc =>
    refine hs.same rfl ht ?_
    rcases hc with rfl | ⟨-, n, rfl⟩
    · exact hs.commit_le
    · exact advance_commit_le { s with next_index := ni, match_index := mi } n hs.commit_le _ hs.indexed.getLast.le
  | idle | stood | down | counted | won | refused | crowned => exact hs.same rfl ht hs.commit_le

/-! ## Accesses -/

/-- `log_.resize(n)` to a size that is not larger. -/
def resize (log : List RaftLogEntry) (n : Nat) : Option (List RaftLogEntry) :=
  if n ≤ log.length then some (log.take n) else none

namespace RaftNode

/-- `storeEntry`; an index 0 makes the new size `2^64 - 1`. -/
def storeEntryInRange (log : List RaftLogEntry) (entry : RaftLogEntry) : Option (List RaftLogEntry) :=
  if log.length ≥ entry.index then
    if entry.index = 0 then none else (resize log (entry.index - 1)).map (· ++ [entry])
  else some (log ++ [entry])

/-- The check on the predecessor. -/
def prevMatchesInRange (log : List RaftLogEntry) (request : AppendEntriesRequest) : Option Bool :=
  if request.prev_log_index = 0 then some true
  else if log.length < request.prev_log_index then some false
  else log[request.prev_log_index - 1]?.map fun entry => entry.term == request.prev_log_term

/-- `append_entries` that stops at an access out of range. -/
def append_entriesInRange (s : RaftNode) (request : AppendEntriesRequest) : Option (RaftNode × AppendEntriesResponse) :=
  if request.term < s.current_term then some (s, ⟨s.current_term, false⟩)
  else
    let s := { s with current_term := request.term, role := .kFollower, voted_for := some request.leader_id }
    (prevMatchesInRange s.log request).bind fun found =>
      if found then
        (request.entries.foldlM storeEntryInRange s.log).map fun log =>
          let s := { s with log := log }
          let s := { s with commit_index := min request.leader_commit s.last_index }
          (s, ⟨s.current_term, true⟩)
      else some (s, ⟨s.current_term, false⟩)

/-- `make_append_entries` that stops at an access out of range. -/
def make_append_entriesInRange (s : RaftNode) (follower_id : Str) : Option AppendEntriesRequest :=
  let next := (s.next_index.lookup follower_id).getD (s.last_index + 1)
  let prev_index := if next = 0 then 0 else next - 1
  let prev_term := if prev_index = 0 ∨ s.log.length < prev_index then some 0
    else s.log[prev_index - 1]?.map (·.term)
  prev_term.map fun prev_term => ⟨s.node_id, s.current_term, prev_index, prev_term, s.commit_index,
    s.log.filter (fun entry => entry.index ≥ next)⟩

/-- The commit loop that stops at an access out of range. -/
def advance_commitInRange (s : RaftNode) (cluster_size : Nat) : Nat → Option Nat
  | 0 => some s.commit_index
  | candidate + 1 =>
    if candidate + 1 > s.commit_index then
      if s.replicated (candidate + 1) > cluster_size / 2 then
        s.log[candidate]?.bind fun entry =>
          if entry.term = s.current_term then some (candidate + 1) else s.advance_commitInRange cluster_size candidate
      else s.advance_commitInRange cluster_size candidate
    else some s.commit_index

/-- `observe_append_entries_response` that stops at an access out of range. -/
def observe_append_entries_responseInRange (s : RaftNode) (follower_id : Str) (response : AppendEntriesResponse)
    (cluster_size : Nat) : Option RaftNode :=
  if response.term > s.current_term then some (s.stepDown response.term)
  else if s.role ≠ .kLeader then some s
  else if response.success = false then
    let next := (s.next_index.lookup follower_id).getD 0
    some { s with next_index := s.next_index.insert follower_id (if next > 1 then next - 1 else next) }
  else
    let last_index := s.last_index
    let s := { s with
      match_index := s.match_index.insert follower_id last_index
      next_index := s.next_index.insert follower_id (last_index + 1) }
    (s.advance_commitInRange cluster_size last_index).map fun commit_index => { s with commit_index := commit_index }

end RaftNode

theorem prevMatchesInRange_eq (log : List RaftLogEntry) (m : AppendEntriesRequest) :
    RaftNode.prevMatchesInRange log m = some (RaftNode.prevMatches log m) := by
  unfold RaftNode.prevMatchesInRange RaftNode.prevMatches
  split
  · rename_i h0
    simp [h0]
  · rename_i h0
    split
    · rename_i hshort
      rw [List.getElem?_eq_none (by omega)]
      simp [h0]
    · rw [List.getElem?_eq_getElem (by omega)]
      simp [h0]

/-- Entries with an index are stored in range. -/
theorem foldlM_storeEntry {es : List RaftLogEntry} (h : ∀ e ∈ es, e.index ≠ 0) (log : List RaftLogEntry) :
    es.foldlM RaftNode.storeEntryInRange log = some (es.foldl RaftNode.storeEntry log) := by
  induction es generalizing log with
  | nil => rfl
  | cons e es ih =>
    obtain ⟨he, h⟩ := List.forall_mem_cons.1 h
    have hstore : RaftNode.storeEntryInRange log e = some (RaftNode.storeEntry log e) := by
      unfold RaftNode.storeEntryInRange RaftNode.storeEntry resize
      by_cases hlen : log.length ≥ e.index
      · have hsmall : e.index - 1 ≤ log.length := by omega
        simp only [hlen, he, hsmall, if_true, if_false, Option.map_some]
      · simp only [hlen, if_false]
    rw [List.foldlM_cons, hstore, List.foldl_cons]
    exact ih h _

theorem Carried.append_entries_inRange {m : AppendEntriesRequest} {l : List RaftLogEntry} (h : Carried m l) (s : RaftNode) :
    s.append_entriesInRange m = some (s.append_entries m) := by
  have hindex : ∀ e ∈ m.entries, e.index ≠ 0 := by
    intro e he
    rw [h.entries] at he
    obtain ⟨k, hk⟩ := List.mem_iff_getElem?.1 (List.mem_of_mem_drop he)
    rw [h.indexed k e hk]
    omega
  unfold RaftNode.append_entriesInRange RaftNode.append_entries
  split
  · rfl
  · simp only [prevMatchesInRange_eq, Option.bind_some]
    split
    · simp only [foldlM_storeEntry hindex, Option.map_some]
    · rfl

theorem make_append_entries_inRange (s : RaftNode) (f : Str) :
    s.make_append_entriesInRange f = some (s.make_append_entries f) := by
  unfold RaftNode.make_append_entriesInRange RaftNode.make_append_entries
  simp only
  generalize (s.next_index.lookup f).getD (s.last_index + 1) = next
  have hprev : (if next = 0 then 0 else next - 1) = next - 1 := by
    split <;> omega
  rw [hprev]
  split
  · rename_i h
    rcases h with h0 | hshort
    · simp [h0]
    · have h0 : next - 1 ≠ 0 := by omega
      rw [List.getElem?_eq_none (by omega)]
      simp [h0]
  · rename_i h
    rw [not_or, not_lt] at h
    rw [List.getElem?_eq_getElem (by omega), if_neg h.1]
    rfl

theorem advance_commit_inRange (s : RaftNode) (n : Nat) {candidate : Nat} (h : candidate ≤ s.log.length) :
    s.advance_commitInRange n candidate = some (s.advance_commit n candidate) := by
  induction candidate with
  | zero => rfl
  | succ candidate ih =>
    have hlt : candidate < s.log.length := by omega
    have hget := List.getElem?_eq_getElem hlt
    rw [RaftNode.advance_commitInRange, RaftNode.advance_commit, ih (by omega), hget]
    simp only [Option.bind_some, Option.map_some, Option.some.injEq]
    by_cases hc : candidate + 1 > s.commit_index
    · by_cases hr : s.replicated (candidate + 1) > n / 2
      · by_cases ht : s.log[candidate].term = s.current_term
        · simp [hc, hr, ht]
        · simp [hc, hr, ht]
      · simp [hc, hr]
    · simp [hc]

theorem WellFormed.observe_append_inRange {s : RaftNode} (h : WellFormed s) (f : Str) (resp : AppendEntriesResponse)
    (n : Nat) :
    s.observe_append_entries_responseInRange f resp n = some (s.observe_append_entries_response f resp n) := by
  have hlen : s.last_index ≤ s.log.length := h.indexed.getLast.le
  unfold RaftNode.observe_append_entries_responseInRange RaftNode.observe_append_entries_response
  split
  · rfl
  · split
    · rfl
    · split
      · rfl
      · exact congrArg (Option.map _) (advance_commit_inRange { s with
          match_index := s.match_index.insert f s.last_index,
          next_index := s.next_index.insert f (s.last_index + 1) } n hlen)

/-! ## Runs -/

section Runs
variable (r : Run (Guarded Delivered World.step) World.init)

theorem wellFormed_all (t : Nat) :
    (∀ i, WellFormed ((r.state t).nodes i)) ∧ ∀ m ∈ (r.state t).appendRequests, ∃ l, Carried m l := by
  refine r.inv (fun w => (∀ i, WellFormed (w.nodes i)) ∧ ∀ m ∈ w.appendRequests, ∃ l, Carried m l) ?_ ?_ t
  · constructor
    · intro i
      constructor <;> simp [World.init, WellIndexed, Ascending]
    · simp [World.init]
  · rintro w e w' ⟨hnodes, hsent⟩ ⟨hg, rfl⟩
    constructor
    · intro i
      by_cases hi : i = e.node
      · subst hi
        rw [w.exec_nodes_self]
        refine (apply_effect _ e).wellFormed (hnodes _) fun j m he => ?_
        subst he
        exact hsent m hg
      · rw [w.exec_nodes_ne e hi]
        exact hnodes i
    · cases e with
      | make_append_entries i f =>
        intro m hm
        rcases List.mem_cons.1 hm with rfl | hm
        · exact ⟨_, carried_make (hnodes i) f⟩
        · exact hsent m hm
      | _ => exact hsent

end Runs

/-- In every state every node is well formed, terms only go up, and every
access of a call that may follow is in range. -/
theorem log_well_formed (r : Run (Guarded Delivered World.step) World.init) (t : Nat) (i : Str) :
    WellFormed ((r.state t).nodes i) ∧
      (∀ t' ≥ t, ((r.state t).nodes i).current_term ≤ ((r.state t').nodes i).current_term) ∧
      (∀ m ∈ (r.state t).appendRequests,
        ((r.state t).nodes i).append_entriesInRange m = some (((r.state t).nodes i).append_entries m)) ∧
      (∀ f, ((r.state t).nodes i).make_append_entriesInRange f = some (((r.state t).nodes i).make_append_entries f)) ∧
      ∀ f resp n, ((r.state t).nodes i).observe_append_entries_responseInRange f resp n =
        some (((r.state t).nodes i).observe_append_entries_response f resp n) := by
  obtain ⟨hnodes, hsent⟩ := wellFormed_all r t
  refine ⟨hnodes i, fun t' ht => (run_progress r i ht).term_le, fun m hm => ?_, make_append_entries_inRange _,
    (hnodes i).observe_append_inRange⟩
  obtain ⟨l, hl⟩ := hsent m hm
  exact hl.append_entries_inRange _

end Dstore.Raft
