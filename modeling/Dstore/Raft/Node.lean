import Mathlib.Algebra.Order.Ring.Int
import Mathlib.Data.List.AList
import Dstore.Common.Result
/-!
# The Raft node

`RaftNode` as in `raft.h` and `raft.cpp`, one function for each public
operation. An operation returns the node after the call and what it gives
back. Terms, indices and counters are naturals, and `next_index_` and
`match_index_` are association lists with unique keys.
-/

namespace Dstore.Raft

inductive RaftRole where
  | kFollower | kCandidate | kLeader
  deriving DecidableEq, Repr

structure RaftLogEntry where
  index : Nat
  term : Nat
  command : Str
  deriving DecidableEq, Repr

structure VoteRequest where
  candidate_id : Str
  term : Nat
  last_log_index : Nat
  last_log_term : Nat
  deriving DecidableEq, Repr

structure VoteResponse where
  term : Nat
  granted : Bool
  deriving DecidableEq, Repr

structure AppendEntriesRequest where
  leader_id : Str
  term : Nat
  prev_log_index : Nat
  prev_log_term : Nat
  leader_commit : Nat
  entries : List RaftLogEntry
  deriving DecidableEq, Repr

structure AppendEntriesResponse where
  term : Nat
  success : Bool
  deriving DecidableEq, Repr

structure RaftNode where
  node_id : Str
  role : RaftRole := .kFollower
  current_term : Nat := 0
  voted_for : Option Str := none
  log : List RaftLogEntry := []
  commit_index : Nat := 0
  votes_received : Nat := 0
  next_index : AList (fun _ : Str => Nat) := ∅
  match_index : AList (fun _ : Str => Nat) := ∅

namespace RaftNode

/-- `log_.empty() ? 0 : log_.back().index`. -/
def last_index (s : RaftNode) : Nat := (s.log.getLast?.map (·.index)).getD 0

/-- `log_.empty() ? 0 : log_.back().term`. -/
def last_term (s : RaftNode) : Nat := (s.log.getLast?.map (·.term)).getD 0

def start_election (s : RaftNode) : RaftNode × VoteRequest :=
  let s' := { s with
    role := .kCandidate
    current_term := s.current_term + 1
    voted_for := some s.node_id
    votes_received := 1 }
  (s', ⟨s'.node_id, s'.current_term, s'.last_index, s'.last_term⟩)

def candidate_log_is_fresh (s : RaftNode) (request : VoteRequest) : Bool :=
  request.last_log_term > s.last_term ||
    (request.last_log_term == s.last_term && request.last_log_index ≥ s.last_index)

/-- A message of a later term: adopt it as a follower without a vote. -/
def stepDown (s : RaftNode) (term : Nat) : RaftNode :=
  { s with current_term := term, role := .kFollower, voted_for := none }

def request_vote (s : RaftNode) (request : VoteRequest) : RaftNode × VoteResponse :=
  if request.term < s.current_term then (s, ⟨s.current_term, false⟩)
  else
    let s := if request.term > s.current_term then s.stepDown request.term else s
    let available := s.voted_for.isNone || s.voted_for == some request.candidate_id
    let grant := available && s.candidate_log_is_fresh request
    let s := if grant then { s with voted_for := some request.candidate_id } else s
    (s, ⟨s.current_term, grant⟩)

/-- One iteration of the entry loop of `append_entries`. -/
def storeEntry (log : List RaftLogEntry) (entry : RaftLogEntry) : List RaftLogEntry :=
  (if log.length ≥ entry.index then log.take (entry.index - 1) else log) ++ [entry]

/-- The check on `prev_log_index` and `prev_log_term`. -/
def prevMatches (log : List RaftLogEntry) (request : AppendEntriesRequest) : Bool :=
  request.prev_log_index == 0 ||
    (log[request.prev_log_index - 1]?.map (·.term)) == some request.prev_log_term

def append_entries (s : RaftNode) (request : AppendEntriesRequest) : RaftNode × AppendEntriesResponse :=
  if request.term < s.current_term then (s, ⟨s.current_term, false⟩)
  else
    let s := { s with current_term := request.term, role := .kFollower, voted_for := some request.leader_id }
    if prevMatches s.log request then
      let s := { s with log := request.entries.foldl storeEntry s.log }
      let s := { s with commit_index := min request.leader_commit s.last_index }
      (s, ⟨s.current_term, true⟩)
    else (s, ⟨s.current_term, false⟩)

def append_client_command (s : RaftNode) (command : Str) : RaftNode × Result RaftLogEntry :=
  if s.role ≠ .kLeader then (s, .error (.Unavailable (lit "node is not raft leader")))
  else
    let entry : RaftLogEntry := ⟨s.last_index + 1, s.current_term, command⟩
    ({ s with log := s.log ++ [entry], commit_index := entry.index }, .ok entry)

/-- Every value of an index map set to `v`. -/
def setAll (m : AList (fun _ : Str => Nat)) (v : Nat) : AList (fun _ : Str => Nat) :=
  m.keys.foldl (fun acc k => acc.insert k v) m

def observe_vote (s : RaftNode) (response : VoteResponse) (cluster_size : Nat) : RaftNode :=
  if response.term > s.current_term then s.stepDown response.term
  else
    let s := if s.role = .kCandidate ∧ response.granted = true
      then { s with votes_received := s.votes_received + 1 } else s
    if s.role = .kCandidate ∧ s.votes_received > cluster_size / 2 then
      { s with
        role := .kLeader
        next_index := setAll s.next_index (s.last_index + 1)
        match_index := setAll s.match_index 0 }
    else s

def make_append_entries (s : RaftNode) (follower_id : Str) : AppendEntriesRequest :=
  let next := (s.next_index.lookup follower_id).getD (s.last_index + 1)
  let prev_index := next - 1
  let prev_term := if prev_index = 0 then 0 else (s.log[prev_index - 1]?.map (·.term)).getD 0
  ⟨s.node_id, s.current_term, prev_index, prev_term, s.commit_index,
    s.log.filter (fun entry => entry.index ≥ next)⟩

/-- The leader and the followers whose match index reaches `candidate`. -/
def replicated (s : RaftNode) (candidate : Nat) : Nat :=
  1 + s.match_index.entries.countP (fun e => e.2 ≥ candidate)

/-- The commit loop, from `candidate` down to the old commit index. -/
def advance_commit (s : RaftNode) (cluster_size : Nat) : Nat → Nat
  | 0 => s.commit_index
  | candidate + 1 =>
    if candidate + 1 > s.commit_index then
      if s.replicated (candidate + 1) > cluster_size / 2 ∧
          s.log[candidate]?.map (·.term) = some s.current_term
      then candidate + 1
      else s.advance_commit cluster_size candidate
    else s.commit_index

def observe_append_entries_response (s : RaftNode) (follower_id : Str) (response : AppendEntriesResponse)
    (cluster_size : Nat) : RaftNode :=
  if response.term > s.current_term then s.stepDown response.term
  else if s.role ≠ .kLeader then s
  else if response.success = false then
    let next := (s.next_index.lookup follower_id).getD 0
    { s with next_index := s.next_index.insert follower_id (if next > 1 then next - 1 else next) }
  else
    let last_index := s.last_index
    let s := { s with
      match_index := s.match_index.insert follower_id last_index
      next_index := s.next_index.insert follower_id (last_index + 1) }
    { s with commit_index := s.advance_commit cluster_size last_index }

def configure_cluster (s : RaftNode) (peer_ids : List Str) : RaftNode :=
  peer_ids.foldl (fun s peer =>
    { s with next_index := s.next_index.insert peer (s.last_index + 1), match_index := s.match_index.insert peer 0 }) s

def become_leader_for_single_node (s : RaftNode) : RaftNode :=
  let s := s.start_election.1
  s.observe_vote ⟨s.current_term, true⟩ 1

/-! ## What the operations change -/

section Frames
variable (s : RaftNode)

@[simp] theorem stepDown_log (t : Nat) : (s.stepDown t).log = s.log := rfl
@[simp] theorem stepDown_term (t : Nat) : (s.stepDown t).current_term = t := rfl
@[simp] theorem stepDown_role (t : Nat) : (s.stepDown t).role = .kFollower := rfl
@[simp] theorem stepDown_voted (t : Nat) : (s.stepDown t).voted_for = none := rfl
@[simp] theorem stepDown_commit (t : Nat) : (s.stepDown t).commit_index = s.commit_index := rfl
@[simp] theorem stepDown_id (t : Nat) : (s.stepDown t).node_id = s.node_id := rfl

/-- What `request_vote` does: refuse a stale request, or adopt the term and
answer in it. -/
theorem request_vote_cases (q : VoteRequest) :
    (q.term < s.current_term ∧ s.request_vote q = (s, ⟨s.current_term, false⟩)) ∨
    ∃ b, (b = s.stepDown q.term ∧ s.current_term < q.term ∨ b = s ∧ s.current_term = q.term) ∧
      ((s.request_vote q = (b, ⟨q.term, false⟩)) ∨
        ((b.voted_for = none ∨ b.voted_for = some q.candidate_id) ∧
          s.request_vote q = ({ b with voted_for := some q.candidate_id }, ⟨q.term, true⟩))) := by
  unfold request_vote
  by_cases h1 : q.term < s.current_term
  · exact .inl ⟨h1, by simp [h1]⟩
  · right
    refine ⟨if q.term > s.current_term then s.stepDown q.term else s, ?_, ?_⟩
    · split
      · exact .inl ⟨rfl, by assumption⟩
      · exact .inr ⟨rfl, by omega⟩
    · have hb : (if q.term > s.current_term then s.stepDown q.term else s).current_term = q.term := by
        split
        · rfl
        · omega
      generalize (if q.term > s.current_term then s.stepDown q.term else s) = b at hb
      simp only [h1, if_false]
      by_cases hg : (b.voted_for.isNone || b.voted_for == some q.candidate_id) && b.candidate_log_is_fresh q
      · right
        simp only [hg, if_true, hb, and_true]
        simp only [Bool.and_eq_true, Bool.or_eq_true, Option.isNone_iff_eq_none, beq_iff_eq] at hg
        exact hg.1
      · left
        simp [hg, hb]

/-- What `append_entries` does to a request of a current term: adopt its term
and leader, and on a matching predecessor store its entries. -/
theorem append_entries_cases (m : AppendEntriesRequest) :
    (m.term < s.current_term ∧ s.append_entries m = (s, ⟨s.current_term, false⟩)) ∨
    (s.current_term ≤ m.term ∧
      ∃ b : RaftNode, b = { s with current_term := m.term, role := .kFollower, voted_for := some m.leader_id } ∧
        ((prevMatches s.log m = false ∧ s.append_entries m = (b, ⟨m.term, false⟩)) ∨
          (prevMatches s.log m = true ∧ ∃ l, l = m.entries.foldl storeEntry s.log ∧
            s.append_entries m = ({ b with
              log := l, commit_index := min m.leader_commit ((l.getLast?.map (·.index)).getD 0) }, ⟨m.term, true⟩)))) := by
  unfold append_entries
  by_cases h1 : m.term < s.current_term
  · exact .inl ⟨h1, by simp [h1]⟩
  · refine .inr ⟨by omega, _, rfl, ?_⟩
    simp only [h1, if_false]
    by_cases hp : prevMatches s.log m = true
    · exact .inr ⟨hp, _, rfl, by simp [hp, last_index]⟩
    · simp only [Bool.not_eq_true] at hp
      exact .inl ⟨hp, by simp [hp]⟩

/-- `observe_vote` steps down, counts a vote, or counts it and wins. -/
theorem observe_vote_cases (resp : VoteResponse) (n : Nat) :
    (s.current_term < resp.term ∧ s.observe_vote resp n = s.stepDown resp.term) ∨
    (resp.term ≤ s.current_term ∧ ∃ v, v = (if s.role = .kCandidate ∧ resp.granted = true then
        s.votes_received + 1 else s.votes_received) ∧
      ((s.observe_vote resp n = { s with votes_received := v } ∧ ¬ (s.role = .kCandidate ∧ v > n / 2)) ∨
        (s.role = .kCandidate ∧ v > n / 2 ∧
          s.observe_vote resp n = { s with
            role := .kLeader
            votes_received := v
            next_index := setAll s.next_index (s.last_index + 1)
            match_index := setAll s.match_index 0 }))) := by
  unfold observe_vote
  by_cases h1 : resp.term > s.current_term
  · exact .inl ⟨h1, by simp [h1]⟩
  · refine .inr ⟨by omega, _, rfl, ?_⟩
    simp only [h1, if_false]
    by_cases hc : s.role = .kCandidate ∧ resp.granted = true
    · simp only [hc, and_self, if_true, true_and]
      by_cases hv : s.votes_received + 1 > n / 2
      · exact .inr ⟨hv, by simp [hv, last_index]⟩
      · exact .inl ⟨by simp [hv], hv⟩
    · simp only [hc, if_false]
      by_cases hv : s.role = .kCandidate ∧ s.votes_received > n / 2
      · exact .inr ⟨hv.1, hv.2, by simp [hv]⟩
      · exact .inl ⟨by simp [hv], hv⟩

/-- `observe_append_entries_response` steps down, or changes only the index
maps and, on a success seen by a leader, the commit index. -/
theorem observe_append_cases (f : Str) (resp : AppendEntriesResponse) (n : Nat) :
    (s.current_term < resp.term ∧ s.observe_append_entries_response f resp n = s.stepDown resp.term) ∨
    ∃ ni mi c, s.observe_append_entries_response f resp n =
        { s with next_index := ni, match_index := mi, commit_index := c } ∧
      (c = s.commit_index ∨ s.role = .kLeader ∧
        c = { s with next_index := ni, match_index := mi }.advance_commit n s.last_index) := by
  unfold observe_append_entries_response
  by_cases h1 : resp.term > s.current_term
  · exact .inl ⟨h1, by simp [h1]⟩
  · right
    simp only [h1, if_false]
    by_cases h2 : s.role = .kLeader
    · by_cases h3 : resp.success = false
      · rw [if_neg (by simp [h2]), if_pos h3]
        exact ⟨_, s.match_index, s.commit_index, rfl, .inl rfl⟩
      · refine ⟨s.next_index.insert f (s.last_index + 1), s.match_index.insert f s.last_index, _, ?_, .inr ⟨h2, rfl⟩⟩
        rw [if_neg (by simp [h2]), if_neg h3]
    · exact ⟨s.next_index, s.match_index, s.commit_index, by simp [h2], .inl rfl⟩

/-- `append_client_command` on a leader appends one entry of its term. -/
theorem append_client_command_cases (c : Str) :
    (s.role ≠ .kLeader ∧ (s.append_client_command c).1 = s) ∨
    (s.role = .kLeader ∧ (s.append_client_command c).1 =
      { s with log := s.log ++ [⟨s.last_index + 1, s.current_term, c⟩], commit_index := s.last_index + 1 }) := by
  unfold append_client_command
  by_cases h : s.role = .kLeader
  · exact .inr ⟨h, by simp [h]⟩
  · exact .inl ⟨h, by simp [h]⟩

/-- `configure_cluster` changes only the index maps. -/
theorem configure_cluster_cases (ps : List Str) :
    ∃ ni mi, s.configure_cluster ps = { s with next_index := ni, match_index := mi } := by
  unfold configure_cluster
  induction ps generalizing s with
  | nil => exact ⟨s.next_index, s.match_index, rfl⟩
  | cons p ps ih =>
    obtain ⟨ni, mi, h⟩ := ih { s with
      next_index := s.next_index.insert p (s.last_index + 1), match_index := s.match_index.insert p 0 }
    exact ⟨ni, mi, by rw [List.foldl_cons, h]⟩

end Frames

end RaftNode

end Dstore.Raft
