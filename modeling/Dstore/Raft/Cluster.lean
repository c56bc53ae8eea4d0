import Mathlib.Algebra.Order.Ring.Int
import Mathlib.Logic.Function.Basic
import Mathlib.Data.List.Infix
import Dstore.Raft.Node
import Dstore.Lib.Runs
/-!
# Runs of a Raft cluster

The transport is left to the caller of `RaftNode`, so a run is any sequence of
calls on the nodes. The world keeps, besides the nodes, every message a call
has produced; which deliveries are allowed is the guard of a run, not a part
of the step. A message that is never delivered is lost, one delivered late is
delayed, and nothing is ever taken out of the lists.
-/
open Dstore.Lib

namespace Dstore.Raft

/-- An answer to a vote request, with the call it answers. -/
structure VoteReply where
  voter : Str
  request : VoteRequest
  response : VoteResponse
  deriving DecidableEq

/-- An answer to an append request, with the call it answers. -/
structure AppendReply where
  follower : Str
  request : AppendEntriesRequest
  response : AppendEntriesResponse
  deriving DecidableEq

structure World where
  nodes : Str → RaftNode
  voteRequests : List VoteRequest := []
  voteReplies : List VoteReply := []
  /-- Vote replies already handed to their candidate. -/
  votesSeen : List VoteReply := []
  appendRequests : List AppendEntriesRequest := []
  appendReplies : List AppendReply := []

/-- Fresh nodes, named by their ids. -/
def World.init : World := { nodes := fun i => { node_id := i } }

/-- One call on the node `node`. -/
inductive Event where
  | start_election (node : Str)
  | request_vote (node : Str) (request : VoteRequest)
  | observe_vote (node : Str) (reply : VoteReply) (cluster_size : Nat)
  | append_client_command (node : Str) (command : Str)
  | make_append_entries (node : Str) (follower_id : Str)
  | append_entries (node : Str) (request : AppendEntriesRequest)
  | observe_append_entries_response (node : Str) (reply : AppendReply) (cluster_size : Nat)
  | configure_cluster (node : Str) (peer_ids : List Str)
  | become_leader_for_single_node (node : Str)

namespace Event

def node : Event → Str
  | .start_election i | .request_vote i _ | .observe_vote i _ _ | .append_client_command i _
  | .make_append_entries i _ | .append_entries i _ | .observe_append_entries_response i _ _
  | .configure_cluster i _ | .become_leader_for_single_node i => i

/-- The node after the call. -/
def apply (s : RaftNode) : Event → RaftNode
  | .start_election _ => s.start_election.1
  | .request_vote _ q => (s.request_vote q).1
  | .observe_vote _ r n => s.observe_vote r.response n
  | .append_client_command _ c => (s.append_client_command c).1
  | .make_append_entries _ _ => s
  | .append_entries _ m => (s.append_entries m).1
  | .observe_append_entries_response _ r n => s.observe_append_entries_response r.follower r.response n
  | .configure_cluster _ ps => s.configure_cluster ps
  | .become_leader_for_single_node _ => s.become_leader_for_single_node

end Event

namespace World

/-- Make the call and record what it produced. -/
def exec (w : World) (e : Event) : World :=
  let s := w.nodes e.node
  let w' := { w with nodes := Function.update w.nodes e.node (e.apply s) }
  match e with
  | .start_election _ => { w' with voteRequests := s.start_election.2 :: w.voteRequests }
  | .request_vote i q => { w' with voteReplies := ⟨i, q, (s.request_vote q).2⟩ :: w.voteReplies }
  | .observe_vote _ r _ => { w' with votesSeen := r :: w.votesSeen }
  | .make_append_entries _ f => { w' with appendRequests := s.make_append_entries f :: w.appendRequests }
  | .append_entries i m => { w' with appendReplies := ⟨i, m, (s.append_entries m).2⟩ :: w.appendReplies }
  | _ => w'

@[simp] theorem exec_nodes (w : World) (e : Event) :
    (w.exec e).nodes = Function.update w.nodes e.node (e.apply (w.nodes e.node)) := by
  cases e <;> rfl

theorem exec_nodes_self (w : World) (e : Event) : (w.exec e).nodes e.node = e.apply (w.nodes e.node) := by
  simp

theorem exec_nodes_ne (w : World) (e : Event) {i : Str} (h : i ≠ e.node) : (w.exec e).nodes i = w.nodes i := by
  simp [h]

def step (w : World) (e : Event) (w' : World) : Prop := w' = w.exec e

/-- Node `i` leads term `T`. -/
def Leads (w : World) (i : Str) (T : Nat) : Prop := (w.nodes i).role = .kLeader ∧ (w.nodes i).current_term = T

instance (w : World) (i : Str) (T : Nat) : Decidable (w.Leads i T) := by unfold Leads; infer_instance

end World

/-! ## How a node moves through its terms -/

/-- Within a term a candidate may become a leader or a follower and a leader a
follower, never back. -/
def RaftRole.rank : RaftRole → Nat
  | .kCandidate => 0
  | .kLeader => 1
  | .kFollower => 2

/-- The term never goes back, within a term the rank does not, and a leader
only appends to its log. -/
def Progress (s s' : RaftNode) : Prop :=
  s.current_term < s'.current_term ∨
    (s.current_term = s'.current_term ∧ s.role.rank ≤ s'.role.rank ∧
      (s.role = .kLeader → s'.role = .kLeader → s.log <+: s'.log))

theorem Progress.refl (s : RaftNode) : Progress s s := .inr ⟨rfl, Nat.le_refl _, fun _ _ => List.prefix_rfl⟩

theorem leader_of_rank {r : RaftRole} (h1 : RaftRole.kLeader.rank ≤ r.rank) (h2 : r.rank ≤ RaftRole.kLeader.rank) :
    r = .kLeader := by
  cases r <;> simp [RaftRole.rank] at h1 h2 ⊢

theorem Progress.trans {a b c : RaftNode} (h1 : Progress a b) (h2 : Progress b c) : Progress a c := by
  rcases h1 with h1 | ⟨h1, hr1, hl1⟩
  · left
    rcases h2 with h2 | ⟨h2, -, -⟩ <;> omega
  · rcases h2 with h2 | ⟨h2, hr2, hl2⟩
    · left; omega
    · refine .inr ⟨by omega, by omega, fun ha hc => ?_⟩
      -- A leader at both ends of a term is one in between.
      have hb : b.role = .kLeader := leader_of_rank (ha ▸ hr1) (hc ▸ hr2)
      exact (hl1 ha hb).trans (hl2 hb hc)

theorem Progress.term_le {s s' : RaftNode} (h : Progress s s') : s.current_term ≤ s'.current_term := by
  rcases h with h | ⟨h, -, -⟩ <;> omega

theorem Progress.log_isPrefix {s s' : RaftNode} (h : Progress s s') (ht : s.current_term = s'.current_term)
    (hs : s.role = .kLeader) (hs' : s'.role = .kLeader) : s.log <+: s'.log := by
  rcases h with h | ⟨-, -, h⟩
  · omega
  · exact h hs hs'

theorem progress_of_rank_two {s s' : RaftNode} (ht : s.current_term = s'.current_term)
    (hf : s'.role = .kFollower) : Progress s s' := by
  refine .inr ⟨ht, ?_, fun _ h => by rw [hf] at h; cases h⟩
  rw [hf]
  cases s.role <;> simp [RaftRole.rank]

theorem progress_of_same {s s' : RaftNode} (ht : s.current_term = s'.current_term)
    (hr : s.role = s'.role) (hl : s.log <+: s'.log) : Progress s s' :=
  .inr ⟨ht, by rw [hr], fun _ _ => hl⟩

/-! ## What a call can do -/

/-- Every way a call changes its node. -/
inductive Effect : Event → RaftNode → RaftNode → Prop
  | idle (e s) : Effect e s s
  | stood (i s) : Effect (.start_election i) s s.start_election.1
  /-- A message of a later term. -/
  | down (e s T) (h : s.current_term < T) : Effect e s (s.stepDown T)
  | granted (i q s b) (hb : b = s.stepDown q.term ∧ s.current_term < q.term ∨ b = s ∧ s.current_term = q.term)
      (hv : b.voted_for = none ∨ b.voted_for = some q.candidate_id) :
      Effect (.request_vote i q) s { b with voted_for := some q.candidate_id }
  | counted (i y n s) (hc : s.role = .kCandidate) (hg : y.response.granted = true)
      (ht : y.response.term ≤ s.current_term) :
      Effect (.observe_vote i y n) s { s with votes_received := s.votes_received + 1 }
  | won (i y n s v ni mi) (hc : s.role = .kCandidate) (ht : y.response.term ≤ s.current_term)
      (hv : v = if y.response.granted = true then s.votes_received + 1 else s.votes_received) (hn : n / 2 < v) :
      Effect (.observe_vote i y n) s
        { s with role := .kLeader, votes_received := v, next_index := ni, match_index := mi }
  | commanded (i c s) (hr : s.role = .kLeader) :
      Effect (.append_client_command i c) s { s with
        log := s.log ++ [⟨s.last_index + 1, s.current_term, c⟩], commit_index := s.last_index + 1 }
  | refused (i m s) (ht : s.current_term ≤ m.term) :
      Effect (.append_entries i m) s
        { s with current_term := m.term, role := .kFollower, voted_for := some m.leader_id }
  | stored (i m s l) (ht : s.current_term ≤ m.term) (hp : RaftNode.prevMatches s.log m = true)
      (hl : l = m.entries.foldl RaftNode.storeEntry s.log) :
      Effect (.append_entries i m) s { s with
        current_term := m.term, role := .kFollower, voted_for := some m.leader_id, log := l,
        commit_index := min m.leader_commit ((l.getLast?.map (·.index)).getD 0) }
  /-- Index maps only, and on an acknowledged append the commit index. -/
  | indexed (e s ni mi c) (hc : c = s.commit_index ∨ s.role = .kLeader ∧ ∃ n,
      c = RaftNode.advance_commit { s with next_index := ni, match_index := mi } n s.last_index) :
      Effect e s { s with next_index := ni, match_index := mi, commit_index := c }
  | crowned (i s ni mi) : Effect (.become_leader_for_single_node i) s { s with
      role := .kLeader, current_term := s.current_term + 1, voted_for := some s.node_id, votes_received := 2,
      next_index := ni, match_index := mi }

theorem apply_effect (s : RaftNode) (e : Event) : Effect e s (e.apply s) := by
  cases e with
  | start_election i => exact .stood i s
  | request_vote i q =>
    simp only [Event.apply]
    rcases s.request_vote_cases q with ⟨-, e⟩ | ⟨b, hb, e | ⟨hv, e⟩⟩ <;> rw [e]
    · exact .idle _ s
    · rcases hb with ⟨rfl, h⟩ | ⟨rfl, -⟩
      · exact .down _ s _ h
      · exact .idle _ _
    · exact .granted i q s b hb hv
  | observe_vote i y n =>
    simp only [Event.apply]
    rcases s.observe_vote_cases y.response n with ⟨h, e⟩ | ⟨ht, v, hv, ⟨e, -⟩ | ⟨hc, hn, e⟩⟩ <;> rw [e]
    · exact .down _ s _ h
    · by_cases hg : s.role = .kCandidate ∧ y.response.granted = true
      · rw [hv, if_pos hg]; exact .counted i y n s hg.1 hg.2 ht
      · rw [hv, if_neg hg]; exact .idle _ s
    · simp only [hc, true_and] at hv
      exact .won i y n s v _ _ hc ht hv hn
  | append_client_command i c =>
    simp only [Event.apply]
    rcases s.append_client_command_cases c with ⟨-, e⟩ | ⟨hr, e⟩ <;> rw [e]
    · exact .idle _ s
    · exact .commanded i c s hr
  | make_append_entries i f => exact .idle _ s
  | append_entries i m =>
    simp only [Event.apply]
    rcases s.append_entries_cases m with ⟨-, e⟩ | ⟨ht, b, rfl, ⟨-, e⟩ | ⟨hp, l, hl, e⟩⟩ <;> rw [e]
    · exact .idle _ s
    · exact .refused i m s ht
    · exact .stored i m s l ht hp hl
  | observe_append_entries_response i y n =>
    simp only [Event.apply]
    rcases s.observe_append_cases y.follower y.response n with ⟨h, e⟩ | ⟨ni, mi, c, e, hc⟩ <;> rw [e]
    · exact .down _ s _ h
    · exact .indexed _ s ni mi c (hc.imp id fun ⟨h, h'⟩ => ⟨h, n, h'⟩)
  | configure_cluster i ps =>
    obtain ⟨ni, mi, e⟩ := s.configure_cluster_cases ps
    simp only [Event.apply]
    rw [e]
    exact .indexed _ s ni mi s.commit_index (.inl rfl)
  | become_leader_for_single_node i =>
    simp only [Event.apply, RaftNode.become_leader_for_single_node, RaftNode.start_election, RaftNode.observe_vote,
      gt_iff_lt, Nat.lt_irrefl, if_false, and_self, if_true, Nat.reduceDiv, Nat.reduceAdd, Nat.zero_lt_two]
    exact .crowned i s _ _

/-- Every call moves its node forward. -/
theorem Effect.progress {s s' : RaftNode} {e : Event} (h : Effect e s s') : Progress s s' := by
  cases h with
  | stood i => exact .inl (Nat.lt_succ_self _)
  | down _ _ T h => exact .inl h
  | granted i q _ b hb =>
    rcases hb with ⟨rfl, h⟩ | ⟨rfl, -⟩
    · exact .inl h
    · exact progress_of_same rfl rfl List.prefix_rfl
  | won i y n _ v ni mi hc =>
    exact .inr ⟨rfl, by simp [hc, RaftRole.rank], fun h => absurd (hc.symm.trans h) (by decide)⟩
  | commanded i c _ hr => exact progress_of_same rfl rfl (List.prefix_append _ _)
  | refused i m _ ht | stored i m _ l ht =>
    rcases Nat.lt_or_eq_of_le ht with h | h
    · exact .inl h
    · exact progress_of_rank_two h rfl
  | crowned i => exact .inl (Nat.lt_succ_self _)
  | idle | counted | indexed => exact progress_of_same rfl rfl List.prefix_rfl

theorem Effect.node_id {s s' : RaftNode} {e : Event} (h : Effect e s s') : s'.node_id = s.node_id := by
  cases h with
  | granted i q _ b hb => rcases hb with ⟨rfl, -⟩ | ⟨rfl, -⟩ <;> rfl
  | _ => rfl

/-! ## What holds along a run -/

section Runs
variable {G : World → Event → Prop} (r : Run (Guarded G World.step) World.init)

theorem exec_progress (w : World) (e : Event) (i : Str) : Progress (w.nodes i) ((w.exec e).nodes i) := by
  by_cases h : i = e.node
  · subst h; rw [w.exec_nodes_self]; exact (apply_effect _ e).progress
  · rw [w.exec_nodes_ne e h]; exact .refl _

theorem run_progress (i : Str) {t t' : Nat} (h : t ≤ t') :
    Progress ((r.state t).nodes i) ((r.state t').nodes i) :=
  r.mono (fun w w' => Progress (w.nodes i) (w'.nodes i)) (fun _ => .refl _) (fun _ _ _ => .trans)
    (fun t e he => by rw [he.2]; exact exec_progress _ e i) t t' h

/-- Nodes keep their ids. -/
theorem run_node_id (t : Nat) (i : Str) : ((r.state t).nodes i).node_id = i :=
  r.inv (fun w => ∀ i, (w.nodes i).node_id = i) (fun _ => rfl)
    (fun w e w' h hs j => by
      rw [hs.2]
      by_cases hj : j = e.node
      · subst hj; rw [w.exec_nodes_self, (apply_effect _ e).node_id, h]
      · rw [w.exec_nodes_ne e hj, h]) t i

/-- Node `i` has led term `T` by time `t`. -/
def Led (t : Nat) (i : Str) (T : Nat) : Prop := ∃ t' ≤ t, (r.state t').Leads i T

theorem Led.mono {r : Run (Guarded G World.step) World.init} {t t' : Nat} {i : Str} {T : Nat}
    (h : Led r t i T) (ht : t ≤ t') : Led r t' i T := by
  obtain ⟨u, hu, hl⟩ := h
  exact ⟨u, hu.trans ht, hl⟩

theorem led_succ {t : Nat} {i : Str} {T : Nat} :
    Led r (t + 1) i T ↔ Led r t i T ∨ (r.state (t + 1)).Leads i T := by
  constructor
  · rintro ⟨u, hu, hl⟩
    rcases Nat.le_succ_iff.1 hu with h | h
    · exact .inl ⟨u, h, hl⟩
    · subst h; exact .inr hl
  · rintro (h | h)
    · exact h.mono (Nat.le_succ t)
    · exact ⟨t + 1, Nat.le_refl _, h⟩

/-- Whoever has led a term is in it or past it, and never again its candidate. -/
theorem led_term {t : Nat} {i : Str} {T : Nat} (h : Led r t i T) :
    T ≤ ((r.state t).nodes i).current_term ∧
      (((r.state t).nodes i).current_term = T → ((r.state t).nodes i).role ≠ .kCandidate) := by
  obtain ⟨u, hu, hr, rfl⟩ := h
  have hp := run_progress r i hu
  refine ⟨hp.term_le, fun ht hc => ?_⟩
  rcases hp with h | ⟨-, h, -⟩
  · omega
  · rw [hr, hc] at h
    exact absurd h (by decide)

end Runs

end Dstore.Raft
