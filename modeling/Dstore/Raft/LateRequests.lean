import Dstore.Raft.MatchIndex
import Dstore.Raft.WellFormed
/-!
# Requests that arrive late

What a request does depends on what its receiver has seen since it was made,
and three of the rules that Raft rests on are lost to a request that comes
late:

- `append_entries` writes its sender into `voted_for`, over a vote already
  given to another candidate. A vote request of the same sender that arrives
  afterwards finds its candidate there and gets a second vote of the term
  (`second_vote_after_append`).
- It sets the commit index from the request, whatever it was before, so a
  stale heartbeat lowers it (`late_heartbeat_lowers_commit`).
- The entry loop cuts the log at the first entry of the request, also where
  the log already has it, so a late duplicate removes what came after
  (`late_duplicate_truncates`).

Each section says for which requests the rule does hold.
-/
open Dstore.Lib

namespace Dstore.Raft

/-! ## One vote a term -/

/-- Node `i` has taken an append request of the term of `q` from the candidate
that now asks for its vote. -/
def Overtaken (w : World) (i : Str) (q : VoteRequest) : Prop :=
  ∃ y ∈ w.appendReplies, y.follower = i ∧ y.request.leader_id = q.candidate_id ∧ y.request.term = q.term ∧
    y.response.term = q.term

/-- A vote request that an append request of its sender has overtaken, and that
could still be granted, does not reach a node that has voted for another. -/
def VotesFirst (w : World) : Event → Prop
  | .request_vote i q => (w.nodes i).current_term = q.term → (w.nodes i).candidate_log_is_fresh q = true →
      Overtaken w i q → ∀ c, Voted w i q.term c → c = q.candidate_id
  | _ => True

theorem voted_only_iff (w : World) (p x : Str) (T : Nat) : (∀ c, Voted w p T c → c = x) ↔
    (∀ y ∈ w.voteReplies, y.voter = p → y.response = ⟨T, true⟩ → y.request.candidate_id = x) ∧
      ∀ q ∈ w.voteRequests, q.candidate_id = p → q.term = T → p = x := by
  constructor
  · intro h
    exact ⟨fun y hy hp hr => h _ (.inl ⟨y, hy, hp, hr, rfl⟩), fun q hq hp hT => h p (.inr ⟨q, hq, hp, hT, rfl⟩)⟩
  · rintro ⟨hreply, hrequest⟩ c (⟨y, hy, hp, hr, rfl⟩ | ⟨q, hq, hp, hT, rfl⟩)
    · exact hreply y hy hp hr
    · exact hrequest q hq hp hT

instance (w : World) (i : Str) (q : VoteRequest) : Decidable (Overtaken w i q) :=
  inferInstanceAs (Decidable (∃ y ∈ w.appendReplies, y.follower = i ∧ y.request.leader_id = q.candidate_id ∧
    y.request.term = q.term ∧ y.response.term = q.term))

instance (w : World) (p x : Str) (T : Nat) : Decidable (∀ c, Voted w p T c → c = x) :=
  decidable_of_iff _ (voted_only_iff w p x T).symm

instance (w : World) : ∀ e, Decidable (VotesFirst w e)
  | .request_vote i q => inferInstanceAs (Decidable ((w.nodes i).current_term = q.term →
      (w.nodes i).candidate_log_is_fresh q = true → Overtaken w i q → ∀ c, Voted w i q.term c → c = q.candidate_id))
  | .start_election _ | .observe_vote _ _ _ | .append_client_command _ _ | .make_append_entries _ _
  | .append_entries _ _ | .observe_append_entries_response _ _ _ | .configure_cluster _ _
  | .become_leader_for_single_node _ => inferInstanceAs (Decidable True)

/-- The votes of each term are for one candidate, and the ballot of the current
term shows it, or the sender of an append request of the term. -/
structure VoteInv (w : World) : Prop where
  past : ∀ p T c, Voted w p T c → T ≤ (w.nodes p).current_term
  once : ∀ p T c c', Voted w p T c → Voted w p T c' → c = c'
  ballot : ∀ p c, Voted w p (w.nodes p).current_term c → (w.nodes p).voted_for = some c ∨
    ∃ y ∈ w.appendReplies, y.follower = p ∧ (w.nodes p).voted_for = some y.request.leader_id ∧
      y.request.term = (w.nodes p).current_term ∧ y.response.term = (w.nodes p).current_term

theorem voteInv_init : VoteInv World.init := by
  constructor <;> simp [Voted, World.init]

theorem exec_appendReplies (w : World) (e : Event) {y : AppendReply} (h : y ∈ w.appendReplies) :
    y ∈ (w.exec e).appendReplies := by
  cases e <;> simp only [World.exec, List.mem_cons] <;> first | exact h | exact .inr h

theorem append_entries_term {s : RaftNode} {m : AppendEntriesRequest} (h : s.current_term ≤ m.term) :
    (s.append_entries m).2.term = m.term := by
  rcases s.append_entries_cases m with ⟨hlt, -⟩ | ⟨-, b, rfl, ⟨-, he⟩ | ⟨-, l, -, he⟩⟩
  · omega
  · rw [he]
  · rw [he]

/-- A vote of the current term that a call adds is a request granted on a fresh
log. -/
theorem voted_granted {w : World} (hid : ∀ i, (w.nodes i).node_id = i) {e : Event} {p c : Str}
    (hv : Voted (w.exec e) p (w.nodes p).current_term c) (hnew : ¬ Voted w p (w.nodes p).current_term c) :
    ∃ q, e = .request_vote p q ∧ q.candidate_id = c ∧ (w.nodes p).current_term = q.term ∧
      (w.nodes p).candidate_log_is_fresh q = true := by
  rcases voted_fresh hid hv hnew with ⟨-, -, hT⟩ | ⟨q, he, hc, hT, hfresh⟩
  · -- Whoever stands moves to the next term.
    exact absurd hT (Nat.succ_ne_self _).symm
  · exact ⟨q, he, hc, hT.symm, hfresh⟩

/-- A new vote of a term is for the candidate of the older ones. -/
theorem VoteInv.second {w : World} (h : VoteInv w) (hid : ∀ i, (w.nodes i).node_id = i) {e : Event}
    (hg : VotesFirst w e) {p c c' : Str} {T : Nat} (hv : Voted w p T c) (hv' : Voted (w.exec e) p T c') : c = c' := by
  by_cases hold : Voted w p T c'
  · exact h.once p T c c' hv hold
  rcases voted_new hid hv' with hold' | ⟨hT, -, hopen⟩
  · exact absurd hold' hold
  have hcur : (w.nodes p).current_term = T := by
    have hle := h.past p T c hv
    have hge := (exec_progress w e p).term_le
    omega
  subst hcur
  obtain ⟨q, rfl, rfl, hqt, hfresh⟩ := voted_granted hid hv' hold
  have hshown : (w.nodes p).voted_for = some q.candidate_id := by
    rcases hopen with hlt | hnone | hs
    · exact absurd hlt (Nat.lt_irrefl _)
    · rcases h.ballot p c hv with hc | ⟨y, -, -, hc, -⟩ <;> rw [hnone] at hc <;> cases hc
    · exact hs
  rcases h.ballot p c hv with hc | ⟨y, hy, hf, hc, hty, hry⟩
  · rw [hshown] at hc
    exact (Option.some.inj hc).symm
  · -- The ballot is the sender of an append request, which has overtaken this one.
    rw [hshown] at hc
    exact hg hqt hfresh ⟨y, hy, hf, (Option.some.inj hc).symm, hty.trans hqt, hry.trans hqt⟩ c (hqt ▸ hv)

theorem voteInv_exec {w : World} (h : VoteInv w) (hid : ∀ i, (w.nodes i).node_id = i) {e : Event}
    (hg : VotesFirst w e) : VoteInv (w.exec e) := by
  refine ⟨?_, ?_, ?_⟩
  · intro p T c hv
    rcases voted_new hid hv with hv | ⟨hT, -, -⟩
    · exact (h.past p T c hv).trans (exec_progress w e p).term_le
    · exact hT.le
  · intro p T c c' hv hv'
    rcases voted_new hid hv with hold | ⟨hT, hb, -⟩
    · exact h.second hid hg hold hv'
    · rcases voted_new hid hv' with hold' | ⟨-, hb', -⟩
      · exact (h.second hid hg hold' hv).symm
      · rw [hb] at hb'
        exact Option.some.inj hb'
  · intro p c hv
    rcases voted_new hid hv with hold | ⟨-, hb, -⟩
    swap
    · exact .inl hb
    -- An older vote is of the current term only if the call did not move it.
    have ht : (w.nodes p).current_term = ((w.exec e).nodes p).current_term :=
      Nat.le_antisymm (exec_progress w e p).term_le (h.past p _ c hold)
    rw [← ht] at hold ⊢
    rcases ballot_kept w e p ht with hn | hk | ⟨m, rfl, hmt, hk⟩
    · rcases h.ballot p c hold with hc | ⟨y, -, -, hc, -⟩ <;> rw [hn] at hc <;> cases hc
    · rw [hk]
      exact (h.ballot p c hold).imp id fun ⟨y, hy, hrest⟩ => ⟨y, exec_appendReplies w e hy, hrest⟩
    · refine .inr ⟨⟨p, m, ((w.nodes p).append_entries m).2⟩, List.mem_cons_self, rfl, hk, hmt, ?_⟩
      rw [append_entries_term hmt.ge, hmt]

theorem voteInv_all {G : World → Event → Prop} (r : Run (Guarded G World.step) World.init)
    (hG : ∀ w e, G w e → VotesFirst w e) (t : Nat) : VoteInv (r.state t) := by
  induction t with
  | zero => rw [r.state_zero]; exact voteInv_init
  | succ t ih =>
    rcases r.state_succ t with hst | ⟨e, hg, hs⟩
    · rw [hst]; exact ih
    · rw [show r.state (t + 1) = (r.state t).exec e from hs]
      exact voteInv_exec ih (run_node_id r t) (hG _ _ hg)

/-- Each voter votes once a term, in every run in which no vote request that an
append request of its sender has overtaken reaches a node that has voted for
another: all its granted answers in a term, and its own candidacy, are for one
candidate. -/
theorem one_vote_per_term (ids : List Str)
    (r : Run (Guarded (fun w e => Network ids w e ∧ VotesFirst w e) World.step) World.init) (t : Nat) (p : Str) (T : Nat)
    (c c' : Str) (hc : Voted (r.state t) p T c) (hc' : Voted (r.state t) p T c') : c = c' :=
  (voteInv_all r (fun _ _ h => h.2) t).once p T c c' hc hc'

/-- Nodes `a` and `b` stand in term 1; `c` votes for `a`, and `b` wins with the
votes of `d` and `e` before its request reaches `c`. -/
def splitVote : List Event :=
  let a := lit "a"; let b := lit "b"; let c := lit "c"; let d := lit "d"; let e := lit "e"
  [.start_election a, .start_election b, .request_vote c ⟨a, 1, 0, 0⟩, .request_vote d ⟨b, 1, 0, 0⟩,
    .request_vote e ⟨b, 1, 0, 0⟩, .observe_vote b ⟨d, ⟨b, 1, 0, 0⟩, ⟨1, true⟩⟩ 5,
    .observe_vote b ⟨e, ⟨b, 1, 0, 0⟩, ⟨1, true⟩⟩ 5, .make_append_entries b c, .append_entries c ⟨b, 1, 0, 0, 0, []⟩]

theorem splitVote_legal :
    Run.Legal (fun w e => Network [lit "a", lit "b", lit "c", lit "d", lit "e"] w e ∧ VotesFirst w e)
      World.exec World.init splitVote := by decide

/-- So far `c` has voted for `a`, and for no one else. -/
theorem splitVote_one_vote :
    ∃ r : Run (Guarded (fun w e => Network [lit "a", lit "b", lit "c", lit "d", lit "e"] w e ∧ VotesFirst w e)
        World.step) World.init,
      Voted (r.state 9) (lit "c") 1 (lit "a") ∧ ∀ c', Voted (r.state 9) (lit "c") 1 c' → lit "a" = c' := by
  have hv : Voted ((Run.ofEvents World.exec World.init _ splitVote_legal).state 9) (lit "c") 1 (lit "a") :=
    .inl ⟨⟨lit "c", ⟨lit "a", 1, 0, 0⟩, ⟨1, true⟩⟩, by decide, rfl, rfl, rfl⟩
  exact ⟨_, hv, fun c' => one_vote_per_term _ _ 9 _ 1 _ c' hv⟩

/-- The run goes on with the vote request of `b` that reaches `c` after its
append request. -/
def secondVote : List Event := splitVote ++ [.request_vote (lit "c") ⟨lit "b", 1, 0, 0⟩]

theorem secondVote_legal : Run.Legal (fun w e => Network [lit "a", lit "b", lit "c", lit "d", lit "e"] w e ∧ Timely w e)
    World.exec World.init secondVote := by decide

/-- Node `c` has voted for `a` and for `b` in term 1. -/
theorem second_vote_after_append :
    ∃ r : Run (Guarded (fun w e => Network [lit "a", lit "b", lit "c", lit "d", lit "e"] w e ∧ Timely w e) World.step)
        World.init,
      Voted (r.state 10) (lit "c") 1 (lit "a") ∧ Voted (r.state 10) (lit "c") 1 (lit "b") ∧ lit "a" ≠ lit "b" := by
  refine ⟨Run.ofEvents World.exec World.init _ secondVote_legal, .inl ?_, .inl ?_, by decide⟩
  · exact ⟨⟨lit "c", ⟨lit "a", 1, 0, 0⟩, ⟨1, true⟩⟩, by decide, rfl, rfl, rfl⟩
  · exact ⟨⟨lit "c", ⟨lit "b", 1, 0, 0⟩, ⟨1, true⟩⟩, by decide, rfl, rfl, rfl⟩

/-! ## The commit index -/

/-- An append request that is accepted commits at least what its receiver has
committed, and does not end before it. -/
def KeepsCommit (w : World) : Event → Prop
  | .append_entries i m => (w.nodes i).current_term ≤ m.term → RaftNode.prevMatches (w.nodes i).log m = true →
      (w.nodes i).commit_index ≤ m.leader_commit ∧
        (m.entries ≠ [] → (w.nodes i).commit_index ≤ m.prev_log_index + m.entries.length)
  | _ => True

instance (w : World) : ∀ e, Decidable (KeepsCommit w e)
  | .append_entries i m => inferInstanceAs (Decidable ((w.nodes i).current_term ≤ m.term →
      RaftNode.prevMatches (w.nodes i).log m = true → (w.nodes i).commit_index ≤ m.leader_commit ∧
        (m.entries ≠ [] → (w.nodes i).commit_index ≤ m.prev_log_index + m.entries.length)))
  | .start_election _ | .request_vote _ _ | .observe_vote _ _ _ | .append_client_command _ _ | .make_append_entries _ _
  | .observe_append_entries_response _ _ _ | .configure_cluster _ _
  | .become_leader_for_single_node _ => inferInstanceAs (Decidable True)

theorem le_advance_commit (s : RaftNode) (n k : Nat) : s.commit_index ≤ s.advance_commit n k := by
  induction k with
  | zero => exact Nat.le_refl _
  | succ k ih =>
    rw [RaftNode.advance_commit]
    split
    · split
      · omega
      · exact ih
    · exact Nat.le_refl _

/-- The last index after an accepted request: where the request ends, or where
the log ended if it sends nothing. -/
theorem Carried.last_index {m : AppendEntriesRequest} {l log : List RaftLogEntry} (h : Carried m l)
    (hlog : WellIndexed log) (hp : RaftNode.prevMatches log m = true) :
    ((m.entries.foldl RaftNode.storeEntry log).getLast?.map (·.index)).getD 0 =
      if m.entries = [] then log.length else m.prev_log_index + m.entries.length := by
  rw [h.stored hp]
  split
  · exact hlog.getLast
  · rw [(h.join_indexed hlog hp).getLast, List.length_append, List.length_take, ← h.entries, min_eq_left (prev_le hp)]

/-- An accepted request keeps the commit index exactly when it reaches it. -/
theorem Carried.commit_kept_iff {m : AppendEntriesRequest} {l : List RaftLogEntry} (h : Carried m l) {s : RaftNode}
    (hs : WellFormed s) (hp : RaftNode.prevMatches s.log m = true) :
    s.commit_index ≤ min m.leader_commit (((m.entries.foldl RaftNode.storeEntry s.log).getLast?.map (·.index)).getD 0) ↔
      s.commit_index ≤ m.leader_commit ∧ (m.entries ≠ [] → s.commit_index ≤ m.prev_log_index + m.entries.length) := by
  rw [h.last_index hs.indexed hp, le_min_iff]
  by_cases he : m.entries = []
  · simp [he, hs.commit_le]
  · simp [he]

/-- No call but `append_entries` lowers a commit index, and that only by a
request that does not reach it. -/
theorem Effect.commit_mono {s s' : RaftNode} {e : Event} (h : Effect e s s') (hs : WellFormed s)
    (hm : ∀ i m, e = .append_entries i m → ∃ l, Carried m l)
    (hk : ∀ i m, e = .append_entries i m → s.current_term ≤ m.term → RaftNode.prevMatches s.log m = true →
      s.commit_index ≤ m.leader_commit ∧ (m.entries ≠ [] → s.commit_index ≤ m.prev_log_index + m.entries.length)) :
    s.commit_index ≤ s'.commit_index := by
  cases h with
  | granted i q _ b hb => rcases hb with ⟨rfl, -⟩ | ⟨rfl, -⟩ <;> exact Nat.le_refl _
  | commanded i c _ hr =>
    have hlen : s.last_index = s.log.length := hs.indexed.getLast
    have hle := hs.commit_le
    simp only [hlen]
    omega
  | stored i m _ l ht hp hl =>
    obtain ⟨l', hcarried⟩ := hm i m rfl
    subst hl
    exact (hcarried.commit_kept_iff hs hp).2 (hk i m rfl ht hp)
  | indexed _ _ ni mi c hc =>
    rcases hc with rfl | ⟨-, n, rfl⟩
    · exact Nat.le_refl _
    · exact le_advance_commit { s with next_index := ni, match_index := mi } n _
  | idle | stood | down | counted | won | refused | crowned => exact Nat.le_refl _

/-- No commit index ever goes down, in every run in which each accepted append
request reaches what its receiver has committed. -/
theorem commit_index_mono (r : Run (Guarded (fun w e => Delivered w e ∧ KeepsCommit w e) World.step) World.init)
    (i : Str) (t t' : Nat) (h : t ≤ t') :
    ((r.state t).nodes i).commit_index ≤ ((r.state t').nodes i).commit_index := by
  refine r.mono (fun w w' => (w.nodes i).commit_index ≤ (w'.nodes i).commit_index) (fun _ => Nat.le_refl _)
    (fun _ _ _ => Nat.le_trans) ?_ t t' h
  rintro t e ⟨⟨hdelivered, hkeeps⟩, hs⟩
  have hs : r.state (t + 1) = (r.state t).exec e := hs
  obtain ⟨hnodes, hsent⟩ := wellFormed_all (r.weaken fun _ _ hg => hg.1) t
  rw [hs]
  by_cases hi : i = e.node
  · subst hi
    rw [World.exec_nodes_self]
    refine (apply_effect _ e).commit_mono (hnodes _) (fun j m he => ?_) (fun j m he => ?_)
    · subst he; exact hsent m hdelivered
    · subst he; exact hkeeps
  · rw [World.exec_nodes_ne _ e hi]

/-- Node `a` leads, sends `b` a heartbeat that is delayed, takes a command and
replicates it to `b`. -/
def delayedHeartbeat : List Event :=
  let a := lit "a"; let b := lit "b"
  [.start_election a, .request_vote b ⟨a, 1, 0, 0⟩, .observe_vote a ⟨b, ⟨a, 1, 0, 0⟩, ⟨1, true⟩⟩ 3,
    .make_append_entries a b, .configure_cluster a [b], .append_client_command a (lit "x"), .make_append_entries a b,
    .append_entries b ⟨a, 1, 0, 0, 1, [⟨1, 1, lit "x"⟩]⟩]

instance (w : World) : ∀ e, Decidable (Delivered w e)
  | .append_entries _ m => inferInstanceAs (Decidable (m ∈ w.appendRequests))
  | .start_election _ | .request_vote _ _ | .observe_vote _ _ _ | .append_client_command _ _ | .make_append_entries _ _
  | .observe_append_entries_response _ _ _ | .configure_cluster _ _
  | .become_leader_for_single_node _ => inferInstanceAs (Decidable True)

theorem delayedHeartbeat_legal :
    Run.Legal (fun w e => Delivered w e ∧ KeepsCommit w e) World.exec World.init delayedHeartbeat := by decide

/-- The commit index of `b` has reached 1, and stays there or above. -/
theorem delayedHeartbeat_commit :
    ∃ r : Run (Guarded (fun w e => Delivered w e ∧ KeepsCommit w e) World.step) World.init,
      ((r.state 8).nodes (lit "b")).commit_index = 1 ∧ ∀ t ≥ 8, 1 ≤ ((r.state t).nodes (lit "b")).commit_index := by
  let r := Run.ofEvents World.exec World.init _ delayedHeartbeat_legal
  have h8 : ((r.state 8).nodes (lit "b")).commit_index = 1 := by decide
  exact ⟨r, h8, fun t ht => h8 ▸ commit_index_mono r (lit "b") 8 t ht⟩

/-- The run goes on with the heartbeat. -/
def lateHeartbeat : List Event := delayedHeartbeat ++ [.append_entries (lit "b") ⟨lit "a", 1, 0, 0, 0, []⟩]

theorem lateHeartbeat_legal : Run.Legal (fun w e => Network [lit "a", lit "b", lit "c"] w e ∧ Timely w e)
    World.exec World.init lateHeartbeat := by decide

/-- The heartbeat takes the commit index of `b` from 1 back to 0. -/
theorem late_heartbeat_lowers_commit :
    ∃ r : Run (Guarded (fun w e => Network [lit "a", lit "b", lit "c"] w e ∧ Timely w e) World.step) World.init,
      OneLeader r ∧ ((r.state 9).nodes (lit "b")).commit_index < ((r.state 8).nodes (lit "b")).commit_index :=
  ⟨Run.ofEvents World.exec World.init _ lateHeartbeat_legal, oneLeader_timely (by decide) _, by decide⟩

/-! ## The log -/

/-- The log has an entry of that index and term. -/
def present (log : List RaftLogEntry) (entry : RaftLogEntry) : Bool :=
  log.any fun x => x.index == entry.index && x.term == entry.term

/-- What the entry loop is for: a log that has every sent entry is kept, any
other is cut before the first sent entry it lacks, and gets the rest. -/
def reconciled (log : List RaftLogEntry) : List RaftLogEntry → List RaftLogEntry
  | [] => log
  | entry :: entries =>
    if present log entry then reconciled log entries else log.take (entry.index - 1) ++ entry :: entries

/-- The entries follow each other from the one after `prev_log_index` on. -/
def Consecutive (m : AppendEntriesRequest) : Prop :=
  ∀ (k : Nat) (e : RaftLogEntry), m.entries[k]? = some e → e.index = m.prev_log_index + k + 1

instance (m : AppendEntriesRequest) : Decidable (Consecutive m) :=
  decidable_of_iff (∀ k : Fin m.entries.length, (m.entries.get k).index = m.prev_log_index + k + 1)
    ⟨fun h k e hk => by
      obtain ⟨hlt, rfl⟩ := List.getElem?_eq_some_iff.1 hk
      exact h ⟨k, hlt⟩, fun h k => h k _ (List.getElem?_eq_getElem k.isLt)⟩

/-- The leading entries that the log has already. -/
def repeated (log entries : List RaftLogEntry) : List RaftLogEntry := entries.takeWhile (present log)

/-- The entries that are repeated are those of the log, commands included, and
a request that only repeats ends where the log ends. -/
def Overlaps (log : List RaftLogEntry) (m : AppendEntriesRequest) : Prop :=
  repeated log m.entries = (log.drop m.prev_log_index).take (repeated log m.entries).length ∧
    (repeated log m.entries = m.entries → m.prev_log_index + m.entries.length = log.length)

instance (log : List RaftLogEntry) (m : AppendEntriesRequest) : Decidable (Overlaps log m) :=
  inferInstanceAs (Decidable (_ ∧ _))

theorem present_iff {log : List RaftLogEntry} (h : WellIndexed log) {e : RaftLogEntry} {k : Nat} (he : e.index = k + 1) :
    present log e = true ↔ ∃ x, log[k]? = some x ∧ x.term = e.term := by
  simp only [present, List.any_eq_true, Bool.and_eq_true, beq_iff_eq]
  constructor
  · rintro ⟨x, hx, hi, ht⟩
    obtain ⟨j, hj⟩ := List.mem_iff_getElem?.1 hx
    have := h j x hj
    obtain rfl : j = k := by omega
    exact ⟨x, hj, ht⟩
  · rintro ⟨x, hx, ht⟩
    exact ⟨x, List.mem_of_getElem? hx, by rw [h k x hx, he], ht⟩

/-- `reconciled` by the number of repeated entries. -/
theorem reconciled_eq {log : List RaftLogEntry} (h : WellIndexed log) (es : List RaftLogEntry) (p : Nat)
    (hp : p ≤ log.length) (hes : ∀ (k : Nat) (e : RaftLogEntry), es[k]? = some e → e.index = p + k + 1) :
    p + (repeated log es).length ≤ log.length ∧
      reconciled log es = if repeated log es = es then log
        else log.take (p + (repeated log es).length) ++ es.drop (repeated log es).length := by
  induction es generalizing p with
  | nil => exact ⟨by simpa [repeated] using hp, by simp [repeated, reconciled]⟩
  | cons e es ih =>
    have he : e.index = p + 1 := by simpa using hes 0 e rfl
    by_cases hpres : present log e = true
    · obtain ⟨x, hx, -⟩ := (present_iff h he).1 hpres
      have hlt := (List.getElem?_eq_some_iff.1 hx).1
      obtain ⟨hle, hrec⟩ := ih (p + 1) hlt fun k y hk => by
        have := hes (k + 1) y (by simpa using hk)
        omega
      have hrep : repeated log (e :: es) = e :: repeated log es := by simp [repeated, hpres]
      rw [hrep, List.length_cons]
      refine ⟨by omega, ?_⟩
      rw [reconciled, if_pos hpres, hrec]
      simp [Nat.add_assoc, Nat.add_comm 1]
    · have hrep : repeated log (e :: es) = [] := by simp [repeated, hpres]
      rw [hrep]
      refine ⟨by simpa using hp, ?_⟩
      simp [reconciled, hpres, he]

theorem repeated_append (log es : List RaftLogEntry) : repeated log es ++ es.drop (repeated log es).length = es := by
  have hstart : repeated log es = es.take (repeated log es).length :=
    List.prefix_iff_eq_take.1 (List.takeWhile_prefix (present log))
  conv_lhs => lhs; rw [hstart]
  exact List.take_append_drop _ _

/-- An accepted request whose entries follow each other leaves the log that
`reconciled` describes exactly when it sends nothing, or what it repeats are
the entries of the log and do not end before it. -/
theorem append_entries_reconciles_iff (s : RaftNode) (m : AppendEntriesRequest) (hlog : WellIndexed s.log)
    (hm : Consecutive m) (hok : (s.append_entries m).2.success = true) :
    (s.append_entries m).1.log = reconciled s.log m.entries ↔ m.entries = [] ∨ Overlaps s.log m := by
  obtain ⟨-, hp, hstored⟩ := append_entries_success (T := (s.append_entries m).2.term) (by rw [← hok])
  have hle := prev_le hp
  obtain ⟨hlen, hrec⟩ := reconciled_eq hlog m.entries m.prev_log_index hle hm
  rw [hstored, foldl_storeEntry m.entries s.log m.prev_log_index hle hm, hrec, Overlaps]
  by_cases hnil : m.entries = []
  · simp [hnil, repeated]
  simp only [hnil, if_false, false_or]
  by_cases hall : repeated s.log m.entries = m.entries
  · -- Only repeated entries: the old log must be what was sent.
    rw [if_pos hall, hall]
    constructor
    · intro h
      have hdrop : m.entries = s.log.drop m.prev_log_index := by
        conv_rhs at h => rw [← List.take_append_drop m.prev_log_index s.log]
        exact List.append_cancel_left h
      have hlen' := congrArg List.length hdrop
      rw [List.length_drop] at hlen'
      refine ⟨?_, fun _ => by omega⟩
      conv_lhs => rw [hdrop]
      rw [List.take_of_length_le]
      rw [List.length_drop]; omega
    · rintro ⟨htake, hend⟩
      have hend := hend rfl
      rw [List.take_of_length_le (by rw [List.length_drop]; omega)] at htake
      rw [htake, List.take_append_drop]
  · rw [if_neg hall, List.take_add, List.append_assoc, List.append_cancel_left_eq]
    conv_lhs => lhs; rw [← repeated_append s.log m.entries]
    rw [List.append_cancel_right_eq]
    simp [hall]

/-- A request that repeats the entry of its follower and sends the next. -/
theorem next_entry_reconciles :
    let s : RaftNode := { node_id := lit "b", current_term := 1, log := [⟨1, 1, lit "x"⟩] }
    let m : AppendEntriesRequest := ⟨lit "a", 1, 0, 0, 0, [⟨1, 1, lit "x"⟩, ⟨2, 1, lit "y"⟩]⟩
    WellIndexed s.log ∧ Consecutive m ∧ (s.append_entries m).1.log = reconciled s.log m.entries := by
  intro s m
  have hlog : WellIndexed s.log := by decide
  have hm : Consecutive m := by decide
  exact ⟨hlog, hm, (append_entries_reconciles_iff s m hlog hm (by decide)).2 (.inr (by decide))⟩

/-- Node `b` has taken two entries when the request that brought the first
arrives again: the second is gone. -/
theorem late_duplicate_truncates :
    let first : AppendEntriesRequest := ⟨lit "a", 1, 0, 0, 0, [⟨1, 1, lit "x"⟩]⟩
    let second : AppendEntriesRequest := ⟨lit "a", 1, 1, 1, 0, [⟨2, 1, lit "y"⟩]⟩
    let fresh : RaftNode := { node_id := lit "b" }
    let s := ((fresh.append_entries first).1.append_entries second).1
    WellIndexed s.log ∧ Consecutive first ∧ (s.append_entries first).2.success = true ∧
      (∀ e ∈ first.entries, present s.log e = true) ∧ s.log = [⟨1, 1, lit "x"⟩, ⟨2, 1, lit "y"⟩] ∧
      (s.append_entries first).1.log = [⟨1, 1, lit "x"⟩] ∧
      (s.append_entries first).1.log ≠ reconciled s.log first.entries := by
  intro first second fresh s
  decide

end Dstore.Raft
