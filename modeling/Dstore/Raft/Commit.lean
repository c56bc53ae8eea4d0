import Dstore.Raft.WellFormed
/-!
# What is committed

`append_client_command` moves the commit index to its entry at once, before
any follower has it. Two nodes can then commit different entries at one index
(`early_commit_diverges`).

Since a leader commits its own entries as it appends them, the loop that counts
acknowledgements never finds one to commit (`advance_commit_idle`), and every
commit index covers a prefix of a log that some leader had right after a
command (`CommittedLog`, `commits_from`).

`Orderly` is what the caller has to see to, call by call, so that such logs are
never lost: `Dstore.Raft.Completeness` shows that it is enough.
-/
open Dstore.Lib

namespace Dstore.Raft

/-! ## The caller's part -/

/-- More than half of the nodes have `l` at the start of their logs. -/
def InMajority (ids : List Str) (w : World) (l : List RaftLogEntry) : Prop :=
  ids.length < 2 * ids.countP (fun p => decide (l <+: (w.nodes p).log))

/-- The request repeats entries of the log and ends before it does. -/
def Cuts (log : List RaftLogEntry) (m : AppendEntriesRequest) : Prop :=
  m.entries ≠ [] ∧ (∀ e ∈ m.entries, e ∈ log) ∧ m.prev_log_index + m.entries.length < log.length

/-- An election starts only when a majority has what each node has committed; a
leader is handed a command only while no node is past its term; an append
request goes to another node than its sender, and does not cut the log it is
accepted for. -/
def Orderly (ids : List Str) (w : World) : Event → Prop
  | .start_election _ => ∀ j ∈ ids, InMajority ids w ((w.nodes j).log.take (w.nodes j).commit_index)
  | .append_client_command i _ => (w.nodes i).role = .kLeader →
      ∀ j ∈ ids, (w.nodes j).current_term ≤ (w.nodes i).current_term
  | .append_entries i m => i ≠ m.leader_id ∧ ((w.nodes i).current_term ≤ m.term →
      RaftNode.prevMatches (w.nodes i).log m = true → ¬ Cuts (w.nodes i).log m)
  | _ => True

instance (ids : List Str) (w : World) (l : List RaftLogEntry) : Decidable (InMajority ids w l) :=
  inferInstanceAs (Decidable (_ < _))

instance (log : List RaftLogEntry) (m : AppendEntriesRequest) : Decidable (Cuts log m) :=
  inferInstanceAs (Decidable (_ ∧ _))

instance (ids : List Str) (w : World) : ∀ e, Decidable (Orderly ids w e)
  | .start_election _ => inferInstanceAs (Decidable (∀ j ∈ ids, InMajority ids w
      ((w.nodes j).log.take (w.nodes j).commit_index)))
  | .append_client_command i _ => inferInstanceAs (Decidable ((w.nodes i).role = .kLeader →
      ∀ j ∈ ids, (w.nodes j).current_term ≤ (w.nodes i).current_term))
  | .append_entries i m => inferInstanceAs (Decidable (i ≠ m.leader_id ∧ ((w.nodes i).current_term ≤ m.term →
      RaftNode.prevMatches (w.nodes i).log m = true → ¬ Cuts (w.nodes i).log m)))
  | .request_vote _ _ | .observe_vote _ _ _ | .make_append_entries _ _ | .observe_append_entries_response _ _ _
  | .configure_cluster _ _ | .become_leader_for_single_node _ => inferInstanceAs (Decidable True)

theorem InMajority.exists_finset {ids : List Str} (hids : ids.Nodup) {w : World} {l : List RaftLogEntry}
    (h : InMajority ids w l) : ∃ S : Finset Str, S ⊆ ids.toFinset ∧ ids.length < 2 * S.card ∧
      ∀ p ∈ S, l <+: (w.nodes p).log := by
  refine ⟨(ids.filter fun p => decide (l <+: (w.nodes p).log)).toFinset, ?_, ?_, fun p hp => ?_⟩
  · intro p hp
    exact List.mem_toFinset.2 (List.mem_filter.1 (List.mem_toFinset.1 hp)).1
  · rw [List.toFinset_card_of_nodup (hids.filter _), ← List.countP_eq_length_filter]
    exact h
  · exact of_decide_eq_true (List.mem_filter.1 (List.mem_toFinset.1 hp)).2

/-! ## One step -/

/-- The leader's commit index covers its own entries. -/
def CommitsOwn (s : RaftNode) : Prop :=
  ∀ (k : Nat) (e : RaftLogEntry), s.log[k]? = some e → e.term = s.current_term → k < s.commit_index

/-- With its own entries committed, a leader finds none to commit. -/
theorem advance_commit_idle {s : RaftNode} (h : CommitsOwn s) (n : Nat) : ∀ k, s.advance_commit n k = s.commit_index := by
  intro k
  induction k with
  | zero => rfl
  | succ k ih =>
    rw [RaftNode.advance_commit]
    split
    · next hgt =>
      rw [if_neg, ih]
      rintro ⟨-, hterm⟩
      obtain ⟨e, he, het⟩ := Option.map_eq_some_iff.1 hterm
      have := h k e he het
      omega
    · rfl

/-- How logs and commit indices move: on a command and on an accepted append
request. -/
theorem Effect.commit {s s' : RaftNode} {e : Event} (h : Effect e s s') (hown : s.role = .kLeader → CommitsOwn s) :
    (s'.log = s.log ∧ s'.commit_index = s.commit_index) ∨
    (∃ i c, e = .append_client_command i c ∧ s.role = .kLeader ∧ s'.role = .kLeader ∧ s'.current_term = s.current_term ∧
      s'.log = s.log ++ [⟨s.last_index + 1, s.current_term, c⟩] ∧ s'.commit_index = s.last_index + 1) ∨
    ∃ i m, e = .append_entries i m ∧ s'.role = .kFollower ∧ s.current_term ≤ m.term ∧
      RaftNode.prevMatches s.log m = true ∧ s'.log = m.entries.foldl RaftNode.storeEntry s.log ∧
      s'.commit_index ≤ m.leader_commit := by
  cases h with
  | granted i q _ b hb => rcases hb with ⟨rfl, -⟩ | ⟨rfl, -⟩ <;> exact .inl ⟨rfl, rfl⟩
  | commanded i c _ hr => exact .inr (.inl ⟨i, c, rfl, hr, hr, rfl, rfl, rfl⟩)
  | stored i m _ l ht hp hl => exact .inr (.inr ⟨i, m, rfl, rfl, ht, hp, hl, min_le_left _ _⟩)
  | indexed _ _ ni mi c hc =>
    refine .inl ⟨rfl, ?_⟩
    rcases hc with rfl | ⟨hr, n, rfl⟩
    · rfl
    · exact advance_commit_idle (s := { s with next_index := ni, match_index := mi }) (hown hr) n _
  | idle | stood | down | counted | won | refused | crowned => exact .inl ⟨rfl, rfl⟩

/-- A leader that is none any more in the same term has taken an append
request of that term. -/
theorem Effect.deposed {s s' : RaftNode} {e : Event} (h : Effect e s s') (hr : s.role = .kLeader)
    (ht : s'.current_term = s.current_term) : s'.role = .kLeader ∨ ∃ i m, e = .append_entries i m ∧
      m.term = s.current_term := by
  cases h with
  | stood | crowned => exact absurd ht (Nat.succ_ne_self _)
  | down _ _ T hlt => exact absurd ht hlt.ne'
  | granted i q _ b hb =>
    rcases hb with ⟨rfl, hlt⟩ | ⟨rfl, -⟩
    · exact absurd ht hlt.ne'
    · exact .inl hr
  | refused i m | stored i m => exact .inr ⟨i, m, rfl, ht⟩
  | counted _ _ _ _ hc | won _ _ _ _ _ _ _ hc => rw [hr] at hc; cases hc
  | idle | commanded | indexed => exact .inl hr

/-! ## Along a run -/

section Safety
variable {ids : List Str} (r : Run (Guarded (fun w e => Network ids w e ∧ Timely w e) World.step) World.init)

/-- The log of the leader of term `T` after it has taken a command. -/
def CommittedLog (t T : Nat) (l : List RaftLogEntry) : Prop := LeaderLog r t T l ∧ ∃ x, l.getLast? = some x ∧ x.term = T

variable {r}

theorem CommittedLog.mono {t t' T : Nat} {l : List RaftLogEntry} (h : CommittedLog r t T l) (ht : t ≤ t') :
    CommittedLog r t' T l := ⟨h.1.mono ht, h.2⟩

theorem logInv_timely (hids : ids.Nodup) (t : Nat) : LogInv (r.weaken shipped_of_network) t :=
  logInv_all ((oneLeader_timely hids r).weaken _) t

theorem wellFormed_timely (t : Nat) (i : Str) : WellFormed ((r.state t).nodes i) := by
  have hdelivered : ∀ w e, Network ids w e ∧ Timely w e → Delivered w e := fun w e h => by
    cases e with
    | append_entries i m => exact h.1.2
    | _ => trivial
  exact (wellFormed_all (r.weaken hdelivered) t).1 i

/-- A candidate that wins has no entry of its own term. -/
theorem candidate_terms (hids : ids.Nodup) {t T : Nat} {i : Str} (hc : ((r.state t).nodes i).role = .kCandidate)
    (hl : (r.state (t + 1)).Leads i T) {x : RaftLogEntry} (hx : x ∈ ((r.state t).nodes i).log) : x.term ≠ T := by
  rintro rfl
  obtain ⟨k, hk⟩ := List.mem_iff_getElem?.1 hx
  obtain ⟨l, ⟨u, hu, j, hj, -⟩, -⟩ := (logInv_timely hids t).shared _ k x hk
  obtain rfl := oneLeader_timely hids r _ _ _ _ _ hl hj
  have hterm : ((r.state t).nodes i).current_term = x.term := by
    have hle := (led_term r ⟨u, hu, hj⟩).1
    have hge := (run_progress r i (Nat.le_add_right t 1)).term_le
    have := hl.2
    omega
  exact (led_term r ⟨u, hu, hj⟩).2 hterm hc

/-- Leaders have committed their own entries. -/
theorem commitsOwn_all (hids : ids.Nodup) (t : Nat) (i : Str) (hr : ((r.state t).nodes i).role = .kLeader) :
    CommitsOwn ((r.state t).nodes i) := by
  induction t generalizing i with
  | zero => rw [r.state_zero] at hr; cases hr
  | succ t ih =>
    rcases r.state_succ t with hst | ⟨e, hg, hs⟩
    · rw [hst] at hr ⊢; exact ih i hr
    have hs : r.state (t + 1) = (r.state t).exec e := hs
    by_cases hi : i = e.node
    swap
    · rw [hs, World.exec_nodes_ne _ e hi] at hr ⊢; exact ih i hr
    subst hi
    have heff := apply_effect ((r.state t).nodes e.node) e
    rw [← World.exec_nodes_self, ← hs] at heff
    have hlen := (wellFormed_timely (r := r) t e.node).indexed.getLast
    intro k x hk hx
    rcases heff.commit (ih e.node) with ⟨hlog, hci⟩ | ⟨-, c, -, -, -, -, hlog, hci⟩ | ⟨-, m, -, hf, -⟩
    · rcases heff.leader hr with ⟨hr', ht⟩ | ⟨j, rfl⟩ | ⟨j, y, n, -, hc, ht, -⟩
      · exact hci ▸ ih e.node hr' k x (hlog ▸ hk) (ht ▸ hx)
      · exact absurd hg.1 id
      · exact absurd hx (candidate_terms hids hc ⟨hr, rfl⟩ (List.mem_of_getElem? (hlog ▸ hk)))
    · have hlt := (List.getElem?_eq_some_iff.1 hk).1
      rw [hlog, List.length_append, List.length_singleton] at hlt
      rw [hci, RaftNode.last_index, hlen]
      exact hlt
    · rw [hf] at hr; cases hr

/-- A commit index covers a prefix of a log some leader had after a command. -/
theorem commits_from (hids : ids.Nodup) (t : Nat) (i : Str) (hpos : 0 < ((r.state t).nodes i).commit_index) :
    ∃ T l, CommittedLog r t T l ∧ ((r.state t).nodes i).log.take ((r.state t).nodes i).commit_index <+: l := by
  induction t using Nat.strong_induction_on generalizing i with
  | _ t ih =>
    cases t with
    | zero => rw [r.state_zero] at hpos; exact absurd hpos (Nat.lt_irrefl 0)
    | succ t =>
      have hkeep : ∀ {j}, ((r.state (t + 1)).nodes i).log = ((r.state t).nodes j).log →
          ((r.state (t + 1)).nodes i).commit_index = ((r.state t).nodes j).commit_index →
          ∃ T l, CommittedLog r (t + 1) T l ∧
            ((r.state (t + 1)).nodes i).log.take ((r.state (t + 1)).nodes i).commit_index <+: l := fun {j} hl hc => by
        obtain ⟨T, l, hcl, hp⟩ := ih t (Nat.lt_succ_self t) j (hc ▸ hpos)
        exact ⟨T, l, hcl.mono (Nat.le_succ t), by rw [hl, hc]; exact hp⟩
      rcases r.state_succ t with hst | ⟨e, hg, hs⟩
      · exact hkeep (by rw [hst]) (by rw [hst])
      have hs : r.state (t + 1) = (r.state t).exec e := hs
      by_cases hi : i = e.node
      swap
      · exact hkeep (by rw [hs, World.exec_nodes_ne _ e hi]) (by rw [hs, World.exec_nodes_ne _ e hi])
      subst hi
      have heff := apply_effect ((r.state t).nodes e.node) e
      rw [← World.exec_nodes_self, ← hs] at heff
      rcases heff.commit (commitsOwn_all hids t e.node) with
        ⟨hl, hc⟩ | ⟨-, c, -, -, hr, ht, hl, -⟩ | ⟨i, m, rfl, -, -, hp, hl, hc⟩
      · exact hkeep hl hc
      · refine ⟨_, _, ⟨⟨t + 1, Nat.le_refl _, _, ⟨hr, rfl⟩, rfl⟩, ?_⟩, List.take_prefix _ _⟩
        exact ⟨_, by rw [hl, List.getLast?_concat], ht.symm⟩
      · -- A follower commits what the sender had committed when it sent.
        obtain ⟨u, hu, j, f, -, hm⟩ := (logInv_timely hids t).sent m hg.1.2
        have hm' : m.leader_commit = ((r.state u).nodes j).commit_index := by rw [hm]; rfl
        obtain ⟨T, l, hcl, hpre⟩ := ih u (Nat.lt_succ_of_le hu) j (by omega)
        refine ⟨T, l, hcl.mono (by omega), List.IsPrefix.trans ?_ hpre⟩
        have hlog : ((r.state u).nodes j).log <+: ((r.state (t + 1)).nodes i).log :=
          (stored_log ((oneLeader_timely hids r).weaken shipped_of_network) hu (logInv_timely hids t)
            (logInv_timely hids u) hm hp hl).2
        have hle := (wellFormed_timely (r := r) u j).commit_le
        have htake : ((r.state (t + 1)).nodes i).log.take ((r.state (t + 1)).nodes i).commit_index =
            ((r.state u).nodes j).log.take ((r.state (t + 1)).nodes i).commit_index := by
          obtain ⟨tail, htail⟩ := hlog
          rw [← htail, List.take_append_of_le_length (by simp only [Event.node] at hc; omega)]
        simp only [Event.node]
        rw [htake]
        exact List.take_prefix_take_left (by simp only [Event.node] at hc; omega)

/-- A log some leader has after a step and a command was there before, or the
step is the command. -/
theorem committedLog_succ (hids : ids.Nodup) {t T : Nat} {l : List RaftLogEntry} {e : Event}
    (hg : Network ids (r.state t) e ∧ Timely (r.state t) e) (hs : r.state (t + 1) = (r.state t).exec e)
    (h : CommittedLog r (t + 1) T l) :
    CommittedLog r t T l ∨ ∃ i c, e = .append_client_command i c ∧ (r.state t).Leads i T := by
  obtain ⟨⟨u, hu, i, hl, rfl⟩, x, hx, hxt⟩ := h
  rcases Nat.le_succ_iff.1 hu with hu | rfl
  · exact .inl ⟨⟨u, hu, i, hl, rfl⟩, x, hx, hxt⟩
  by_cases hi : i = e.node
  swap
  · have hsame : (r.state (t + 1)).nodes i = (r.state t).nodes i := by rw [hs, World.exec_nodes_ne _ e hi]
    unfold World.Leads at hl
    rw [hsame] at hl hx ⊢
    exact .inl ⟨⟨t, Nat.le_refl _, i, hl, rfl⟩, x, hx, hxt⟩
  subst hi
  have heff := apply_effect ((r.state t).nodes e.node) e
  rw [← World.exec_nodes_self, ← hs] at heff
  rcases heff.commit (commitsOwn_all hids t e.node) with ⟨hlog, -⟩ | ⟨i, c, rfl, hr, -, ht, -⟩ | ⟨-, m, -, hf, -⟩
  · rcases heff.leader hl.1 with ⟨hr', ht⟩ | ⟨j, rfl⟩ | ⟨j, y, n, -, hc, ht, -⟩
    · exact .inl ⟨⟨t, Nat.le_refl _, _, ⟨hr', ht ▸ hl.2⟩, hlog.symm⟩, x, hx, hxt⟩
    · exact absurd hg.1 id
    · exact absurd hxt (candidate_terms hids hc hl (List.mem_of_getLast? (hlog ▸ hx)))
  · exact .inr ⟨i, c, rfl, hr, ht ▸ hl.2⟩
  · exact absurd (hl.1.symm.trans hf) (by decide)

end Safety

/-! ## An early commit -/

/-- Node `a` leads term 1 with the vote of `b` and takes a command that it
never sends; `b` then leads term 2 with the vote of `c` and takes another. -/
def earlyCommit : List Event :=
  let a := lit "a"; let b := lit "b"; let c := lit "c"
  [.start_election a, .request_vote b ⟨a, 1, 0, 0⟩, .observe_vote a ⟨b, ⟨a, 1, 0, 0⟩, ⟨1, true⟩⟩ 3,
    .append_client_command a (lit "x"), .start_election b, .request_vote c ⟨b, 2, 0, 0⟩,
    .observe_vote b ⟨c, ⟨b, 2, 0, 0⟩, ⟨2, true⟩⟩ 3, .append_client_command b (lit "y")]

theorem earlyCommit_legal : Run.Legal (fun w e => Network [lit "a", lit "b", lit "c"] w e ∧ Timely w e)
    World.exec World.init earlyCommit := by decide

/-- Both nodes have committed index 1, with different entries. -/
theorem early_commit_diverges :
    ∃ r : Run (Guarded (fun w e => Network [lit "a", lit "b", lit "c"] w e ∧ Timely w e) World.step) World.init,
      OneLeader r ∧ 1 ≤ ((r.state 8).nodes (lit "a")).commit_index ∧ 1 ≤ ((r.state 8).nodes (lit "b")).commit_index ∧
      ((r.state 8).nodes (lit "a")).log[0]? = some ⟨1, 1, lit "x"⟩ ∧
      ((r.state 8).nodes (lit "b")).log[0]? = some ⟨1, 2, lit "y"⟩ :=
  ⟨Run.ofEvents World.exec World.init _ earlyCommit_legal, oneLeader_timely (by decide) _, by decide, by decide,
    by decide, by decide⟩

end Dstore.Raft
