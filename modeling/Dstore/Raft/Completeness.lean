import Dstore.Raft.Commit
/-!
# State-machine safety

In a run whose calls are `Orderly`, no committed entry is lost: a leader of a
later term has every log that an earlier leader has committed
(`CompleteInv.complete`), so committed entries agree on every two nodes and at
every two times (`state_machine_safety`).

When an election starts, a majority has what is committed. Those who have it
keep it, since no request cuts a log and later leaders have it too
(`CompleteInv.kept`), and vote only for candidates that are as fresh. So each
of them that votes in that election vouches for the candidate
(`CompleteInv.held`), and one of them is in any majority that elects it: then
the candidate's last entry is in the log of a leader that has what is committed
(`CompleteInv.isPrefix_of_fresh`).
-/
open Dstore.Lib

namespace Dstore.Raft

/-! ## Fresh logs -/

/-- The log with this last entry is as fresh as `l`, which ends in term `T`. -/
def AsFresh (last_term last_index T : Nat) (l : List RaftLogEntry) : Prop :=
  T < last_term ∨ last_term = T ∧ l.length ≤ last_index

theorem WellFormed.le_last_term {s : RaftNode} (h : WellFormed s) {x : RaftLogEntry} (hx : x ∈ s.log) :
    x.term ≤ s.last_term := by
  have hasc := h.ascending
  unfold RaftNode.last_term
  rcases s.log.eq_nil_or_concat with hnil | ⟨l, e, he⟩
  · rw [hnil] at hx; cases hx
  · rw [he, List.concat_eq_append] at hx hasc ⊢
    rw [List.getLast?_concat]
    rcases List.mem_append.1 hx with hx | hx
    · exact (List.pairwise_append.1 hasc).2.2 x hx e (List.mem_singleton.2 rfl)
    · rw [List.mem_singleton.1 hx]; exact Nat.le_refl _

/-- A node that has `l` is as fresh as `l`. -/
theorem asFresh_self {s : RaftNode} (h : WellFormed s) {l : List RaftLogEntry} {x : RaftLogEntry} {T : Nat}
    (hl : l <+: s.log) (hx : l.getLast? = some x) (hxt : x.term = T) : AsFresh s.last_term s.last_index T l := by
  have hterm := h.le_last_term (hl.subset (List.mem_of_getLast? hx))
  have hlen : s.last_index = s.log.length := h.indexed.getLast
  have hle := hl.length_le
  unfold AsFresh
  omega

/-- Whom a node that has `l` votes for is as fresh as `l`. -/
theorem asFresh_granted {s : RaftNode} (h : WellFormed s) {l : List RaftLogEntry} {x : RaftLogEntry} {T : Nat}
    (hl : l <+: s.log) (hx : l.getLast? = some x) (hxt : x.term = T) {q : VoteRequest}
    (hq : s.candidate_log_is_fresh q = true) : AsFresh q.last_log_term q.last_log_index T l := by
  have hself := asFresh_self h hl hx hxt
  simp only [RaftNode.candidate_log_is_fresh, Bool.or_eq_true, decide_eq_true_eq, Bool.and_eq_true, beq_iff_eq] at hq
  unfold AsFresh at hself ⊢
  omega

/-- A request for a log that starts with the sender's, if it does not cut it,
sends nothing or comes from the same log. -/
theorem eq_of_not_cuts {log l : List RaftLogEntry} {m : AppendEntriesRequest} (hm : m.entries = l.drop m.prev_log_index)
    (hle : m.prev_log_index ≤ l.length) (hpre : l <+: log) (hcut : ¬ Cuts log m) : m.entries = [] ∨ log = l := by
  by_cases hnil : m.entries = []
  · exact .inl hnil
  refine .inr (hpre.eq_of_length_le ?_).symm
  by_contra hlt
  refine hcut ⟨hnil, fun e he => hpre.subset (List.mem_of_mem_drop (hm ▸ he)), ?_⟩
  rw [hm, List.length_drop]
  omega

/-! ## Elections and terms -/

/-- The candidate of a request that is still open has the log it named. -/
def Named (w : World) : Prop :=
  ∀ q ∈ w.voteRequests, (w.nodes q.candidate_id).role = .kCandidate → (w.nodes q.candidate_id).current_term = q.term →
    q.last_log_term = (w.nodes q.candidate_id).last_term ∧ q.last_log_index = (w.nodes q.candidate_id).last_index

/-- Some election is of term `T` or a later one. -/
def Called (w : World) (T : Nat) : Prop := T = 0 ∨ ∃ q ∈ w.voteRequests, T ≤ q.term

/-- The terms of nodes and messages are those of elections. -/
structure TermsCalled (w : World) : Prop where
  node : ∀ i, Called w (w.nodes i).current_term
  voteReply : ∀ y ∈ w.voteReplies, Called w y.response.term
  appendRequest : ∀ m ∈ w.appendRequests, Called w m.term
  appendReply : ∀ y ∈ w.appendReplies, Called w y.response.term

theorem Effect.candidate_log {s s' : RaftNode} {e : Event} (h : Effect e s s') (hr : s'.role = .kCandidate) :
    s'.log = s.log := by
  cases h with
  | granted i q _ b hb => rcases hb with ⟨rfl, -⟩ | ⟨rfl, -⟩ <;> rfl
  | commanded i c _ hl => rw [hl] at hr; cases hr
  | stored => cases hr
  | _ => rfl

theorem named_exec {ids : List Str} {w : World} (hid : ∀ i, (w.nodes i).node_id = i) (hw : Wire ids w) (h : Named w)
    (e : Event) : Named (w.exec e) := by
  intro q hq hr ht
  by_cases hold : q ∈ w.voteRequests
  · by_cases hi : q.candidate_id = e.node
    · have heff := apply_effect (w.nodes e.node) e
      rw [hi, w.exec_nodes_self] at hr ht ⊢
      have hlog := heff.candidate_log hr
      rcases heff.candidate hr with ⟨i, -, hs⟩ | ⟨hr', ht', -⟩
      · -- Its candidate has moved on to a later term.
        have hle := (hw.request_of q hold).2
        rw [hs] at ht
        rw [hi] at hle
        simp only [RaftNode.start_election] at ht
        omega
      · have hn := h q hold
        rw [hi] at hn
        simp only [RaftNode.last_term, RaftNode.last_index, hlog] at hn ⊢
        exact hn hr' (ht'.symm.trans ht)
    · rw [w.exec_nodes_ne e hi] at hr ht ⊢
      exact h q hold hr ht
  · cases e with
    | start_election i =>
      rcases List.mem_cons.1 hq with rfl | hq
      · simp [RaftNode.start_election, Event.node, Event.apply, hid, RaftNode.last_term, RaftNode.last_index]
      · exact absurd hq hold
    | _ => exact absurd hq hold

theorem Called.le {w : World} {T T' : Nat} (h : Called w T) (hle : T' ≤ T) : Called w T' := by
  rcases h with rfl | ⟨q, hq, h⟩
  · exact .inl (Nat.le_zero.1 hle)
  · exact .inr ⟨q, hq, hle.trans h⟩

theorem Called.max {w : World} {T T' : Nat} (h : Called w T) (h' : Called w T') : Called w (max T T') := by
  rcases Nat.le_total T T' with hle | hle
  · rwa [max_eq_right hle]
  · rwa [max_eq_left hle]

theorem Called.exec {w : World} {T : Nat} (h : Called w T) (e : Event) : Called (w.exec e) T := by
  refine h.imp id fun ⟨q, hq, hT⟩ => ⟨q, ?_, hT⟩
  cases e <;> simp only [World.exec, List.mem_cons] <;> first | exact hq | exact .inr hq

/-- The term of the message a call is handed. -/
def Event.messageTerm : Event → Nat
  | .request_vote _ q => q.term
  | .observe_vote _ y _ => y.response.term
  | .append_entries _ m => m.term
  | .observe_append_entries_response _ y _ => y.response.term
  | _ => 0

/-- A node takes over the term of a message, and answers in its own. -/
theorem request_vote_term_le (s : RaftNode) (q : VoteRequest) :
    (s.request_vote q).1.current_term ≤ max s.current_term q.term ∧
      (s.request_vote q).2.term ≤ max s.current_term q.term := by
  rcases s.request_vote_cases q with ⟨-, e⟩ | ⟨b, ⟨rfl, -⟩ | ⟨rfl, -⟩, e | ⟨-, e⟩⟩ <;> rw [e] <;> simp

theorem append_entries_term_le (s : RaftNode) (m : AppendEntriesRequest) :
    (s.append_entries m).1.current_term ≤ max s.current_term m.term ∧
      (s.append_entries m).2.term ≤ max s.current_term m.term := by
  rcases s.append_entries_cases m with ⟨-, e⟩ | ⟨-, b, rfl, ⟨-, e⟩ | ⟨-, l, -, e⟩⟩ <;> rw [e] <;> simp

theorem apply_term_le {ids : List Str} {w : World} {e : Event} (hn : Network ids w e) (s : RaftNode)
    (hstart : ∀ i, e ≠ .start_election i) : (e.apply s).current_term ≤ max s.current_term e.messageTerm := by
  cases e with
  | start_election i => exact absurd rfl (hstart i)
  | request_vote i q => exact (request_vote_term_le s q).1
  | append_entries i m => exact (append_entries_term_le s m).1
  | become_leader_for_single_node i => exact absurd hn id
  | make_append_entries i f => exact le_max_left _ _
  | append_client_command i c =>
    rcases s.append_client_command_cases c with ⟨-, e⟩ | ⟨-, e⟩ <;> simp only [Event.apply] <;> rw [e] <;>
      exact le_max_left _ _
  | configure_cluster i ps =>
    obtain ⟨ni, mi, e⟩ := s.configure_cluster_cases ps
    simp only [Event.apply]
    rw [e]
    exact le_max_left _ _
  | observe_vote i y n =>
    simp only [Event.apply, Event.messageTerm]
    rcases s.observe_vote_cases y.response n with ⟨-, e⟩ | ⟨-, v, -, ⟨e, -⟩ | ⟨-, -, e⟩⟩ <;> rw [e]
    · exact le_max_right _ _
    · exact le_max_left _ _
    · exact le_max_left _ _
  | observe_append_entries_response i y n =>
    simp only [Event.apply, Event.messageTerm]
    rcases s.observe_append_cases y.follower y.response n with ⟨-, e⟩ | ⟨ni, mi, c, e, -⟩ <;> rw [e]
    · exact le_max_right _ _
    · exact le_max_left _ _

theorem termsCalled_exec {ids : List Str} {w : World} {e : Event} (h : TermsCalled w) (hn : Network ids w e) :
    TermsCalled (w.exec e) := by
  -- The message at hand is of a called term.
  have hmessage : Called w e.messageTerm := by
    cases e with
    | request_vote i q => exact .inr ⟨q, hn.2.1, Nat.le_refl _⟩
    | observe_vote i y n => exact h.voteReply y hn.1
    | append_entries i m => exact h.appendRequest m hn.2
    | observe_append_entries_response i y n => exact h.appendReply y hn.1
    | _ => exact .inl rfl
  have hmax := (h.node e.node).max hmessage
  have hnode : ∀ i, Called (w.exec e) ((w.exec e).nodes i).current_term := fun i => by
    by_cases hi : i = e.node
    swap
    · rw [w.exec_nodes_ne e hi]; exact (h.node i).exec e
    subst hi
    by_cases hstart : ∃ i, e = .start_election i
    · obtain ⟨i, rfl⟩ := hstart
      refine .inr ⟨(w.nodes i).start_election.2, List.mem_cons_self, ?_⟩
      simp [Event.node, Event.apply, RaftNode.start_election]
    · rw [w.exec_nodes_self]
      exact (hmax.le (apply_term_le hn _ fun i he => hstart ⟨i, he⟩)).exec e
  have hreply := fun y hy => (h.voteReply y hy).exec e
  have hrequest := fun m hm => (h.appendRequest m hm).exec e
  have hanswer := fun y hy => (h.appendReply y hy).exec e
  cases e with
  | request_vote i q =>
    refine ⟨hnode, fun y hy => ?_, hrequest, hanswer⟩
    rcases List.mem_cons.1 hy with rfl | hy
    · exact (hmax.le (request_vote_term_le _ q).2).exec _
    · exact hreply y hy
  | make_append_entries i f =>
    refine ⟨hnode, hreply, fun m hm => ?_, hanswer⟩
    rcases List.mem_cons.1 hm with rfl | hm
    · exact (h.node i).exec _
    · exact hrequest m hm
  | append_entries i m =>
    refine ⟨hnode, hreply, hrequest, fun y hy => ?_⟩
    rcases List.mem_cons.1 hy with rfl | hy
    · exact (hmax.le (append_entries_term_le _ m).2).exec _
    · exact hanswer y hy
  | _ => exact ⟨hnode, hreply, hrequest, hanswer⟩

/-! ## What a majority has -/

section Safety
variable {ids : List Str} {r : Run (Guarded (fun w e => Network ids w e ∧ Timely w e) World.step) World.init}

theorem wire_timely (hids : ids.Nodup) (t : Nat) : Wire ids (r.state t) := (electionInv_all hids t).wire

theorem named_all (hids : ids.Nodup) (t : Nat) : Named (r.state t) := by
  induction t with
  | zero => rw [r.state_zero]; intro q hq; cases hq
  | succ t ih =>
    rcases r.state_succ t with hst | ⟨e, -, hs⟩
    · rw [hst]; exact ih
    · rw [hs]; exact named_exec (run_node_id r t) (wire_timely hids t) ih e

theorem termsCalled_all (t : Nat) : TermsCalled (r.state t) :=
  r.inv TermsCalled ⟨fun _ => .inl rfl, nofun, nofun, nofun⟩ (fun _ _ _ h hs => hs.2 ▸ termsCalled_exec h hs.1.1) t

/-- Leaders are nodes of the cluster. -/
theorem led_mem (hids : ids.Nodup) {t T : Nat} {i : Str} (h : Led r t i T) : i ∈ ids := by
  have hinv := electionInv_all hids (r := r) t
  obtain ⟨S, -, hcard, hS⟩ := hinv.quorum i T h
  obtain ⟨p, hp⟩ : S.Nonempty := Finset.card_pos.1 (by omega)
  obtain ⟨q, hq, rfl, -⟩ := hinv.wire.request (hS p hp).1
  exact (hinv.wire.request_of q hq).1

theorem LeaderLog.led {t T : Nat} {l : List RaftLogEntry} (h : LeaderLog r t T l) : ∃ i, Led r t i T := by
  obtain ⟨u, hu, i, hl, -⟩ := h
  exact ⟨i, u, hu, hl⟩

/-- A committed log has no entry past the term it was committed in. -/
theorem CommittedLog.terms {t T : Nat} {l : List RaftLogEntry} (h : CommittedLog r t T l) : ∀ x ∈ l, x.term ≤ T := by
  obtain ⟨⟨u, -, i, hl, rfl⟩, -⟩ := h
  intro x hx
  exact hl.2 ▸ (wellFormed_timely u i).terms x hx

variable (r) in
structure CompleteInv (t : Nat) : Prop where
  /-- Leaders of later terms have what is committed. -/
  complete : ∀ T l, CommittedLog r t T l → ∀ T' l', LeaderLog r t T' l' → T < T' → l <+: l'
  /-- In the elections after a commit a majority has the log, and its votes go
  to candidates as fresh as it. -/
  held : ∀ T l, CommittedLog r t T l → ∀ q ∈ (r.state t).voteRequests, T < q.term →
    ∃ S : Finset Str, S ⊆ ids.toFinset ∧ ids.length < 2 * S.card ∧ ∀ p ∈ S, l <+: ((r.state t).nodes p).log ∧
      (Voted (r.state t) p q.term q.candidate_id → AsFresh q.last_log_term q.last_log_index T l)

/-- A node as fresh as a committed log has it. -/
theorem CompleteInv.isPrefix_of_fresh (hids : ids.Nodup) {t T : Nat} {l : List RaftLogEntry} (h : CompleteInv r t)
    (hl : CommittedLog r t T l) {i : Str}
    (hfresh : AsFresh ((r.state t).nodes i).last_term ((r.state t).nodes i).last_index T l) :
    l <+: ((r.state t).nodes i).log := by
  have h1 := (oneLeader_timely hids r).weaken shipped_of_network
  have hlen : ((r.state t).nodes i).last_index = ((r.state t).nodes i).log.length := (wellFormed_timely t i).indexed.getLast
  obtain ⟨x, hx, hxt⟩ := hl.2
  obtain ⟨e, he, het⟩ : ∃ e, ((r.state t).nodes i).log.getLast? = some e ∧ e.term = ((r.state t).nodes i).last_term := by
    cases hlast : ((r.state t).nodes i).log.getLast? with
    | some e => exact ⟨e, rfl, by rw [RaftNode.last_term, hlast]; rfl⟩
    | none =>
      -- Nothing is as fresh as a log with an entry, if it has none.
      rw [List.getLast?_eq_none_iff] at hlast
      have hpos : 0 < l.length := List.length_pos_of_mem (List.mem_of_getLast? hx)
      simp only [AsFresh, hlen, hlast, RaftNode.last_term, List.getLast?_nil, Option.map_none, Option.getD_none,
        List.length_nil] at hfresh
      omega
  -- The log with that entry is the start of a log of the leader of its term.
  have hlast : ((r.state t).nodes i).log[((r.state t).nodes i).log.length - 1]? = some e :=
    List.getLast?_eq_getElem? ▸ he
  obtain ⟨l', hl', hpre⟩ := (logInv_timely hids t).shared i _ e hlast
  have hlead : LeaderLog r t e.term l' := hl'
  replace hpre : ((r.state t).nodes i).log <+: l' := by
    rw [Nat.sub_add_cancel (List.length_pos_of_mem (List.mem_of_getLast? he))] at hpre
    change List.take ((r.state t).nodes i).log.length ((r.state t).nodes i).log <+: l' at hpre
    rwa [List.take_length] at hpre
  rcases hfresh with hlt | ⟨heq, hle⟩
  · have hl'' := h.complete T l hl e.term l' hlead (het ▸ hlt)
    rcases Nat.le_total l.length ((r.state t).nodes i).log.length with hle | hle
    · exact List.prefix_of_prefix_length_le hl'' hpre hle
    · -- A later entry cannot lie within the committed log.
      have hmem := (List.prefix_of_prefix_length_le hpre hl'' hle).subset (List.mem_of_getLast? he)
      have := hl.terms e hmem
      omega
  · rw [hlen] at hle
    obtain rfl : e.term = T := het.trans heq
    rcases hl.1.chain (oneLeader_timely hids r) hlead with hp | hp
    · exact List.prefix_of_prefix_length_le hp hpre hle
    · exact List.prefix_of_prefix_length_le List.prefix_rfl (hpre.trans hp) hle

/-- Who has a committed log keeps it. -/
theorem CompleteInv.kept (hids : ids.Nodup) {t T : Nat} {l : List RaftLogEntry} (h : CompleteInv r t)
    (hl : CommittedLog r t T l) {e : Event} (hg : Network ids (r.state t) e ∧ Timely (r.state t) e)
    (ho : Orderly ids (r.state t) e) (hs : r.state (t + 1) = (r.state t).exec e) {p : Str}
    (hp : l <+: ((r.state t).nodes p).log) : l <+: ((r.state (t + 1)).nodes p).log := by
  by_cases hpe : p = e.node
  swap
  · rw [hs, World.exec_nodes_ne _ e hpe]; exact hp
  subst hpe
  have heff := apply_effect ((r.state t).nodes e.node) e
  rw [← World.exec_nodes_self, ← hs] at heff
  rcases heff.commit (commitsOwn_all hids t e.node) with ⟨hlog, -⟩ | ⟨-, c, -, -, -, -, hlog, -⟩ |
    ⟨i, m, rfl, -, ht, hprev, hlog, -⟩
  · rw [hlog]; exact hp
  · rw [hlog]; exact hp.trans (List.prefix_append _ _)
  · have h1 := (oneLeader_timely hids r).weaken shipped_of_network
    obtain ⟨u, hu, j, f, hlead, hm⟩ := (logInv_timely hids t).sent m hg.1.2
    obtain ⟨-, hpre⟩ := stored_log h1 hu (logInv_timely hids t) (logInv_timely hids u) hm hprev hlog
    obtain ⟨x, hx, hxt⟩ := hl.2
    have hT : T ≤ m.term := by
      rw [← hxt]
      exact ((wellFormed_timely t _).terms x (hp.subset (List.mem_of_getLast? hx))).trans ht
    have hsent : LeaderLog r t m.term ((r.state u).nodes j).log := ⟨u, hu, j, hlead, rfl⟩
    rcases Nat.lt_or_eq_of_le hT with hT | rfl
    · exact (h.complete T l hl m.term _ hsent hT).trans hpre
    · rcases hl.1.chain (oneLeader_timely hids r) hsent with hp' | hp'
      · exact hp'.trans hpre
      · -- What the leader sent is all here already, so the request ends where the log does.
        obtain ⟨-, hle', -⟩ := prev_agrees h1 hu (logInv_timely hids t) (logInv_timely hids u) hm hprev
        have hent : m.entries = ((r.state u).nodes j).log.drop m.prev_log_index := by
          rw [hm]
          exact (make_append_entries_eq (wellFormed_timely (r := r) u j).indexed f).1
        rcases eq_of_not_cuts hent hle' (hp'.trans hp) (ho.2 ht hprev) with hnil | heq
        · simp only [Event.node] at hlog hp ⊢
          rw [hlog, hnil]
          exact hp
        · exact hp.trans (heq ▸ hpre)

/-- A node that leads after a step has what earlier terms have committed. -/
theorem CompleteInv.leader (hids : ids.Nodup) {t T : Nat} {l : List RaftLogEntry} (h : CompleteInv r t)
    (hl : CommittedLog r t T l) {e : Event} (hg : Network ids (r.state t) e ∧ Timely (r.state t) e)
    (hs : r.state (t + 1) = (r.state t).exec e) {T' : Nat} (hlead : (r.state (t + 1)).Leads e.node T') (hT : T < T') :
    l <+: ((r.state (t + 1)).nodes e.node).log := by
  have heff := apply_effect ((r.state t).nodes e.node) e
  rw [← World.exec_nodes_self, ← hs] at heff
  rcases heff.leader hlead.1 with ⟨hr, ht⟩ | ⟨i, rfl⟩ | ⟨i, y, n, rfl, hc, ht, hle, hv⟩
  · have hbefore : (r.state t).Leads e.node T' := ⟨hr, ht ▸ hlead.2⟩
    exact (h.complete T l hl T' _ ⟨t, Nat.le_refl _, _, hbefore, rfl⟩ hT).trans
      (leads_isPrefix (Nat.le_succ t) hbefore hlead)
  · exact absurd hg.1 id
  · -- One of the majority that voted for it has the log, and voted only because it is as fresh.
    obtain rfl : n = ids.length := hg.1.2.2.2
    obtain ⟨S, hS, hcard, hvoted⟩ := (electionInv_all hids t).winner hids hg.1 hg.2 hc hle hv
    simp only [Event.node] at hlead heff hc ht hvoted ⊢
    rw [ht.symm.trans hlead.2] at hvoted
    obtain ⟨p0, hp0⟩ : S.Nonempty := Finset.card_pos.1 (by omega)
    obtain ⟨q, hq, rfl, rfl⟩ := (wire_timely hids t).request (hvoted p0 hp0).1
    obtain ⟨S', hS', hcard', hheld⟩ := h.held T l hl q hq hT
    obtain ⟨p, hp, hp'⟩ := majorities_meet hids hS hS' hcard hcard'
    have hfresh := (hheld p hp').2 (hvoted p hp).1
    obtain ⟨hterm, hindex⟩ := named_all hids t q hq hc (ht.symm.trans hlead.2)
    rw [hterm, hindex] at hfresh
    rcases heff.commit (commitsOwn_all hids t _) with ⟨hlog, -⟩ | ⟨_, c, hcmd, -⟩ | ⟨_, m, happend, -⟩
    · rw [hlog]; exact h.isPrefix_of_fresh hids hl hfresh
    · cases hcmd
    · cases happend

/-- When an election starts, a majority has every committed log: of the first
election past its term the caller has seen to that, and those who have it keep
it. -/
theorem CompleteInv.majority (hids : ids.Nodup) {t T : Nat} {l : List RaftLogEntry} (h : CompleteInv r t)
    (hstay : ∀ u ≤ t, ∀ i T, (r.state u).Leads i T → ((r.state t).nodes i).current_term = T → (r.state t).Leads i T)
    (hl : CommittedLog r t T l) {i : Str} (ho : Orderly ids (r.state t) (.start_election i)) :
    ∃ S : Finset Str, S ⊆ ids.toFinset ∧ ids.length < 2 * S.card ∧ ∀ p ∈ S, l <+: ((r.state t).nodes p).log := by
  by_cases hcalled : ∃ q ∈ (r.state t).voteRequests, T < q.term
  · obtain ⟨q, hq, hT⟩ := hcalled
    obtain ⟨S, hS, hcard, hheld⟩ := h.held T l hl q hq hT
    exact ⟨S, hS, hcard, fun p hp => (hheld p hp).1⟩
  · obtain ⟨⟨u, hu, a, hlead, rfl⟩, x, hx, hxt⟩ := hl
    have hterm : ((r.state t).nodes a).current_term = T := by
      have hge := (led_term r ⟨u, hu, hlead⟩).1
      rcases (termsCalled_all (r := r) t).node a with hzero | ⟨q, hq, hle⟩
      · omega
      · have : q.term ≤ T := Nat.le_of_not_lt fun hlt => hcalled ⟨q, hq, hlt⟩
        omega
    have hnow := hstay u hu a T hlead hterm
    have hpre := leads_isPrefix hu hlead hnow
    -- Its last entry is its own, so its commit index covers it.
    have hlt := commitsOwn_all hids t a hnow.1 _ x
      (getElem?_of_isPrefix hpre (List.getLast?_eq_getElem? ▸ hx)) (hxt.trans hterm.symm)
    have hlen := hpre.length_le
    obtain ⟨S, hS, hcard, hheld⟩ := (ho a (led_mem hids ⟨u, hu, hlead⟩)).exists_finset hids
    refine ⟨S, hS, hcard, fun p hp => List.IsPrefix.trans ?_ (hheld p hp)⟩
    refine List.prefix_of_prefix_length_le hpre (List.take_prefix _ _) ?_
    rw [List.length_take]
    omega

theorem CompleteInv.held_succ (hids : ids.Nodup) {t T : Nat} {l : List RaftLogEntry} (h : CompleteInv r t)
    (hstay : ∀ u ≤ t, ∀ i T, (r.state u).Leads i T → ((r.state t).nodes i).current_term = T → (r.state t).Leads i T)
    (hl : CommittedLog r t T l) {e : Event} (hg : Network ids (r.state t) e ∧ Timely (r.state t) e)
    (ho : Orderly ids (r.state t) e) (hs : r.state (t + 1) = (r.state t).exec e) {q : VoteRequest}
    (hq : q ∈ (r.state (t + 1)).voteRequests) (hT : T < q.term) :
    ∃ S : Finset Str, S ⊆ ids.toFinset ∧ ids.length < 2 * S.card ∧ ∀ p ∈ S, l <+: ((r.state (t + 1)).nodes p).log ∧
      (Voted (r.state (t + 1)) p q.term q.candidate_id → AsFresh q.last_log_term q.last_log_index T l) := by
  have hid := run_node_id r t
  have hw := wire_timely hids (r := r) t
  obtain ⟨x, hx, hxt⟩ := hl.2
  by_cases hold : q ∈ (r.state t).voteRequests
  · obtain ⟨S, hS, hcard, hheld⟩ := h.held T l hl q hold hT
    refine ⟨S, hS, hcard, fun p hp => ⟨h.kept hids hl hg ho hs (hheld p hp).1, fun hv => ?_⟩⟩
    by_cases hbefore : Voted (r.state t) p q.term q.candidate_id
    · exact (hheld p hp).2 hbefore
    · rw [hs] at hv
      rcases voted_fresh hid hv hbefore with ⟨-, hc, hterm⟩ | ⟨q', rfl, hc, hterm, hfresh⟩
      · have hle := (hw.request_of q hold).2
        rw [hc] at hle
        omega
      · obtain rfl := hw.request_unique q' hg.1.2.1 q hold hc hterm
        exact asFresh_granted (wellFormed_timely t p) (hheld p hp).1 hx hxt hfresh
  · rw [hs] at hq ⊢
    cases e with
    | start_election i =>
      rcases List.mem_cons.1 hq with rfl | hq
      swap
      · exact absurd hq hold
      obtain ⟨S, hS, hcard, hheld⟩ := h.majority hids hstay hl ho
      refine ⟨S, hS, hcard, fun p hp => ⟨hs ▸ h.kept hids hl hg ho hs (hheld p hp), fun hv => ?_⟩⟩
      -- Only the candidate itself has voted so far.
      obtain rfl : p = i := by
        by_cases hbefore : Voted (r.state t) p ((r.state t).nodes i).start_election.2.term
            ((r.state t).nodes i).start_election.2.candidate_id
        · obtain ⟨q', hq', hc, hterm⟩ := hw.request hbefore
          have hle := (hw.request_of q' hq').2
          rw [hc, hterm] at hle
          simp only [RaftNode.start_election, hid] at hle
          omega
        · rcases voted_fresh hid hv hbefore with ⟨he, -⟩ | ⟨q', he, -⟩
          · exact (Event.start_election.inj he).symm
          · cases he
      exact asFresh_self (wellFormed_timely t p) (hheld p hp) hx hxt
    | _ => exact absurd hq hold

theorem completeInv_succ (hids : ids.Nodup) {t : Nat} (h : CompleteInv r t)
    (hstay : ∀ u ≤ t, ∀ i T, (r.state u).Leads i T → ((r.state t).nodes i).current_term = T → (r.state t).Leads i T)
    {e : Event} (hg : Network ids (r.state t) e ∧ Timely (r.state t) e) (ho : Orderly ids (r.state t) e)
    (hs : r.state (t + 1) = (r.state t).exec e) : CompleteInv r (t + 1) where
  complete T l hl T' l' hl' hT := by
    rcases committedLog_succ hids hg hs hl with hl | ⟨i, c, rfl, hlead⟩
    · obtain ⟨u, hu, j, hj, rfl⟩ := hl'
      rcases Nat.le_succ_iff.1 hu with hu | rfl
      · exact h.complete T l hl T' _ ⟨u, hu, j, hj, rfl⟩ hT
      by_cases hje : j = e.node
      · subst hje; exact h.leader hids hl hg hs hj hT
      · have hsame : (r.state (t + 1)).nodes j = (r.state t).nodes j := by rw [hs, World.exec_nodes_ne _ e hje]
        unfold World.Leads at hj
        rw [hsame] at hj ⊢
        exact h.complete T l hl T' _ ⟨t, Nat.le_refl _, j, hj, rfl⟩ hT
    · -- A leader that takes a command is of the latest term.
      obtain ⟨j, hled⟩ := hl'.led
      have hj := ho hlead.1 j (led_mem hids hled)
      have hge := (led_term r hled).1
      have hsame : ((r.state (t + 1)).nodes j).current_term ≤ ((r.state t).nodes j).current_term := by
        rw [hs]
        by_cases hji : j = i
        · subst hji
          rw [show ((r.state t).exec (.append_client_command j c)).nodes j = _ from World.exec_nodes_self _ _]
          exact (apply_term_le hg.1 _ nofun).trans (by simp [Event.messageTerm, Event.node])
        · rw [World.exec_nodes_ne _ _ hji]
      rw [hlead.2] at hj
      omega
  held T l hl q hq hT := by
    rcases committedLog_succ hids hg hs hl with hl | ⟨i, c, rfl, hlead⟩
    · exact h.held_succ hids hstay hl hg ho hs hq hT
    · obtain ⟨hmem, hle⟩ := (wire_timely hids t).request_of q (hs ▸ hq)
      have := ho hlead.1 _ hmem
      rw [hlead.2] at this
      omega

theorem completeInv_zero : CompleteInv r 0 where
  complete T l h := by
    obtain ⟨⟨u, hu, i, ⟨hl, -⟩, -⟩, -⟩ := h
    rw [Nat.le_zero.1 hu, r.state_zero] at hl
    cases hl
  held T l h := by
    obtain ⟨⟨u, hu, i, ⟨hl, -⟩, -⟩, -⟩ := h
    rw [Nat.le_zero.1 hu, r.state_zero] at hl
    cases hl

theorem LeaderLog.stutter {t T : Nat} {l : List RaftLogEntry} (h : LeaderLog r (t + 1) T l)
    (hst : r.state (t + 1) = r.state t) : LeaderLog r t T l := by
  obtain ⟨u, hu, i, hl, rfl⟩ := h
  rcases Nat.le_succ_iff.1 hu with hu | rfl
  · exact ⟨u, hu, i, hl, rfl⟩
  · exact ⟨t, Nat.le_refl _, i, hst ▸ hl, by rw [hst]⟩

theorem CompleteInv.stutter {t : Nat} (h : CompleteInv r t) (hst : r.state (t + 1) = r.state t) :
    CompleteInv r (t + 1) where
  complete T l hl T' l' hl' hT := h.complete T l ⟨hl.1.stutter hst, hl.2⟩ T' l' (hl'.stutter hst) hT
  held T l hl q hq hT := hst ▸ h.held T l ⟨hl.1.stutter hst, hl.2⟩ q (hst ▸ hq) hT

/-- Committed logs are prefixes of one another. -/
theorem CompleteInv.comparable (hids : ids.Nodup) {t T T' : Nat} {l l' : List RaftLogEntry} (h : CompleteInv r t)
    (hl : CommittedLog r t T l) (hl' : CommittedLog r t T' l') : l <+: l' ∨ l' <+: l := by
  rcases Nat.lt_trichotomy T T' with hT | rfl | hT
  · exact .inl (h.complete T l hl T' l' hl'.1 hT)
  · exact hl.1.chain (oneLeader_timely hids r) hl'.1
  · exact .inr (h.complete T' l' hl' T l hl.1 hT)

end Safety

/-! ## Orderly runs -/

section Orderly
variable {ids : List Str}
  (r : Run (Guarded (fun w e => (Network ids w e ∧ Timely w e) ∧ Orderly ids w e) World.step) World.init)

/-- Whoever leads a term leads it until it moves on. -/
theorem leads_until (hids : ids.Nodup) {t u : Nat} (hu : u ≤ t) {i : Str} {T : Nat} (h : (r.state u).Leads i T)
    (ht : ((r.state t).nodes i).current_term = T) : (r.state t).Leads i T := by
  let r' := r.weaken fun _ _ h => h.1
  refine r.since (fun w => (w.nodes i).current_term = T → w.Leads i T) hu (fun _ => h) ?_ ht
  intro v e huv _ ih hstep hterm
  obtain ⟨⟨hg, ho⟩, hs⟩ := hstep
  have hs : r.state (v + 1) = (r.state v).exec e := hs
  have hge := (led_term r ⟨u, huv, h⟩).1
  have hle := (run_progress r i (Nat.le_add_right v 1)).term_le
  have hnow := ih (by omega)
  by_cases hi : i = e.node
  swap
  · unfold World.Leads at hnow ⊢
    rw [hs, World.exec_nodes_ne _ e hi]
    exact hnow
  subst hi
  have heff := apply_effect ((r.state v).nodes e.node) e
  rw [← World.exec_nodes_self, ← hs] at heff
  rcases heff.deposed hnow.1 (hterm.trans hnow.2.symm) with hr | ⟨j, m, rfl, hm⟩
  · exact ⟨hr, hterm⟩
  · -- Append requests of its term are its own, and go to others.
    obtain ⟨k, hk, a, f, hlead, rfl⟩ := (logInv_timely (r := r') hids v).sent m hg.1.2
    have ha : a = j := oneLeader_timely hids r' _ _ _ _ _ hlead (hm.trans hnow.2 ▸ hnow)
    refine absurd ?_ ho.1
    rw [← ha]
    exact (run_node_id r' k a).symm

theorem completeInv_all (hids : ids.Nodup) (t : Nat) : CompleteInv (r.weaken fun _ _ h => h.1) t := by
  induction t with
  | zero => exact completeInv_zero
  | succ t ih =>
    rcases r.state_succ t with hst | ⟨e, ⟨hg, ho⟩, hs⟩
    · exact ih.stutter hst
    · exact completeInv_succ hids ih (fun u hu i T => leads_until r hids hu) hg ho hs

end Orderly

/-- In every orderly run committed entries agree: on every two nodes, at every
two times. -/
theorem state_machine_safety (ids : List Str) (hids : ids.Nodup)
    (r : Run (Guarded (fun w e => (Network ids w e ∧ Timely w e) ∧ Orderly ids w e) World.step) World.init)
    (t t' : Nat) (a b : Str) (i : Nat) (hi : 1 ≤ i) (ha : i ≤ ((r.state t).nodes a).commit_index)
    (hb : i ≤ ((r.state t').nodes b).commit_index) :
    ∃ e, ((r.state t).nodes a).log[i - 1]? = some e ∧ ((r.state t').nodes b).log[i - 1]? = some e := by
  let r' := r.weaken fun _ _ h => h.1
  have hentry : ∀ t c, i ≤ ((r.state t).nodes c).commit_index → ∃ T l, CommittedLog r' t T l ∧
      ∃ e, ((r.state t).nodes c).log[i - 1]? = some e ∧ l[i - 1]? = some e := fun t c hc => by
    obtain ⟨T, l, hl, hpre⟩ := commits_from (r := r') hids t c (Nat.lt_of_lt_of_le hi hc)
    have hle : ((r.state t).nodes c).commit_index ≤ ((r.state t).nodes c).log.length :=
      (wellFormed_timely (r := r') t c).commit_le
    have hlt : i - 1 < ((r.state t).nodes c).log.length := by omega
    refine ⟨T, l, hl, _, List.getElem?_eq_getElem hlt, getElem?_of_isPrefix hpre ?_⟩
    change (((r.state t).nodes c).log.take ((r.state t).nodes c).commit_index)[i - 1]? = _
    rw [List.getElem?_take_of_lt (by omega)]
    exact List.getElem?_eq_getElem hlt
  obtain ⟨T, l, hl, e, he, hle⟩ := hentry t a ha
  obtain ⟨T', l', hl', e', he', hle'⟩ := hentry t' b hb
  refine ⟨e, he, ?_⟩
  rcases (completeInv_all r hids (max t t')).comparable hids (hl.mono (le_max_left _ _)) (hl'.mono (le_max_right _ _))
    with hpre | hpre
  · exact he'.trans (hle'.symm.trans (getElem?_of_isPrefix hpre hle))
  · exact he'.trans ((getElem?_of_isPrefix hpre hle').symm.trans hle)

/-- Node `a` commits a command in term 1 and hands it to `b`, which is then
elected and commits another. -/
def handedOver : List Event :=
  let a := lit "a"; let b := lit "b"; let c := lit "c"
  [.start_election a, .request_vote b ⟨a, 1, 0, 0⟩, .observe_vote a ⟨b, ⟨a, 1, 0, 0⟩, ⟨1, true⟩⟩ 3,
    .configure_cluster a [b, c], .append_client_command a (lit "x"), .make_append_entries a b,
    .append_entries b ⟨a, 1, 0, 0, 1, [⟨1, 1, lit "x"⟩]⟩, .start_election b, .request_vote c ⟨b, 2, 1, 1⟩,
    .observe_vote b ⟨c, ⟨b, 2, 1, 1⟩, ⟨2, true⟩⟩ 3, .append_client_command b (lit "y")]

theorem handedOver_legal : Run.Legal (fun w e => (Network [lit "a", lit "b", lit "c"] w e ∧ Timely w e) ∧
    Orderly [lit "a", lit "b", lit "c"] w e) World.exec World.init handedOver := by decide

/-- The first entry is the one `a` has committed, in term 1, and the one `b` has,
in term 2. -/
theorem handedOver_safe :
    ∃ r : Run (Guarded (fun w e => (Network [lit "a", lit "b", lit "c"] w e ∧ Timely w e) ∧
        Orderly [lit "a", lit "b", lit "c"] w e) World.step) World.init,
      (r.state 11).Leads (lit "b") 2 ∧ ((r.state 11).nodes (lit "b")).commit_index = 2 ∧
      ∃ e, ((r.state 5).nodes (lit "a")).log[0]? = some e ∧ ((r.state 11).nodes (lit "b")).log[0]? = some e := by
  let r := Run.ofEvents World.exec World.init _ handedOver_legal
  refine ⟨r, by decide, by decide, ?_⟩
  exact state_machine_safety _ (by decide) r 5 11 (lit "a") (lit "b") 1 (by decide) (by decide) (by decide)

end Dstore.Raft
