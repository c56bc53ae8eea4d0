import Mathlib.Algebra.Order.Ring.Int
import Mathlib.Data.Finset.Card
import Dstore.Raft.Cluster
/-!
# Election safety

Votes are counted by a bare counter: `observe_vote` never compares the term of
a granted response with the term of the election it counts it for. A grant of
an earlier election that arrives after a new one has started is counted there,
and two nodes can lead one term (`stale_grant_elects_two`). When every grant
a candidate counts is of its current term, no two nodes ever do
(`one_leader_per_term`).

The proof keeps, for each led term, a majority of voters that are `Loyal` to
its leader: they voted for no one else in that term and cannot any more. An
`append_entries` of the term overwrites the vote of a node, but only with its
leader.
-/
open Dstore.Lib

namespace Dstore.Raft

/-- The transport of an election: a candidate's request reaches each peer at
most once and each reply its candidate at most once, both at any later time;
append requests and replies are delivered any number of times. -/
def Network (ids : List Str) (w : World) : Event → Prop
  | .start_election i => i ∈ ids
  | .request_vote i q => i ∈ ids ∧ q ∈ w.voteRequests ∧ i ≠ q.candidate_id ∧
      ∀ y ∈ w.voteReplies, ¬ (y.voter = i ∧ y.request = q)
  | .observe_vote i y n => y ∈ w.voteReplies ∧ i = y.request.candidate_id ∧ y ∉ w.votesSeen ∧ n = ids.length
  | .append_client_command i _ => i ∈ ids
  | .make_append_entries i _ => i ∈ ids ∧ (w.nodes i).role = .kLeader
  | .append_entries i m => i ∈ ids ∧ m ∈ w.appendRequests
  | .observe_append_entries_response i y n => y ∈ w.appendReplies ∧ i = y.request.leader_id ∧ n = ids.length
  | .configure_cluster i _ => i ∈ ids
  | .become_leader_for_single_node _ => False

instance (ids : List Str) (w : World) : ∀ e, Decidable (Network ids w e)
  | .start_election i => inferInstanceAs (Decidable (i ∈ ids))
  | .request_vote i q => inferInstanceAs (Decidable (i ∈ ids ∧ q ∈ w.voteRequests ∧ i ≠ q.candidate_id ∧
      ∀ y ∈ w.voteReplies, ¬ (y.voter = i ∧ y.request = q)))
  | .observe_vote i y n => inferInstanceAs (Decidable (y ∈ w.voteReplies ∧ i = y.request.candidate_id ∧
      y ∉ w.votesSeen ∧ n = ids.length))
  | .append_client_command i _ => inferInstanceAs (Decidable (i ∈ ids))
  | .make_append_entries i _ => inferInstanceAs (Decidable (i ∈ ids ∧ (w.nodes i).role = .kLeader))
  | .append_entries i m => inferInstanceAs (Decidable (i ∈ ids ∧ m ∈ w.appendRequests))
  | .observe_append_entries_response i y n =>
    inferInstanceAs (Decidable (y ∈ w.appendReplies ∧ i = y.request.leader_id ∧ n = ids.length))
  | .configure_cluster i _ => inferInstanceAs (Decidable (i ∈ ids))
  | .become_leader_for_single_node _ => inferInstanceAs (Decidable False)

/-- A candidate is handed no grant of an earlier election. -/
def Timely (w : World) : Event → Prop
  | .observe_vote i y _ => (w.nodes i).role = .kCandidate → y.response.granted = true →
      y.response.term ≥ (w.nodes i).current_term
  | _ => True

instance (w : World) : ∀ e, Decidable (Timely w e)
  | .observe_vote i y _ => inferInstanceAs (Decidable ((w.nodes i).role = .kCandidate →
      y.response.granted = true → y.response.term ≥ (w.nodes i).current_term))
  | .start_election _ | .request_vote _ _ | .append_client_command _ _ | .make_append_entries _ _
  | .append_entries _ _ | .observe_append_entries_response _ _ _ | .configure_cluster _ _
  | .become_leader_for_single_node _ => inferInstanceAs (Decidable True)

/-! ## Votes -/

/-- Node `p` gave its vote of term `T` to `c`: it granted a request, or stood
itself. -/
def Voted (w : World) (p : Str) (T : Nat) (c : Str) : Prop :=
  (∃ y ∈ w.voteReplies, y.voter = p ∧ y.response = ⟨T, true⟩ ∧ y.request.candidate_id = c) ∨
    (∃ q ∈ w.voteRequests, q.candidate_id = p ∧ q.term = T ∧ c = p)

/-- Node `p` voted in term `T` for no one but `y`, and its ballot of that term
is closed. -/
def Loyal (w : World) (p : Str) (T : Nat) (y : Str) : Prop :=
  (∀ c, Voted w p T c → c = y) ∧ T ≤ (w.nodes p).current_term ∧
    ((w.nodes p).current_term = T → (w.nodes p).voted_for = some y)

theorem Voted.exec {w : World} {p c : Str} {T : Nat} (h : Voted w p T c) (e : Event) : Voted (w.exec e) p T c := by
  rcases h with ⟨y, hy, h⟩ | ⟨q, hq, h⟩
  · left
    refine ⟨y, ?_, h⟩
    cases e <;> simp only [World.exec, List.mem_cons] <;> first | exact hy | exact .inr hy
  · right
    refine ⟨q, ?_, h⟩
    cases e <;> simp only [World.exec, List.mem_cons] <;> first | exact hq | exact .inr hq

/-- A new vote is of the voter's new term, recorded in its `voted_for`, and
was still open. -/
theorem voted_new {w : World} (hid : ∀ i, (w.nodes i).node_id = i) {e : Event} {p c : Str} {T : Nat}
    (h : Voted (w.exec e) p T c) :
    Voted w p T c ∨ (T = ((w.exec e).nodes p).current_term ∧ ((w.exec e).nodes p).voted_for = some c ∧
      ((w.nodes p).current_term < T ∨ (w.nodes p).voted_for = none ∨ (w.nodes p).voted_for = some c)) := by
  cases e with
  | start_election i =>
    rcases h with h | ⟨q, hq, hp, hT, hc⟩
    · exact .inl (.inl h)
    · simp only [World.exec, List.mem_cons] at hq
      rcases hq with rfl | hq
      · right
        simp only [RaftNode.start_election, hid] at hp hT
        subst hp hT hc
        simp [Event.node, Event.apply, RaftNode.start_election, hid]
      · exact .inl (.inr ⟨q, hq, hp, hT, hc⟩)
  | request_vote i q =>
    rcases h with ⟨y, hy, hp, hr, hc⟩ | h
    · simp only [World.exec, List.mem_cons] at hy
      rcases hy with rfl | hy
      · right
        simp only [Event.node] at hp hr hc
        subst hp hc
        rcases (w.nodes i).request_vote_cases q with ⟨-, e⟩ | ⟨b, hb, e | ⟨hv, e⟩⟩ <;> rw [e] at hr <;>
          simp only [VoteResponse.mk.injEq, Bool.false_eq_true, and_false, and_true] at hr
        subst hr
        rcases hb with ⟨rfl, hlt⟩ | ⟨rfl, heq⟩
        · simp [Event.node, Event.apply, e, hlt]
        · simp [Event.node, Event.apply, e, heq, hv]
      · exact .inl (.inl ⟨y, hy, hp, hr, hc⟩)
    · exact .inl (.inr h)
  | _ => exact .inl h

/-- Within a term a ballot once cast changes only to the sender of an
`append_entries` of that term. -/
theorem ballot_kept (w : World) (e : Event) (p : Str)
    (ht : (w.nodes p).current_term = ((w.exec e).nodes p).current_term) :
    (w.nodes p).voted_for = none ∨ ((w.exec e).nodes p).voted_for = (w.nodes p).voted_for ∨
      ∃ m, e = .append_entries p m ∧ m.term = (w.nodes p).current_term ∧
        ((w.exec e).nodes p).voted_for = some m.leader_id := by
  by_cases hp : p = e.node
  swap
  · exact .inr (.inl (by rw [w.exec_nodes_ne e hp]))
  subst hp
  rw [w.exec_nodes_self] at ht ⊢
  have h := apply_effect (w.nodes e.node) e
  generalize e.apply (w.nodes e.node) = s' at h ht ⊢
  cases h with
  | down _ _ T h => simp only [RaftNode.stepDown_term] at ht; omega
  | granted i q _ b hb hv =>
    rcases hb with ⟨rfl, h⟩ | ⟨rfl, -⟩
    · simp only [RaftNode.stepDown_term] at ht; omega
    · exact hv.imp id fun hv => .inl hv.symm
  | refused i m _ _ | stored i m _ l _ => exact .inr (.inr ⟨m, rfl, ht.symm, rfl⟩)
  | stood i | crowned i => simp [RaftNode.start_election] at ht
  | _ => exact .inr (.inl rfl)

/-- Loyalty is kept while every `append_entries` of the term is from `y`. -/
theorem Loyal.exec {w : World} (hid : ∀ i, (w.nodes i).node_id = i) {p y : Str} {T : Nat} (h : Loyal w p T y)
    (e : Event) (hm : ∀ i m, e = .append_entries i m → m.term = T → m.leader_id = y) :
    Loyal (w.exec e) p T y := by
  obtain ⟨hv, ht, hb⟩ := h
  have hle := (exec_progress w e p).term_le
  refine ⟨fun c hc => ?_, ht.trans hle, fun hT => ?_⟩
  · rcases voted_new hid hc with hc | ⟨hT, -, hlt | hn | hs⟩
    · exact hv c hc
    · omega
    · rw [hb (by omega)] at hn; cases hn
    · rw [hb (by omega)] at hs; exact (Option.some.inj hs).symm
  · have hT' : (w.nodes p).current_term = T := by omega
    rcases ballot_kept w e p (by omega) with hn | hk | ⟨m, he, hmt, hk⟩
    · rw [hb hT'] at hn; cases hn
    · rw [hk, hb hT']
    · rw [hk, hm p m he (by omega)]

/-! ## Messages -/

/-- Requests are those of their candidates' elections, one a term; a voter
answers a request at most once, and a grant is of the term asked for. -/
structure Wire (ids : List Str) (w : World) : Prop where
  request_of : ∀ q ∈ w.voteRequests, q.candidate_id ∈ ids ∧ q.term ≤ (w.nodes q.candidate_id).current_term
  request_unique : ∀ q ∈ w.voteRequests, ∀ q' ∈ w.voteRequests,
    q.candidate_id = q'.candidate_id → q.term = q'.term → q = q'
  reply_of : ∀ y ∈ w.voteReplies, y.voter ∈ ids ∧ y.request ∈ w.voteRequests ∧ y.voter ≠ y.request.candidate_id ∧
    (y.response.granted = true → y.response.term = y.request.term)
  reply_unique : ∀ y ∈ w.voteReplies, ∀ y' ∈ w.voteReplies, y.voter = y'.voter → y.request = y'.request → y = y'

theorem granted_term (s : RaftNode) (q : VoteRequest) (h : (s.request_vote q).2.granted = true) :
    (s.request_vote q).2.term = q.term := by
  rcases s.request_vote_cases q with ⟨-, e⟩ | ⟨b, -, e | ⟨-, e⟩⟩ <;> rw [e] at h ⊢
  cases h

/-- A vote goes to a log that is at least as fresh as the voter's. -/
theorem granted_fresh (s : RaftNode) (q : VoteRequest) (h : (s.request_vote q).2.granted = true) :
    s.candidate_log_is_fresh q = true := by
  unfold RaftNode.request_vote at h
  by_cases hlt : q.term < s.current_term
  · simp [hlt] at h
  · simp only [hlt, if_false, Bool.and_eq_true] at h
    split at h
    · exact h.2
    · exact h.2

/-- A new vote is a candidate's own, or granted to a fresh log. -/
theorem voted_fresh {w : World} (hid : ∀ i, (w.nodes i).node_id = i) {e : Event} {p c : Str} {T : Nat}
    (hv : Voted (w.exec e) p T c) (hnew : ¬ Voted w p T c) :
    (e = .start_election p ∧ c = p ∧ T = (w.nodes p).current_term + 1) ∨
      ∃ q, e = .request_vote p q ∧ q.candidate_id = c ∧ q.term = T ∧ (w.nodes p).candidate_log_is_fresh q = true := by
  cases e with
  | start_election i =>
    rcases hv with hv | ⟨q, hq, hp, hT, hc⟩
    · exact absurd (.inl hv) hnew
    · simp only [World.exec, List.mem_cons] at hq
      rcases hq with rfl | hq
      · simp only [RaftNode.start_election, Event.node, hid] at hp hT
        subst hp
        exact .inl ⟨rfl, hc, hT.symm⟩
      · exact absurd (.inr ⟨q, hq, hp, hT, hc⟩) hnew
  | request_vote i q =>
    rcases hv with ⟨y, hy, hp, hr, hc⟩ | hv
    · simp only [World.exec, List.mem_cons] at hy
      rcases hy with rfl | hy
      · simp only [Event.node] at hp hr hc
        subst hp
        have hgrant : ((w.nodes i).request_vote q).2.granted = true := by rw [hr]
        exact .inr ⟨q, rfl, hc, by rw [← granted_term _ q hgrant, hr], granted_fresh _ q hgrant⟩
      · exact absurd (.inl ⟨y, hy, hp, hr, hc⟩) hnew
    · exact absurd (.inr hv) hnew
  | _ => exact absurd hv hnew

theorem wire_init (ids : List Str) : Wire ids World.init := by
  constructor <;> simp [World.init]

theorem wire_exec {ids : List Str} {w : World} (hid : ∀ i, (w.nodes i).node_id = i) (h : Wire ids w) {e : Event}
    (hn : Network ids w e) : Wire ids (w.exec e) := by
  -- Terms only grow, so requests stay at or below their candidates' terms.
  have hreq : ∀ q ∈ w.voteRequests,
      q.candidate_id ∈ ids ∧ q.term ≤ ((w.exec e).nodes q.candidate_id).current_term := fun q hq =>
    ⟨(h.request_of q hq).1, (h.request_of q hq).2.trans (exec_progress w e _).term_le⟩
  cases e with
  | start_election i =>
    have hnew : ∀ q ∈ w.voteRequests, q.candidate_id = i → q.term ≠ (w.nodes i).current_term + 1 := by
      rintro q hq rfl heq
      have := (h.request_of q hq).2
      omega
    refine ⟨?_, ?_, fun y hy => ?_, h.reply_unique⟩
    · intro q hq
      simp only [World.exec, List.mem_cons] at hq
      rcases hq with rfl | hq
      · simp only [RaftNode.start_election, hid]
        exact ⟨hn, by simp [Event.node, Event.apply, RaftNode.start_election]⟩
      · exact hreq q hq
    · intro q hq q' hq' hc ht
      simp only [World.exec, List.mem_cons] at hq hq'
      rcases hq with rfl | hq <;> rcases hq' with rfl | hq'
      · rfl
      · simp only [RaftNode.start_election, Event.node, hid] at hc ht
        exact absurd ht.symm (hnew q' hq' hc.symm)
      · simp only [RaftNode.start_election, Event.node, hid] at hc ht
        exact absurd ht (hnew q hq hc)
      · exact h.request_unique q hq q' hq' hc ht
    · obtain ⟨h1, h2, h3, h4⟩ := h.reply_of y hy
      exact ⟨h1, List.mem_cons_of_mem _ h2, h3, h4⟩
  | request_vote i q =>
    obtain ⟨hi, hq, hne, hnew⟩ := hn
    refine ⟨hreq, h.request_unique, ?_, ?_⟩
    · intro y hy
      simp only [World.exec, List.mem_cons] at hy
      rcases hy with rfl | hy
      · exact ⟨hi, hq, hne, granted_term _ q⟩
      · exact h.reply_of y hy
    · intro y hy y' hy' hv hr
      simp only [World.exec, List.mem_cons] at hy hy'
      rcases hy with rfl | hy <;> rcases hy' with rfl | hy'
      · rfl
      · exact absurd ⟨hv.symm, hr.symm⟩ (hnew y' hy')
      · exact absurd ⟨hv, hr⟩ (hnew y hy)
      · exact h.reply_unique y hy y' hy' hv hr
  | _ => exact ⟨hreq, h.request_unique, h.reply_of, h.reply_unique⟩

/-- A vote for another candidate is a reply to its request. -/
theorem Wire.reply {ids : List Str} {w : World} (h : Wire ids w) {p c : Str} {T : Nat} (hv : Voted w p T c)
    (hne : p ≠ c) : ∃ y ∈ w.voteReplies, y.voter = p ∧ y.request.candidate_id = c ∧ y.request.term = T := by
  rcases hv with ⟨y, hy, hp, hr, hc⟩ | ⟨q, -, -, -, rfl⟩
  · refine ⟨y, hy, hp, hc, ?_⟩
    rw [← (h.reply_of y hy).2.2.2 (by rw [hr]), hr]
  · exact absurd rfl hne

/-- A vote is for a candidate that has asked for it. -/
theorem Wire.request {ids : List Str} {w : World} (h : Wire ids w) {p c : Str} {T : Nat} (hv : Voted w p T c) :
    ∃ q ∈ w.voteRequests, q.candidate_id = c ∧ q.term = T := by
  rcases hv with ⟨y, hy, -, hr, hc⟩ | ⟨q, hq, hp, hT, rfl⟩
  · obtain ⟨-, hreq, -, hterm⟩ := h.reply_of y hy
    exact ⟨y.request, hreq, hc, by rw [← hterm (by rw [hr]), hr]⟩
  · exact ⟨q, hq, hp, hT⟩

/-! ## Counting -/

/-- The votes `c` has counted are of distinct voters, none of whom has a reply
still to come. -/
def Counted (ids : List Str) (w : World) (c : Str) : Prop :=
  ∃ S : Finset Str, S ⊆ ids.toFinset ∧ (w.nodes c).votes_received ≤ S.card ∧
    (∀ p ∈ S, Voted w p (w.nodes c).current_term c) ∧
    ∀ y ∈ w.voteReplies, y ∉ w.votesSeen → y.request.candidate_id = c →
      y.request.term = (w.nodes c).current_term → y.voter ∉ S

/-- A node that is a candidate after a call either just stood, or was one
before and only `observe_vote` moved its count. -/
theorem Effect.candidate {s s' : RaftNode} {e : Event} (h : Effect e s s') (hr : s'.role = .kCandidate) :
    (∃ i, e = .start_election i ∧ s' = s.start_election.1) ∨
      (s.role = .kCandidate ∧ s'.current_term = s.current_term ∧
        (s'.votes_received = s.votes_received ∨
          ∃ i y n, e = .observe_vote i y n ∧ y.response.granted = true ∧ y.response.term ≤ s.current_term ∧
            s'.votes_received = s.votes_received + 1)) := by
  cases h with
  | stood i => exact .inl ⟨i, rfl, rfl⟩
  | granted i q _ b hb =>
    rcases hb with ⟨rfl, -⟩ | ⟨rfl, -⟩
    · cases hr
    · exact .inr ⟨hr, rfl, .inl rfl⟩
  | counted i y n _ hc hg ht => exact .inr ⟨hr, rfl, .inr ⟨i, y, n, rfl, hg, ht, rfl⟩⟩
  | down | won | refused | stored | crowned => cases hr
  | idle | commanded | indexed => exact .inr ⟨hr, rfl, .inl rfl⟩

/-- A node that leads after a call led the same term before, or has just won
the vote. -/
theorem Effect.leader {s s' : RaftNode} {e : Event} (h : Effect e s s') (hr : s'.role = .kLeader) :
    (s.role = .kLeader ∧ s'.current_term = s.current_term) ∨
      (∃ i, e = .become_leader_for_single_node i) ∨
      (∃ i y n, e = .observe_vote i y n ∧ s.role = .kCandidate ∧ s'.current_term = s.current_term ∧
        y.response.term ≤ s.current_term ∧
        n / 2 < (if y.response.granted = true then s.votes_received + 1 else s.votes_received)) := by
  cases h with
  | granted i q _ b hb =>
    rcases hb with ⟨rfl, -⟩ | ⟨rfl, -⟩
    · cases hr
    · exact .inl ⟨hr, rfl⟩
  | won i y n _ v ni mi hc ht hv hn => exact .inr (.inr ⟨i, y, n, rfl, hc, rfl, ht, hv ▸ hn⟩)
  | crowned i => exact .inr (.inl ⟨i, rfl⟩)
  | stood | down | refused | stored => cases hr
  | idle | counted | commanded | indexed => exact .inl ⟨hr, rfl⟩

theorem counted_exec {ids : List Str} {w : World} (hid : ∀ i, (w.nodes i).node_id = i) (hw : Wire ids w) {e : Event}
    (hn : Network ids w e) (ht : Timely w e) (h : ∀ c, (w.nodes c).role = .kCandidate → Counted ids w c) (c : Str)
    (hc : ((w.exec e).nodes c).role = .kCandidate) : Counted ids (w.exec e) c := by
  by_cases hce : c = e.node
  · subst hce
    have heff := apply_effect (w.nodes e.node) e
    rw [w.exec_nodes_self] at hc
    rcases heff.candidate hc with ⟨i, rfl, hs⟩ | ⟨hr, hterm, hcount⟩
    · -- A fresh candidate has its own vote, and no reply to the new request exists.
      refine ⟨{i}, by simpa [Network] using hn, by simp [Event.node, Event.apply, RaftNode.start_election], ?_, ?_⟩
      · intro p hp
        rw [Finset.mem_singleton.1 hp]
        refine .inr ⟨(w.nodes i).start_election.2, List.mem_cons_self, hid i, ?_, rfl⟩
        simp [Event.node, Event.apply, RaftNode.start_election]
      · intro y hy _ hcand hterm
        have h1 := (hw.request_of y.request (hw.reply_of y hy).2.1).2
        rw [hcand] at h1
        simp only [World.exec_nodes, Event.node, Function.update_self, Event.apply, RaftNode.start_election]
          at h1 hterm
        omega
    · obtain ⟨S, hS, hcard, hvoted, hopen⟩ := h _ hr
      rcases hcount with hcount | ⟨i, y, n, rfl, hg, hle, hcount⟩
      · -- The count stands: a reply this call has produced is to another candidate.
        refine ⟨S, hS, ?_, fun p hp => ?_, fun y hy hseen hcand hyt => ?_⟩
        · rw [w.exec_nodes_self, hcount]; exact hcard
        · rw [w.exec_nodes_self, hterm]; exact (hvoted p hp).exec e
        · rw [w.exec_nodes_self, hterm] at hyt
          cases e with
          | request_vote i q =>
            simp only [World.exec, List.mem_cons] at hy
            rcases hy with rfl | hy
            · exact absurd hcand.symm hn.2.2.1
            · exact hopen y hy hseen hcand hyt
          | observe_vote i z n => exact hopen y hy (fun h => hseen (List.mem_cons_of_mem _ h)) hcand hyt
          | _ => exact hopen y hy hseen hcand hyt
      · -- A grant of this term is counted, and its reply is used up.
        obtain ⟨hy, rfl, hseen, -⟩ := hn
        have hyt : y.request.term = (w.nodes y.request.candidate_id).current_term := by
          rw [← (hw.reply_of y hy).2.2.2 hg]
          exact Nat.le_antisymm hle (ht hr hg)
        have hnew : y.voter ∉ S := hopen y hy hseen rfl hyt
        refine ⟨insert y.voter S, ?_, ?_, fun p hp => ?_, fun z hz hzs hcand hzt => ?_⟩
        · exact Finset.insert_subset (List.mem_toFinset.2 (hw.reply_of y hy).1) hS
        · rw [w.exec_nodes_self, hcount, Finset.card_insert_of_notMem hnew]
          exact Nat.succ_le_succ hcard
        · rw [w.exec_nodes_self, hterm]
          rcases Finset.mem_insert.1 hp with rfl | hp
          · refine Voted.exec (.inl ⟨y, hy, rfl, ?_, rfl⟩) _
            rw [← hg]
            have := (hw.reply_of y hy).2.2.2 hg
            simp only [Event.node] at hyt ⊢
            rw [← hyt, ← this]
          · exact (hvoted p hp).exec _
        · rw [w.exec_nodes_self, hterm] at hzt
          simp only [World.exec, List.mem_cons, not_or] at hz hzs
          simp only [Finset.mem_insert, not_or]
          refine ⟨fun hv => hzs.1 (hw.reply_unique z hz y hy hv ?_), hopen z hz hzs.2 hcand hzt⟩
          exact hw.request_unique _ (hw.reply_of z hz).2.1 _ (hw.reply_of y hy).2.1 hcand (hzt.trans hyt.symm)
  · -- Another node acted: it may have answered `c`, but then for the first time.
    rw [w.exec_nodes_ne e hce] at hc
    obtain ⟨S, hS, hcard, hvoted, hopen⟩ := h c hc
    refine ⟨S, hS, ?_, fun p hp => ?_, fun y hy hseen hcand hyt => ?_⟩
    · rw [w.exec_nodes_ne e hce]; exact hcard
    · rw [w.exec_nodes_ne e hce]; exact (hvoted p hp).exec e
    · rw [w.exec_nodes_ne e hce] at hyt
      cases e with
      | request_vote i q =>
        simp only [World.exec, List.mem_cons] at hy
        rcases hy with rfl | hy
        · intro hi
          simp only at hcand hyt hi
          obtain ⟨z, hz, hzv, hzc, hzt⟩ := hw.reply (hvoted i hi) (fun h => hce h.symm)
          refine hn.2.2.2 z hz ⟨hzv, ?_⟩
          exact hw.request_unique _ (hw.reply_of z hz).2.1 _ hn.2.1 (hzc.trans hcand.symm) (hzt.trans hyt.symm)
        · exact hopen y hy hseen hcand hyt
      | observe_vote i z n => exact hopen y hy (fun h => hseen (List.mem_cons_of_mem _ h)) hcand hyt
      | _ => exact hopen y hy hseen hcand hyt

/-! ## The invariant -/

section Safety
variable {ids : List Str} (r : Run (Guarded (fun w e => Network ids w e ∧ Timely w e) World.step) World.init)

structure ElectionInv (t : Nat) : Prop where
  wire : Wire ids (r.state t)
  append_led : ∀ m ∈ (r.state t).appendRequests, Led r t m.leader_id m.term
  /-- In a term nobody has led, whoever voted is loyal to its choice. -/
  free : ∀ p T c, (∀ y, ¬ Led r t y T) → Voted (r.state t) p T c → Loyal (r.state t) p T c
  /-- A led term has a majority that voted for its leader and for no one else. -/
  quorum : ∀ y T, Led r t y T → ∃ S : Finset Str, S ⊆ ids.toFinset ∧ ids.length < 2 * S.card ∧
    ∀ p ∈ S, Voted (r.state t) p T y ∧ Loyal (r.state t) p T y
  count : ∀ c, ((r.state t).nodes c).role = .kCandidate → Counted ids (r.state t) c

theorem majorities_meet (hids : ids.Nodup) {S S' : Finset Str} (h : S ⊆ ids.toFinset) (h' : S' ⊆ ids.toFinset)
    (hc : ids.length < 2 * S.card) (hc' : ids.length < 2 * S'.card) : ∃ p ∈ S, p ∈ S' := by
  have hcard : ids.toFinset.card = ids.length := List.toFinset_card_of_nodup hids
  obtain ⟨p, hp⟩ := Finset.inter_nonempty_of_card_lt_card_add_card h h' (by omega)
  exact ⟨p, (Finset.mem_inter.1 hp).1, (Finset.mem_inter.1 hp).2⟩

variable {r}

theorem ElectionInv.unique {t : Nat} (h : ElectionInv r t) (hids : ids.Nodup) {y y' : Str} {T : Nat}
    (hy : Led r t y T) (hy' : Led r t y' T) : y = y' := by
  obtain ⟨S, hS, hc, hl⟩ := h.quorum y T hy
  obtain ⟨S', hS', hc', hl'⟩ := h.quorum y' T hy'
  obtain ⟨p, hp, hp'⟩ := majorities_meet hids hS hS' hc hc'
  exact (hl' p hp').2.1 y (hl p hp).1

theorem led_zero (y : Str) (T : Nat) : ¬ Led r 0 y T := by
  rintro ⟨u, hu, hl, -⟩
  rw [Nat.le_zero.1 hu, r.state_zero] at hl
  cases hl

theorem electionInv_zero : ElectionInv r 0 where
  wire := by rw [r.state_zero]; exact wire_init ids
  append_led := by rw [r.state_zero]; simp [World.init]
  free p T c _ hv := by rw [r.state_zero] at hv; simp [Voted, World.init] at hv
  quorum y T h := absurd h (led_zero y T)
  count c hc := by rw [r.state_zero] at hc; cases hc

/-- A node that wins has a majority loyal to it before it does: the term had
no leader, since two majorities would share a voter. -/
theorem ElectionInv.winner {t : Nat} (h : ElectionInv r t) (hids : ids.Nodup) {i : Str} {y : VoteReply}
    (hn : Network ids (r.state t) (.observe_vote i y ids.length)) (ht : Timely (r.state t) (.observe_vote i y ids.length))
    (hc : ((r.state t).nodes i).role = .kCandidate) (hle : y.response.term ≤ ((r.state t).nodes i).current_term)
    (hv : ids.length / 2 < (if y.response.granted = true then ((r.state t).nodes i).votes_received + 1
      else ((r.state t).nodes i).votes_received)) :
    ∃ S : Finset Str, S ⊆ ids.toFinset ∧ ids.length < 2 * S.card ∧
      ∀ p ∈ S, Voted (r.state t) p ((r.state t).nodes i).current_term i ∧
        Loyal (r.state t) p ((r.state t).nodes i).current_term i := by
  obtain ⟨S, hS, hcard, hvoted, hopen⟩ := h.count i hc
  -- The voters counted so far, with the one of this reply.
  obtain ⟨S', hS', hcard', hvoted'⟩ : ∃ S' : Finset Str, S' ⊆ ids.toFinset ∧ ids.length < 2 * S'.card ∧
      ∀ p ∈ S', Voted (r.state t) p ((r.state t).nodes i).current_term i := by
    by_cases hg : y.response.granted = true
    · obtain ⟨hy, rfl, hseen, -⟩ := hn
      have hyr := (h.wire.reply_of y hy).2.2.2 hg
      have hyt : y.response.term = ((r.state t).nodes y.request.candidate_id).current_term :=
        Nat.le_antisymm hle (ht hc hg)
      rw [if_pos hg] at hv
      refine ⟨insert y.voter S, Finset.insert_subset (List.mem_toFinset.2 (h.wire.reply_of y hy).1) hS, ?_, ?_⟩
      · rw [Finset.card_insert_of_notMem (hopen y hy hseen rfl (hyr.symm.trans hyt))]
        omega
      · intro p hp
        rcases Finset.mem_insert.1 hp with rfl | hp
        · exact .inl ⟨y, hy, rfl, by rw [← hyt, ← hg], rfl⟩
        · exact hvoted p hp
    · rw [if_neg hg] at hv
      exact ⟨S, hS, by omega, hvoted⟩
  refine ⟨S', hS', hcard', fun p hp => ⟨hvoted' p hp, ?_⟩⟩
  refine h.free p _ i (fun z hz => ?_) (hvoted' p hp)
  obtain ⟨Z, hZ, hcZ, hlZ⟩ := h.quorum z _ hz
  obtain ⟨x, hx, hx'⟩ := majorities_meet hids hS' hZ hcard' hcZ
  have hzi : i = z := (hlZ x hx').2.1 i (hvoted' x hx)
  subst hzi
  exact (led_term r hz).2 rfl hc

theorem electionInv_succ (hids : ids.Nodup) {t : Nat} (h : ElectionInv r t) : ElectionInv r (t + 1) := by
  rcases r.state_succ t with hst | ⟨e, ⟨hn, ht⟩, hs⟩
  · -- A stutter changes nothing.
    have hled : ∀ y T, Led r (t + 1) y T → Led r t y T := fun y T hl => by
      rcases (led_succ r).1 hl with hl | hl
      · exact hl
      · exact ⟨t, Nat.le_refl _, hst ▸ hl⟩
    exact ⟨hst ▸ h.wire, fun m hm => (h.append_led m (hst ▸ hm)).mono (Nat.le_succ t),
      fun p T c hf hv => hst ▸ h.free p T c (fun y hy => hf y (hy.mono (Nat.le_succ t))) (hst ▸ hv),
      fun y T hl => hst ▸ h.quorum y T (hled y T hl), fun c hc => hst ▸ h.count c (hst ▸ hc)⟩
  · have hid := run_node_id r t
    have hs : r.state (t + 1) = (r.state t).exec e := hs
    refine ⟨?_, ?_, ?_, ?_, ?_⟩
    · rw [hs]; exact wire_exec hid h.wire hn
    · intro m hm
      have hold : m ∈ (r.state t).appendRequests → Led r (t + 1) m.leader_id m.term :=
        fun hm => (h.append_led m hm).mono (Nat.le_succ t)
      rw [hs] at hm
      cases e with
      | make_append_entries i f =>
        simp only [World.exec, List.mem_cons] at hm
        rcases hm with rfl | hm
        · simp only [RaftNode.make_append_entries, hid]
          exact Led.mono ⟨t, Nat.le_refl _, hn.2, rfl⟩ (Nat.le_succ t)
        · exact hold hm
      | _ => exact hold hm
    · intro p T c hf hv
      have hf' : ∀ y, ¬ Led r t y T := fun y hy => hf y (hy.mono (Nat.le_succ t))
      have hkeep : ∀ c, Voted (r.state t) p T c → Loyal ((r.state t).exec e) p T c := fun c hv =>
        (h.free p T c hf' hv).exec hid e (fun i m he hm => by
          subst he
          exact absurd (h.append_led m hn.2) (hm ▸ hf' _))
      rw [hs] at hv ⊢
      rcases voted_new hid hv with hv | ⟨hT, hb, hopen⟩
      · exact hkeep c hv
      · refine ⟨fun c' hv' => ?_, hT.le, fun _ => hb⟩
        rcases voted_new hid hv' with hv' | ⟨-, hb', -⟩
        · -- The older vote still binds the ballot.
          rw [(hkeep c' hv').2.2 hT.symm] at hb
          exact Option.some.inj hb
        · rw [hb] at hb'
          exact (Option.some.inj hb').symm
    · intro y T hl
      obtain ⟨S, hS, hc, hl⟩ : ∃ S : Finset Str, S ⊆ ids.toFinset ∧ ids.length < 2 * S.card ∧
          (∀ p ∈ S, Voted (r.state t) p T y ∧ Loyal (r.state t) p T y) := by
        rcases (led_succ r).1 hl with hl | ⟨hr, hT⟩
        · exact h.quorum y T hl
        · rw [hs] at hr hT
          by_cases hye : y = e.node
          · subst hye
            rw [World.exec_nodes_self] at hr hT
            rcases (apply_effect _ e).leader hr with ⟨hr', ht'⟩ | ⟨i, rfl⟩ | ⟨i, v, n, rfl, hc, ht', hle, hv⟩
            · exact h.quorum _ T ⟨t, Nat.le_refl _, hr', by rw [← hT, ht']⟩
            · exact absurd hn id
            · obtain rfl : n = ids.length := hn.2.2.2
              rw [← hT, ht']
              exact h.winner hids hn ht hc hle hv
          · rw [World.exec_nodes_ne _ e hye] at hr hT
            exact h.quorum y T ⟨t, Nat.le_refl _, hr, hT⟩
      refine ⟨S, hS, hc, fun p hp => ?_⟩
      rw [hs]
      refine ⟨(hl p hp).1.exec e, (hl p hp).2.exec hid e ?_⟩
      rintro i m rfl rfl
      -- The sender of this request led the term, so the majority voted for it.
      have hm := h.append_led m hn.2
      obtain ⟨S', hS', hc', hl'⟩ := h.quorum _ _ hm
      obtain ⟨x, hx, hx'⟩ := majorities_meet hids hS hS' hc hc'
      exact ((hl' x hx').2.1 y (hl x hx).1).symm
    · rw [hs]
      exact counted_exec hid h.wire hn ht h.count

theorem electionInv_all (hids : ids.Nodup) (t : Nat) : ElectionInv r t := by
  induction t with
  | zero => exact electionInv_zero
  | succ t ih => exact electionInv_succ hids ih

/-- In every run in which no candidate is handed a grant of an earlier
election, no two different nodes ever lead the same term. -/
theorem one_leader_per_term (ids : List Str) (hids : ids.Nodup)
    (r : Run (Guarded (fun w e => Network ids w e ∧ Timely w e) World.step) World.init)
    (t t' : Nat) (i j : Str) (T : Nat) (hi : (r.state t).Leads i T) (hj : (r.state t').Leads j T) : i = j :=
  (electionInv_all hids (max t t')).unique hids ⟨t, le_max_left _ _, hi⟩ ⟨t', le_max_right _ _, hj⟩

end Safety

/-- One election won with a grant of its own term. -/
def wonElection : List Event :=
  [.start_election (lit "a"), .request_vote (lit "b") ⟨lit "a", 1, 0, 0⟩,
    .observe_vote (lit "a") ⟨lit "b", ⟨lit "a", 1, 0, 0⟩, ⟨1, true⟩⟩ 3]

theorem wonElection_legal :
    Run.Legal (fun w e => Network [lit "a", lit "b", lit "c"] w e ∧ Timely w e) World.exec World.init wonElection := by
  decide

/-- After it `a` leads term 1, and nobody else does. -/
theorem wonElection_one_leader :
    ∃ r : Run (Guarded (fun w e => Network [lit "a", lit "b", lit "c"] w e ∧ Timely w e) World.step) World.init,
      (r.state 3).Leads (lit "a") 1 ∧ ∀ j, (r.state 3).Leads j 1 → lit "a" = j :=
  ⟨Run.ofEvents World.exec World.init wonElection wonElection_legal, by decide,
    fun j => one_leader_per_term _ (by decide) _ 3 3 _ j 1 (by decide)⟩

/-! ## A grant that arrives an election late -/

/-- Node `a` stands in term 1 and gets the vote of `b`, whose answer is
delayed; `a` stands again. The old answer now makes it leader of term 2, and
`b` wins term 2 with the vote of `c`. -/
def staleGrant : List Event :=
  let a := lit "a"; let b := lit "b"; let c := lit "c"
  [.start_election a, .request_vote b ⟨a, 1, 0, 0⟩, .start_election a,
    .observe_vote a ⟨b, ⟨a, 1, 0, 0⟩, ⟨1, true⟩⟩ 3, .start_election b, .request_vote c ⟨b, 2, 0, 0⟩,
    .observe_vote b ⟨c, ⟨b, 2, 0, 0⟩, ⟨2, true⟩⟩ 3]

theorem staleGrant_legal :
    Run.Legal (Network [lit "a", lit "b", lit "c"]) World.exec World.init staleGrant := by decide

/-- Two nodes of a cluster of three lead term 2. -/
theorem stale_grant_elects_two :
    ∃ r : Run (Guarded (Network [lit "a", lit "b", lit "c"]) World.step) World.init,
      (r.state 7).Leads (lit "a") 2 ∧ (r.state 7).Leads (lit "b") 2 ∧ lit "a" ≠ lit "b" :=
  ⟨Run.ofEvents World.exec World.init staleGrant staleGrant_legal, by decide, by decide, by decide⟩

end Dstore.Raft
