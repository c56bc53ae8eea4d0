import Mathlib.Data.Finset.Max
import Mathlib.Data.Prod.Lex
import Mathlib.Logic.Relation
import Dstore.Raft.BackOff
/-!
# A majority can always go on

Whatever messages were lost or delayed before, and whoever led: from every
state that a cluster gets into, calls on the nodes of a majority alone make one
of these the leader of a new term and bring its log, with one more command, to
all of them, where it is committed (`majority_recovers`). No message from before
is needed.

The leader is a node of the majority whose log is at least as fresh as those of
the others. It stands until its term is past theirs, so that nobody has voted
in it, and then finds the place where each log agrees with its own
(`Raft.BackOff`).
-/
open Dstore.Lib

namespace Dstore.Raft

/-! ## States of a cluster, and what follows them -/

section Calls
variable (ids V : List Str)

abbrev Cluster : Type := Run (Guarded (fun w e => Network ids w e ∧ Timely w e) World.step) World.init

/-- A state that the cluster can get into. -/
def Reached (w : World) : Prop := ∃ (r : Cluster ids) (t : Nat), r.state t = w

/-- One call on a node of `V` follows the other. -/
def Calls : World → World → Prop :=
  Relation.ReflTransGen fun w w' => ∃ e : Event, Network ids w e ∧ Timely w e ∧ e.node ∈ V ∧ w' = w.exec e

variable {ids V} {w w' : World}

theorem Calls.one {e : Event} (hn : Network ids w e) (ht : Timely w e) (hV : e.node ∈ V) : Calls ids V w (w.exec e) :=
  .single ⟨e, hn, ht, hV, rfl⟩

theorem Reached.calls (h : Reached ids w) (hc : Calls ids V w w') : Reached ids w' := by
  induction hc with
  | refl => exact h
  | tail _ hstep ih =>
    obtain ⟨e, hn, ht, -, rfl⟩ := hstep
    obtain ⟨r, t, rfl⟩ := ih
    exact ⟨r.extend (e := e) ⟨⟨hn, ht⟩, rfl⟩, t + 1, r.extend_state _⟩

namespace Reached

variable (h : Reached ids w)
include h

theorem node_id (i : Str) : (w.nodes i).node_id = i := by
  obtain ⟨r, t, rfl⟩ := h
  exact run_node_id r t i

theorem nextBounded (i : Str) : NextBounded (w.nodes i) := by
  obtain ⟨r, t, rfl⟩ := h
  exact nextBounded_all r t i

theorem wellFormed (i : Str) : WellFormed (w.nodes i) := by
  obtain ⟨r, t, rfl⟩ := h
  refine (wellFormed_all (r.weaken fun w e he => ?_) t).1 i
  cases e with
  | append_entries j m => exact he.1.2
  | _ => trivial

theorem logsMatch (hids : ids.Nodup) (i j : Str) : LogsMatch (w.nodes i).log (w.nodes j).log := by
  have hi := (h.wellFormed i).indexed
  have hj := (h.wellFormed j).indexed
  obtain ⟨r, t, rfl⟩ := h
  intro k a b ha hb hterm
  have hmatch := log_matching (r.weaken shipped_of_network) (OneLeader.weaken (oneLeader_timely hids r) _) t i j a b
    (List.mem_of_getElem? ha) (List.mem_of_getElem? hb) ((hi k a ha).trans (hj k b hb).symm) hterm
  rw [hi k a ha] at hmatch
  exact hmatch

/-- Only votes that were given have been counted, for requests that were made. -/
theorem votes : Wire ids w ∧ ∀ y ∈ w.votesSeen, y ∈ w.voteReplies := by
  obtain ⟨r, t, rfl⟩ := h
  have hinv := r.inv (fun w => (∀ i, (w.nodes i).node_id = i) ∧ Wire ids w ∧ ∀ y ∈ w.votesSeen, y ∈ w.voteReplies)
    ⟨fun _ => rfl, wire_init ids, by simp [World.init]⟩ (by
      rintro w e w' ⟨hid, hwire, hseen⟩ ⟨⟨hn, -⟩, rfl⟩
      refine ⟨fun i => ?_, wire_exec hid hwire hn, ?_⟩
      · by_cases hi : i = e.node
        · rw [hi, w.exec_nodes_self, (apply_effect _ e).node_id, hid]
        · rw [w.exec_nodes_ne e hi, hid]
      · cases e with
        | request_vote i q => exact fun y hy => List.mem_cons_of_mem _ (hseen y hy)
        | observe_vote i y n =>
          intro y' hy'
          rcases List.mem_cons.1 hy' with rfl | hy'
          · exact hn.1
          · exact hseen y' hy'
        | _ => exact hseen)
  exact (hinv t).2

end Reached

/-! ## Standing -/

/-- A candidate of term `T`. -/
def standing (s : RaftNode) (T : Nat) : RaftNode :=
  { s with role := .kCandidate, current_term := T, voted_for := some s.node_id, votes_received := 1 }

def requestOf (s : RaftNode) (T : Nat) : VoteRequest := ⟨s.node_id, T, s.last_index, s.last_term⟩

/-- A node stands again and again, until its term is `T`. -/
theorem exists_stand (w : World) {c : Str} (hc : c ∈ ids) (hV : c ∈ V) {T : Nat} (hT : (w.nodes c).current_term + 1 ≤ T) :
    ∃ w', Calls ids V w w' ∧ w'.nodes = Function.update w.nodes c (standing (w.nodes c) T) ∧
      requestOf (w.nodes c) T ∈ w'.voteRequests ∧ w'.voteReplies = w.voteReplies ∧ w'.votesSeen = w.votesSeen := by
  induction T, hT using Nat.le_induction with
  | base =>
    refine ⟨w.exec (.start_election c), .one hc trivial hV, ?_, List.mem_cons_self, rfl, rfl⟩
    rw [w.exec_nodes]
    rfl
  | succ T _ ih =>
    obtain ⟨w', hcalls, hnodes, -, hreplies, hseen⟩ := ih
    have hself : w'.nodes c = standing (w.nodes c) T := by rw [hnodes, Function.update_self]
    refine ⟨w'.exec (.start_election c), hcalls.trans (Calls.one hc trivial hV), ?_, ?_, hreplies, hseen⟩
    · rw [w'.exec_nodes]
      show Function.update w'.nodes c (w'.nodes c).start_election.1 = _
      rw [hself, hnodes, Function.update_idem]
      rfl
    · have hrequest : (w'.nodes c).start_election.2 = requestOf (w.nodes c) (T + 1) := by
        rw [hself]
        rfl
      rw [← hrequest]
      exact List.mem_cons_self

/-! ## Votes -/

/-- The candidate of a request, with its votes so far, and the nodes that it
still asks. -/
structure Campaign (ids : List Str) (w : World) (q : VoteRequest) (votes : Nat) (rest : List Str) : Prop where
  term : (w.nodes q.candidate_id).current_term = q.term
  stands : (w.nodes q.candidate_id).role = .kCandidate ∧ (w.nodes q.candidate_id).votes_received = votes ∨
    (w.nodes q.candidate_id).role = .kLeader
  won : 1 < votes → ids.length / 2 < votes → (w.nodes q.candidate_id).role = .kLeader
  sent : q ∈ w.voteRequests
  unasked : ∀ v ∈ rest, ∀ y ∈ w.voteReplies, ¬ (y.voter = v ∧ y.request = q)
  behind : ∀ v ∈ rest, (w.nodes v).current_term < q.term
  fresh : ∀ v ∈ rest, (w.nodes v).candidate_log_is_fresh q = true

/-- A node that is behind the term of a fresh candidate votes for it. -/
theorem request_vote_granted {s : RaftNode} {q : VoteRequest} (ht : s.current_term < q.term)
    (hf : s.candidate_log_is_fresh q = true) :
    s.request_vote q = ({ s.stepDown q.term with voted_for := some q.candidate_id }, ⟨q.term, true⟩) := by
  have hfresh : (s.stepDown q.term).candidate_log_is_fresh q = true := hf
  unfold RaftNode.request_vote
  rw [if_neg (Nat.not_lt.2 ht.le), if_pos (show q.term > s.current_term from ht)]
  simp [hfresh]

/-- What an answer of its own term does to a candidate or a leader. -/
theorem observe_vote_granted {s : RaftNode} {T votes n : Nat} (ht : s.current_term = T)
    (hs : s.role = .kCandidate ∧ s.votes_received = votes ∨ s.role = .kLeader) :
    (s.observe_vote ⟨T, true⟩ n).current_term = T ∧ (s.observe_vote ⟨T, true⟩ n).log = s.log ∧
      ((s.observe_vote ⟨T, true⟩ n).role = .kCandidate ∧ (s.observe_vote ⟨T, true⟩ n).votes_received = votes + 1 ∧
          ¬ n / 2 < votes + 1 ∨ (s.observe_vote ⟨T, true⟩ n).role = .kLeader) := by
  rcases s.observe_vote_cases ⟨T, true⟩ n with ⟨hlt, -⟩ | ⟨-, v, rfl, ⟨he, hno⟩ | ⟨-, -, he⟩⟩
  · exact absurd hlt (by rw [ht]; exact Nat.lt_irrefl T)
  · rw [he]
    refine ⟨ht, rfl, ?_⟩
    rcases hs with ⟨hrole, rfl⟩ | hrole
    · rw [if_pos ⟨hrole, rfl⟩] at hno ⊢
      exact .inl ⟨hrole, rfl, fun hmaj => hno ⟨hrole, hmaj⟩⟩
    · exact .inr hrole
  · rw [he]
    exact ⟨ht, rfl, .inr rfl⟩

/-- What the logs and terms of other nodes are after some votes. -/
structure Voting (q : VoteRequest) (w w' : World) : Prop where
  logs : ∀ x, (w'.nodes x).log = (w.nodes x).log
  terms : ∀ x, (w'.nodes x).current_term = (w.nodes x).current_term ∨ (w'.nodes x).current_term = q.term

theorem Voting.refl (q : VoteRequest) (w : World) : Voting q w w := ⟨fun _ => rfl, fun _ => .inl rfl⟩

theorem Voting.trans {q : VoteRequest} {w'' : World} (h : Voting q w w') (h' : Voting q w' w'') : Voting q w w'' := by
  refine ⟨fun x => (h'.logs x).trans (h.logs x), fun x => ?_⟩
  rcases h'.terms x with ht | ht
  · rw [ht]
    exact h.terms x
  · exact .inr ht

/-- A vote is asked for and counted. -/
theorem Campaign.vote {q : VoteRequest} {votes : Nat} {v : Str} {rest : List Str} (h : Campaign ids w q votes (v :: rest))
    (hr : Reached ids w) (hV : ∀ x ∈ V, x ∈ ids) (hv : v ∈ V) (hc : q.candidate_id ∈ V) (hne : v ≠ q.candidate_id)
    (hrest : v ∉ rest ∧ q.candidate_id ∉ rest) :
    ∃ w', Calls ids V w w' ∧ Campaign ids w' q (votes + 1) rest ∧ Voting q w w' := by
  have hgrant := request_vote_granted (h.behind v List.mem_cons_self) (h.fresh v List.mem_cons_self)
  have hnew := h.unasked v List.mem_cons_self
  have hcall : Calls ids V w (w.exec (.request_vote v q)) := .one ⟨hV v hv, h.sent, hne, hnew⟩ trivial hv
  have hnodes : (w.exec (.request_vote v q)).nodes =
      Function.update w.nodes v { (w.nodes v).stepDown q.term with voted_for := some q.candidate_id } := by
    rw [w.exec_nodes]
    show Function.update w.nodes v ((w.nodes v).request_vote q).1 = _
    rw [hgrant]
  have hreplies : (w.exec (.request_vote v q)).voteReplies = ⟨v, q, ⟨q.term, true⟩⟩ :: w.voteReplies := by
    show ⟨v, q, ((w.nodes v).request_vote q).2⟩ :: w.voteReplies = _
    rw [hgrant]
  have hseen : (w.exec (.request_vote v q)).votesSeen = w.votesSeen := rfl
  have hsent : (w.exec (.request_vote v q)).voteRequests = w.voteRequests := rfl
  generalize w.exec (.request_vote v q) = w₁ at hcall hnodes hreplies hseen hsent
  have hcandidate : w₁.nodes q.candidate_id = w.nodes q.candidate_id := by
    rw [hnodes, Function.update_of_ne (Ne.symm hne)]
  -- the answer is a new one
  have hunseen : (⟨v, q, ⟨q.term, true⟩⟩ : VoteReply) ∉ w₁.votesSeen := by
    rw [hseen]
    exact fun hmem => hnew _ (hr.votes.2 _ hmem) ⟨rfl, rfl⟩
  have hcount : Calls ids V w₁ (w₁.exec (.observe_vote q.candidate_id ⟨v, q, ⟨q.term, true⟩⟩ ids.length)) := by
    refine .one ⟨?_, rfl, hunseen, rfl⟩ (fun _ _ => ?_) hc
    · rw [hreplies]
      exact List.mem_cons_self
    · rw [hcandidate, h.term]
  obtain ⟨hterm, hlog, hrole⟩ := observe_vote_granted (n := ids.length) h.term h.stands
  have hnodes' : (w₁.exec (.observe_vote q.candidate_id ⟨v, q, ⟨q.term, true⟩⟩ ids.length)).nodes = Function.update w₁.nodes
      q.candidate_id ((w.nodes q.candidate_id).observe_vote ⟨q.term, true⟩ ids.length) := by
    rw [w₁.exec_nodes]
    show Function.update w₁.nodes q.candidate_id ((w₁.nodes q.candidate_id).observe_vote ⟨q.term, true⟩ ids.length) = _
    rw [hcandidate]
  have hreplies' : (w₁.exec (.observe_vote q.candidate_id ⟨v, q, ⟨q.term, true⟩⟩ ids.length)).voteReplies =
      w₁.voteReplies := rfl
  have hsent' : (w₁.exec (.observe_vote q.candidate_id ⟨v, q, ⟨q.term, true⟩⟩ ids.length)).voteRequests =
      w.voteRequests := hsent
  generalize w₁.exec (.observe_vote q.candidate_id ⟨v, q, ⟨q.term, true⟩⟩ ids.length) = w₂ at hcount hnodes' hreplies' hsent'
  have hother : ∀ x, x ≠ q.candidate_id → x ≠ v → w₂.nodes x = w.nodes x := by
    intro x hxc hxv
    rw [hnodes', Function.update_of_ne hxc, hnodes, Function.update_of_ne hxv]
  have hleft : ∀ x ∈ rest, w₂.nodes x = w.nodes x :=
    fun x hx => hother x (fun he => hrest.2 (he ▸ hx)) (fun he => hrest.1 (he ▸ hx))
  have hvoter : w₂.nodes v = { (w.nodes v).stepDown q.term with voted_for := some q.candidate_id } := by
    rw [hnodes', Function.update_of_ne hne, hnodes, Function.update_self]
  have hself : w₂.nodes q.candidate_id = (w.nodes q.candidate_id).observe_vote ⟨q.term, true⟩ ids.length := by
    rw [hnodes', Function.update_self]
  refine ⟨w₂, hcall.trans hcount, ⟨?_, ?_, ?_, ?_, ?_, ?_, ?_⟩, ⟨fun x => ?_, fun x => ?_⟩⟩
  · rw [hself, hterm]
  · rw [hself]
    exact hrole.imp_left fun ⟨hc, hvotes, _⟩ => ⟨hc, hvotes⟩
  · intro _ hmaj
    rw [hself]
    exact hrole.resolve_left fun ⟨_, _, hno⟩ => hno hmaj
  · rw [hsent']
    exact h.sent
  · intro x hx y hy hxy
    rw [hreplies', hreplies] at hy
    rcases List.mem_cons.1 hy with rfl | hy
    · obtain rfl : v = x := hxy.1
      exact hrest.1 hx
    · exact h.unasked x (List.mem_cons_of_mem _ hx) y hy hxy
  · intro x hx
    rw [hleft x hx]
    exact h.behind x (List.mem_cons_of_mem _ hx)
  · intro x hx
    rw [hleft x hx]
    exact h.fresh x (List.mem_cons_of_mem _ hx)
  · by_cases hxc : x = q.candidate_id
    · rw [hxc, hself, hlog]
    · by_cases hxv : x = v
      · rw [hxv, hvoter]
        rfl
      · rw [hother x hxc hxv]
  · by_cases hxc : x = q.candidate_id
    · rw [hxc, hself]
      exact .inr hterm
    · by_cases hxv : x = v
      · rw [hxv, hvoter]
        exact .inr rfl
      · rw [hother x hxc hxv]
        exact .inl rfl

/-- The votes of all that are left. -/
theorem Campaign.all {q : VoteRequest} {votes : Nat} {rest : List Str} (h : Campaign ids w q votes rest)
    (hr : Reached ids w) (hV : ∀ x ∈ V, x ∈ ids) (hc : q.candidate_id ∈ V) (hrest : ∀ v ∈ rest, v ∈ V ∧ v ≠ q.candidate_id)
    (hd : rest.Nodup) :
    ∃ w', Calls ids V w w' ∧ Campaign ids w' q (votes + rest.length) [] ∧ Voting q w w' := by
  induction rest generalizing w votes with
  | nil => exact ⟨w, .refl, h, .refl q w⟩
  | cons v rest ih =>
    obtain ⟨hv, hne⟩ := hrest v List.mem_cons_self
    obtain ⟨hnot, hd'⟩ := List.nodup_cons.1 hd
    have hself : q.candidate_id ∉ rest := fun hmem => (hrest _ (List.mem_cons_of_mem _ hmem)).2 rfl
    obtain ⟨w₁, hcalls, hcampaign, hvoting⟩ := h.vote hr hV hv hc hne ⟨hnot, hself⟩
    obtain ⟨w₂, hcalls', hcampaign', hvoting'⟩ := ih hcampaign (hr.calls hcalls)
      (fun x hx => hrest x (List.mem_cons_of_mem _ hx)) hd'
    refine ⟨w₂, hcalls.trans hcalls', ?_, hvoting.trans hvoting'⟩
    rw [List.length_cons, show votes + (rest.length + 1) = votes + 1 + rest.length by omega]
    exact hcampaign'

/-! ## An election that is won -/

/-- Term and index of the last entry, as elections compare them. -/
def lastEntry (s : RaftNode) : ℕ ×ₗ ℕ := toLex (s.last_term, s.last_index)

/-- A candidate is fresh to a node whose last entry is not past its own. -/
theorem fresh_of_lastEntry {s c : RaftNode} (h : lastEntry s ≤ lastEntry c) (T : Nat) :
    s.candidate_log_is_fresh (requestOf c T) = true := by
  rw [lastEntry, lastEntry, Prod.Lex.toLex_le_toLex] at h
  unfold RaftNode.candidate_log_is_fresh requestOf
  simp only [Bool.or_eq_true, decide_eq_true_eq, Bool.and_eq_true, beq_iff_eq]
  exact h.imp id fun ⟨heq, hle⟩ => ⟨heq.symm, hle⟩

/-- A majority elects one of its nodes, in a term that is new to all of them. -/
structure Elected (V : List Str) (w : World) (c : Str) (T : Nat) (w' : World) : Prop where
  leads : w'.Leads c T
  logs : ∀ x, (w'.nodes x).log = (w.nodes x).log
  behind : ∀ v ∈ V, (w.nodes v).current_term < T
  current : ∀ v ∈ V, (w'.nodes v).current_term ≤ T

theorem exists_elected (hr : Reached ids w) (hsize : 1 < ids.length) (hV : ∀ x ∈ V, x ∈ ids) (hd : V.Nodup)
    (hmaj : ids.length / 2 < V.length) : ∃ c ∈ V, ∃ T w', Calls ids V w w' ∧ Elected V w c T w' := by
  have hne : V.toFinset.Nonempty := List.toFinset_nonempty_iff V |>.2 fun hnil => by
    rw [hnil] at hmaj
    exact Nat.not_lt_zero _ hmaj
  obtain ⟨c, hc, hmax⟩ := V.toFinset.exists_max_image (fun v => lastEntry (w.nodes v)) hne
  rw [List.mem_toFinset] at hc
  have hbehind : ∀ v ∈ V, (w.nodes v).current_term < (V.toFinset.sup fun v => (w.nodes v).current_term) + 1 := by
    intro v hv
    exact Nat.lt_succ_of_le (Finset.le_sup (f := fun v => (w.nodes v).current_term) (List.mem_toFinset.2 hv))
  generalize (V.toFinset.sup fun v => (w.nodes v).current_term) + 1 = T at hbehind
  obtain ⟨w₁, hcalls, hnodes, hsent, hreplies, -⟩ := exists_stand w (hV c hc) hc (hbehind c hc)
  have hcid : (requestOf (w.nodes c) T).candidate_id = c := hr.node_id c
  have hself : w₁.nodes c = standing (w.nodes c) T := by rw [hnodes, Function.update_self]
  have hother : ∀ v, v ≠ c → w₁.nodes v = w.nodes v := fun v hv => by rw [hnodes, Function.update_of_ne hv]
  have hrest : ∀ v ∈ V.erase c, v ∈ V ∧ v ≠ (requestOf (w.nodes c) T).candidate_id := by
    intro v hv
    rw [hcid]
    exact ⟨List.mem_of_mem_erase hv, fun he => hd.not_mem_erase (he ▸ hv)⟩
  have hcampaign : Campaign ids w₁ (requestOf (w.nodes c) T) 1 (V.erase c) := by
    refine ⟨?_, .inl ?_, fun hlt => absurd hlt (Nat.lt_irrefl 1), hsent, ?_, ?_, ?_⟩
    · rw [hcid, hself]
      rfl
    · rw [hcid, hself]
      exact ⟨rfl, rfl⟩
    · -- nobody was asked before the candidate stood
      rintro v - y hy ⟨-, hyq⟩
      rw [hreplies] at hy
      have hterm := (hr.votes.1.request_of _ (hr.votes.1.reply_of y hy).2.1).2
      rw [hyq, hcid] at hterm
      exact absurd hterm (Nat.not_le.2 (hbehind c hc))
    · intro v hv
      obtain ⟨hvV, hvc⟩ := hrest v hv
      rw [hother v (hcid ▸ hvc)]
      exact hbehind v hvV
    · intro v hv
      obtain ⟨hvV, hvc⟩ := hrest v hv
      rw [hother v (hcid ▸ hvc)]
      exact fresh_of_lastEntry (hmax v (List.mem_toFinset.2 hvV)) T
  obtain ⟨w₂, hcalls', hdone, hvoting⟩ := hcampaign.all (hr.calls hcalls) hV (hcid.symm ▸ hc) hrest (hd.erase c)
  have hlen : 1 + (V.erase c).length = V.length := by
    have hpos := List.length_pos_of_mem hc
    rw [List.length_erase_of_mem hc]
    omega
  rw [hlen] at hdone
  refine ⟨c, hc, T, w₂, hcalls.trans hcalls', ⟨?_, ?_⟩, fun x => ?_, hbehind, fun v hv => ?_⟩
  · rw [← hcid]
    exact hdone.won (by omega) hmaj
  · rw [← hcid]
    exact hdone.term
  · rw [hvoting.logs, hnodes]
    by_cases hx : x = c
    · rw [hx, Function.update_self]
      rfl
    · rw [Function.update_of_ne hx]
  · rcases hvoting.terms v with ht | ht
    · rw [ht]
      by_cases hvc : v = c
      · rw [hvc, hself]
        exact Nat.le_refl T
      · rw [hother v hvc]
        exact (hbehind v hv).le
    · rw [ht]
      exact Nat.le_refl T

/-! ## Logs that are brought up to date -/

/-- A leader of term `T` that has committed its log `l`. -/
structure Committed (l : List RaftLogEntry) (T : Nat) (s : RaftNode) : Prop where
  leader : s.role = .kLeader
  term : s.current_term = T
  log : s.log = l
  commit : s.commit_index = l.length

/-- With nothing left to commit, the commit index stays. -/
theorem advance_commit_done {s : RaftNode} {n candidate : Nat} (h : candidate ≤ s.commit_index) :
    s.advance_commit n candidate = s.commit_index := by
  cases candidate with
  | zero => rfl
  | succ candidate => rw [RaftNode.advance_commit, if_neg (by omega)]

/-- A round with a follower that is not past the term keeps all that, and a
follower that accepts commits as much as it has of the leader's log. -/
theorem Committed.exchange {f : Str} {n T : Nat} {l : List RaftLogEntry} {p : RaftNode × RaftNode} (h : Committed l T p.1)
    (hl : WellIndexed l) (hb : p.2.current_term ≤ T) :
    Committed l T (exchange f n p).1.1 ∧ (exchange f n p).1.2.current_term ≤ T ∧ ((exchange f n p).2.success = true →
      (exchange f n p).1.2.commit_index = min l.length (exchange f n p).1.2.last_index) := by
  have hlast : p.1.last_index = l.length := by
    rw [RaftNode.last_index, h.log]
    exact hl.getLast
  have hterm : (p.1.make_append_entries f).term = T := h.term
  have hcommit : (p.1.make_append_entries f).leader_commit = l.length := h.commit
  simp only [Raft.exchange]
  generalize p.1.make_append_entries f = m at hterm hcommit
  rcases p.2.append_entries_cases m with ⟨hlt, -⟩ | ⟨-, b, rfl, ⟨-, he⟩ | ⟨-, l', -, he⟩⟩
  · omega
  · rw [he]
    refine ⟨?_, hterm.le, fun hok => by cases hok⟩
    rw [RaftNode.observe_append_entries_response, if_neg (by simp [hterm, h.term]), if_neg (by simp [h.leader]), if_pos rfl]
    exact ⟨h.leader, h.term, h.log, h.commit⟩
  · rw [he]
    refine ⟨?_, hterm.le, fun _ => by rw [hcommit]; rfl⟩
    rw [RaftNode.observe_append_entries_response, if_neg (by simp [hterm, h.term]), if_neg (by simp [h.leader]),
      if_neg (by simp)]
    refine ⟨h.leader, h.term, h.log, ?_⟩
    rw [hlast]
    have hdone := advance_commit_done (n := n) (s := { p.1 with
      match_index := p.1.match_index.insert f l.length, next_index := p.1.next_index.insert f (l.length + 1) }) h.commit.ge
    exact hdone.trans h.commit

theorem Committed.rounds {f : Str} {n T : Nat} {l : List RaftLogEntry} (hl : WellIndexed l) (k : Nat)
    (p : RaftNode × RaftNode)
    (h : Committed l T p.1) (hb : p.2.current_term ≤ T) :
    Committed l T (afterRounds f n k p).1 ∧ (afterRounds f n k p).2.current_term ≤ T := by
  induction k generalizing p with
  | zero => exact ⟨h, hb⟩
  | succ k ih =>
    obtain ⟨h', hb', -⟩ := h.exchange (f := f) (n := n) hl hb
    exact ih _ h' hb'

/-- The last of some rounds. -/
theorem afterRounds_succ (f : Str) (n k : Nat) (p : RaftNode × RaftNode) :
    afterRounds f n (k + 1) p = (exchange f n (afterRounds f n k p)).1 := by
  induction k generalizing p with
  | zero => rfl
  | succ k ih => exact ih (exchange f n p).1

/-- The rounds of one leader and one follower as calls. -/
theorem calls_exchange (hr : Reached ids w) (hV : ∀ x ∈ V, x ∈ ids) {c v : Str} (hc : c ∈ V) (hv : v ∈ V) (hne : v ≠ c)
    (hlead : (w.nodes c).role = .kLeader) :
    ∃ w', Calls ids V w w' ∧ (w'.nodes c, w'.nodes v) = (exchange v ids.length (w.nodes c, w.nodes v)).1 ∧
      ∀ x, x ≠ c → x ≠ v → w'.nodes x = w.nodes x := by
  have hleader : ((w.nodes c).make_append_entries v).leader_id = c := hr.node_id c
  -- the request, its answer, and what the leader makes of it
  have h1 : Calls ids V w (w.exec (.make_append_entries c v)) := .one ⟨hV c hc, hlead⟩ trivial hc
  have hnodes₁ : (w.exec (.make_append_entries c v)).nodes = w.nodes := by
    rw [w.exec_nodes]
    exact Function.update_eq_self c w.nodes
  have hmade : (w.nodes c).make_append_entries v ∈ (w.exec (.make_append_entries c v)).appendRequests := List.mem_cons_self
  generalize w.exec (.make_append_entries c v) = w₁ at h1 hnodes₁ hmade
  generalize hm : (w.nodes c).make_append_entries v = m at hleader hmade
  have h2 : Calls ids V w₁ (w₁.exec (.append_entries v m)) := .one ⟨hV v hv, hmade⟩ trivial hv
  have hnodes₂ : (w₁.exec (.append_entries v m)).nodes = Function.update w.nodes v ((w.nodes v).append_entries m).1 := by
    rw [w₁.exec_nodes, hnodes₁]
    rfl
  have hanswer : (⟨v, m, ((w.nodes v).append_entries m).2⟩ : AppendReply) ∈ (w₁.exec
    (.append_entries v m)).appendReplies := by
    rw [← hnodes₁]
    exact List.mem_cons_self
  generalize w₁.exec (.append_entries v m) = w₂ at h2 hnodes₂ hanswer
  have h3 : Calls ids V w₂ (w₂.exec (.observe_append_entries_response c ⟨v, m, ((w.nodes v).append_entries m).2⟩ ids.length)) :=
    .one ⟨hanswer, hleader.symm, rfl⟩ trivial hc
  refine ⟨_, (h1.trans h2).trans h3, ?_, fun x hxc hxv => ?_⟩
  · rw [w₂.exec_nodes, hnodes₂]
    show (Function.update _ c _ c, Function.update _ c _ v) = _
    rw [Function.update_self, Function.update_of_ne hne, Function.update_self, Raft.exchange]
    simp only [hm, Event.apply, Event.node, Function.update_of_ne (Ne.symm hne)]
  · rw [w₂.exec_nodes, hnodes₂]
    show Function.update _ c _ x = _
    rw [Function.update_of_ne hxc, Function.update_of_ne hxv]

theorem calls_rounds {c v : Str} {l : List RaftLogEntry} {T : Nat} (hr : Reached ids w) (hV : ∀ x ∈ V, x ∈ ids) (hc : c ∈ V)
    (hv : v ∈ V) (hne : v ≠ c) (hl : WellIndexed l) (h : Committed l T (w.nodes c))
    (hb : (w.nodes v).current_term ≤ T) (k : Nat) :
    ∃ w', Calls ids V w w' ∧ (w'.nodes c, w'.nodes v) = afterRounds v ids.length k (w.nodes c, w.nodes v) ∧
      ∀ x, x ≠ c → x ≠ v → w'.nodes x = w.nodes x := by
  induction k generalizing w with
  | zero => exact ⟨w, .refl, rfl, fun _ _ _ => rfl⟩
  | succ k ih =>
    obtain ⟨w₁, hcalls, hpair, hothers⟩ := calls_exchange hr hV hc hv hne h.leader
    obtain ⟨h', hb', -⟩ := Committed.exchange (f := v) (n := ids.length) (p := (w.nodes c, w.nodes v)) h hl hb
    rw [← hpair] at h' hb'
    obtain ⟨w₂, hcalls', hpair', hothers'⟩ := ih (hr.calls hcalls) h' hb'
    refine ⟨w₂, hcalls.trans hcalls', ?_, fun x hxc hxv => (hothers' x hxc hxv).trans (hothers x hxc hxv)⟩
    rw [hpair', hpair, afterRounds]

/-- A node of the cluster has the leader's log and has committed it. -/
def Has (l : List RaftLogEntry) (s : RaftNode) : Prop := l <+: s.log ∧ l.length ≤ s.commit_index

theorem Committed.has {l : List RaftLogEntry} {T : Nat} {s : RaftNode} (h : Committed l T s) : Has l s :=
  ⟨h.log ▸ List.prefix_rfl, h.commit.ge⟩

/-- One follower is brought up to date. -/
theorem catch_up {c v : Str} {l : List RaftLogEntry} {T : Nat} (hr : Reached ids w) (hV : ∀ x ∈ V, x ∈ ids) (hc : c ∈ V)
    (hv : v ∈ V) (hne : v ≠ c) (hl : WellIndexed l) (h : Committed l T (w.nodes c)) (hb : (w.nodes v).current_term ≤ T)
    (hmatch : LogsMatch l (w.nodes v).log) :
    ∃ w', Calls ids V w w' ∧ Committed l T (w'.nodes c) ∧ Has l (w'.nodes v) ∧ ∀ x, x ≠ c → x ≠ v →
      w'.nodes x = w.nodes x := by
  have hpaired : Paired l T (w.nodes c, w.nodes v) :=
    ⟨h.leader, h.term, h.log, hb, hl, (hr.wellFormed v).indexed, hmatch⟩
  obtain ⟨k, -, hconv⟩ := hpaired.converges (f := v) (n := ids.length) (hr.nextBounded c)
  obtain ⟨w', hcalls, hpair, hothers⟩ := calls_rounds hr hV hc hv hne hl h hb (k + 1)
  obtain ⟨hbefore, hbefore'⟩ := Committed.rounds (f := v) (n := ids.length) hl k (w.nodes c, w.nodes v) h hb
  obtain ⟨hafter, -, hcommit⟩ := Committed.exchange (f := v) (n := ids.length) hbefore hl hbefore'
  rw [← afterRounds_succ, ← hpair] at hafter hcommit
  have hlog : l <+: (w'.nodes v).log := by
    have hcaught := hconv.caught_up.has_log
    rw [← hpair] at hcaught
    exact hcaught
  refine ⟨w', hcalls, hafter, ⟨hlog, ?_⟩, hothers⟩
  have hlast : (w'.nodes v).last_index = (w'.nodes v).log.length := ((hr.calls hcalls).wellFormed v).indexed.getLast
  have hmin : (w'.nodes v).commit_index = min l.length (w'.nodes v).last_index := hcommit hconv.accepted
  have hle := hlog.length_le
  omega

/-- All followers of a list are brought up to date. -/
theorem catch_all {c : Str} {l : List RaftLogEntry} {T : Nat} {rest : List Str} (hr : Reached ids w) (hV : ∀ x ∈ V, x ∈ ids)
    (hc : c ∈ V) (hl : WellIndexed l) (h : Committed l T (w.nodes c)) (hrest : ∀ v ∈ rest, v ∈ V ∧ v ≠ c) (hd : rest.Nodup)
    (hready : ∀ v ∈ rest, (w.nodes v).current_term ≤ T ∧ LogsMatch l (w.nodes v).log) :
    ∃ w', Calls ids V w w' ∧ Committed l T (w'.nodes c) ∧ (∀ v ∈ rest, Has l (w'.nodes v)) ∧
      ∀ x, x ≠ c → x ∉ rest → w'.nodes x = w.nodes x := by
  induction rest generalizing w with
  | nil => exact ⟨w, .refl, h, fun _ hv => absurd hv List.not_mem_nil, fun _ _ _ => rfl⟩
  | cons v rest ih =>
    obtain ⟨hv, hne⟩ := hrest v List.mem_cons_self
    obtain ⟨hnot, hd'⟩ := List.nodup_cons.1 hd
    obtain ⟨hb, hmatch⟩ := hready v List.mem_cons_self
    obtain ⟨w₁, hcalls, h₁, hhas, hothers⟩ := catch_up hr hV hc hv hne hl h hb hmatch
    have hsame : ∀ x ∈ rest, w₁.nodes x = w.nodes x := fun x hx =>
      hothers x (hrest x (List.mem_cons_of_mem _ hx)).2 (fun he => hnot (he ▸ hx))
    obtain ⟨w₂, hcalls', h₂, hall, hothers'⟩ := ih (hr.calls hcalls) h₁ (fun x hx => hrest x (List.mem_cons_of_mem _ hx)) hd'
      (fun x hx => by rw [hsame x hx]; exact hready x (List.mem_cons_of_mem _ hx))
    refine ⟨w₂, hcalls.trans hcalls', h₂, fun x hx => ?_, fun x hxc hx => ?_⟩
    · rcases List.mem_cons.1 hx with rfl | hx
      · rw [hothers' x hne hnot]
        exact hhas
      · exact hall x hx
    · obtain ⟨hxv, hxrest⟩ := not_or.1 (mt List.mem_cons.2 hx)
      rw [hothers' x hxc hxrest, hothers x hxc hxv]

/-- An entry of a new term matches nothing. -/
theorem LogsMatch.snoc {l l' : List RaftLogEntry} (h : LogsMatch l l') {x : RaftLogEntry} (hx : ∀ e ∈ l', e.term < x.term) :
    LogsMatch (l ++ [x]) l' := by
  intro k a b ha hb hterm
  rcases getElem?_snoc ha with ⟨hk, ha⟩ | ⟨-, rfl⟩
  · rw [List.take_append_of_le_length hk]
    exact h k a b ha hb hterm
  · exact absurd hterm (hx b (List.mem_of_getElem? hb)).ne'

end Calls

end Dstore.Raft
