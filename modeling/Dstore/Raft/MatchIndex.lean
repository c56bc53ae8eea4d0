import Dstore.Raft.LogMatching
/-!
# Match and commit indices

An answer to an append request carries no index, so the leader takes a success
for one that covers its whole log, also the commands it has taken since it
sent the request. A match index is sound when the follower has answered a
request that ends where the leader's log ends (`Acknowledged`).

`append_client_command` moves the commit index at once, when only the leader
has the entry. With two nodes or more that is never a majority, so the commit
index is sound when no leader takes a command (`Solo`).
-/
open Dstore.Lib

namespace Dstore.Raft

/-! ## One call -/

theorem lookup_foldl_insert (v : Nat) (ks : List Str) (m : AList fun _ : Str => Nat) (k : Str) :
    (k ∈ ks → (ks.foldl (fun acc k => acc.insert k v) m).lookup k = some v) ∧
      (k ∉ ks → (ks.foldl (fun acc k => acc.insert k v) m).lookup k = m.lookup k) := by
  induction ks generalizing m with
  | nil => simp
  | cons x ks ih =>
    obtain ⟨hin, hout⟩ := ih (m.insert x v)
    by_cases hk : k ∈ ks
    · exact ⟨fun _ => hin hk, fun h => absurd (List.mem_cons_of_mem _ hk) h⟩
    · constructor
      · intro h
        rcases List.mem_cons.1 h with rfl | h
        · exact (hout hk).trans (AList.lookup_insert m)
        · exact absurd h hk
      · intro h
        exact (hout hk).trans (AList.lookup_insert_ne fun he => h (he ▸ List.mem_cons_self))

theorem lookup_setAll {m : AList fun _ : Str => Nat} {v x : Nat} {k : Str} (h : (RaftNode.setAll m v).lookup k = some x) :
    x = v := by
  obtain ⟨hin, hout⟩ := lookup_foldl_insert v m.keys m k
  unfold RaftNode.setAll at h
  by_cases hk : k ∈ m.keys
  · rw [hin hk] at h
    cases h
    rfl
  · rw [hout hk, AList.lookup_eq_none.2 fun hm => hk (AList.mem_keys.1 hm)] at h
    cases h

theorem lookup_configure {s : RaftNode} {ps : List Str} {f : Str} {m : Nat}
    (h : (s.configure_cluster ps).match_index.lookup f = some m) : m = 0 ∨ s.match_index.lookup f = some m := by
  induction ps generalizing s with
  | nil => exact .inr h
  | cons p ps ih =>
    rcases ih h with h | h
    · exact .inl h
    · by_cases hp : f = p
      · subst hp
        rw [AList.lookup_insert] at h
        cases h
        exact .inl rfl
      · rw [AList.lookup_insert_ne hp] at h
        exact .inr h

/-- A call that hands a success to a leader of at least its term. -/
def Succeeds (s : RaftNode) (e : Event) (f : Str) : Prop :=
  ∃ i y n, e = .observe_append_entries_response i y n ∧ y.follower = f ∧ y.response.success = true ∧
    y.response.term ≤ s.current_term

/-- Where a leader's match index comes from: it is zero, it was there before in
the same term, or a success has just set it to the end of the log. -/
theorem match_index_apply {s : RaftNode} {e : Event} (hr : (e.apply s).role = .kLeader) {f : Str} {m : Nat}
    (hm : (e.apply s).match_index.lookup f = some m) :
    m = 0 ∨ (s.role = .kLeader ∧ (e.apply s).current_term = s.current_term ∧
      (s.match_index.lookup f = some m ∨ Succeeds s e f ∧ m = s.last_index)) := by
  cases e with
  | start_election i => cases hr
  | request_vote i q =>
    simp only [Event.apply] at hr hm ⊢
    rcases s.request_vote_cases q with ⟨-, he⟩ | ⟨b, hb, he | ⟨-, he⟩⟩ <;> rw [he] at hr hm ⊢
    · exact .inr ⟨hr, rfl, .inl hm⟩
    · rcases hb with ⟨rfl, -⟩ | ⟨rfl, -⟩
      · cases hr
      · exact .inr ⟨hr, rfl, .inl hm⟩
    · rcases hb with ⟨rfl, -⟩ | ⟨rfl, -⟩
      · cases hr
      · exact .inr ⟨hr, rfl, .inl hm⟩
  | observe_vote i y n =>
    simp only [Event.apply] at hr hm ⊢
    rcases s.observe_vote_cases y.response n with ⟨-, he⟩ | ⟨-, v, -, ⟨he, -⟩ | ⟨-, -, he⟩⟩ <;> rw [he] at hr hm ⊢
    · cases hr
    · exact .inr ⟨hr, rfl, .inl hm⟩
    · exact .inl (lookup_setAll hm)
  | append_client_command i c =>
    simp only [Event.apply] at hr hm ⊢
    rcases s.append_client_command_cases c with ⟨-, he⟩ | ⟨-, he⟩ <;> rw [he] at hr hm ⊢
    · exact .inr ⟨hr, rfl, .inl hm⟩
    · exact .inr ⟨hr, rfl, .inl hm⟩
  | make_append_entries i f => exact .inr ⟨hr, rfl, .inl hm⟩
  | append_entries i q =>
    simp only [Event.apply] at hr hm ⊢
    rcases s.append_entries_cases q with ⟨-, he⟩ | ⟨-, b, rfl, ⟨-, he⟩ | ⟨-, l, -, he⟩⟩ <;> rw [he] at hr hm ⊢
    · exact .inr ⟨hr, rfl, .inl hm⟩
    · cases hr
    · cases hr
  | observe_append_entries_response i y n =>
    simp only [Event.apply] at hr hm ⊢
    by_cases h1 : y.response.term > s.current_term
    · rw [RaftNode.observe_append_entries_response, if_pos h1] at hr
      cases hr
    by_cases h2 : s.role ≠ .kLeader
    · rw [RaftNode.observe_append_entries_response, if_neg h1, if_pos h2] at hr
      exact absurd hr h2
    by_cases h3 : y.response.success = false
    · rw [RaftNode.observe_append_entries_response, if_neg h1, if_neg h2, if_pos h3] at hm ⊢
      exact .inr ⟨not_not.1 h2, rfl, .inl hm⟩
    · rw [RaftNode.observe_append_entries_response, if_neg h1, if_neg h2, if_neg h3] at hm ⊢
      refine .inr ⟨not_not.1 h2, rfl, ?_⟩
      by_cases hf : f = y.follower
      · subst hf
        rw [AList.lookup_insert] at hm
        cases hm
        exact .inr ⟨⟨i, y, n, rfl, rfl, by simpa using h3, by omega⟩, rfl⟩
      · rw [AList.lookup_insert_ne hf] at hm
        exact .inl hm
  | configure_cluster i ps =>
    simp only [Event.apply] at hr hm ⊢
    obtain ⟨ni, mi, he⟩ := s.configure_cluster_cases ps
    rcases lookup_configure hm with h0 | hm
    · exact .inl h0
    · rw [he] at hr ⊢
      exact .inr ⟨hr, rfl, .inl hm⟩
  | become_leader_for_single_node i =>
    simp only [Event.apply, RaftNode.become_leader_for_single_node, RaftNode.start_election, RaftNode.observe_vote,
      gt_iff_lt, Nat.lt_irrefl, if_false, and_self, if_true, Nat.reduceDiv, Nat.reduceAdd, Nat.zero_lt_two] at hm
    exact .inl (lookup_setAll hm)

theorem observe_append_log (s : RaftNode) (f : Str) (resp : AppendEntriesResponse) (n : Nat) :
    (s.observe_append_entries_response f resp n).log = s.log := by
  rcases s.observe_append_cases f resp n with ⟨-, he⟩ | ⟨ni, mi, c, he, -⟩ <;> rw [he]
  rfl

/-- What a success answers: a request whose predecessor matched, in its own
term. -/
theorem append_entries_success {s : RaftNode} {m : AppendEntriesRequest} {T : Nat}
    (h : (s.append_entries m).2 = ⟨T, true⟩) :
    m.term = T ∧ RaftNode.prevMatches s.log m = true ∧
      (s.append_entries m).1.log = m.entries.foldl RaftNode.storeEntry s.log := by
  rcases s.append_entries_cases m with ⟨-, he⟩ | ⟨-, b, rfl, ⟨-, he⟩ | ⟨hp, l, rfl, he⟩⟩ <;> rw [he] at h ⊢
  · cases h
  · cases h
  · cases h
    exact ⟨rfl, hp, rfl⟩

/-! ## Answers along a run -/

section Runs
variable {G : World → Event → Prop} (r : Run (Guarded G World.step) World.init)

/-- In this step `f` produces a success in term `T`. -/
def Answers (u : Nat) (f : Str) (T : Nat) : Prop :=
  ∃ y, (r.state (u + 1)).appendReplies = y :: (r.state u).appendReplies ∧ y.follower = f ∧ y.response = ⟨T, true⟩

/-- Whenever a leader has the match index `m` for `f`, the log of `f` agreed with
the leader's up to `m` when `f` produced some success in the leader's term. -/
def MatchSound (t : Nat) : Prop :=
  ∀ i T, (r.state t).Leads i T → ∀ f m, ((r.state t).nodes i).match_index.lookup f = some m → 0 < m →
    ∃ u < t, Answers r u f T ∧ m ≤ ((r.state (u + 1)).nodes f).log.length ∧
      ((r.state (u + 1)).nodes f).log.take m = ((r.state t).nodes i).log.take m

/-- Whenever a leader has the commit index `c`, more than half of the nodes have
had its entries up to `c` at one time. -/
def CommitSound (ids : List Str) (t : Nat) : Prop :=
  ∀ i T, (r.state t).Leads i T → ∃ t' ≤ t, ids.length / 2 < ids.countP fun j =>
    decide (((r.state t).nodes i).commit_index ≤ ((r.state t').nodes j).log.length ∧
      ((r.state t').nodes j).log.take ((r.state t).nodes i).commit_index =
        ((r.state t).nodes i).log.take ((r.state t).nodes i).commit_index)

variable {r}

/-- A recorded answer was produced by a call, in some step. -/
theorem exists_answer {t : Nat} {y : AppendReply} (h : y ∈ (r.state t).appendReplies) :
    ∃ u < t, ∃ m, (r.state (u + 1)).appendReplies = y :: (r.state u).appendReplies ∧
      G (r.state u) (.append_entries y.follower m) ∧ r.state (u + 1) = (r.state u).exec (.append_entries y.follower m) ∧
      y = ⟨y.follower, m, (((r.state u).nodes y.follower).append_entries m).2⟩ := by
  induction t with
  | zero =>
    rw [r.state_zero] at h
    cases h
  | succ t ih =>
    have hold : y ∈ (r.state t).appendReplies → ∃ u < t + 1, ∃ m,
        (r.state (u + 1)).appendReplies = y :: (r.state u).appendReplies ∧ G (r.state u) (.append_entries y.follower m) ∧
        r.state (u + 1) = (r.state u).exec (.append_entries y.follower m) ∧
        y = ⟨y.follower, m, (((r.state u).nodes y.follower).append_entries m).2⟩ := by
      intro h
      obtain ⟨u, hu, hrest⟩ := ih h
      exact ⟨u, Nat.lt_succ_of_lt hu, hrest⟩
    rcases r.state_succ t with hst | ⟨e, hg, hs⟩
    · exact hold (hst ▸ h)
    · have hs : r.state (t + 1) = (r.state t).exec e := hs
      rw [hs] at h
      cases e with
      | append_entries i m =>
        rcases List.mem_cons.1 h with rfl | h
        · exact ⟨t, Nat.lt_succ_self t, m, by rw [hs]; rfl, hg, hs, rfl⟩
        · exact hold h
      | _ => exact hold h

end Runs

/-! ## Sound match indices -/

/-- A leader with a log is handed a success only when the follower has answered,
with success and in the leader's term, a request that ends where the log ends. -/
def Acknowledged (w : World) : Event → Prop
  | .observe_append_entries_response i y _ => (w.nodes i).role = .kLeader → y.response.success = true →
      y.response.term ≤ (w.nodes i).current_term → (w.nodes i).log ≠ [] →
      ∃ a ∈ w.appendReplies, a.follower = y.follower ∧ a.response = ⟨(w.nodes i).current_term, true⟩ ∧
        a.request.prev_log_index + a.request.entries.length = (w.nodes i).log.length
  | _ => True

instance (w : World) : ∀ e, Decidable (Acknowledged w e)
  | .observe_append_entries_response i y _ => inferInstanceAs (Decidable ((w.nodes i).role = .kLeader →
      y.response.success = true → y.response.term ≤ (w.nodes i).current_term → (w.nodes i).log ≠ [] →
      ∃ a ∈ w.appendReplies, a.follower = y.follower ∧ a.response = ⟨(w.nodes i).current_term, true⟩ ∧
        a.request.prev_log_index + a.request.entries.length = (w.nodes i).log.length))
  | .start_election _ | .request_vote _ _ | .append_client_command _ _ | .make_append_entries _ _
  | .append_entries _ _ | .observe_vote _ _ _ | .configure_cluster _ _
  | .become_leader_for_single_node _ => inferInstanceAs (Decidable True)

/-- Requests are delivered as they were made, and successes are handed over in
time. -/
def InTime (w : World) (e : Event) : Prop := Shipped w e ∧ Acknowledged w e

section Match
variable {G : World → Event → Prop} {r : Run (Guarded G World.step) World.init}

/-- A follower that has answered a request to the end of the leader's log had
that log then. -/
theorem agreed_of_answer (hG : ∀ w e, G w e → Shipped w e) (h1 : OneLeader r) {t T : Nat} {i : Str}
    (hl : (r.state t).Leads i T) {a : AppendReply} (ha : a ∈ (r.state t).appendReplies) (hresp : a.response = ⟨T, true⟩)
    (hlen : a.request.prev_log_index + a.request.entries.length = ((r.state t).nodes i).log.length) :
    ∃ u < t, Answers r u a.follower T ∧
      ((r.state t).nodes i).log <+: ((r.state (u + 1)).nodes a.follower).log := by
  have h1' : OneLeader (r.weaken hG) := h1.weaken hG
  obtain ⟨u, hu, m, hreplies, hg, hs, hy⟩ := exists_answer ha
  have hm : a.request = m := by rw [hy]
  have hsuccess : (((r.state u).nodes a.follower).append_entries m).2 = ⟨T, true⟩ := by
    rw [hy] at hresp
    exact hresp
  obtain ⟨hterm, hp, hlog⟩ := append_entries_success hsuccess
  rw [hm] at hlen
  -- the request was made by the leader, when its log was what it is now
  obtain ⟨u', hu', j, f, hlead, hmade⟩ := (logInv_all h1' u).sent m (hG _ _ hg)
  obtain rfl : i = j := h1 t u' i j T hl (hterm ▸ hlead)
  have hinv' := logInv_all h1' u'
  obtain ⟨-, hpre⟩ := stored_log h1' hu' (logInv_all h1' u) hinv' hmade hp hlog
  obtain ⟨-, hle, -⟩ := prev_agrees h1' hu' (logInv_all h1' u) hinv' hmade hp
  obtain ⟨hent, -⟩ := make_append_entries_eq (hinv'.indexed i) f
  rw [← hmade] at hent
  have hsame : ((r.state u').nodes i).log = ((r.state t).nodes i).log := by
    refine (leads_isPrefix (by omega) (hterm ▸ hlead) hl).eq_of_length ?_
    rw [hent, List.length_drop] at hlen
    have hle' : m.prev_log_index ≤ ((r.state u').nodes i).log.length := hle
    have hlen' : m.prev_log_index + (((r.state u').nodes i).log.length - m.prev_log_index) = _ := hlen
    omega
  refine ⟨u, hu, ⟨a, hreplies, rfl, hresp⟩, ?_⟩
  have hnode : (r.state (u + 1)).nodes a.follower = (((r.state u).nodes a.follower).append_entries m).1 := by
    rw [hs]
    exact World.exec_nodes_self _ _
  rw [hnode, ← hsame]
  exact hpre

theorem matchSound_succ (hG : ∀ w e, G w e → InTime w e) (h1 : OneLeader r) {t : Nat}
    (h : MatchSound r t) : MatchSound r (t + 1) := by
  intro i T hl f m hm hpos
  -- what is kept while the leader leads on
  have hkeep : (r.state t).Leads i T → ((r.state t).nodes i).match_index.lookup f = some m →
      ∃ u < t + 1, Answers r u f T ∧ m ≤ ((r.state (u + 1)).nodes f).log.length ∧
        ((r.state (u + 1)).nodes f).log.take m = ((r.state (t + 1)).nodes i).log.take m := by
    intro hl' hm'
    obtain ⟨u, hu, hans, hlen, htake⟩ := h i T hl' f m hm' hpos
    have hpre := leads_isPrefix (Nat.le_succ t) hl' hl
    have hlen' : m ≤ ((r.state t).nodes i).log.length := by
      have := congrArg List.length htake
      rw [List.length_take, List.length_take] at this
      omega
    obtain ⟨more, hmore⟩ := hpre
    refine ⟨u, by omega, hans, hlen, ?_⟩
    rw [htake, ← hmore, List.take_append_of_le_length hlen']
  rcases r.state_succ t with hst | ⟨e, hg, hs⟩
  · rw [hst] at hl hm
    exact hkeep hl hm
  · have hs : r.state (t + 1) = (r.state t).exec e := hs
    by_cases hi : i = e.node
    · subst hi
      have hself : (r.state (t + 1)).nodes e.node = e.apply ((r.state t).nodes e.node) := by
        rw [hs, World.exec_nodes_self]
      rw [hself] at hm
      rcases match_index_apply (hself ▸ hl.1) hm with h0 | ⟨hr, hterm, hold | ⟨⟨j, y, n, rfl, hf, hsuc, hty⟩, hlast⟩⟩
      · omega
      · rw [← hself, hl.2] at hterm
        exact hkeep ⟨hr, hterm.symm⟩ hold
      · rw [← hself, hl.2] at hterm
        have hterm : T = ((r.state t).nodes j).current_term := hterm
        have hl' : (r.state t).Leads j T := ⟨hr, hterm.symm⟩
        have hindexed := (logInv_all (h1.weaken fun w e hw => (hG w e hw).1) t).indexed j
        have hlen : m = ((r.state t).nodes j).log.length := hlast.trans hindexed.getLast
        have hne : ((r.state t).nodes j).log ≠ [] := by
          intro hnil
          rw [hnil] at hlen
          simp at hlen
          omega
        obtain ⟨a, ha, haf, hresp, hreach⟩ := (hG _ _ hg).2 hr hsuc hty hne
        obtain ⟨u, hu, hans, hpre⟩ := agreed_of_answer (fun w e hw => (hG w e hw).1) h1 hl' ha
          (by rw [hresp, hterm]) hreach
        -- the success leaves the leader's log as it is
        have hlog : ((r.state (t + 1)).nodes j).log = ((r.state t).nodes j).log := by
          rw [show (r.state (t + 1)).nodes j = _ from hself]
          exact observe_append_log _ y.follower y.response n
        have hlen' := hpre.length_le
        subst hf
        rw [haf] at hans hpre hlen'
        refine ⟨u, by omega, hans, by omega, ?_⟩
        change _ = ((r.state (t + 1)).nodes j).log.take m
        rw [hlog, List.prefix_iff_eq_take.1 hpre, ← hlen, List.take_take, Nat.min_self]
    · rw [hs, World.exec_nodes_ne _ e hi] at hm
      refine hkeep ?_ hm
      have hsame : (r.state (t + 1)).nodes i = (r.state t).nodes i := by rw [hs, World.exec_nodes_ne _ e hi]
      exact ⟨hsame ▸ hl.1, hsame ▸ hl.2⟩

theorem matchSound_all (hG : ∀ w e, G w e → InTime w e) (h1 : OneLeader r) (t : Nat) : MatchSound r t := by
  induction t with
  | zero =>
    intro i T hl
    rw [r.state_zero] at hl
    cases hl.1
  | succ t ih => exact matchSound_succ hG h1 ih

end Match

/-! ## Sound commit indices -/

/-- The nodes of the cluster are called, and with two nodes or more no leader
takes a command. -/
def Solo (ids : List Str) (w : World) : Event → Prop
  | .append_client_command i _ => i ∈ ids ∧ ((w.nodes i).role = .kLeader → ids.length ≤ 1)
  | e => e.node ∈ ids

instance (ids : List Str) (w : World) : ∀ e, Decidable (Solo ids w e)
  | .append_client_command i _ => inferInstanceAs (Decidable (i ∈ ids ∧ ((w.nodes i).role = .kLeader → ids.length ≤ 1)))
  | .start_election i | .request_vote i _ | .observe_vote i _ _ | .make_append_entries i _ | .append_entries i _
  | .observe_append_entries_response i _ _ | .configure_cluster i _
  | .become_leader_for_single_node i => inferInstanceAs (Decidable (i ∈ ids))

section Commit
variable {ids : List Str} {G : World → Event → Prop} (r : Run (Guarded G World.step) World.init)

theorem solo_node {w : World} {e : Event} (h : Solo ids w e) : e.node ∈ ids := by
  cases e with
  | append_client_command i c => exact h.1
  | _ => exact h

/-- Only nodes of the cluster lead. -/
theorem leader_mem (hG : ∀ w e, G w e → Solo ids w e) (t : Nat) (i : Str) (hi : ((r.state t).nodes i).role = .kLeader) :
    i ∈ ids := by
  refine r.inv (fun w => ∀ i, (w.nodes i).role = .kLeader → i ∈ ids) ?_ ?_ t i hi
  · intro i hi
    cases hi
  · intro w e w' h hs j hj
    rw [hs.2] at hj
    by_cases he : j = e.node
    · rw [he]
      exact solo_node (hG w e hs.1)
    · rw [w.exec_nodes_ne e he] at hj
      exact h j hj

/-- A call that neither takes a command nor stores an entry leaves an empty log
empty. -/
theorem Effect.log_nil {s s' : RaftNode} {e : Event} (h : Effect e s s') (hs : s.log = [])
    (hc : ∀ i c, e = .append_client_command i c → s.role ≠ .kLeader)
    (hm : ∀ i m, e = .append_entries i m → m.entries = []) : s'.log = [] := by
  cases h with
  | granted i q _ b hb => rcases hb with ⟨rfl, -⟩ | ⟨rfl, -⟩ <;> exact hs
  | commanded i c _ hr => exact absurd hr (hc i c rfl)
  | stored i m _ l ht hp hl =>
    rw [hm i m rfl] at hl
    exact hl.trans hs
  | idle | stood | down | counted | won | refused | indexed | crowned => exact hs

/-- With two nodes or more and no commands, nothing is ever in a log. -/
theorem logs_nil (hG : ∀ w e, G w e → Shipped w e ∧ Solo ids w e) (hlen : 1 < ids.length) (t : Nat) :
    (∀ i, ((r.state t).nodes i).log = []) ∧ ∀ m ∈ (r.state t).appendRequests, m.entries = [] := by
  refine r.inv (fun w => (∀ i, (w.nodes i).log = []) ∧ ∀ m ∈ w.appendRequests, m.entries = []) ?_ ?_ t
  · exact ⟨fun _ => rfl, fun m hm => by cases hm⟩
  · rintro w e w' ⟨hnodes, hsent⟩ ⟨hg, rfl⟩
    obtain ⟨hshipped, hsolo⟩ := hG w e hg
    constructor
    · intro i
      by_cases hi : i = e.node
      · subst hi
        rw [w.exec_nodes_self]
        refine (apply_effect _ e).log_nil (hnodes _) (fun i c he hr => ?_) fun i m he => ?_
        · subst he
          have := hsolo.2 hr
          omega
        · subst he
          exact hsent m hshipped
      · rw [w.exec_nodes_ne e hi]
        exact hnodes i
    · cases e with
      | make_append_entries i f =>
        intro m hm
        rcases List.mem_cons.1 hm with rfl | hm
        · simp only [RaftNode.make_append_entries, Event.node, hnodes i, List.filter_nil]
        · exact hsent m hm
      | _ => exact hsent

theorem commitSound_all (hG : ∀ w e, G w e → Shipped w e ∧ Solo ids w e) (h1 : OneLeader r) (t : Nat) :
    CommitSound r ids t := by
  intro i T hl
  have hi : i ∈ ids := leader_mem r (fun w e h => (hG w e h).2) t i hl.1
  have hc : ((r.state t).nodes i).commit_index ≤ ((r.state t).nodes i).log.length :=
    (logInv_all (h1.weaken fun w e h => (hG w e h).1) t).commit_le i
  refine ⟨t, Nat.le_refl t, ?_⟩
  rcases Nat.lt_or_ge 1 ids.length with hlen | hlen
  · -- every node has the empty log
    have hnil := (logs_nil r hG hlen t).1
    rw [List.countP_eq_length.2]
    · omega
    · intro j hj
      rw [hnil i] at hc ⊢
      simp [hnil j, Nat.le_zero.1 hc]
  · have hpos : 0 < ids.countP fun j => decide (((r.state t).nodes i).commit_index ≤ ((r.state t).nodes j).log.length ∧
        ((r.state t).nodes j).log.take ((r.state t).nodes i).commit_index =
          ((r.state t).nodes i).log.take ((r.state t).nodes i).commit_index) :=
      List.countP_pos_iff.2 ⟨i, hi, decide_eq_true ⟨hc, rfl⟩⟩
    omega

end Commit

/-- Match indices are sound in every run that hands successes over in time,
and commit indices in every run in which no leader of two nodes or more takes
a command. -/
theorem indices_sound (ids : List Str) :
    (∀ r : Run (Guarded InTime World.step) World.init, OneLeader r → ∀ t, MatchSound r t) ∧
      ∀ r : Run (Guarded (fun w e => Shipped w e ∧ Solo ids w e) World.step) World.init, OneLeader r →
        ∀ t, CommitSound r ids t :=
  ⟨fun _ h1 t => matchSound_all (fun _ _ h => h) h1 t, fun r h1 t => commitSound_all r (fun _ _ h => h) h1 t⟩

/-- The answer of `b` to the request of `replicatedCommand` reaches `a`. -/
def acknowledgedCommand : List Event :=
  replicatedCommand ++ [.observe_append_entries_response (lit "a")
    ⟨lit "b", ⟨lit "a", 1, 0, 0, 1, [⟨1, 1, lit "x"⟩]⟩, ⟨1, true⟩⟩ 3]

theorem acknowledgedCommand_legal :
    Run.Legal (fun w e => (Network [lit "a", lit "b", lit "c"] w e ∧ Timely w e) ∧ Acknowledged w e)
      World.exec World.init acknowledgedCommand := by decide

/-- A cluster of one takes a command. -/
def soloCommand : List Event := [.become_leader_for_single_node (lit "a"), .append_client_command (lit "a") (lit "x")]

theorem soloCommand_legal : Run.Legal (fun w e => Shipped w e ∧ Solo [lit "a"] w e) World.exec World.init soloCommand :=
  ⟨⟨trivial, by decide⟩, ⟨trivial, by decide⟩, trivial⟩

theorem acknowledged_and_solo_sound :
    (∃ r : Run (Guarded InTime World.step) World.init, OneLeader r ∧ (r.state 8).Leads (lit "a") 1 ∧
      ((r.state 8).nodes (lit "a")).match_index.lookup (lit "b") = some 1 ∧ MatchSound r 8) ∧
    ∃ r : Run (Guarded (fun w e => Shipped w e ∧ Solo [lit "a"] w e) World.step) World.init, OneLeader r ∧
      (r.state 2).Leads (lit "a") 1 ∧ ((r.state 2).nodes (lit "a")).commit_index = 1 ∧ CommitSound r [lit "a"] 2 := by
  constructor
  · let r0 := Run.ofEvents World.exec World.init _ acknowledgedCommand_legal
    let r : Run (Guarded InTime World.step) World.init := r0.weaken fun w e h => ⟨shipped_of_network w e h.1, h.2⟩
    have h1 : OneLeader r := oneLeader_timely (by decide) (r0.weaken fun _ _ h => h.1)
    exact ⟨r, h1, by decide, by decide, (indices_sound []).1 r h1 8⟩
  · let r := Run.ofEvents World.exec World.init _ soloCommand_legal
    have h1 : OneLeader r := by
      intro t t' i j T hi hj
      have hi' := List.mem_singleton.1 (leader_mem r (fun _ _ h => h.2) t i hi.1)
      have hj' := List.mem_singleton.1 (leader_mem r (fun _ _ h => h.2) t' j hj.1)
      rw [hi', hj']
    exact ⟨r, h1, by decide, by decide, (indices_sound [lit "a"]).2 r h1 2⟩

/-- Node `b` answers a request without entries; `a` takes a command before the
answer reaches it. -/
def lateAnswer : List Event :=
  let a := lit "a"; let b := lit "b"
  [.configure_cluster a [b, lit "c"], .start_election a, .request_vote b ⟨a, 1, 0, 0⟩,
    .observe_vote a ⟨b, ⟨a, 1, 0, 0⟩, ⟨1, true⟩⟩ 3, .make_append_entries a b, .append_entries b ⟨a, 1, 0, 0, 0, []⟩,
    .append_client_command a (lit "x"), .observe_append_entries_response a ⟨b, ⟨a, 1, 0, 0, 0, []⟩, ⟨1, true⟩⟩ 3]

theorem lateAnswer_legal : Run.Legal (fun w e => Network [lit "a", lit "b", lit "c"] w e ∧ Timely w e)
    World.exec World.init lateAnswer := by decide

theorem lateAnswer_log_nil : ∀ t ≤ 8, ((Run.stateAfter World.exec World.init lateAnswer t).nodes (lit "b")).log = [] ∧
    ((Run.stateAfter World.exec World.init lateAnswer t).nodes (lit "c")).log = [] := by decide

/-- The match index of `b` is 1 though `b` has never had an entry, and the
commit index is 1 though only `a` has. -/
theorem late_answer_matches :
    ∃ r : Run (Guarded (fun w e => Network [lit "a", lit "b", lit "c"] w e ∧ Timely w e) World.step) World.init,
      OneLeader r ∧ ¬ MatchSound r 8 ∧ ¬ CommitSound r [lit "a", lit "b", lit "c"] 7 := by
  refine ⟨Run.ofEvents World.exec World.init _ lateAnswer_legal, oneLeader_timely (by decide) _, ?_, ?_⟩
  · intro h
    obtain ⟨u, hu, -, hlen, -⟩ := h (lit "a") 1 (by decide) (lit "b") 1 (by decide) (Nat.zero_lt_one)
    rw [Run.ofEvents_state, (lateAnswer_log_nil (u + 1) (by omega)).1] at hlen
    exact absurd hlen (by decide)
  · intro h
    obtain ⟨t', ht', hcount⟩ := h (lit "a") 1 (by decide)
    have hc : ((Run.stateAfter World.exec World.init lateAnswer 7).nodes (lit "a")).commit_index = 1 := by decide
    obtain ⟨hb, hcn⟩ := lateAnswer_log_nil t' (by omega)
    simp only [Run.ofEvents_state, hc, List.countP_cons, List.countP_nil, hb, hcn] at hcount
    revert hcount
    simp
    split <;> omega

end Dstore.Raft
