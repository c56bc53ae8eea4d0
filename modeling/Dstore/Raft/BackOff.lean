import Dstore.Raft.Commit
import Dstore.Raft.MatchIndex
import Dstore.Raft.WellFormed
/-!
# The leader finds where a follower's log agrees with its own

A refused append request moves the follower's next index back by one, and the
request is made again from there. The map may not have the follower: the first
request then starts at the end of the log, and the first refusal puts a zero
into the map, from where the whole log is sent. Either way the position before
the first sent entry gets closer to the start of the log, where a request
cannot be refused, so at most one round for each entry of the log and one more
are needed (`back_off_converges`).
-/
open Dstore.Lib

namespace Dstore.Raft

/-! ## Next indices of a leader -/

/-- A leader's next indices are at most one past its log. -/
def NextBounded (s : RaftNode) : Prop :=
  s.role = .kLeader → ∀ f v, s.next_index.lookup f = some v → v ≤ s.last_index + 1

theorem lookup_configure_next {s : RaftNode} {ps : List Str} {f : Str} {v : Nat}
    (h : (s.configure_cluster ps).next_index.lookup f = some v) :
    v = s.last_index + 1 ∨ s.next_index.lookup f = some v := by
  induction ps generalizing s with
  | nil => exact .inr h
  | cons p ps ih =>
    rcases ih h with h | h
    · exact .inl h
    · by_cases hp : f = p
      · subst hp
        rw [AList.lookup_insert] at h
        cases h
        exact .inl rfl
      · rw [AList.lookup_insert_ne hp] at h
        exact .inr h

/-- A refused request leaves a next index within the same bound. -/
theorem NextBounded.observe_append {s : RaftNode} (h : NextBounded s) (f : Str) (resp : AppendEntriesResponse) (n : Nat) :
    NextBounded (s.observe_append_entries_response f resp n) := by
  intro hr g v hv
  by_cases h1 : resp.term > s.current_term
  · rw [RaftNode.observe_append_entries_response, if_pos h1] at hr
    cases hr
  by_cases h2 : s.role ≠ .kLeader
  · rw [RaftNode.observe_append_entries_response, if_neg h1, if_pos h2] at hr
    exact absurd hr h2
  by_cases h3 : resp.success = false
  · rw [RaftNode.observe_append_entries_response, if_neg h1, if_neg h2, if_pos h3] at hv ⊢
    by_cases hg : g = f
    · subst hg
      rw [AList.lookup_insert, Option.some.injEq] at hv
      have hle : (s.next_index.lookup g).getD 0 ≤ s.last_index + 1 := by
        cases hl : s.next_index.lookup g with
        | none => exact Nat.zero_le _
        | some x => exact h (not_not.1 h2) g x hl
      simp only [RaftNode.last_index] at hle ⊢
      split at hv <;> omega
    · rw [AList.lookup_insert_ne hg] at hv
      exact h (not_not.1 h2) g v hv
  · rw [RaftNode.observe_append_entries_response, if_neg h1, if_neg h2, if_neg h3] at hv ⊢
    by_cases hg : g = f
    · subst hg
      rw [AList.lookup_insert, Option.some.injEq] at hv
      exact hv.ge
    · rw [AList.lookup_insert_ne hg] at hv
      exact h (not_not.1 h2) g v hv

/-- Every call keeps the bound. -/
theorem NextBounded.apply {s : RaftNode} (h : NextBounded s) (e : Event) : NextBounded (e.apply s) := by
  cases e with
  | start_election i => intro hr; cases hr
  | request_vote i q =>
    simp only [Event.apply]
    rcases s.request_vote_cases q with ⟨-, he⟩ | ⟨b, hb, he | ⟨-, he⟩⟩ <;> rw [he]
    · exact h
    · rcases hb with ⟨rfl, -⟩ | ⟨rfl, -⟩
      · intro hr; cases hr
      · exact h
    · rcases hb with ⟨rfl, -⟩ | ⟨rfl, -⟩
      · intro hr; cases hr
      · exact h
  | observe_vote i y n =>
    simp only [Event.apply]
    rcases s.observe_vote_cases y.response n with ⟨-, he⟩ | ⟨-, v, -, ⟨he, -⟩ | ⟨-, -, he⟩⟩ <;> rw [he]
    · intro hr; cases hr
    · exact h
    · intro _ f v hv
      exact (lookup_setAll hv).le
  | append_client_command i c =>
    simp only [Event.apply]
    rcases s.append_client_command_cases c with ⟨-, he⟩ | ⟨hr, he⟩ <;> rw [he]
    · exact h
    · intro _ f v hv
      have := h hr f v hv
      simp only [RaftNode.last_index, List.getLast?_concat, Option.map_some, Option.getD_some] at this ⊢
      omega
  | make_append_entries i f => exact h
  | append_entries i m =>
    simp only [Event.apply]
    rcases s.append_entries_cases m with ⟨-, he⟩ | ⟨-, b, rfl, ⟨-, he⟩ | ⟨-, l, -, he⟩⟩ <;> rw [he]
    · exact h
    · intro hr; cases hr
    · intro hr; cases hr
  | observe_append_entries_response i y n => exact h.observe_append _ _ _
  | configure_cluster i ps =>
    intro hr f v hv
    obtain ⟨ni, mi, he⟩ := s.configure_cluster_cases ps
    rcases lookup_configure_next hv with hv | hv
    · simp only [Event.apply, he]
      exact hv.le
    · simp only [Event.apply, he] at hr ⊢
      exact h hr f v hv
  | become_leader_for_single_node i =>
    intro _ f v hv
    simp only [Event.apply, RaftNode.become_leader_for_single_node, RaftNode.start_election, RaftNode.observe_vote,
      gt_iff_lt, Nat.lt_irrefl, if_false, and_self, if_true, Nat.reduceDiv, Nat.reduceAdd, Nat.zero_lt_two] at hv ⊢
    exact (lookup_setAll hv).le

theorem nextBounded_all {G : World → Event → Prop} (r : Run (Guarded G World.step) World.init) (t : Nat) (i : Str) :
    NextBounded ((r.state t).nodes i) := by
  refine r.inv (fun w => ∀ i, NextBounded (w.nodes i)) (fun _ hr => by cases hr) ?_ t i
  rintro w e w' h ⟨-, rfl⟩ j
  by_cases hj : j = e.node
  · subst hj
    rw [w.exec_nodes_self]
    exact (h _).apply e
  · rw [w.exec_nodes_ne e hj]
    exact h j

/-! ## One round -/

/-- The leader makes a request for `f`, the follower answers it, and the leader
takes the answer. -/
def exchange (f : Str) (n : Nat) (p : RaftNode × RaftNode) : (RaftNode × RaftNode) × AppendEntriesResponse :=
  let req := p.1.make_append_entries f
  let (follower, resp) := p.2.append_entries req
  ((p.1.observe_append_entries_response f resp n, follower), resp)

/-- Leader and follower after `k` rounds. -/
def afterRounds (f : Str) (n : Nat) : Nat → RaftNode × RaftNode → RaftNode × RaftNode
  | 0, p => p
  | k + 1, p => afterRounds f n k (exchange f n p).1

/-- Two logs that have entries of the same term at a position are equal up to
there. -/
def LogsMatch (l l' : List RaftLogEntry) : Prop :=
  ∀ (k : Nat) (a b : RaftLogEntry), l[k]? = some a → l'[k]? = some b → a.term = b.term → l.take (k + 1) = l'.take (k + 1)

/-- The leader of term `T` with log `l`, and a follower that is not past `T`. -/
structure Paired (l : List RaftLogEntry) (T : Nat) (p : RaftNode × RaftNode) : Prop where
  leader : p.1.role = .kLeader
  term : p.1.current_term = T
  log : p.1.log = l
  behind : p.2.current_term ≤ T
  indexed : WellIndexed l
  follower_indexed : WellIndexed p.2.log
  matching : LogsMatch l p.2.log

/-- Where the next request for `f` starts. -/
def nextFor (f : Str) (s : RaftNode) : Nat := (s.next_index.lookup f).getD (s.last_index + 1)

/-- The follower has the leader's log, and the leader knows it. -/
structure CaughtUp (f : Str) (l : List RaftLogEntry) (T : Nat) (p : RaftNode × RaftNode) : Prop where
  has_log : l <+: p.2.log
  matched : p.1.match_index.lookup f = some l.length
  next : p.1.next_index.lookup f = some (l.length + 1)
  leader : p.1.role = .kLeader
  term : p.1.current_term = T

section Round
variable {f : Str} {n T : Nat} {l : List RaftLogEntry} {p : RaftNode × RaftNode}

theorem Paired.last_index (h : Paired l T p) : p.1.last_index = l.length := by
  unfold RaftNode.last_index
  rw [h.log]
  exact h.indexed.getLast

/-- Where the predecessor matches, the logs agree up to it. -/
theorem Paired.agree (h : Paired l T p) (hnext : nextFor f p.1 ≤ l.length + 1)
    (hp : RaftNode.prevMatches p.2.log (p.1.make_append_entries f) = true) :
    p.2.log.take (p.1.make_append_entries f).prev_log_index = l.take (p.1.make_append_entries f).prev_log_index := by
  have hprev : (p.1.make_append_entries f).prev_log_index = nextFor f p.1 - 1 := rfl
  obtain ⟨-, hterm⟩ := make_append_entries_eq (h.log.symm ▸ h.indexed) f
  rw [h.log] at hterm
  by_cases h0 : (p.1.make_append_entries f).prev_log_index = 0
  · simp [h0]
  · obtain ⟨e, he, het⟩ := prev_entry h0 hp
    generalize (p.1.make_append_entries f).prev_log_index = k at *
    have hlt : k - 1 < l.length := by omega
    have hterm := hterm h0
    rw [List.getElem?_eq_getElem hlt, Option.map_some, Option.getD_some] at hterm
    have := h.matching (k - 1) _ e (List.getElem?_eq_getElem hlt) he (by rw [het, hterm])
    rw [Nat.sub_add_cancel (Nat.one_le_iff_ne_zero.2 h0)] at this
    exact this.symm

/-- What an accepted request leaves starts with the leader's log. -/
theorem Paired.stored (h : Paired l T p) (hnext : nextFor f p.1 ≤ l.length + 1)
    (hp : RaftNode.prevMatches p.2.log (p.1.make_append_entries f) = true) :
    l <+: (p.1.make_append_entries f).entries.foldl RaftNode.storeEntry p.2.log := by
  have hagree := h.agree hnext hp
  obtain ⟨hent, -⟩ := make_append_entries_eq (h.log.symm ▸ h.indexed) f
  rw [h.log] at hent
  rw [foldl_storeEntry _ p.2.log _ (prev_le hp) (fun k e hk => by
    rw [hent, List.getElem?_drop] at hk
    exact h.indexed _ e hk)]
  split
  · next hnil =>
    -- Nothing was sent, so the leader's log ends at the matched position.
    rw [hent, List.drop_eq_nil_iff] at hnil
    rw [← List.take_of_length_le hnil, ← hagree]
    exact List.take_prefix _ _
  · rw [hagree, hent, List.take_append_drop]

/-- A request whose predecessor the follower has, or that has none, catches the
follower up. -/
theorem Paired.accepted (h : Paired l T p) (hnext : nextFor f p.1 ≤ l.length + 1)
    (hp : RaftNode.prevMatches p.2.log (p.1.make_append_entries f) = true) :
    (exchange f n p).2.success = true ∧ CaughtUp f l T (exchange f n p).1 := by
  have hterm : (p.1.make_append_entries f).term = p.1.current_term := rfl
  have hstored := h.stored hnext hp
  have hbehind := h.behind
  have hlast := h.last_index
  simp only [exchange]
  generalize p.1.make_append_entries f = m at *
  rcases p.2.append_entries_cases m with ⟨hlt, -⟩ | ⟨-, b, rfl, ⟨hp', -⟩ | ⟨-, l', hl', he⟩⟩
  · rw [hterm, h.term] at hlt; omega
  · rw [hp] at hp'; cases hp'
  · rw [he]
    subst hl'
    refine ⟨rfl, hstored, ?_, ?_, ?_, ?_⟩ <;>
      rw [RaftNode.observe_append_entries_response, if_neg (by simp [hterm]), if_neg (by simp [h.leader]),
        if_neg (by simp)]
    · simp only [AList.lookup_insert, hlast]
    · simp only [AList.lookup_insert, hlast]
    · exact h.leader
    · exact h.term

/-- Any other request is refused, changes neither log and moves the next index
back. -/
theorem Paired.refused (h : Paired l T p)
    (hp : RaftNode.prevMatches p.2.log (p.1.make_append_entries f) = false) :
    (exchange f n p).2.success = false ∧ Paired l T (exchange f n p).1 ∧
      (exchange f n p).1.1.next_index.lookup f = some (if (p.1.next_index.lookup f).getD 0 > 1
        then (p.1.next_index.lookup f).getD 0 - 1 else (p.1.next_index.lookup f).getD 0) := by
  have hterm : (p.1.make_append_entries f).term = p.1.current_term := rfl
  have hbehind := h.behind
  simp only [exchange]
  generalize p.1.make_append_entries f = m at *
  rcases p.2.append_entries_cases m with ⟨hlt, -⟩ | ⟨-, b, rfl, ⟨-, he⟩ | ⟨hp', -, -, -⟩⟩
  · rw [hterm, h.term] at hlt; omega
  · rw [he]
    rw [RaftNode.observe_append_entries_response, if_neg (by simp [hterm]), if_neg (by simp [h.leader]), if_pos rfl]
    refine ⟨rfl, ⟨h.leader, h.term, h.log, ?_, h.indexed, h.follower_indexed, h.matching⟩, AList.lookup_insert _⟩
    simp only [hterm, h.term, Nat.le_refl]
  · rw [hp] at hp'; cases hp'

/-- A request with no predecessor is not refused. -/
theorem prevMatches_start (s : RaftNode) (log : List RaftLogEntry) (h : nextFor f s ≤ 1) :
    RaftNode.prevMatches log (s.make_append_entries f) = true := by
  have hprev : (s.make_append_entries f).prev_log_index = nextFor f s - 1 := rfl
  simp only [RaftNode.prevMatches, hprev, Bool.or_eq_true, beq_iff_eq]
  left; omega

end Round

/-! ## All rounds -/

/-- After `k` refused rounds one is accepted and catches the follower up. -/
structure Converges (f : Str) (n k : Nat) (l : List RaftLogEntry) (T : Nat) (p : RaftNode × RaftNode) : Prop where
  refused : ∀ j < k, (exchange f n (afterRounds f n j p)).2.success = false
  accepted : (exchange f n (afterRounds f n k p)).2.success = true
  caught_up : CaughtUp f l T (afterRounds f n (k + 1) p)

section Rounds
variable {f : Str} {n T : Nat} {l : List RaftLogEntry}

theorem converges_zero {p : RaftNode × RaftNode}
    (h : (exchange f n p).2.success = true ∧ CaughtUp f l T (exchange f n p).1) : Converges f n 0 l T p :=
  ⟨fun _ hj => absurd hj (Nat.not_lt_zero _), h.1, h.2⟩

/-- A refused round before the others. -/
theorem Converges.succ {p : RaftNode × RaftNode} {k : Nat} (hrefused : (exchange f n p).2.success = false)
    (h : Converges f n k l T (exchange f n p).1) : Converges f n (k + 1) l T p := by
  refine ⟨fun j hj => ?_, h.accepted, h.caught_up⟩
  cases j with
  | zero => exact hrefused
  | succ j => exact h.refused j (Nat.lt_of_succ_lt_succ hj)

/-- From a next index `v` at most `v - 1` rounds are refused. -/
theorem Paired.converges_from (v : Nat) : ∀ p, Paired l T p → p.1.next_index.lookup f = some v → v ≤ l.length + 1 →
    ∃ k ≤ v - 1, Converges f n k l T p := by
  induction v with
  | zero =>
    intro p h hv _
    have hfor : nextFor f p.1 = 0 := by simp [nextFor, hv]
    exact ⟨0, Nat.le_refl _, converges_zero (h.accepted (by omega) (prevMatches_start _ _ (by omega)))⟩
  | succ v ih =>
    intro p h hv hle
    have hfor : nextFor f p.1 = v + 1 := by simp [nextFor, hv]
    by_cases hp : RaftNode.prevMatches p.2.log (p.1.make_append_entries f) = true
    · exact ⟨0, Nat.zero_le _, converges_zero (h.accepted (by omega) hp)⟩
    · -- Refused, so the request had a predecessor and the next one starts one earlier.
      have hpos : 1 < v + 1 := by
        by_contra hsmall
        exact hp (prevMatches_start _ _ (by omega))
      obtain ⟨hno, hpair, hlookup⟩ := h.refused (n := n) (by simpa using hp)
      rw [hv, Option.getD_some, if_pos hpos, Nat.add_sub_cancel] at hlookup
      obtain ⟨k, hk, hconv⟩ := ih _ hpair hlookup (by omega)
      exact ⟨k + 1, by omega, hconv.succ hno⟩

theorem Paired.converges {p : RaftNode × RaftNode} (h : Paired l T p) (hnext : NextBounded p.1) :
    ∃ k ≤ l.length, Converges f n k l T p := by
  cases hv : p.1.next_index.lookup f with
  | some v =>
    have hle := hnext h.leader f v hv
    rw [h.last_index] at hle
    obtain ⟨k, hk, hconv⟩ := h.converges_from v p hv hle
    exact ⟨k, by omega, hconv⟩
  | none =>
    have hfor : nextFor f p.1 = l.length + 1 := by simp [nextFor, hv, h.last_index]
    by_cases hp : RaftNode.prevMatches p.2.log (p.1.make_append_entries f) = true
    · exact ⟨0, Nat.zero_le _, converges_zero (h.accepted hfor.le hp)⟩
    · -- The refusal puts a zero into the map, and the next request starts at the front.
      have hpos : 1 ≤ l.length := by
        by_contra hsmall
        exact hp (prevMatches_start _ _ (by omega))
      obtain ⟨hno, hpair, hlookup⟩ := h.refused (n := n) (by simpa using hp)
      rw [hv] at hlookup
      obtain ⟨k, hk, hconv⟩ := hpair.converges_from 0 _ hlookup (Nat.zero_le _)
      exact ⟨k + 1, by omega, hconv.succ hno⟩

end Rounds

/-- A leader of any run and a follower that is not past its term, with
well-indexed logs that match, repeat the exchange: within one round more than
the leader has entries a request is accepted, the follower's log then starts
with the leader's, the leader knows it, and still leads its term. -/
theorem back_off_converges {G : World → Event → Prop} (r : Run (Guarded G World.step) World.init) (t : Nat) (i : Str)
    (T : Nat) (hlead : (r.state t).Leads i T) (follower : RaftNode) (f : Str) (n : Nat)
    (hterm : follower.current_term ≤ T) (hlog : WellIndexed ((r.state t).nodes i).log) (hflog : WellIndexed follower.log)
    (hmatch : LogsMatch ((r.state t).nodes i).log follower.log) :
    ∃ k ≤ ((r.state t).nodes i).log.length,
      Converges f n k ((r.state t).nodes i).log T ((r.state t).nodes i, follower) :=
  Paired.converges ⟨hlead.1, hlead.2, rfl, hterm, hlog, hflog, hmatch⟩ (nextBounded_all r t i)

/-- Nodes `a` and `b` have led terms 1 and 2 and have taken different commands
at index 1. Leader `b`, whose map does not have `a`, is refused once and then
catches it up. -/
theorem diverged_converges :
    ∃ r : Run (Guarded (fun w e => Network [lit "a", lit "b", lit "c"] w e ∧ Timely w e) World.step) World.init,
      (r.state 8).Leads (lit "b") 2 ∧ ((r.state 8).nodes (lit "a")).log ≠ ((r.state 8).nodes (lit "b")).log ∧
      ∃ k ≤ 1, Converges (lit "a") 3 k ((r.state 8).nodes (lit "b")).log 2
        ((r.state 8).nodes (lit "b"), (r.state 8).nodes (lit "a")) := by
  let r := Run.ofEvents World.exec World.init _ earlyCommit_legal
  have hb : ((r.state 8).nodes (lit "b")).log = [⟨1, 2, lit "y"⟩] := by decide
  have ha : ((r.state 8).nodes (lit "a")).log = [⟨1, 1, lit "x"⟩] := by decide
  have hmatch : LogsMatch ((r.state 8).nodes (lit "b")).log ((r.state 8).nodes (lit "a")).log := by
    rw [ha, hb]
    intro k x y hx hy hxy
    cases k with
    | zero => simp at hx hy; subst hx hy; cases hxy
    | succ k => simp at hx
  have hlen : ((r.state 8).nodes (lit "b")).log.length = 1 := by rw [hb]; rfl
  have hconv := back_off_converges r 8 (lit "b") 2 (by decide) ((r.state 8).nodes (lit "a")) (lit "a") 3 (by decide)
    (by rw [hb]; decide) (by rw [ha]; decide) hmatch
  rw [hlen] at hconv
  exact ⟨r, by decide, by rw [ha, hb]; decide, hconv⟩

end Dstore.Raft
