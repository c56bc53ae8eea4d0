import Dstore.Raft.Election
/-!
# Log matching

With one leader a term, the logs a leader has while it leads form a chain of
prefixes. Every append request carries a suffix of one of them, so a follower
that accepts it ends with that log, or keeps a log that extends it: the entry
loop truncates at the first sent entry, right after the position the check on
the predecessor has just matched. Every entry of every log then comes with the
prefix the leader of its term had (`LogInv.shared`), and two logs that share an
entry share everything before it.
-/
open Dstore.Lib

namespace Dstore.Raft

/-- Append requests are made by leaders, and delivered to any node, at any
later time, any number of times. All other calls are free. -/
def Shipped (w : World) : Event → Prop
  | .make_append_entries i _ => (w.nodes i).role = .kLeader
  | .append_entries _ m => m ∈ w.appendRequests
  | _ => True

/-! ## Lists of entries -/

/-- Entry `k + 1` is at position `k`. -/
def WellIndexed (log : List RaftLogEntry) : Prop := ∀ (k : Nat) (e : RaftLogEntry), log[k]? = some e → e.index = k + 1

instance (log : List RaftLogEntry) : Decidable (WellIndexed log) :=
  decidable_of_iff (∀ k : Fin log.length, (log.get k).index = k + 1)
    ⟨fun h k e hk => by
      obtain ⟨hlt, rfl⟩ := List.getElem?_eq_some_iff.1 hk
      exact h ⟨k, hlt⟩, fun h k => h k _ (List.getElem?_eq_getElem k.isLt)⟩

theorem getElem?_snoc {l : List RaftLogEntry} {x e : RaftLogEntry} {k : Nat} (h : (l ++ [x])[k]? = some e) :
    (k < l.length ∧ l[k]? = some e) ∨ (k = l.length ∧ e = x) := by
  rcases Nat.lt_or_ge k l.length with hlt | hge
  · rw [List.getElem?_append_left hlt] at h
    exact .inl ⟨hlt, h⟩
  · rw [List.getElem?_append_right hge] at h
    have hk := (List.getElem?_eq_some_iff.1 h).1
    simp only [List.length_singleton] at hk
    obtain rfl : k = l.length := by omega
    simp only [Nat.sub_self, List.getElem?_cons_zero, Option.some.injEq] at h
    exact .inr ⟨rfl, h.symm⟩

theorem getElem?_of_isPrefix {l l' : List RaftLogEntry} (h : l <+: l') {k : Nat} {e : RaftLogEntry} (hk : l[k]? = some e) :
    l'[k]? = some e := by
  obtain ⟨t, rfl⟩ := h
  rw [List.getElem?_append_left (List.getElem?_eq_some_iff.1 hk).1]
  exact hk

theorem WellIndexed.getLast {log : List RaftLogEntry} (h : WellIndexed log) :
    (log.getLast?.map (·.index)).getD 0 = log.length := by
  rcases log.eq_nil_or_concat with rfl | ⟨l, e, rfl⟩
  · rfl
  · simp only [List.concat_eq_append, List.getLast?_concat, Option.map_some, Option.getD_some, List.length_append,
      List.length_singleton]
    exact h l.length e (by simp)

theorem WellIndexed.append {log : List RaftLogEntry} (h : WellIndexed log) (T : Nat) (c : Str) :
    WellIndexed (log ++ [⟨log.length + 1, T, c⟩]) := by
  intro k e hk
  rcases getElem?_snoc hk with ⟨-, hk⟩ | ⟨rfl, rfl⟩
  · exact h k e hk
  · rfl

/-- The entries from index `next` on are a suffix. -/
theorem WellIndexed.filter {log : List RaftLogEntry} (h : WellIndexed log) (next : Nat) :
    log.filter (fun e => e.index ≥ next) = log.drop (next - 1) := by
  induction log using List.reverseRecOn with
  | nil => simp
  | append_singleton l e ih =>
    have he : e.index = l.length + 1 := h l.length e (by simp)
    have hl : WellIndexed l := fun k x hk => h k x (by
      rw [List.getElem?_append_left (List.getElem?_eq_some_iff.1 hk).1]; exact hk)
    rw [List.filter_append, ih hl, List.drop_append]
    by_cases hn : next ≤ l.length + 1
    · simp [he, hn, show next - 1 - l.length = 0 by omega]
    · simp only [he, List.filter_cons, List.filter_nil, ge_iff_le]
      rw [if_neg (by simpa using hn), show List.drop (next - 1 - l.length) [e] = [] from
        List.drop_eq_nil_of_le (by simp only [List.length_singleton]; omega)]

/-- Storing consecutive entries after position `p` cuts the log there, unless
there is none. -/
theorem foldl_storeEntry (es : List RaftLogEntry) : ∀ (log : List RaftLogEntry) (p : Nat), p ≤ log.length →
    (∀ (k : Nat) (e : RaftLogEntry), es[k]? = some e → e.index = p + k + 1) →
    es.foldl RaftNode.storeEntry log = if es = [] then log else log.take p ++ es := by
  induction es with
  | nil => intro log p _ _; simp
  | cons e es ih =>
    intro log p hp h
    have he : e.index = p + 1 := by simpa using h 0 e rfl
    have hstore : RaftNode.storeEntry log e = log.take p ++ [e] := by
      unfold RaftNode.storeEntry
      rw [he]
      split
      · rfl
      · rw [List.take_of_length_le (by omega)]
    rw [List.foldl_cons, hstore, ih _ (p + 1) (by simp; omega) (fun k x hk => by
      have := h (k + 1) x (by simpa using hk)
      omega)]
    by_cases hes : es = []
    · simp [hes]
    · have hlen : (log.take p ++ [e]).length = p + 1 := by simp; omega
      rw [if_neg hes, if_neg (by simp), List.take_of_length_le hlen.le, List.append_assoc]
      rfl

/-! ## Leader logs -/

section Logs
variable {G : World → Event → Prop} (r : Run (Guarded G World.step) World.init)

/-- At most one node is ever leader in any given term. -/
def OneLeader : Prop := ∀ t t' i j T, (r.state t).Leads i T → (r.state t').Leads j T → i = j

/-- Some node had the log `l` while it led term `T`, by time `t`. -/
def LeaderLog (t T : Nat) (l : List RaftLogEntry) : Prop :=
  ∃ t' ≤ t, ∃ i, (r.state t').Leads i T ∧ ((r.state t').nodes i).log = l

variable {r}

theorem LeaderLog.mono {t t' T : Nat} {l : List RaftLogEntry} (h : LeaderLog r t T l) (ht : t ≤ t') :
    LeaderLog r t' T l := by
  obtain ⟨u, hu, h⟩ := h
  exact ⟨u, hu.trans ht, h⟩

/-- While a node leads a term, its log only grows. -/
theorem leads_isPrefix {t t' T : Nat} {i : Str} (ht : t ≤ t') (h : (r.state t).Leads i T) (h' : (r.state t').Leads i T) :
    ((r.state t).nodes i).log <+: ((r.state t').nodes i).log :=
  (run_progress r i ht).log_isPrefix (h.2.trans h'.2.symm) h.1 h'.1

/-- The logs of the leader of a term are prefixes of one another. -/
theorem LeaderLog.chain (h1 : OneLeader r) {t T : Nat} {l l' : List RaftLogEntry} (h : LeaderLog r t T l)
    (h' : LeaderLog r t T l') : l <+: l' ∨ l' <+: l := by
  obtain ⟨u, -, i, hi, rfl⟩ := h
  obtain ⟨u', -, j, hj, rfl⟩ := h'
  obtain rfl := h1 _ _ _ _ _ hi hj
  rcases Nat.le_total u u' with hu | hu
  · exact .inl (leads_isPrefix hu hi hj)
  · exact .inr (leads_isPrefix hu hj hi)

/-- Prefixes of two leader logs of one term, of the same length, are equal. -/
theorem LeaderLog.agree (h1 : OneLeader r) {t T : Nat} {l l' a b : List RaftLogEntry} (h : LeaderLog r t T l)
    (h' : LeaderLog r t T l') (ha : a <+: l) (hb : b <+: l') (hlen : a.length = b.length) : a = b := by
  rcases h.chain h1 h' with hl | hl
  · exact (List.prefix_of_prefix_length_le (ha.trans hl) hb hlen.le).eq_of_length hlen
  · exact (List.prefix_of_prefix_length_le ha (hb.trans hl) hlen.le).eq_of_length hlen

end Logs

/-! ## The invariant -/

section Matching
variable (r : Run (Guarded Shipped World.step) World.init)

structure LogInv (t : Nat) : Prop where
  indexed : ∀ i, WellIndexed ((r.state t).nodes i).log
  /-- Candidates and leaders are past term 0. -/
  active : ∀ i, ((r.state t).nodes i).role ≠ .kFollower → 1 ≤ ((r.state t).nodes i).current_term
  positive : ∀ i, ∀ e ∈ ((r.state t).nodes i).log, 1 ≤ e.term
  commit_le : ∀ i, ((r.state t).nodes i).commit_index ≤ ((r.state t).nodes i).log.length
  /-- A request in flight was made by a leader of its term. -/
  sent : ∀ m ∈ (r.state t).appendRequests, ∃ t' ≤ t, ∃ i f, (r.state t').Leads i m.term ∧
    m = ((r.state t').nodes i).make_append_entries f
  /-- An entry of a log comes with the prefix the leader of its term had. -/
  shared : ∀ (i : Str) (k : Nat) (e : RaftLogEntry), ((r.state t).nodes i).log[k]? = some e →
    ∃ l, LeaderLog r t e.term l ∧ ((r.state t).nodes i).log.take (k + 1) <+: l

variable {r}

theorem logInv_zero : LogInv r 0 := by
  constructor <;> rw [r.state_zero] <;> simp [World.init, WellIndexed]

/-- What a request made by a leader with a well-indexed log carries. -/
theorem make_append_entries_eq {s : RaftNode} (h : WellIndexed s.log) (f : Str) :
    (s.make_append_entries f).entries = s.log.drop (s.make_append_entries f).prev_log_index ∧
      ((s.make_append_entries f).prev_log_index ≠ 0 → (s.make_append_entries f).prev_log_term =
        (s.log[(s.make_append_entries f).prev_log_index - 1]?.map (·.term)).getD 0) := by
  refine ⟨h.filter _, fun hp => ?_⟩
  simp only [RaftNode.make_append_entries] at hp ⊢
  rw [if_neg hp]

/-- A request that passes the check on its predecessor finds the leader's log
up to there. -/
theorem prev_agrees (h1 : OneLeader r) {t t' : Nat} (ht : t' ≤ t) (h : LogInv r t) (h' : LogInv r t') {i j f : Str}
    {m : AppendEntriesRequest} (hm : m = ((r.state t').nodes j).make_append_entries f)
    (hp : RaftNode.prevMatches ((r.state t).nodes i).log m = true) :
    m.prev_log_index ≤ ((r.state t).nodes i).log.length ∧ m.prev_log_index ≤ ((r.state t').nodes j).log.length ∧
      ((r.state t).nodes i).log.take m.prev_log_index = ((r.state t').nodes j).log.take m.prev_log_index := by
  obtain ⟨-, hterm⟩ := make_append_entries_eq (h'.indexed j) f
  rw [← hm] at hterm
  rcases Nat.eq_zero_or_pos m.prev_log_index with h0 | h0
  · simp [h0]
  · simp only [RaftNode.prevMatches, Bool.or_eq_true, beq_iff_eq, h0.ne', false_or, Option.map_eq_some_iff] at hp
    obtain ⟨e, he, het⟩ := hp
    -- The entry found has a positive term, so the leader really has one there.
    cases he' : ((r.state t').nodes j).log[m.prev_log_index - 1]? with
    | none =>
      rw [hterm h0.ne', he'] at het
      have := h.positive i e (List.mem_of_getElem? he)
      simp at het; omega
    | some e' =>
      have hee : e.term = e'.term := by rw [het, hterm h0.ne', he']; rfl
      obtain ⟨l, hl, hpl⟩ := h.shared i _ e he
      obtain ⟨l', hl', hpl'⟩ := h'.shared j _ e' he'
      rw [← hee] at hl'
      have hlen := (List.getElem?_eq_some_iff.1 he).1
      have hlen' := (List.getElem?_eq_some_iff.1 he').1
      rw [show m.prev_log_index - 1 + 1 = m.prev_log_index by omega] at hpl hpl'
      refine ⟨by omega, by omega, hl.agree h1 (hl'.mono ht) hpl hpl' ?_⟩
      simp only [List.length_take]; omega

/-- Accepting a request leaves the leader's log, or a log that extends it. -/
theorem stored_log (h1 : OneLeader r) {t t' : Nat} (ht : t' ≤ t) (h : LogInv r t) (h' : LogInv r t') {i j f : Str}
    {m : AppendEntriesRequest} (hm : m = ((r.state t').nodes j).make_append_entries f)
    (hp : RaftNode.prevMatches ((r.state t).nodes i).log m = true) {l : List RaftLogEntry}
    (hl : l = m.entries.foldl RaftNode.storeEntry ((r.state t).nodes i).log) :
    (l = ((r.state t').nodes j).log ∨ l = ((r.state t).nodes i).log) ∧ ((r.state t').nodes j).log <+: l := by
  obtain ⟨hle, hle', htake⟩ := prev_agrees h1 ht h h' hm hp
  obtain ⟨hent, -⟩ := make_append_entries_eq (h'.indexed j) f
  rw [← hm] at hent
  rw [hl, foldl_storeEntry m.entries _ m.prev_log_index hle (fun k e hk => by
    rw [hent, List.getElem?_drop] at hk
    exact h'.indexed j _ e hk)]
  split
  · next hnil =>
    -- Nothing was sent: the leader's log ends at the matched position.
    rw [hent, List.drop_eq_nil_iff] at hnil
    refine ⟨.inr rfl, ?_⟩
    rw [← List.take_of_length_le hnil, ← htake]
    exact List.take_prefix _ _
  · rw [htake, hent, List.take_append_drop]
    exact ⟨.inl rfl, List.prefix_rfl⟩

theorem advance_commit_le (s : RaftNode) (n : Nat) (h : s.commit_index ≤ s.log.length) :
    ∀ k, k ≤ s.log.length → s.advance_commit n k ≤ s.log.length := by
  intro k
  induction k with
  | zero => intro _; exact h
  | succ k ih =>
    intro hk
    rw [RaftNode.advance_commit]
    split
    · split
      · exact hk
      · exact ih (by omega)
    · exact h

/-- The facts of `LogInv` about one node. -/
structure NodeOk (r : Run (Guarded Shipped World.step) World.init) (t : Nat) (s : RaftNode) : Prop where
  indexed : WellIndexed s.log
  active : s.role ≠ .kFollower → 1 ≤ s.current_term
  positive : ∀ e ∈ s.log, 1 ≤ e.term
  commit_le : s.commit_index ≤ s.log.length
  shared : ∀ (k : Nat) (e : RaftLogEntry), s.log[k]? = some e → ∃ l, LeaderLog r t e.term l ∧ s.log.take (k + 1) <+: l

theorem LogInv.node {t : Nat} (h : LogInv r t) (i : Str) : NodeOk r t ((r.state t).nodes i) :=
  ⟨h.indexed i, h.active i, h.positive i, h.commit_le i, h.shared i⟩

theorem NodeOk.mono {t t' : Nat} {s : RaftNode} (h : NodeOk r t s) (ht : t ≤ t') : NodeOk r t' s :=
  { h with shared := fun k e hk => (h.shared k e hk).imp fun _ hl => ⟨hl.1.mono ht, hl.2⟩ }

/-- The same log and commit index, in a role that needs no more. -/
theorem NodeOk.same {t : Nat} {s s' : RaftNode} (h : NodeOk r t s) (hl : s'.log = s.log)
    (hc : s'.commit_index ≤ s.log.length) (ha : s'.role ≠ .kFollower → 1 ≤ s'.current_term) : NodeOk r t s' :=
  ⟨hl ▸ h.indexed, ha, hl ▸ h.positive, hl ▸ hc, hl ▸ h.shared⟩

theorem nodeOk_exec (h1 : OneLeader r) {t : Nat} (h : ∀ u ≤ t, LogInv r u) {e : Event}
    (hg : Shipped (r.state t) e) (hs : r.state (t + 1) = (r.state t).exec e) :
    NodeOk r (t + 1) ((r.state (t + 1)).nodes e.node) := by
  have ht := h t (Nat.le_refl _)
  have hok := (ht.node e.node).mono (Nat.le_succ t)
  have hself : (r.state (t + 1)).nodes e.node = e.apply ((r.state t).nodes e.node) := by
    rw [hs, World.exec_nodes_self]
  have heff := apply_effect ((r.state t).nodes e.node) e
  rw [← hself] at heff
  generalize hs' : (r.state (t + 1)).nodes e.node = s' at heff ⊢
  generalize hs0 : (r.state t).nodes e.node = s at heff hok
  cases heff with
  | idle => exact hok
  | stood i => exact hok.same rfl hok.commit_le (fun _ => Nat.le_add_left 1 _)
  | down _ _ T _ => exact hok.same rfl hok.commit_le (fun hne => absurd rfl hne)
  | granted i q _ b hb =>
    rcases hb with ⟨rfl, -⟩ | ⟨rfl, -⟩
    · exact hok.same rfl hok.commit_le (fun hne => absurd rfl hne)
    · exact hok.same rfl hok.commit_le hok.active
  | counted i y n _ hc => exact hok.same rfl hok.commit_le hok.active
  | won i y n _ v ni mi hc => exact hok.same rfl hok.commit_le (fun _ => hok.active (by rw [hc]; decide))
  | commanded i c _ hr =>
    have hlen : s.last_index = s.log.length := hok.indexed.getLast
    have hT : 1 ≤ s.current_term := hok.active (by rw [hr]; decide)
    -- The leader's new log is the one that vouches for the new entry.
    have hll : LeaderLog r (t + 1) s.current_term (s.log ++ [⟨s.last_index + 1, s.current_term, c⟩]) :=
      ⟨t + 1, Nat.le_refl _, _, ⟨by rw [hs']; exact hr, by rw [hs']⟩, by rw [hs']⟩
    refine ⟨?_, fun _ => hT, ?_, by simp [hlen], ?_⟩
    · simp only [hlen]; exact hok.indexed.append _ _
    · intro e he
      rcases List.mem_append.1 he with he | he
      · exact hok.positive e he
      · rw [List.mem_singleton] at he; subst he; exact hT
    · intro k e hk
      simp only at hk ⊢
      rcases getElem?_snoc hk with ⟨hlt, hk⟩ | ⟨-, rfl⟩
      · obtain ⟨l, hl, hp⟩ := hok.shared k e hk
        exact ⟨l, hl, by rw [List.take_append_of_le_length (by omega)]; exact hp⟩
      · exact ⟨_, hll, List.take_prefix _ _⟩
  | refused i m _ _ => exact hok.same rfl hok.commit_le (fun hne => absurd rfl hne)
  | stored i m _ l _ hp hl =>
    obtain ⟨u, hu, j, f, -, hm⟩ := ht.sent m hg
    subst hs0
    obtain ⟨hor, -⟩ := stored_log h1 hu ht (h u hu) hm hp hl
    -- Either way the log is one some node already had.
    have hok' : NodeOk r (t + 1) { (r.state t).nodes (Event.append_entries i m).node with
        role := .kFollower, log := l, commit_index := 0 } := by
      rcases hor with rfl | rfl
      · exact (((h u hu).node j).mono (by omega)).same rfl (Nat.zero_le _) (fun hne => absurd rfl hne)
      · exact hok.same rfl (Nat.zero_le _) (fun hne => absurd rfl hne)
    refine hok'.same rfl ?_ (fun hne => absurd rfl hne)
    exact (min_le_right _ _).trans hok'.indexed.getLast.le
  | indexed _ _ ni mi c hc =>
    refine hok.same rfl ?_ hok.active
    rcases hc with rfl | ⟨-, n, rfl⟩
    · exact hok.commit_le
    · exact advance_commit_le { s with next_index := ni, match_index := mi } n hok.commit_le _ hok.indexed.getLast.le
  | crowned i _ ni mi => exact hok.same rfl hok.commit_le (fun _ => Nat.le_add_left 1 _)

theorem logInv_succ (h1 : OneLeader r) {t : Nat} (h : ∀ u ≤ t, LogInv r u) : LogInv r (t + 1) := by
  have ht := h t (Nat.le_refl _)
  have hnode : ∀ i, NodeOk r (t + 1) ((r.state (t + 1)).nodes i) := by
    intro i
    rcases r.state_succ t with hst | ⟨e, hg, hs⟩
    · rw [hst]; exact (ht.node i).mono (Nat.le_succ t)
    · have hs : r.state (t + 1) = (r.state t).exec e := hs
      by_cases hi : i = e.node
      · subst hi; exact nodeOk_exec h1 h hg hs
      · rw [hs, World.exec_nodes_ne _ e hi]; exact (ht.node i).mono (Nat.le_succ t)
  refine ⟨fun i => (hnode i).indexed, fun i => (hnode i).active, fun i => (hnode i).positive,
    fun i => (hnode i).commit_le, fun m hm => ?_, fun i => (hnode i).shared⟩
  have hold : m ∈ (r.state t).appendRequests → ∃ t' ≤ t + 1, ∃ i f, (r.state t').Leads i m.term ∧
      m = ((r.state t').nodes i).make_append_entries f := fun hm => by
    obtain ⟨u, hu, h⟩ := ht.sent m hm
    exact ⟨u, hu.trans (Nat.le_succ t), h⟩
  rcases r.state_succ t with hst | ⟨e, hg, hs⟩
  · exact hold (hst ▸ hm)
  · have hs : r.state (t + 1) = (r.state t).exec e := hs
    rw [hs] at hm
    cases e with
    | make_append_entries i f =>
      simp only [World.exec, List.mem_cons] at hm
      rcases hm with rfl | hm
      · exact ⟨t, Nat.le_succ t, i, f, ⟨hg, rfl⟩, rfl⟩
      · exact hold hm
    | _ => exact hold hm

theorem logInv_all (h1 : OneLeader r) (t : Nat) : LogInv r t := by
  induction t using Nat.strong_induction_on with
  | _ t ih =>
    cases t with
    | zero => exact logInv_zero
    | succ t => exact logInv_succ h1 fun u hu => ih u (Nat.lt_succ_of_le hu)

/-- Whenever the logs of two nodes both hold an entry with the same index and
term, they are equal up to that index. -/
theorem log_matching (r : Run (Guarded Shipped World.step) World.init) (h1 : OneLeader r) (t : Nat) (a b : Str)
    (e e' : RaftLogEntry) (he : e ∈ ((r.state t).nodes a).log) (he' : e' ∈ ((r.state t).nodes b).log)
    (hi : e.index = e'.index) (hT : e.term = e'.term) :
    ((r.state t).nodes a).log.take e.index = ((r.state t).nodes b).log.take e.index := by
  have h := logInv_all h1 t
  obtain ⟨k, hk⟩ := List.mem_iff_getElem?.1 he
  obtain ⟨k', hk'⟩ := List.mem_iff_getElem?.1 he'
  have hik := h.indexed a k e hk
  have hik' := h.indexed b k' e' hk'
  obtain rfl : k = k' := by omega
  obtain ⟨l, hl, hp⟩ := h.shared a k e hk
  obtain ⟨l', hl', hp'⟩ := h.shared b k e' hk'
  rw [hik]
  refine hl.agree h1 (hT ▸ hl') hp hp' ?_
  have := (List.getElem?_eq_some_iff.1 hk).1
  have := (List.getElem?_eq_some_iff.1 hk').1
  simp only [List.length_take]; omega

end Matching

/-! ## Elections with timely votes -/

theorem shipped_of_network {ids : List Str} (w : World) (e : Event) (h : Network ids w e ∧ Timely w e) : Shipped w e := by
  cases e with
  | make_append_entries i f => exact h.1.2
  | append_entries i m => exact h.1.2
  | _ => trivial

theorem OneLeader.weaken {G G' : World → Event → Prop} {r : Run (Guarded G World.step) World.init} (h1 : OneLeader r)
    (h : ∀ w e, G w e → G' w e) : OneLeader (r.weaken h) := h1

/-- With timely votes there is one leader a term. -/
theorem oneLeader_timely {ids : List Str} (hids : ids.Nodup)
    (r : Run (Guarded (fun w e => Network ids w e ∧ Timely w e) World.step) World.init) :
    OneLeader r := fun t t' _ _ _ hi hj =>
  (electionInv_all hids (max t t')).unique hids ⟨t, le_max_left _ _, hi⟩ ⟨t', le_max_right _ _, hj⟩

/-- Node `a` wins an election, takes a command and replicates it to `b`. -/
def replicatedCommand : List Event :=
  let a := lit "a"; let b := lit "b"
  [.configure_cluster a [b, lit "c"], .start_election a, .request_vote b ⟨a, 1, 0, 0⟩,
    .observe_vote a ⟨b, ⟨a, 1, 0, 0⟩, ⟨1, true⟩⟩ 3, .append_client_command a (lit "x"), .make_append_entries a b,
    .append_entries b ⟨a, 1, 0, 0, 1, [⟨1, 1, lit "x"⟩]⟩]

theorem replicatedCommand_legal : Run.Legal (fun w e => Network [lit "a", lit "b", lit "c"] w e ∧ Timely w e)
    World.exec World.init replicatedCommand := by decide

/-- Both nodes hold the entry, and their logs agree up to it. -/
theorem replicatedCommand_matches :
    ∃ r : Run (Guarded Shipped World.step) World.init, OneLeader r ∧
      (⟨1, 1, lit "x"⟩ : RaftLogEntry) ∈ ((r.state 7).nodes (lit "a")).log ∧
      (⟨1, 1, lit "x"⟩ : RaftLogEntry) ∈ ((r.state 7).nodes (lit "b")).log ∧
      ((r.state 7).nodes (lit "a")).log.take 1 = ((r.state 7).nodes (lit "b")).log.take 1 := by
  refine ⟨(Run.ofEvents World.exec World.init _ replicatedCommand_legal).weaken shipped_of_network,
    (oneLeader_timely (by decide) _).weaken _, by decide, by decide, ?_⟩
  exact log_matching _ ((oneLeader_timely (by decide) _).weaken _) 7 (lit "a") (lit "b") ⟨1, 1, lit "x"⟩ ⟨1, 1, lit "x"⟩
    (by decide) (by decide) rfl rfl

end Dstore.Raft
