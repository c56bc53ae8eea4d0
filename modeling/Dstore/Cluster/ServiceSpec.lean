import Dstore.Cluster.ChunkService
/-!
# What the service does to the stores

A service makes its plans with one node in view: the last of its seed members,
or itself when it has none (`latest`). A plan is that node, or nothing when no
replica is asked for (`targets_eq`), so a put calls one peer at most
(`put_result`, `put_holds_iff`), and a get succeeds with a read quorum of one
only (`get_ok_iff`).

A put only adds a file of its chunk, here or at the peer (`Adds`), a get changes
no file, and a remove takes the file of one chunk from the target.
-/

namespace Dstore

variable (H : HexHash) (hash64 : Str → Nat) {S : Set Bytes}

/-- Every store of the net is sound. -/
def Net.Sound (S : Set Bytes) (net : Net) : Prop := ∀ id, (net.stores id).Sound H S

/-- From `net` to `net'` a file of chunk `c` may have appeared on stores, and
that is all that happened to chunk files. -/
structure Adds (c : Str) (net net' : Net) : Prop where
  same : ∀ id c', Digest c' → c' ≠ c ∨ (net.stores id).file c' ≠ none → (net'.stores id).file c' = (net.stores id).file c'
  token : net'.token = net.token

/-- The peer's disk cuts the chunk as it is written. -/
def Delivery.cuts (d : Delivery) (bytes : Bytes) : Bool :=
  match d with
  | .refused => false
  | .handled disk _ => ChunkStore.cutsWrite disk bytes

/-- No disk cuts the chunk. -/
structure Conditions.Whole (cond : Conditions) (bytes : Bytes) : Prop where
  own : ChunkStore.cutsWrite cond.disk bytes = false
  peers : ∀ t, (cond.deliver t).cuts bytes = false

theorem Conditions.whole_fine (bytes : Bytes) : ({} : Conditions).Whole bytes := ⟨rfl, fun _ => rfl⟩

variable {H}

theorem Net.Sound.setStore {net : Net} (h : net.Sound H S) {id : Str} {s : ChunkStore} (hs : s.Sound H S) :
    (net.setStore id s).Sound H S := by
  intro x
  by_cases hx : x = id
  · rw [hx, Net.setStore_self]; exact hs
  · rw [Net.setStore_ne _ _ _ hx]; exact h x

namespace Adds

variable {c : Str} {net net' net'' : Net}

theorem refl (c : Str) (hs : net'.stores = net.stores) (ht : net'.token = net.token) : Adds c net net' where
  same id c' _ _ := by rw [hs]
  token := ht

theorem keeps (h : Adds c net net') {id c' : Str} (hc : Digest c') (hf : (net.stores id).file c' ≠ none) :
    (net'.stores id).file c' ≠ none := by rwa [h.same id c' hc (.inr hf)]

theorem holds (h : Adds c net net') {id c' : Str} (hc : Digest c') (hh : (net.stores id).Holds H c') :
    (net'.stores id).Holds H c' := by
  obtain ⟨b, hb, hx⟩ := hh
  exact ⟨b, (h.same id c' hc (.inr (by simp [hb]))).trans hb, hx⟩

theorem trans (h : Adds c net net') (h' : Adds c net' net'') : Adds c net net'' where
  same id c' hc hor := by
    rw [h'.same id c' hc (hor.imp_right (h.keeps hc)), h.same id c' hc hor]
  token := h'.token.trans h.token

/-- A new state of one store. -/
theorem setStore {id : Str} {s : ChunkStore}
    (hf : ∀ c', Digest c' → c' ≠ c ∨ (net.stores id).file c' ≠ none → s.file c' = (net.stores id).file c') :
    Adds c net (net.setStore id s) where
  same x c' hc hor := by
    by_cases hx : x = id
    · subst hx
      rw [Net.setStore_self]
      exact hf c' hc hor
    · rw [Net.setStore_ne _ _ _ hx]
  token := rfl

theorem put (id : Str) (fault : Option DiskFault) (b : Bytes) :
    Adds (H.hex b) net (net.setStore id ((net.stores id).put H fault b).2) :=
  setStore fun _ => (net.stores id).put_file fault b

end Adds

/-! ## Calls to one node -/

namespace NodeClient

variable {d : Delivery} {net : Net} {node : StorageNode}

theorem put_chunk_adds (d : Delivery) (net : Net) (node : StorageNode) (ref : ChunkRef) (b : Bytes) :
    Adds (H.hex b) net (put_chunk H d net node ref b).2 := by
  rw [put_chunk_net]
  cases reaches d node with
  | none => exact .refl _ rfl rfl
  | some disk => exact .put node.id disk b

/-- A put acts on the store of its node only. -/
theorem put_chunk_frame (d : Delivery) (net : Net) (node : StorageNode) (ref : ChunkRef) (b : Bytes) :
    (put_chunk H d net node ref b).2.views = net.views ∧ (put_chunk H d net node ref b).2.queues = net.queues ∧
      (put_chunk H d net node ref b).2.clock = net.clock ∧
      ∀ id ≠ node.id, (put_chunk H d net node ref b).2.stores id = net.stores id := by
  rw [put_chunk_net]
  cases reaches d node with
  | none => exact ⟨rfl, rfl, rfl, fun _ _ => rfl⟩
  | some disk => exact ⟨rfl, rfl, rfl, fun id hid => Net.setStore_ne _ _ _ hid⟩

theorem put_chunk_sound (node : StorageNode) (h : net.Sound H S) {b : Bytes} (hb : b ∈ S) (hcut : d.cuts b = false)
    (ref : ChunkRef) :
    (put_chunk H d net node ref b).2.Sound H S := by
  rw [put_chunk_net]
  cases hr : reaches d node with
  | none => exact h
  | some disk =>
    obtain ⟨-, answered, rfl⟩ := reaches_eq_some.1 hr
    exact h.setStore ((h node.id).put hcut hb).1

/-- Where the peer keeps the chunk, its store takes it. -/
theorem put_chunk_holds_iff (d : Delivery) (net : Net) (node : StorageNode) (ref : ChunkRef) (b : Bytes) :
    ((put_chunk H d net node ref b).2.stores node.id).Holds H (H.hex b) ↔
    (net.stores node.id).Holds H (H.hex b) ∨ ∃ disk, reaches d node = some disk ∧ (net.stores node.id).takes H disk b := by
  rw [put_chunk_net]
  cases reaches d node with
  | none => simp
  | some disk =>
    show ((net.setStore node.id _).stores node.id).Holds H (H.hex b) ↔ _
    rw [Net.setStore_self, ChunkStore.holds_put_iff]
    simp only [Option.some.injEq, exists_eq_left']
    exact ⟨.inr, fun h => h.elim .inl id⟩

/-- A peer with sound files that acknowledges a chunk that its disk has not cut
has it. -/
theorem takes_of_acks {s : ChunkStore} (h : s.Sound H S) (hcall : callable node = true) {b : Bytes} (hcut : d.cuts b = false)
    (hack : acks d s (H.hex b) = true) : ∃ disk, reaches d node = some disk ∧ s.takes H disk b := by
  rcases d with - | ⟨disk, - | -⟩
  · cases hack
  · cases hack
  · refine ⟨disk, reaches_eq_some.2 ⟨hcall, true, rfl⟩, ?_⟩
    cases hexists : s.exists_ (H.hex b) with
    | true => exact .inl ((h.holds_iff (H.digest b)).2 hexists)
    | false =>
      have hnone : s.file (H.hex b) = none := by simpa [ChunkStore.exists_, ChunkStore.file] using hexists
      have hgo : ChunkStore.stopsWrite disk = false := by simpa [acks, hexists] using hack
      exact .inr ⟨hnone, hgo, by rw [ChunkStore.flushed_eq_iff.2 hcut]⟩

theorem get_chunk_frame (c : Str) :
    (get_chunk H d net node c).2.views = net.views ∧ (get_chunk H d net node c).2.queues = net.queues ∧
      (get_chunk H d net node c).2.clock = net.clock ∧ (get_chunk H d net node c).2.token = net.token ∧
      (∀ id ≠ node.id, (get_chunk H d net node c).2.stores id = net.stores id) ∧
      ∀ id c', ((get_chunk H d net node c).2.stores id).file c' = (net.stores id).file c' := by
  rw [get_chunk_net]
  cases reaches d node with
  | none => exact ⟨rfl, rfl, rfl, rfl, fun _ _ => rfl, fun _ _ => rfl⟩
  | some disk =>
    refine ⟨rfl, rfl, rfl, rfl, fun id hid => Net.setStore_ne _ _ _ hid, fun id c' => ?_⟩
    show ((net.setStore node.id _).stores id).file c' = _
    by_cases hid : id = node.id
    · rw [hid, Net.setStore_self, ChunkStore.get_file]
    · rw [Net.setStore_ne _ _ _ hid]

/-- A read of a node leaves every store as it was, or after a read. -/
theorem get_chunk_stores (d : Delivery) (net : Net) (node : StorageNode) (c id : Str) :
    (get_chunk H d net node c).2.stores id = net.stores id ∨
    (get_chunk H d net node c).2.stores id = ((net.stores id).get H c).2 := by
  rw [get_chunk_net]
  cases reaches d node with
  | none => exact .inl rfl
  | some disk =>
    by_cases hid : id = node.id
    · subst hid
      exact .inr (Net.setStore_self _ _ _)
    · exact .inl (Net.setStore_ne _ _ _ hid)

end NodeClient

namespace DistributedChunkService

variable (svc : DistributedChunkService) {net : Net}

theorem is_self_iff (node : StorageNode) : svc.is_self node = true ↔ node.id = svc.me := by simp [is_self]

theorem ne_me_of_not_self {node : StorageNode} (h : svc.is_self node = false) : node.id ≠ svc.me := by
  simpa [is_self] using h

/-! ## Plans -/

/-- The node that is known once an operation has made its heartbeats. -/
def latest : StorageNode := (svc.seed_members.getLast?.getD svc.self).val

theorem known_refresh (net : Net) : ((svc.refresh_seed_members net).views svc.me).known_nodes = [svc.latest] := by
  rw [refresh_seed_members, Net.setView_self]
  exact ClusterState.known_heartbeats _ _ _ _

/-- The targets of the plan an operation makes for a chunk. -/
def targets (net : Net) (c : Str) : List StorageNode :=
  (((svc.refresh_seed_members net).views svc.me).write_plan hash64 c svc.replication_factor svc.write_quorum).targets

theorem targets_eq (net : Net) (c : Str) :
    svc.targets hash64 net c = if 1 ≤ svc.replication_factor then [svc.latest] else [] :=
  ClusterState.write_plan_targets hash64 (svc.known_refresh net) c _ _

theorem nodup_targets (net : Net) (c : Str) : ((svc.targets hash64 net c).map (·.id)).Nodup := by
  rw [targets_eq]
  split <;> simp

/-- The target of a put that is not the node itself. -/
def peer : Option StorageNode :=
  if 1 ≤ svc.replication_factor ∧ svc.is_self svc.latest = false then some svc.latest else none

theorem peer_eq_some {t : StorageNode} :
    svc.peer = some t ↔ 1 ≤ svc.replication_factor ∧ svc.is_self svc.latest = false ∧ svc.latest = t := by
  unfold peer
  split
  · rename_i h
    simp [h]
  · rename_i h
    exact ⟨fun hf => (by cases hf), fun ht => absurd ⟨ht.1, ht.2.1⟩ h⟩

theorem peer_eq_none : svc.peer = none ↔ (1 ≤ svc.replication_factor → svc.is_self svc.latest = true) := by
  simp [peer]

theorem not_self_of_peer {t : StorageNode} (h : svc.peer = some t) : svc.is_self t = false := by
  obtain ⟨-, hself, rfl⟩ := svc.peer_eq_some.1 h
  exact hself

theorem targets_of_peer {t : StorageNode} (h : svc.peer = some t) (net : Net) (c : Str) :
    svc.targets hash64 net c = [t] := by
  obtain ⟨hrf, -, rfl⟩ := svc.peer_eq_some.1 h
  rw [targets_eq, if_pos hrf]

theorem self_of_no_peer (h : svc.peer = none) (net : Net) (c : Str) {t : StorageNode} (ht : t ∈ svc.targets hash64 net c) :
    svc.is_self t = true := by
  rw [targets_eq] at ht
  split at ht
  · rename_i hrf
    rw [List.mem_singleton.1 ht]
    exact svc.peer_eq_none.1 h hrf
  · cases ht

/-- The targets of a put that are not the node itself. -/
theorem filter_targets (net : Net) (c : Str) :
    ((svc.targets hash64 net c).filter fun t => !svc.is_self t) = svc.peer.toList := by
  rw [targets_eq, peer]
  by_cases hrf : 1 ≤ svc.replication_factor <;> cases hself : svc.is_self svc.latest <;> simp [hrf, hself]

/-- A put does not call a node whose address throws. -/
def Reachable : Prop := ∀ t ∈ svc.peer, NodeClient.callable t = true

instance : Decidable svc.Reachable := inferInstanceAs (Decidable (∀ t ∈ svc.peer, _))

/-! ## `put` -/

/-- The count after a call to a target; a call that throws leaves none. -/
def counted (acknowledgements : Int) : Outcome Unit → Option Int
  | .ok () => some (acknowledgements + 1)
  | .error .exception => none
  | .error (.status _) => some acknowledgements

/-- The net after a call to a target: a call that failed is noted in the queue. -/
def noted (cond : Conditions) (ref : ChunkRef) (node : StorageNode) : Outcome Unit × Net → Net
  | (.error (.status _), net) =>
    if svc.handoff then net.setQueue svc.me (HintedHandoffQueue.enqueue (net.queues svc.me) cond.queue node ref).2 else net
  | (.error .exception, net) => net
  | (.ok (), net) => net

theorem noted_frame (cond : Conditions) (ref : ChunkRef) (node : StorageNode) (call : Outcome Unit × Net) :
    (svc.noted cond ref node call).stores = call.2.stores ∧ (svc.noted cond ref node call).views = call.2.views ∧
      (svc.noted cond ref node call).token = call.2.token ∧ (svc.noted cond ref node call).clock = call.2.clock := by
  rcases call with ⟨(status | -) | u, net'⟩
  · cases hh : svc.handoff <;> simp [noted, hh]
    rfl
  · exact ⟨rfl, rfl, rfl, rfl⟩
  · exact ⟨rfl, rfl, rfl, rfl⟩

theorem noted_queue (cond : Conditions) (ref : ChunkRef) (node : StorageNode) (call : Outcome Unit × Net) :
    (svc.noted cond ref node call).queues svc.me = match call.1 with
      | .error (.status _) =>
        if svc.handoff then (HintedHandoffQueue.enqueue (call.2.queues svc.me) cond.queue node ref).2
        else call.2.queues svc.me
      | .error .exception | .ok () => call.2.queues svc.me := by
  rcases call with ⟨(status | -) | u, net'⟩
  · cases hh : svc.handoff <;> simp [noted, hh]
  · rfl
  · rfl

theorem replicate_self {node : StorageNode} (hself : svc.is_self node = true) (cond : Conditions) (ref : ChunkRef)
    (bytes : Bytes) (rest : List StorageNode) (acks : Int) (net : Net) :
    svc.replicate H cond ref bytes (node :: rest) acks net = svc.replicate H cond ref bytes rest acks net := by
  rw [replicate, if_pos hself]

theorem replicate_other {node : StorageNode} (hself : svc.is_self node = false) (cond : Conditions) (ref : ChunkRef)
    (bytes : Bytes) (rest : List StorageNode) (acks : Int) (net : Net) :
    svc.replicate H cond ref bytes (node :: rest) acks net =
      (counted acks (NodeClient.put_chunk H (cond.deliver node) net node ref bytes).1).elim
        (none, svc.noted cond ref node (NodeClient.put_chunk H (cond.deliver node) net node ref bytes))
        fun acks => svc.replicate H cond ref bytes rest acks
          (svc.noted cond ref node (NodeClient.put_chunk H (cond.deliver node) net node ref bytes)) := by
  rw [replicate, if_neg (by simp [hself])]
  rcases NodeClient.put_chunk H (cond.deliver node) net node ref bytes with ⟨(status | -) | u, net'⟩ <;> rfl

/-- A put whose only target is the node itself, or that has none. -/
theorem replicate_alone (h : svc.peer = none) (cond : Conditions) (ref : ChunkRef) (b : Bytes) (net net' : Net) (c : Str) :
    svc.replicate H cond ref b (svc.targets hash64 net c) 1 net' = (some 1, net') := by
  have hself := fun t => svc.self_of_no_peer hash64 h net c (t := t)
  rw [targets_eq] at hself ⊢
  split at hself
  · rename_i hrf
    rw [if_pos hrf, svc.replicate_self (hself _ (List.mem_singleton_self _))]
    rfl
  · rename_i hrf
    rw [if_neg hrf]
    rfl

/-- A put with a peer calls it. -/
theorem replicate_peer {t : StorageNode} (h : svc.peer = some t) (cond : Conditions) (ref : ChunkRef) (b : Bytes)
    (net net' : Net) (c : Str) : svc.replicate H cond ref b (svc.targets hash64 net c) 1 net' =
      (counted 1 (NodeClient.put_chunk H (cond.deliver t) net' t ref b).1,
        svc.noted cond ref t (NodeClient.put_chunk H (cond.deliver t) net' t ref b)) := by
  rw [svc.targets_of_peer hash64 h, svc.replicate_other (svc.not_self_of_peer h)]
  cases counted 1 (NodeClient.put_chunk H (cond.deliver t) net' t ref b).1 <;> rfl

/-- What `put` makes of the count. -/
def verdict (ref : ChunkRef) : Option Int → Outcome ChunkRef
  | none => .error .exception
  | some acknowledgements =>
    if acknowledgements < svc.write_quorum then .error (.status (.Unavailable (lit "quorum write failed"))) else .ok ref

/-- A put whose local write fails ends there. -/
theorem put_of_local_error {cond : Conditions} {b : Bytes} {e : Status}
    (he : ((net.stores svc.me).put H cond.disk b).1 = .error e) :
    svc.put H hash64 cond net b =
      (.error (.status e), (svc.refresh_seed_members net).setStore svc.me ((net.stores svc.me).put H cond.disk b).2) := by
  have hst : (svc.refresh_seed_members net).stores svc.me = net.stores svc.me := rfl
  unfold put
  simp only [hst]
  rw [← Prod.eta ((net.stores svc.me).put H cond.disk b), he]

/-- A put whose local write succeeds goes on to the other replicas. -/
theorem put_of_local_ok {cond : Conditions} {b : Bytes} {ref : ChunkRef} {store : ChunkStore} {call : Option Int × Net}
    (hput : (net.stores svc.me).put H cond.disk b = (.ok ref, store))
    (hcall : svc.replicate H cond ref b (svc.targets hash64 net ref.checksum) 1
      ((svc.refresh_seed_members net).setStore svc.me store) = call) :
    svc.put H hash64 cond net b = (svc.verdict ref call.1, call.2) := by
  have hst : (svc.refresh_seed_members net).stores svc.me = net.stores svc.me := rfl
  unfold targets at hcall
  unfold put
  simp only [hst, hput, Net.setStore_views, hcall]
  rcases call with ⟨- | acks, net'⟩
  · rfl
  · simp only [verdict]
    split <;> rfl

/-- The coordinator's own store takes part once, before the loop. -/
theorem replicate_stores_me (cond : Conditions) (ref : ChunkRef) (b : Bytes) (net net' : Net) (c : Str) :
    (svc.replicate H cond ref b (svc.targets hash64 net c) 1 net').2.stores svc.me = net'.stores svc.me := by
  cases hp : svc.peer with
  | none => rw [svc.replicate_alone hash64 hp]
  | some t =>
    rw [svc.replicate_peer hash64 hp, (svc.noted_frame cond ref t _).1]
    exact (NodeClient.put_chunk_frame _ _ _ ref b).2.2.2 _ (svc.ne_me_of_not_self (svc.not_self_of_peer hp)).symm

theorem put_stores_me (cond : Conditions) (net : Net) (b : Bytes) :
    (svc.put H hash64 cond net b).2.stores svc.me = ((net.stores svc.me).put H cond.disk b).2 := by
  rcases hput : (net.stores svc.me).put H cond.disk b with ⟨e | ref, store⟩
  · rw [svc.put_of_local_error hash64 (by rw [hput]), hput]
    exact Net.setStore_self _ _ _
  · rw [svc.put_of_local_ok hash64 hput rfl, replicate_stores_me]
    exact Net.setStore_self _ _ _

/-- The disk of the node takes the chunk, or has it. -/
def Accepts (H : HexHash) (cond : Conditions) (net : Net) (b : Bytes) : Prop :=
  (net.stores svc.me).file (H.hex b) = none → ChunkStore.stopsWrite cond.disk = false

/-- The peer of a put acknowledges. -/
def acked (cond : Conditions) (net : Net) (c : Str) : Bool :=
  svc.peer.any fun t => NodeClient.callable t && NodeClient.acks (cond.deliver t) (net.stores t.id) c

section Put
variable {cond : Conditions} {b : Bytes}

/-- With every node in reach the peer acknowledges. -/
theorem acked_fine (hreach : svc.Reachable) (net : Net) (c : Str) : svc.acked {} net c = svc.peer.isSome := by
  unfold acked
  cases hp : svc.peer with
  | none => rfl
  | some t =>
    rw [Option.any_some, hreach t hp, Bool.true_and, Option.isSome_some]
    exact NodeClient.acks_fine _ _

/-- What a put does once its own disk has taken the chunk. -/
theorem put_of_accepts (h : svc.Accepts H cond net b) : svc.put H hash64 cond net b =
    (svc.verdict ⟨H.hex b, b.length % 2 ^ 64⟩ (svc.replicate H cond ⟨H.hex b, b.length % 2 ^ 64⟩ b
        (svc.targets hash64 net (H.hex b)) 1
        ((svc.refresh_seed_members net).setStore svc.me ((net.stores svc.me).put H cond.disk b).2)).1,
      (svc.replicate H cond ⟨H.hex b, b.length % 2 ^ 64⟩ b (svc.targets hash64 net (H.hex b)) 1
        ((svc.refresh_seed_members net).setStore svc.me ((net.stores svc.me).put H cond.disk b).2)).2) :=
  svc.put_of_local_ok hash64 (Prod.ext (ChunkStore.put_exists h).1 rfl) rfl

theorem put_of_not_accepts (h : ¬ svc.Accepts H cond net b) : ∃ e, svc.put H hash64 cond net b =
    (.error (.status e), (svc.refresh_seed_members net).setStore svc.me ((net.stores svc.me).put H cond.disk b).2) := by
  obtain ⟨hnone, hstop⟩ := Classical.not_imp.1 h
  obtain ⟨⟨e, he⟩, -⟩ := (net.stores svc.me).put_stopped hnone (Bool.not_eq_false _ ▸ hstop)
  exact ⟨e, svc.put_of_local_error hash64 he⟩

/-- What the peer answers once the coordinator has stored its own copy. -/
theorem put_chunk_peer {t : StorageNode} (hp : svc.peer = some t) (hcall : NodeClient.callable t = true) (cond : Conditions)
    (net : Net) (b : Bytes) :
    (NodeClient.acks (cond.deliver t) (net.stores t.id) (H.hex b) = true →
      (NodeClient.put_chunk H (cond.deliver t)
        ((svc.refresh_seed_members net).setStore svc.me ((net.stores svc.me).put H cond.disk b).2) t
        ⟨H.hex b, b.length % 2 ^ 64⟩ b).1 = .ok ()) ∧
    (NodeClient.acks (cond.deliver t) (net.stores t.id) (H.hex b) = false → ∃ status,
      (NodeClient.put_chunk H (cond.deliver t)
        ((svc.refresh_seed_members net).setStore svc.me ((net.stores svc.me).put H cond.disk b).2) t
        ⟨H.hex b, b.length % 2 ^ 64⟩ b).1 = .error (.status status)) := by
  have hstore : ((svc.refresh_seed_members net).setStore svc.me ((net.stores svc.me).put H cond.disk b).2).stores t.id =
      net.stores t.id := Net.setStore_ne _ _ _ (svc.ne_me_of_not_self (svc.not_self_of_peer hp))
  rw [← hstore]
  exact NodeClient.put_chunk_result _ _ hcall _ b

/-- `put` on a coordinator whose disk takes the chunk. -/
theorem put_result (h : svc.Accepts H cond net b) (hreach : svc.Reachable) : (svc.put H hash64 cond net b).1 =
    if 1 + ((svc.acked cond net (H.hex b)).toNat : Int) < svc.write_quorum
      then .error (.status (.Unavailable (lit "quorum write failed"))) else .ok ⟨H.hex b, b.length % 2 ^ 64⟩ := by
  rw [svc.put_of_accepts hash64 h, acked]
  cases hp : svc.peer with
  | none =>
    rw [svc.replicate_alone hash64 hp]
    rfl
  | some t =>
    obtain ⟨hyes, hno⟩ := svc.put_chunk_peer (H := H) hp (hreach t hp) cond net b
    rw [svc.replicate_peer hash64 hp, Option.any_some, hreach t hp, Bool.true_and]
    cases hack : NodeClient.acks (cond.deliver t) (net.stores t.id) (H.hex b) with
    | true =>
      rw [hyes hack]
      rfl
    | false =>
      obtain ⟨status, hstatus⟩ := hno hack
      rw [hstatus]
      rfl

/-- An address that throws ends the put after its own copy has been stored. -/
theorem put_exception (h : svc.Accepts H cond net b) (hreach : ¬ svc.Reachable) :
    (svc.put H hash64 cond net b).1 = .error .exception := by
  obtain ⟨t, hp, hcall⟩ : ∃ t, svc.peer = some t ∧ NodeClient.callable t = false := by
    simpa [Reachable] using hreach
  rw [svc.put_of_accepts hash64 h, svc.replicate_peer hash64 hp, NodeClient.put_chunk_exception _ _ hcall]
  rfl

/-- When a put succeeds. -/
theorem put_ok_iff : (svc.put H hash64 cond net b).1.isOk = true ↔
    svc.Accepts H cond net b ∧ svc.Reachable ∧ svc.write_quorum ≤ 1 + ((svc.acked cond net (H.hex b)).toNat : Int) := by
  by_cases h : svc.Accepts H cond net b
  · by_cases hreach : svc.Reachable
    · rw [svc.put_result hash64 h hreach]
      split
      · rename_i hlt
        exact ⟨fun hf => (by cases hf), fun hle => absurd hlt (by omega)⟩
      · rename_i hge
        exact ⟨fun _ => ⟨h, hreach, by omega⟩, fun _ => rfl⟩
    · rw [svc.put_exception hash64 h hreach]
      exact ⟨fun hf => (by cases hf), fun hc => absurd hc.2.1 hreach⟩
  · obtain ⟨e, heq⟩ := svc.put_of_not_accepts hash64 h
    rw [heq]
    exact ⟨fun hf => (by cases hf), fun hc => absurd hc.1 h⟩

theorem ref_of_put_ok {ref : ChunkRef} (h : (svc.put H hash64 cond net b).1 = .ok ref) :
    ref = ⟨H.hex b, b.length % 2 ^ 64⟩ := by
  obtain ⟨haccept, hreach, -⟩ := (svc.put_ok_iff hash64).1 (show (svc.put H hash64 cond net b).1.isOk = true by rw [h]; rfl)
  rw [svc.put_result hash64 haccept hreach] at h
  split at h
  · cases h
  · exact (Except.ok.inj h).symm

variable (cond b)

/-- Whatever fails, a put takes no chunk away. -/
theorem put_adds (net : Net) : Adds (H.hex b) net (svc.put H hash64 cond net b).2 ∧
    (svc.put H hash64 cond net b).2.views = (svc.refresh_seed_members net).views ∧
    (svc.put H hash64 cond net b).2.clock = net.clock := by
  have hown : Adds (H.hex b) net
      ((svc.refresh_seed_members net).setStore svc.me ((net.stores svc.me).put H cond.disk b).2) :=
    (show Adds (H.hex b) net (svc.refresh_seed_members net) from .refl _ rfl rfl).trans (.put svc.me cond.disk b)
  by_cases h : svc.Accepts H cond net b
  · rw [svc.put_of_accepts hash64 h]
    cases hp : svc.peer with
    | none =>
      rw [svc.replicate_alone hash64 hp]
      exact ⟨hown, rfl, rfl⟩
    | some t =>
      rw [svc.replicate_peer hash64 hp]
      obtain ⟨hs, hv, htok, hc⟩ := svc.noted_frame cond ⟨H.hex b, b.length % 2 ^ 64⟩ t
        (NodeClient.put_chunk H (cond.deliver t)
        ((svc.refresh_seed_members net).setStore svc.me ((net.stores svc.me).put H cond.disk b).2) t
        ⟨H.hex b, b.length % 2 ^ 64⟩ b)
      obtain ⟨hv', -, hc', -⟩ := NodeClient.put_chunk_frame (H := H) (cond.deliver t)
        ((svc.refresh_seed_members net).setStore svc.me ((net.stores svc.me).put H cond.disk b).2) t
        ⟨H.hex b, b.length % 2 ^ 64⟩ b
      exact ⟨(hown.trans (NodeClient.put_chunk_adds _ _ t _ b)).trans (.refl _ hs htok), hv.trans hv', hc.trans hc'⟩
  · obtain ⟨e, heq⟩ := svc.put_of_not_accepts hash64 h
    rw [heq]
    exact ⟨hown, rfl, rfl⟩

/-- With every node in reach a put goes to the stores of the node itself and of
the peer. -/
theorem put_stores (hreach : svc.Reachable) (net : Net) (id : Str) : (svc.put H hash64 {} net b).2.stores id =
    if id = svc.me ∨ ∃ t ∈ svc.peer, t.id = id then ((net.stores id).put H none b).2 else net.stores id := by
  by_cases hid : id = svc.me
  · rw [if_pos (.inl hid), hid, put_stores_me]
  · have hown : ((svc.refresh_seed_members net).setStore svc.me ((net.stores svc.me).put H none b).2).stores id =
        net.stores id := Net.setStore_ne _ _ _ hid
    rw [svc.put_of_accepts hash64 fun _ => rfl]
    cases hp : svc.peer with
    | none =>
      rw [svc.replicate_alone hash64 hp, if_neg (by simp [hid])]
      exact hown
    | some t =>
      rw [svc.replicate_peer hash64 hp, (svc.noted_frame {} _ t _).1, NodeClient.put_chunk_net,
        show (({} : Conditions).deliver t) = .fine from rfl, NodeClient.reaches_fine (hreach t hp), Option.elim_some]
      by_cases ht : t.id = id
      · subst ht
        rw [if_pos (.inr ⟨t, rfl, rfl⟩), Net.setStore_self]
        exact congrArg (fun s : ChunkStore => (s.put H none b).2) hown
      · rw [if_neg (by simp [hid, ht]), Net.setStore_ne _ _ _ (Ne.symm ht)]
        exact hown

/-- The chunk is then here and on the targets of the plan. -/
theorem put_places (hreach : svc.Reachable) (h : net.Sound H S) :
    ((svc.put H hash64 {} net b).2.stores svc.me).Holds H (H.hex b) ∧
    ∀ t ∈ svc.targets hash64 net (H.hex b), ((svc.put H hash64 {} net b).2.stores t.id).Holds H (H.hex b) := by
  have hplace : ∀ id, (id = svc.me ∨ ∃ t ∈ svc.peer, t.id = id) →
      ((svc.put H hash64 {} net b).2.stores id).Holds H (H.hex b) := by
    intro id hid
    rw [svc.put_stores hash64 b hreach, if_pos hid, ChunkStore.holds_put_iff]
    exact (h id).takes b
  refine ⟨hplace _ (.inl rfl), fun t ht => hplace _ ?_⟩
  cases hself : svc.is_self t with
  | true => exact .inl ((svc.is_self_iff t).1 hself)
  | false =>
    have hmem : t ∈ (svc.targets hash64 net (H.hex b)).filter fun t => !svc.is_self t :=
      List.mem_filter.2 ⟨ht, by simp [hself]⟩
    rw [filter_targets, Option.mem_toList] at hmem
    exact .inr ⟨t, hmem, rfl⟩

/-- Where the chunk is after a put. -/
theorem put_holds_iff (net : Net) (id : Str) : ((svc.put H hash64 cond net b).2.stores id).Holds H (H.hex b) ↔
    (net.stores id).Holds H (H.hex b) ∨ id = svc.me ∧ (net.stores svc.me).takes H cond.disk b ∨
      svc.Accepts H cond net b ∧ ∃ t disk, svc.peer = some t ∧ t.id = id ∧
        NodeClient.reaches (cond.deliver t) t = some disk ∧ (net.stores id).takes H disk b := by
  by_cases hid : id = svc.me
  · subst hid
    rw [svc.put_stores_me, ChunkStore.holds_put_iff]
    constructor
    · exact fun h => .inr (.inl ⟨rfl, h⟩)
    · rintro (h | ⟨-, h⟩ | ⟨-, t, disk, hp, ht, -⟩)
      · exact .inl h
      · exact h
      · exact absurd ht (svc.ne_me_of_not_self (svc.not_self_of_peer hp))
  · have hown : ((svc.refresh_seed_members net).setStore svc.me ((net.stores svc.me).put H cond.disk b).2).stores id =
        net.stores id := Net.setStore_ne _ _ _ hid
    by_cases h : svc.Accepts H cond net b
    · rw [svc.put_of_accepts hash64 h]
      cases hp : svc.peer with
      | none =>
        rw [svc.replicate_alone hash64 hp, hown]
        simp [hid]
      | some t =>
        rw [svc.replicate_peer hash64 hp, (svc.noted_frame cond _ t _).1]
        by_cases ht : t.id = id
        · subst ht
          rw [NodeClient.put_chunk_holds_iff, hown]
          simp [hid, h]
        · rw [(NodeClient.put_chunk_frame _ _ t _ b).2.2.2 id (Ne.symm ht), hown]
          simp [hid, ht]
    · obtain ⟨e, heq⟩ := svc.put_of_not_accepts hash64 h
      rw [heq, hown]
      simp [hid, h]

variable {cond b}

theorem not_accepts_iff : ¬ svc.Accepts H cond net b ↔
    (net.stores svc.me).file (H.hex b) = none ∧ ChunkStore.stopsWrite cond.disk = true := by
  rw [Accepts, Classical.not_imp, Bool.not_eq_false]

theorem takes_of_accepts (h : net.Sound H S) (haccept : svc.Accepts H cond net b)
    (hcut : ChunkStore.cutsWrite cond.disk b = false) : (net.stores svc.me).takes H cond.disk b := by
  by_cases hh : (net.stores svc.me).Holds H (H.hex b)
  · exact .inl hh
  · have hnone := ((h svc.me).file_eq_none (H.digest b)).2 hh
    exact .inr ⟨hnone, haccept hnone, by rw [ChunkStore.flushed_eq_iff.2 hcut]⟩

theorem put_sound (hb : b ∈ S) (h : net.Sound H S) (hw : cond.Whole b) : (svc.put H hash64 cond net b).2.Sound H S := by
  have hown : ((svc.refresh_seed_members net).setStore svc.me ((net.stores svc.me).put H cond.disk b).2).Sound H S :=
    (show (svc.refresh_seed_members net).Sound H S from h).setStore ((h svc.me).put hw.own hb).1
  by_cases hacc : svc.Accepts H cond net b
  · rw [svc.put_of_accepts hash64 hacc]
    cases hp : svc.peer with
    | none =>
      rw [svc.replicate_alone hash64 hp]
      exact hown
    | some t =>
      rw [svc.replicate_peer hash64 hp]
      intro id
      rw [(svc.noted_frame cond _ t _).1]
      exact NodeClient.put_chunk_sound t hown hb (hw.peers t) _ id
  · obtain ⟨e, heq⟩ := svc.put_of_not_accepts hash64 hacc
    rw [heq]
    exact hown

/-- A put that succeeds has stored a file for its chunk here. -/
theorem file_of_put_ok (h : (svc.put H hash64 cond net b).1.isOk = true) :
    ((svc.put H hash64 cond net b).2.stores svc.me).file (H.hex b) ≠ none := by
  rw [put_stores_me]
  exact (ChunkStore.put_exists ((svc.put_ok_iff hash64).1 h).1).2

end Put

/-! ## `get` -/

section Get
variable (reads repairs : StorageNode → Delivery) (c : Str)

/-- Asking a node changes its cache at most. -/
theorem ask_frame (t : StorageNode) (net : Net) :
    (svc.ask H reads c net t).2.views = net.views ∧ (svc.ask H reads c net t).2.queues = net.queues ∧
      (svc.ask H reads c net t).2.clock = net.clock ∧ (svc.ask H reads c net t).2.token = net.token ∧
      (∀ id ≠ t.id, (svc.ask H reads c net t).2.stores id = net.stores id) ∧
      ∀ id c', ((svc.ask H reads c net t).2.stores id).file c' = (net.stores id).file c' := by
  unfold ask
  cases hself : svc.is_self t with
  | true =>
    rw [if_pos rfl, (svc.is_self_iff t).1 hself]
    refine ⟨rfl, rfl, rfl, rfl, fun id hid => Net.setStore_ne _ _ _ hid, fun id c' => ?_⟩
    by_cases hid : id = svc.me
    · subst hid
      exact (congrArg (fun s : ChunkStore => s.file c') (Net.setStore_self _ _ _)).trans (ChunkStore.get_file _ c c')
    · exact congrArg (fun s : ChunkStore => s.file c') (Net.setStore_ne _ _ _ hid)
  | false => exact NodeClient.get_chunk_frame c

/-- What every read of a store keeps, asking a node keeps. -/
theorem ask_stores_inv {P : ChunkStore → Prop} (hP : ∀ s, P s → P (s.get H c).2) (t : StorageNode) {id : Str}
    (h : P (net.stores id)) : P ((svc.ask H reads c net t).2.stores id) := by
  unfold ask
  cases hself : svc.is_self t with
  | true =>
    rw [if_pos rfl]
    show P ((net.setStore svc.me ((net.stores svc.me).get H c).2).stores id)
    by_cases hid : id = svc.me
    · rw [hid, Net.setStore_self]
      rw [hid] at h
      exact hP _ h
    · rw [Net.setStore_ne _ _ _ hid]
      exact h
  | false =>
    rw [if_neg (by simp)]
    rcases NodeClient.get_chunk_stores (H := H) (reads t) net t c id with heq | heq
    · rw [heq]
      exact h
    · rw [heq]
      exact hP _ h

/-- An answer depends on the store of the node that is asked. -/
theorem ask_congr (t : StorageNode) (net net' : Net) (hs : net'.stores t.id = net.stores t.id) :
    (svc.ask H reads c net' t).1 = (svc.ask H reads c net t).1 := by
  unfold ask
  cases hself : svc.is_self t with
  | true =>
    rw [(svc.is_self_iff t).1 hself] at hs
    simp only [if_true, hs]
  | false => exact NodeClient.get_chunk_congr c hs

/-- A target that answers a read with the chunk. -/
def answers (H : HexHash) (reads : StorageNode → Delivery) (c : Str) (net : Net) (t : StorageNode) : Bool :=
  (svc.ask H reads c net t).1.isOk

/-- What follows the loop of `get`: the local copy, for a read quorum of one. -/
theorem readLoop_nil (responses : Int) (last_error : Status) (failed : List StorageNode) (net : Net) :
    (svc.readLoop H reads repairs c [] responses last_error failed net).2 =
        net.setStore svc.me ((net.stores svc.me).get H c).2 ∧
      (svc.readLoop H reads repairs c [] responses last_error failed net).1 ≠ .error .exception ∧
      ∀ b, (svc.readLoop H reads repairs c [] responses last_error failed net).1 = .ok b ↔
        svc.read_quorum ≤ 1 ∧ ((net.stores svc.me).get H c).1 = .ok b := by
  rw [readLoop]
  rcases (net.stores svc.me).get H c with ⟨e | v, store⟩
  · simp
  · by_cases hq : svc.read_quorum ≤ 1 <;> simp [hq]

/-- The loop over the one target there is. It has found no failed replica by
the time it has a value, so nothing is repaired. -/
theorem readLoop_one (t : StorageNode) (last_error : Status) (net : Net) :
    (svc.readLoop H reads repairs c [t] 0 last_error [] net).2 =
        (if (svc.ask H reads c net t).1 = .error .exception ∨
            (svc.ask H reads c net t).1.isOk = true ∧ svc.read_quorum ≤ 1 then (svc.ask H reads c net t).2
          else (svc.ask H reads c net t).2.setStore svc.me (((svc.ask H reads c net t).2.stores svc.me).get H c).2) ∧
      ((svc.readLoop H reads repairs c [t] 0 last_error [] net).1 = .error .exception ↔
        (svc.ask H reads c net t).1 = .error .exception) ∧
      ∀ b, (svc.readLoop H reads repairs c [t] 0 last_error [] net).1 = .ok b ↔
        svc.read_quorum ≤ 1 ∧ ((svc.ask H reads c net t).1 = .ok b ∨
          (∃ e, (svc.ask H reads c net t).1 = .error (.status e)) ∧
            (((svc.ask H reads c net t).2.stores svc.me).get H c).1 = .ok b) := by
  rw [readLoop]
  rcases svc.ask H reads c net t with ⟨(status | -) | v, net'⟩
  · obtain ⟨h1, h2, h3⟩ := svc.readLoop_nil reads repairs c 0 status [t] net' (H := H)
    dsimp only [List.nil_append]
    refine ⟨by rw [h1]; simp [Outcome.isOk], by simp [h2], fun b => ?_⟩
    rw [h3]
    simp
  · simp
  · by_cases hq : svc.read_quorum ≤ 1
    · simp [hq, repair, Outcome.isOk, Except.map]
    · obtain ⟨h1, h2, h3⟩ := svc.readLoop_nil reads repairs c (0 + 1) last_error [] net' (H := H)
      dsimp only
      rw [if_neg (show ¬ (0 : Int) + 1 ≥ svc.read_quorum by omega)]
      refine ⟨by rw [h1]; simp [hq, Outcome.isOk], by simpa using h2, fun b => ?_⟩
      rw [h3]
      simp [hq]

theorem ask_exception_iff (t : StorageNode) (net : Net) :
    (svc.ask H reads c net t).1 = .error .exception ↔ svc.is_self t = false ∧ NodeClient.callable t = false := by
  unfold ask
  cases hself : svc.is_self t with
  | true =>
    rw [if_pos rfl]
    rcases (net.stores svc.me).get H c with ⟨e | v, store⟩ <;> simp [Result.lift]
  | false =>
    rw [if_neg (by simp)]
    cases hcall : NodeClient.callable t with
    | false => simp [NodeClient.get_chunk_exception hcall]
    | true =>
      rw [NodeClient.get_chunk_result _ _ hcall]
      cases NodeClient.relayed t (reads t) ((net.stores t.id).get H c).1 <;> simp [Result.lift]

/-- A target that fails leaves the local copy as it was. -/
theorem own_get_of_ask {t : StorageNode} {e : Status} (h : (svc.ask H reads c net t).1 = .error (.status e)) :
    (((svc.ask H reads c net t).2.stores svc.me).get H c).1 = ((net.stores svc.me).get H c).1 := by
  cases hself : svc.is_self t with
  | false => rw [(svc.ask_frame reads c t net).2.2.2.2.1 _ (svc.ne_me_of_not_self hself).symm]
  | true =>
    unfold ask at h ⊢
    rw [if_pos hself] at h ⊢
    dsimp only at h ⊢
    rw [Net.setStore_self]
    rcases hget : (net.stores svc.me).get H c with ⟨e' | v, store⟩
    · have hsame := ChunkStore.get_of_error (H := H) (s := net.stores svc.me) (c := c) (e := e') (by rw [hget])
      rw [hget] at hsame
      dsimp only at hsame ⊢
      rw [hsame, hget]
    · rw [hget] at h
      cases h

theorem get_eq (net : Net) : svc.get H hash64 reads repairs net c =
    svc.readLoop H reads repairs c (svc.targets hash64 net c) 0 (.NotFound (lit "chunk not found")) []
      (svc.refresh_seed_members net) := rfl

/-- A get changes no file. -/
theorem get_frame (net : Net) :
    (svc.get H hash64 reads repairs net c).2.views = (svc.refresh_seed_members net).views ∧
      (svc.get H hash64 reads repairs net c).2.queues = net.queues ∧
      (svc.get H hash64 reads repairs net c).2.clock = net.clock ∧
      (svc.get H hash64 reads repairs net c).2.token = net.token ∧
      ∀ id c', ((svc.get H hash64 reads repairs net c).2.stores id).file c' = (net.stores id).file c' := by
  have hown : ∀ net' : Net, ∀ id c', ((net'.setStore svc.me ((net'.stores svc.me).get H c).2).stores id).file c' =
      (net'.stores id).file c' := by
    intro net' id c'
    by_cases hid : id = svc.me
    · rw [hid, Net.setStore_self, ChunkStore.get_file]
    · rw [Net.setStore_ne _ _ _ hid]
  rw [get_eq, targets_eq]
  split
  · rw [(svc.readLoop_one reads repairs c _ _ _).1]
    obtain ⟨hv, hq, hcl, htok, -, hf⟩ := svc.ask_frame (H := H) reads c svc.latest (svc.refresh_seed_members net)
    split
    · exact ⟨hv, hq, hcl, htok, hf⟩
    · exact ⟨hv, hq, hcl, htok, fun id c' => (hown _ id c').trans (hf id c')⟩
  · rw [(svc.readLoop_nil reads repairs c _ _ _ _).1]
    exact ⟨rfl, rfl, rfl, rfl, hown _⟩

/-- What every read of a store keeps, a get keeps. -/
theorem get_stores_inv {P : ChunkStore → Prop} (hP : ∀ s, P s → P (s.get H c).2) {id : Str} (h : P (net.stores id)) :
    P ((svc.get H hash64 reads repairs net c).2.stores id) := by
  have hown : ∀ net' : Net, P (net'.stores id) → P ((net'.setStore svc.me ((net'.stores svc.me).get H c).2).stores id) := by
    intro net' h'
    by_cases hid : id = svc.me
    · rw [hid, Net.setStore_self]
      rw [hid] at h'
      exact hP _ h'
    · rw [Net.setStore_ne _ _ _ hid]
      exact h'
  have hr : P ((svc.refresh_seed_members net).stores id) := h
  rw [get_eq, targets_eq]
  split
  · rw [(svc.readLoop_one reads repairs c _ _ _).1]
    have hask := svc.ask_stores_inv reads c hP svc.latest hr
    split
    · exact hask
    · exact hown _ hask
  · rw [(svc.readLoop_nil reads repairs c _ _ _ _).1]
    exact hown _ hr

theorem get_sound {c : Str} (hc : Digest c) (h : net.Sound H S) : (svc.get H hash64 reads repairs net c).2.Sound H S :=
  fun id => svc.get_stores_inv hash64 reads repairs c (fun _ hs => hs.get_sound hc) (h id)

/-- A get ends in an exception when it calls a node whose address throws. -/
theorem get_exception_iff (net : Net) :
    (svc.get H hash64 reads repairs net c).1 = .error .exception ↔ ¬ svc.Reachable := by
  rw [get_eq, targets_eq, Reachable, peer]
  split
  · rename_i hrf
    rw [(svc.readLoop_one reads repairs c _ _ _).2.1, svc.ask_exception_iff]
    cases hself : svc.is_self svc.latest <;> simp [hrf]
  · rename_i hrf
    exact iff_of_false (svc.readLoop_nil reads repairs c _ _ _ _).2.1 (by simp [hrf])

/-- When a get succeeds, and with what: with the answer of its target, or with
the local copy when the target has failed. -/
theorem get_ok_iff (b : Bytes) : (svc.get H hash64 reads repairs net c).1 = .ok b ↔ svc.read_quorum ≤ 1 ∧
    ((∃ t ∈ svc.targets hash64 net c, (svc.ask H reads c net t).1 = .ok b) ∨
      (∀ t ∈ svc.targets hash64 net c, ∃ e, (svc.ask H reads c net t).1 = .error (.status e)) ∧
        ((net.stores svc.me).get H c).1 = .ok b) := by
  rw [get_eq, targets_eq]
  split
  · have hask := svc.ask_congr (H := H) reads c svc.latest net (svc.refresh_seed_members net) rfl
    rw [(svc.readLoop_one reads repairs c _ _ _).2.2, hask]
    simp only [List.mem_singleton, exists_eq_left, forall_eq]
    refine and_congr_right fun _ => or_congr_right (and_congr_right fun ⟨e, he⟩ => ?_)
    rw [svc.own_get_of_ask reads c (hask.trans he)]
    rfl
  · rw [(svc.readLoop_nil reads repairs c _ _ _ _).2.2]
    simp only [List.not_mem_nil, false_and, exists_false, false_or, IsEmpty.forall_iff, implies_true, true_and]
    rfl

variable {reads repairs c}

theorem value_of_own_get (h : net.Sound H S) (hc : Digest c) {id : Str} {b : Bytes}
    (hb : ((net.stores id).get H c).1 = .ok b) : b ∈ S ∧ H.hex b = c := by
  rcases (h id).get hc with ⟨x, s', heq, hx, hxc, -⟩ | ⟨heq, -⟩
  · rw [heq] at hb
    obtain rfl := Except.ok.inj hb
    exact ⟨hx, hxc⟩
  · rw [heq] at hb
    cases hb

theorem value_of_ask (h : net.Sound H S) (hc : Digest c) {t : StorageNode} {b : Bytes}
    (hb : (svc.ask H reads c net t).1 = .ok b) : b ∈ S ∧ H.hex b = c := by
  unfold ask at hb
  cases hself : svc.is_self t with
  | true =>
    rw [if_pos hself] at hb
    exact value_of_own_get h hc (Result.lift_eq_ok.1 hb)
  | false =>
    rw [if_neg (by simp [hself])] at hb
    have hcall : NodeClient.callable t = true := by
      by_contra hno
      rw [NodeClient.get_chunk_exception (Bool.eq_false_iff.2 hno)] at hb
      cases hb
    rw [NodeClient.get_chunk_result _ _ hcall] at hb
    exact value_of_own_get h hc (NodeClient.relayed_eq_ok (Result.lift_eq_ok.1 hb)).2

/-- On sound stores a read returns bytes with the checksum. -/
theorem value_of_get (h : net.Sound H S) (hc : Digest c) {b : Bytes}
    (hb : (svc.get H hash64 reads repairs net c).1 = .ok b) : b ∈ S ∧ H.hex b = c := by
  rcases ((svc.get_ok_iff hash64 reads repairs c b).1 hb).2 with ⟨t, -, ht⟩ | ⟨-, hown⟩
  · exact svc.value_of_ask h hc ht
  · exact value_of_own_get h hc hown

/-- A target in reach can be called. -/
theorem callable_of_target (hreach : svc.Reachable) {t : StorageNode} (ht : t ∈ svc.targets hash64 net c)
    (hself : svc.is_self t = false) : NodeClient.callable t = true := by
  rw [targets_eq] at ht
  split at ht
  · rename_i hrf
    obtain rfl := List.mem_singleton.1 ht
    exact hreach _ (if_pos ⟨hrf, hself⟩)
  · cases ht

/-- When no address throws a get succeeds when one answer is enough, and the
target answers with the chunk or the node itself finds it. -/
theorem get_isOk_iff (hreach : svc.Reachable) : (svc.get H hash64 reads repairs net c).1.isOk = true ↔
    svc.read_quorum ≤ 1 ∧ ((∃ t ∈ svc.targets hash64 net c, svc.answers H reads c net t = true) ∨
      ((net.stores svc.me).get H c).1.isOk = true) := by
  simp only [answers, Outcome.isOk_iff, Result.isOk_iff, svc.get_ok_iff hash64]
  constructor
  · rintro ⟨b, hq, ⟨t, ht, hb⟩ | ⟨-, hb⟩⟩
    · exact ⟨hq, .inl ⟨t, ht, b, hb⟩⟩
    · exact ⟨hq, .inr ⟨b, hb⟩⟩
  · rintro ⟨hq, hfound⟩
    by_cases htarget : ∃ t ∈ svc.targets hash64 net c, ∃ b, (svc.ask H reads c net t).1 = .ok b
    · obtain ⟨t, ht, b, hb⟩ := htarget
      exact ⟨b, hq, .inl ⟨t, ht, hb⟩⟩
    · obtain ⟨b, hb⟩ := hfound.resolve_left htarget
      refine ⟨b, hq, .inr ⟨fun t ht => ?_, hb⟩⟩
      -- a target that can be called and does not answer fails with a status
      rcases hask : (svc.ask H reads c net t).1 with (status | -) | v
      · exact ⟨status, rfl⟩
      · have hthrows := (svc.ask_exception_iff reads c t net).1 hask
        rw [svc.callable_of_target hash64 hreach ht hthrows.1] at hthrows
        cases hthrows.2
      · exact absurd ⟨t, ht, v, hask⟩ htarget

/-- With every node in reach a target answers with what its store finds. -/
theorem answers_fine (hreach : svc.Reachable) {t : StorageNode} (ht : t ∈ svc.targets hash64 net c) :
    svc.answers H (fun _ => .fine) c net t = ((net.stores t.id).get H c).1.isOk := by
  unfold answers ask
  cases hself : svc.is_self t with
  | true =>
    rw [if_pos rfl, (svc.is_self_iff t).1 hself]
    rcases (net.stores svc.me).get H c with ⟨e | v, store⟩ <;> rfl
  | false =>
    rw [if_neg (by simp), NodeClient.get_chunk_result _ _ (svc.callable_of_target hash64 hreach ht hself)]
    cases ((net.stores t.id).get H c).1 <;> rfl

theorem get_found (reads repairs : StorageNode → Delivery) (h : net.Sound H S) (hc : Digest c)
    (hq : svc.read_quorum ≤ 1) (hreach : svc.Reachable)
    (hfound : (∃ t ∈ svc.targets hash64 net c, svc.answers H reads c net t = true) ∨
      ((net.stores svc.me).get H c).1.isOk = true) :
    ∃ b ∈ S, H.hex b = c ∧ (svc.get H hash64 reads repairs net c).1 = .ok b := by
  have hok : (svc.get H hash64 reads repairs net c).1.isOk = true := (svc.get_isOk_iff hash64 hreach).2 ⟨hq, hfound⟩
  obtain ⟨b, hb⟩ := Outcome.isOk_iff.1 hok
  obtain ⟨hbS, hbc⟩ := svc.value_of_get hash64 h hc hb
  exact ⟨b, hbS, hbc, hb⟩

end Get

/-! ## `remove` -/

section Remove
variable (disk : Option DiskFault) (deliver : StorageNode → Delivery) (c : Str)

/-- A referenced chunk stays. -/
theorem remove_referenced {references : Int} (h : references > 0) (net : Net) :
    svc.remove hash64 disk deliver net c references = (.ok (), net) := if_pos h

/-- What the loop of `remove` does to its one target. -/
theorem removeLoop_one (t : StorageNode) (net : Net) :
    ((svc.removeLoop disk deliver c [t] 0 net).2 = net ∨ ∃ fault, (svc.removeLoop disk deliver c [t] 0 net).2 =
        net.setStore t.id ((net.stores t.id).remove_if_unreferenced fault c 0).2) ∧
      ((svc.removeLoop disk deliver c [t] 0 net).1 = none ↔ svc.is_self t = false ∧ NodeClient.callable t = false) := by
  rw [removeLoop]
  cases hself : svc.is_self t with
  | true =>
    rw [if_pos rfl, (svc.is_self_iff t).1 hself]
    exact ⟨.inr ⟨disk, rfl⟩, by simp [removeLoop]⟩
  | false =>
    rw [if_neg (by simp)]
    have hnet : (NodeClient.delete_chunk (deliver t) net t c).2 = net ∨ ∃ fault,
        (NodeClient.delete_chunk (deliver t) net t c).2 =
          net.setStore t.id ((net.stores t.id).remove_if_unreferenced fault c 0).2 := by
      rw [NodeClient.delete_chunk_net]
      cases NodeClient.reaches (deliver t) t with
      | none => exact .inl rfl
      | some fault => exact .inr ⟨fault, rfl⟩
    have hthrows : (NodeClient.delete_chunk (deliver t) net t c).1 = .error .exception ↔ NodeClient.callable t = false := by
      cases hcall : NodeClient.callable t with
      | false => simp [NodeClient.delete_chunk_exception hcall]
      | true => simpa using NodeClient.delete_chunk_returns hcall c
    generalize NodeClient.delete_chunk (deliver t) net t c = call at hnet hthrows
    rcases call with ⟨(status | -) | u, net'⟩
    · exact ⟨hnet, by simpa [removeLoop] using hthrows⟩
    · exact ⟨hnet, by simpa using hthrows⟩
    · exact ⟨hnet, by simpa [removeLoop] using hthrows⟩

/-- `remove` of an unreferenced chunk. -/
theorem remove_unreferenced {references : Int} (h : references ≤ 0) (net : Net) :
    (svc.remove hash64 disk deliver net c references).2 =
        (svc.removeLoop disk deliver c (svc.targets hash64 net c) 0 (svc.refresh_seed_members net)).2 ∧
      ((svc.remove hash64 disk deliver net c references).1 = .error .exception ↔
        (svc.removeLoop disk deliver c (svc.targets hash64 net c) 0 (svc.refresh_seed_members net)).1 = none) := by
  unfold remove targets
  rw [if_neg (by omega)]
  dsimp only
  generalize svc.removeLoop disk deliver c _ 0 (svc.refresh_seed_members net) = call
  rcases call with ⟨- | acks, net'⟩
  · simp
  · dsimp only
    split <;> simp

/-- A remove throws when it calls a node whose address throws. -/
theorem remove_exception_iff {references : Int} (h : references ≤ 0) (net : Net) :
    (svc.remove hash64 disk deliver net c references).1 = .error .exception ↔ ¬ svc.Reachable := by
  rw [(svc.remove_unreferenced hash64 disk deliver c h net).2, targets_eq, Reachable, peer]
  split
  · rename_i hrf
    rw [(svc.removeLoop_one disk deliver c _ _).2]
    cases hself : svc.is_self svc.latest <;> simp [hrf]
  · rename_i hrf
    simp [hrf, removeLoop]

/-- When the peer can be called a remove returns. -/
theorem remove_returns (references : Int) (net : Net) (hreach : svc.Reachable) :
    (svc.remove hash64 disk deliver net c references).1 ≠ .error .exception := by
  by_cases h : references ≤ 0
  · exact fun hthrows => (svc.remove_exception_iff hash64 disk deliver c h net).1 hthrows hreach
  · rw [svc.remove_referenced hash64 disk deliver c (by omega)]
    exact fun hf => (by cases hf)

variable {c}

/-- Whatever fails, `remove` takes no chunk but an unreferenced one, from its
target, and leaves the caches. -/
theorem remove_frame (hc : Digest c) (references : Int) (net : Net) :
    ((svc.remove hash64 disk deliver net c references).2.views = net.views ∨
        (svc.remove hash64 disk deliver net c references).2.views = (svc.refresh_seed_members net).views) ∧
      (svc.remove hash64 disk deliver net c references).2.token = net.token ∧
      (svc.remove hash64 disk deliver net c references).2.clock = net.clock ∧
      (∀ id, ((svc.remove hash64 disk deliver net c references).2.stores id).cache = (net.stores id).cache) ∧
      ∀ id c', Digest c' → ¬ (references ≤ 0 ∧ c' = c ∧ ∃ t ∈ svc.targets hash64 net c, t.id = id) →
        ((svc.remove hash64 disk deliver net c references).2.stores id).file c' = (net.stores id).file c' := by
  by_cases hr : references > 0
  · rw [svc.remove_referenced hash64 disk deliver c hr]
    exact ⟨.inl rfl, rfl, rfl, fun _ => rfl, fun _ _ _ _ => rfl⟩
  · have hr : references ≤ 0 := by omega
    rw [(svc.remove_unreferenced hash64 disk deliver c hr net).1, targets_eq]
    split
    · rcases (svc.removeLoop_one disk deliver c svc.latest (svc.refresh_seed_members net)).1 with heq | ⟨fault, heq⟩
      · rw [heq]
        exact ⟨.inr rfl, rfl, rfl, fun _ => rfl, fun _ _ _ _ => rfl⟩
      · rw [heq]
        obtain ⟨hcache, -, hfile⟩ := (net.stores svc.latest.id).remove_file hc fault
        refine ⟨.inr rfl, rfl, rfl, fun id => ?_, fun id c' hc' hno => ?_⟩
        · by_cases hid : id = svc.latest.id
          · rw [hid, Net.setStore_self]
            exact hcache
          · rw [Net.setStore_ne _ _ _ hid]
            rfl
        · by_cases hid : id = svc.latest.id
          · subst hid
            rw [Net.setStore_self]
            refine (hfile c' hc').trans (if_neg fun hin => hno ⟨hr, hin.1, _, List.mem_singleton_self _, rfl⟩)
          · rw [Net.setStore_ne _ _ _ hid]
            rfl
    · exact ⟨.inr rfl, rfl, rfl, fun _ => rfl, fun _ _ _ _ => rfl⟩

theorem remove_sound (hc : Digest c) (references : Int) (h : net.Sound H S) :
    (svc.remove hash64 disk deliver net c references).2.Sound H S := by
  have hrefresh : (svc.refresh_seed_members net).Sound H S := h
  by_cases hr : references > 0
  · rw [svc.remove_referenced hash64 disk deliver c hr]
    exact h
  · rw [(svc.remove_unreferenced hash64 disk deliver c (by omega) net).1, targets_eq]
    split
    · rcases (svc.removeLoop_one disk deliver c svc.latest (svc.refresh_seed_members net)).1 with heq | ⟨fault, heq⟩
      · rw [heq]
        exact hrefresh
      · rw [heq]
        exact hrefresh.setStore ((hrefresh _).remove hc fault)
    · exact hrefresh

/-- With every node in reach the file of an unreferenced chunk goes from the
target. -/
theorem remove_gone (hc : Digest c) {references : Int} (hr : references ≤ 0) (hreach : svc.Reachable) {id : Str}
    (ht : ∃ t ∈ svc.targets hash64 net c, t.id = id) :
    ((svc.remove hash64 none (fun _ => .fine) net c references).2.stores id).file c = none := by
  obtain ⟨t, ht, rfl⟩ := ht
  rw [(svc.remove_unreferenced hash64 none (fun _ => .fine) c hr net).1]
  rw [targets_eq] at ht ⊢
  split at ht
  · rename_i hrf
    obtain rfl := List.mem_singleton.1 ht
    have hfile : ∀ s : ChunkStore, (s.remove_if_unreferenced none c 0).2.file c = none := fun s =>
      ((s.remove_file hc none).2.2 c hc).trans (if_pos ⟨rfl, rfl⟩)
    rw [if_pos hrf, removeLoop]
    cases hself : svc.is_self svc.latest with
    | true =>
      rw [if_pos rfl, (svc.is_self_iff _).1 hself]
      exact (congrArg (fun s : ChunkStore => s.file c) (Net.setStore_self _ _ _)).trans (hfile _)
    | false =>
      have hcall : NodeClient.callable svc.latest = true := hreach _ (if_pos ⟨hrf, hself⟩)
      have hnet : (NodeClient.delete_chunk .fine (svc.refresh_seed_members net) svc.latest c).2 =
          (svc.refresh_seed_members net).setStore svc.latest.id
            ((net.stores svc.latest.id).remove_if_unreferenced none c 0).2 := by
        rw [NodeClient.delete_chunk_net, NodeClient.reaches_fine hcall]
        rfl
      rw [if_neg (by simp)]
      have hgone : ((NodeClient.delete_chunk .fine (svc.refresh_seed_members net) svc.latest c).2.stores svc.latest.id).file c =
          none := by
        rw [hnet, Net.setStore_self]
        exact hfile _
      generalize NodeClient.delete_chunk .fine (svc.refresh_seed_members net) svc.latest c = call at hgone
      rcases call with ⟨(status | -) | u, net'⟩ <;> exact hgone
  · cases ht

end Remove

end DistributedChunkService

end Dstore
