import Dstore.Cluster.ServiceSpec
/-!
# Writes against peers that answer anything

`DistributedChunkService::put` as its own node sees it: the node's store, view
and handoff file on one side, and on the other an answer of each peer, which
may be any. A write in a cluster does to its node what it does against the
answers that the peers gave there (`put_eq_answered`). The chunk is stored
before any peer is asked, so a write that fails for its quorum has stored it
(`putAnswered_cases`).
-/

namespace Dstore

/-- What one node keeps of a `Net`. -/
structure OwnNet where
  store : ChunkStore
  view : ClusterState
  queue : Option Str
  clock : Nat

def Net.own (net : Net) (id : Str) : OwnNet := ⟨net.stores id, net.views id, net.queues id, net.clock⟩

theorem Net.own_setStore (net : Net) (id : Str) (store : ChunkStore) :
    (net.setStore id store).own id = ⟨store, net.views id, net.queues id, net.clock⟩ := by
  rw [Net.own, Net.setStore_self]
  rfl

/-- What the outside does to one `put`, with what the calls to peers give. -/
structure PeerConditions where
  disk : Option DiskFault := none
  queue : Option HintedHandoffQueue.Fault := none
  answers : StorageNode → Outcome Unit := fun _ => .ok ()

namespace DistributedChunkService

variable (H : HexHash) (hash64 : Str → Nat) (svc : DistributedChunkService)

/-- The view after `refresh_seed_members`. -/
def refreshed (own : OwnNet) : OwnNet :=
  { own with view := (own.view.heartbeat own.clock svc.self).heartbeats own.clock svc.seed_members }

/-- The replication loop of `put`: the acknowledgements, unless it is left by an
exception, and the handoff file. -/
def replicateAnswered (cond : PeerConditions) (ref : ChunkRef) :
    List StorageNode → Int → Option Str → Option Int × Option Str
  | [], acknowledgements, queue => (some acknowledgements, queue)
  | node :: rest, acknowledgements, queue =>
    if svc.is_self node then replicateAnswered cond ref rest acknowledgements queue
    else
      match cond.answers node with
      | .ok () => replicateAnswered cond ref rest (acknowledgements + 1) queue
      | .error .exception => (none, queue)
      | .error (.status _) => replicateAnswered cond ref rest acknowledgements
          (if svc.handoff then (HintedHandoffQueue.enqueue queue cond.queue node ref).2 else queue)

def putAnswered (cond : PeerConditions) (own : OwnNet) (bytes : Bytes) : Outcome ChunkRef × OwnNet :=
  let own := svc.refreshed own
  match own.store.put H cond.disk bytes with
  | (.error status, store) => (.error (.status status), { own with store := store })
  | (.ok local_ref, store) =>
    let own := { own with store := store }
    let plan := own.view.write_plan hash64 local_ref.checksum svc.replication_factor svc.write_quorum
    match svc.replicateAnswered cond local_ref plan.targets 1 own.queue with
    | (none, queue) => (.error .exception, { own with queue := queue })
    | (some acknowledgements, queue) =>
      let own := { own with queue := queue }
      if acknowledgements < svc.write_quorum then (.error (.status (.Unavailable (lit "quorum write failed"))), own)
      else (.ok local_ref, own)

/-! ## The peer -/

/-- The targets of the plan for a chunk. -/
def planned (own : OwnNet) (checksum : Str) : List StorageNode :=
  ((svc.refreshed own).view.write_plan hash64 checksum svc.replication_factor svc.write_quorum).targets

theorem planned_eq (own : OwnNet) (c : Str) :
    svc.planned hash64 own c = if 1 ≤ svc.replication_factor then [svc.latest] else [] :=
  ClusterState.write_plan_targets hash64 (ClusterState.known_heartbeats _ _ _ _) c _ _

/-- What the call to the peer gives, if there is one. -/
def peerAnswer (cond : PeerConditions) : Option (Outcome Unit) := svc.peer.map cond.answers

/-- With the node itself enough nodes acknowledge. -/
def Quorum (cond : PeerConditions) : Prop :=
  svc.write_quorum ≤ 1 + ((svc.peerAnswer cond).any Outcome.isOk).toNat

/-- The call to the peer throws. -/
def Throws (cond : PeerConditions) : Prop := svc.peerAnswer cond = some (.error .exception)

instance (cond : PeerConditions) : Decidable (svc.Quorum cond) := inferInstanceAs (Decidable (_ ≤ _))

/-- The handoff file after a call. -/
def queued (cond : PeerConditions) (ref : ChunkRef) (node : StorageNode) (queue : Option Str) : Outcome Unit → Option Str
  | .error (.status _) => if svc.handoff then (HintedHandoffQueue.enqueue queue cond.queue node ref).2 else queue
  | .error .exception | .ok () => queue

theorem replicateAnswered_alone (h : svc.peer = none) (cond : PeerConditions) (ref : ChunkRef) (own : OwnNet) (c : Str)
    (queue : Option Str) : svc.replicateAnswered cond ref (svc.planned hash64 own c) 1 queue = (some 1, queue) := by
  rw [planned_eq]
  split
  · rename_i hrf
    rw [replicateAnswered, if_pos (svc.peer_eq_none.1 h hrf)]
    rfl
  · rfl

theorem replicateAnswered_peer {t : StorageNode} (h : svc.peer = some t) (cond : PeerConditions) (ref : ChunkRef)
    (own : OwnNet) (c : Str) (queue : Option Str) :
    svc.replicateAnswered cond ref (svc.planned hash64 own c) 1 queue =
      (counted 1 (cond.answers t), svc.queued cond ref t queue (cond.answers t)) := by
  obtain ⟨hrf, hself, rfl⟩ := svc.peer_eq_some.1 h
  rw [planned_eq, if_pos hrf, replicateAnswered, if_neg (by simp [hself])]
  rcases cond.answers svc.latest with (e | -) | u <;> rfl

theorem putAnswered_of_local_error {H} {cond : PeerConditions} {own : OwnNet} {b : Bytes} {e : Status} {store : ChunkStore}
    (hput : own.store.put H cond.disk b = (.error e, store)) :
    svc.putAnswered H hash64 cond own b = (.error (.status e), ⟨store, (svc.refreshed own).view, own.queue, own.clock⟩) := by
  have hst : (svc.refreshed own).store = own.store := rfl
  unfold putAnswered
  simp only [hst, hput]
  rfl

theorem putAnswered_of_local_ok {H} {cond : PeerConditions} {own : OwnNet} {b : Bytes} {ref : ChunkRef} {store : ChunkStore}
    {call : Option Int × Option Str} (hput : own.store.put H cond.disk b = (.ok ref, store))
    (hcall : svc.replicateAnswered cond ref (svc.planned hash64 own ref.checksum) 1 own.queue = call) :
    svc.putAnswered H hash64 cond own b =
      (svc.verdict ref call.1, ⟨store, (svc.refreshed own).view, call.2, own.clock⟩) := by
  have hst : (svc.refreshed own).store = own.store := rfl
  have hq : (svc.refreshed own).queue = own.queue := rfl
  have hc : (svc.refreshed own).clock = own.clock := rfl
  unfold planned at hcall
  unfold putAnswered
  simp only [hst, hput, hq, hc, hcall]
  rcases call with ⟨- | acks, queue⟩
  · rfl
  · simp only [verdict]
    split <;> rfl

/-! ## In a cluster -/

/-- A write in a cluster does to its node what it does against the answers of
the peers. -/
theorem put_eq_answered (cond : Conditions) (net : Net) (b : Bytes) : ∃ answers,
    svc.putAnswered H hash64 ⟨cond.disk, cond.queue, answers⟩ (net.own svc.me) b =
      ((svc.put H hash64 cond net b).1, (svc.put H hash64 cond net b).2.own svc.me) := by
  have hview : (svc.refreshed (net.own svc.me)).view = (svc.refresh_seed_members net).views svc.me := by
    simp only [refreshed, Net.own, refresh_seed_members, Net.setView_self]
  rcases hput : (net.stores svc.me).put H cond.disk b with ⟨e | ref, store⟩
  · rw [svc.put_of_local_error hash64 (by rw [hput]), hput]
    refine ⟨fun _ => .ok (), ?_⟩
    rw [svc.putAnswered_of_local_error hash64 (show (net.own svc.me).store.put H cond.disk b = _ from hput), hview]
    simp only [Net.own_setStore]
    rfl
  · have hown : ∀ answers, (net.own svc.me).store.put H (PeerConditions.mk cond.disk cond.queue answers).disk b =
      (.ok ref, store) :=
      fun _ => hput
    rw [svc.put_of_local_ok hash64 hput rfl]
    cases hp : svc.peer with
    | none =>
      refine ⟨fun _ => .ok (), ?_⟩
      rw [svc.putAnswered_of_local_ok hash64 (hown _) (svc.replicateAnswered_alone hash64 hp _ ref _ _ _),
        svc.replicate_alone hash64 hp, hview, Net.own_setStore]
      rfl
    | some t =>
      rw [svc.replicate_peer hash64 hp]
      have hme := (svc.ne_me_of_not_self (svc.not_self_of_peer hp)).symm
      obtain ⟨hviews, hqueues, hclock, hstores⟩ := NodeClient.put_chunk_frame (H := H) (cond.deliver t)
        ((svc.refresh_seed_members net).setStore svc.me store) t ref b
      obtain ⟨hs, hv, -, hc⟩ := svc.noted_frame cond ref t (NodeClient.put_chunk H (cond.deliver t)
        ((svc.refresh_seed_members net).setStore svc.me store) t ref b)
      have hqueue := svc.noted_queue cond ref t (NodeClient.put_chunk H (cond.deliver t)
        ((svc.refresh_seed_members net).setStore svc.me store) t ref b)
      generalize NodeClient.put_chunk H (cond.deliver t) ((svc.refresh_seed_members net).setStore svc.me store) t ref b = call
        at hviews hqueues hclock hstores hs hv hc hqueue ⊢
      refine ⟨fun _ => call.1, ?_⟩
      rw [svc.putAnswered_of_local_ok hash64 (hown _) (svc.replicateAnswered_peer hash64 hp _ ref _ _ _), hview]
      have hend : (svc.noted cond ref t call).own svc.me = ⟨store, (svc.refresh_seed_members net).views svc.me,
          (svc.noted cond ref t call).queues svc.me, net.clock⟩ := by
        rw [Net.own, hs, hv, hc, hstores _ hme, hviews, hclock, Net.setStore_self]
        rfl
      rw [hend, hqueue, hqueues]
      rfl

/-! ## When a write succeeds -/

section Outcome
variable {H}

/-- A write fails with nothing stored when the disk refuses a new chunk. Else a
file of the chunk is there, and the write succeeds if its quorum acknowledges,
and throws if the call to its peer does. -/
theorem putAnswered_cases (cond : PeerConditions) (own : OwnNet) (b : Bytes) :
    (own.store.file (H.hex b) = none ∧ ChunkStore.stopsWrite cond.disk = true ∧
        (∃ status, (svc.putAnswered H hash64 cond own b).1 = .error (.status status)) ∧
        ∀ c, Digest c → (svc.putAnswered H hash64 cond own b).2.store.file c = own.store.file c) ∨
      ((own.store.file (H.hex b) = none → ChunkStore.stopsWrite cond.disk = false) ∧
        (svc.Throws cond → (svc.putAnswered H hash64 cond own b).1 = .error .exception) ∧
        (¬ svc.Throws cond → svc.Quorum cond →
          (svc.putAnswered H hash64 cond own b).1 = .ok ⟨H.hex b, b.length % 2 ^ 64⟩) ∧
        (¬ svc.Throws cond → ¬ svc.Quorum cond →
          ∃ status, (svc.putAnswered H hash64 cond own b).1 = .error (.status status)) ∧
        ∀ c, Digest c → (svc.putAnswered H hash64 cond own b).2.store.file c =
          if c = H.hex b then some ((own.store.file c).getD (ChunkStore.flushed cond.disk b)) else own.store.file c) := by
  rcases own.store.put_cases H cond.disk b with
    ⟨hok, s', heq, -, -, hfile⟩ | ⟨hno, hstop, e, s', heq, -, -, hfile⟩
  · refine .inr ⟨hok, ?_⟩
    rw [svc.putAnswered_of_local_ok hash64 heq rfl]
    unfold Throws Quorum peerAnswer
    cases hp : svc.peer with
    | none =>
      rw [svc.replicateAnswered_alone hash64 hp, verdict]
      refine ⟨fun h => (by cases h), fun _ hq => if_neg (by simpa using hq), fun _ hq =>
        ⟨_, if_pos (by simpa using hq)⟩, hfile⟩
    | some t =>
      rw [svc.replicateAnswered_peer hash64 hp]
      rcases ht : cond.answers t with (status | -) | u
      · simp only [Option.map_some, ht, Option.any_some, Outcome.isOk, counted, verdict, Bool.toNat_false]
        refine ⟨fun h => (by cases h), fun _ hq => if_neg (by simpa using hq), fun _ hq =>
          ⟨_, if_pos (by simpa using hq)⟩, hfile⟩
      · simp only [Option.map_some, ht]
        exact ⟨fun _ => rfl, fun h => absurd trivial h, fun h => absurd trivial h, hfile⟩
      · simp only [Option.map_some, ht, Option.any_some, Outcome.isOk, counted, verdict, Bool.toNat_true]
        refine ⟨fun h => (by cases h), fun _ hq => if_neg (by simpa using hq), fun _ hq =>
          ⟨_, if_pos (by simpa using hq)⟩, hfile⟩
  · rw [svc.putAnswered_of_local_error hash64 heq]
    exact .inl ⟨hno, hstop, ⟨e, rfl⟩, hfile⟩

end Outcome

end DistributedChunkService

end Dstore
