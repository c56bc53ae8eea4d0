import Dstore.Cluster.Quorum
import Dstore.Cluster.ReadCalls
/-!
# What a read believes

`DistributedChunkService::get` against peers that answer anything: any status
with any body, or nothing. A chunk from the node's own store is verified by
`ChunkStore::get`; one from a peer is returned as it comes. So a read can be
trusted whatever the peers answer exactly when it believes none of them
(`get_verified_iff`).
-/

namespace Dstore

namespace DistributedChunkService

/-- What `http_request` gives for a read of each peer whose address it can take
apart. -/
abbrev Peers := StorageNode → Result HttpResponse

/-- `NodeClient::get_chunk` on what `http_request` gives. -/
def answered (peers : Peers) (node : StorageNode) : Outcome Bytes :=
  (NodeClient.finish (.NotFound (lit "remote chunk not found on " ++ node.id)) HttpResponse.body
    (if NodeClient.callable node then (peers node).lift else .error .exception, ())).1

section Reads
variable (H : HexHash) (hash64 : Str → Nat) (svc : DistributedChunkService)

/-- `get` with the peers outside of the model: its result and its calls. -/
def getPeers (peers : Peers) (net : Net) (checksum : Str) : Outcome Bytes × List ReadCall :=
  svc.getCalls ⟨((net.stores svc.me).get H checksum).1, answered peers⟩ checksum (svc.targets hash64 net checksum)

/-- What is returned and what is written to replicas has the checksum. -/
def Verified (checksum : Str) (read : Outcome Bytes × List ReadCall) : Prop :=
  (∀ b, read.1 = .ok b → H.hex b = checksum) ∧ ∀ call ∈ read.2, ∀ b, call.sends = some b → H.hex b = checksum

end Reads

section Spec
variable {H : HexHash} (svc : DistributedChunkService) (a : ReadAnswers) (c : Str)

theorem sends_askCall (t : StorageNode) : (svc.askCall c t).sends = none := by
  unfold askCall
  split <;> rfl

/-- A read without targets asks the local store. -/
theorem getCalls_nil : (∀ v, (svc.getCalls a c []).1 = .ok v ↔ svc.read_quorum ≤ 1 ∧ a.own = .ok v) ∧
    ∀ call ∈ (svc.getCalls a c []).2, call.sends = none := by
  unfold getCalls readCalls
  by_cases hq : svc.read_quorum ≤ 1 <;> cases a.own <;> simp [hq, ReadCall.sends]

/-- A read of one target sends nothing, and returns the answer of the target or,
where that failed, the local one. -/
theorem getCalls_one (t : StorageNode) :
    (∀ v, (svc.getCalls a c [t]).1 = .ok v ↔ svc.read_quorum ≤ 1 ∧
      (svc.answerOf a t = .ok v ∨ (∃ e, svc.answerOf a t = .error (.status e)) ∧ a.own = .ok v)) ∧
    ∀ call ∈ (svc.getCalls a c [t]).2, call.sends = none := by
  have hask := svc.sends_askCall c t
  have hown : (ReadCall.local_get c).sends = none := rfl
  unfold getCalls readCalls readCalls
  by_cases hq : svc.read_quorum ≤ 1 <;> rcases svc.answerOf a t with (e | -) | v
  · rcases a.own with e' | v' <;> simp [hq, hask, hown]
  · simp [hq, hask]
  · simp [hq, hask]
  · rcases a.own with e' | v' <;> simp [hq, hask, hown]
  · simp [hq, hask]
  · rcases a.own with e' | v' <;> simp [hq, hask, hown]

end Spec

theorem answered_eq_ok {peers : Peers} {t : StorageNode} {b : Bytes} : answered peers t = .ok b ↔
    NodeClient.callable t = true ∧ ∃ resp, peers t = .ok resp ∧ ¬ resp.status ≥ 300 ∧ resp.body = b := by
  unfold answered
  cases hcall : NodeClient.callable t with
  | false => simp [NodeClient.finish]
  | true =>
    rcases peers t with e | resp
    · simp [NodeClient.finish, Result.lift]
    · simp only [NodeClient.finish, Result.lift, if_true, true_and, Except.ok.injEq, exists_eq_left']
      split
      · rename_i hstatus
        exact ⟨fun hf => (by cases hf), fun h => absurd hstatus h.1⟩
      · rename_i hstatus
        exact ⟨fun hok => ⟨hstatus, Except.ok.inj hok⟩, fun h => congrArg Except.ok h.2⟩

/-- Every peer answers with the same bytes. -/
def saying (body : Bytes) : Peers := fun _ => .ok ⟨200, lit "application/octet-stream", body⟩

theorem answered_saying (body : Bytes) {t : StorageNode} (hcall : NodeClient.callable t = true) :
    answered (saying body) t = .ok body :=
  answered_eq_ok.2 ⟨hcall, _, rfl, show ¬ (200 : Int32) ≥ 300 by decide, rfl⟩

/-- No message has the digest of every other one. -/
theorem exists_hex_ne (c : Str) : ∃ b, Sha256.hexHash.hex b ≠ c := by
  by_cases h : Sha256.hexHash.hex (lit "ab") = c
  · refine ⟨lit "abc", fun h' => ?_⟩
    have hne : Sha256.hexHash.hex (lit "abc") ≠ Sha256.hexHash.hex (lit "ab") := by
      rw [Sha256.hexHash_eq]
      decide +kernel
    exact hne (h'.trans h.symm)
  · exact ⟨_, h⟩

/-- A read is verified whatever the peers answer, exactly when it asks none of
them or returns nothing: no replicas are asked for, more than one answer is
wanted, or the one target is the node itself or has an address that throws. -/
theorem get_verified_iff (hash64 : Str → Nat) (svc : DistributedChunkService) (net : Net)
    (hstore : (net.stores svc.me).Reachable Sha256.hexHash) (c : Str) :
    (∀ peers, Verified Sha256.hexHash c (svc.getPeers Sha256.hexHash hash64 peers net c)) ↔
      svc.replication_factor < 1 ∨ 1 < svc.read_quorum ∨ svc.is_self svc.latest = true ∨
        NodeClient.callable svc.latest = false := by
  constructor
  · intro h
    by_contra hcon
    simp only [not_or, not_lt, Bool.not_eq_true, Bool.not_eq_false] at hcon
    obtain ⟨hrf, hrq, hself, hcall⟩ := hcon
    -- the one target is a peer, and its answer is returned
    obtain ⟨b, hb⟩ := exists_hex_ne c
    have hget := (h (saying b)).1 b
    rw [getPeers, targets_eq, if_pos hrf, (svc.getCalls_one _ c _).1] at hget
    refine hb (hget ⟨hrq, .inl ?_⟩)
    rw [answerOf, if_neg (by simp [hself])]
    exact answered_saying b hcall
  · intro hcond peers
    have hown : ∀ b, ((net.stores svc.me).get Sha256.hexHash c).1 = .ok b → Sha256.hexHash.hex b = c := fun b =>
      hstore.hex_get
    rw [getPeers, targets_eq]
    split
    · rename_i hrf
      obtain ⟨hres, hcalls⟩ := svc.getCalls_one ⟨((net.stores svc.me).get Sha256.hexHash c).1, answered peers⟩ c svc.latest
      refine ⟨fun b hb => ?_, fun call hcall b hb => absurd hb (by simp [hcalls call hcall])⟩
      obtain ⟨hrq, hb⟩ := (hres b).1 hb
      rcases hb with hb | ⟨-, hb⟩
      · unfold answerOf at hb
        split at hb
        · exact hown b (Result.lift_eq_ok.1 hb)
        · rename_i hself
          rcases hcond with h | h | h | h
          · omega
          · omega
          · exact absurd h hself
          · rw [(answered_eq_ok.1 hb).1] at h
            cases h
      · exact hown b hb
    · obtain ⟨hres, hcalls⟩ := svc.getCalls_nil ⟨((net.stores svc.me).get Sha256.hexHash c).1, answered peers⟩ c
      exact ⟨fun b hb => hown b ((hres b).1 hb).2, fun call hcall b hb => absurd hb (by simp [hcalls call hcall])⟩

/-! ## The peers of a cluster -/

section Cluster
variable (svc : DistributedChunkService)

/-- The answers of the nodes of a cluster. -/
def peersOf (H : HexHash) (reads : StorageNode → Delivery) (net : Net) (c : Str) : Peers := fun t =>
  match (NodeClient.http_request (reads t)
    (fun _ => Server.getChunk H net.token (NodeClient.chunkRequest "GET" net.token c [])) net t).1 with
  | .ok resp => .ok resp
  | .error (.status status) => .error status
  | .error .exception => .error (.Internal [])

theorem get_chunk_answered (H : HexHash) (reads : StorageNode → Delivery) (net : Net) (c : Str) (t : StorageNode) :
    (NodeClient.get_chunk H (reads t) net t c).1 = answered (peersOf H reads net c) t := by
  unfold answered peersOf
  cases hcall : NodeClient.callable t with
  | false =>
    rw [NodeClient.get_chunk_exception hcall]
    rfl
  | true =>
    have hreturns := NodeClient.get_chunk_result (H := H) (reads t) net hcall c
    unfold NodeClient.get_chunk at hreturns ⊢
    simp only at hreturns ⊢
    generalize NodeClient.http_request (reads t)
      (fun _ => Server.getChunk H net.token (NodeClient.chunkRequest "GET" net.token c [])) net t = call at hreturns ⊢
    rcases call with ⟨(e | -) | resp, net'⟩
    · rfl
    · cases hfound : NodeClient.relayed t (reads t) ((net.stores t.id).get H c).1 <;>
        simp [hfound, NodeClient.finish, Result.lift] at hreturns
    · simp only [NodeClient.finish, Result.lift, if_true]
      split <;> rfl

/-- `get` of a cluster is a read from its peers. -/
theorem get_eq_getPeers (H : HexHash) (hash64 : Str → Nat) (reads repairs : StorageNode → Delivery) (net : Net) (c : Str) :
    (svc.get H hash64 reads repairs net c).1 = (svc.getPeers H hash64 (peersOf H reads net c) net c).1 := by
  have hpeers : (fun t => (NodeClient.get_chunk H (reads t) net t c).1) = answered (peersOf H reads net c) :=
    funext (get_chunk_answered H reads net c)
  rw [svc.get_eq_calls H reads repairs hash64 net c, getPeers, ← hpeers]
  rfl

end Cluster

/-! ## Peers that lie -/

theorem freshNet_reachable (H : HexHash) (id : Str) : (freshNet.stores id).Reachable H := .create _ _ _

/-- A read on a node that is its own target. -/
theorem listedA_verified :
    listedA.is_self listedA.latest = true ∧ ∀ peers, Verified Sha256.hexHash (Sha256.hex (lit "abc"))
      (listedA.getPeers Sha256.hexHash sixthByte peers freshNet (Sha256.hex (lit "abc"))) :=
  ⟨by decide, (get_verified_iff sixthByte listedA freshNet (freshNet_reachable _ _) _).2 (.inr (.inr (.inl (by decide))))⟩

/-- Node A answers node B with bytes that are cut short, and the read returns
them. -/
theorem cut_chunk_returned :
    (freshNet.stores pairB.me).Reachable Sha256.hexHash ∧
      (pairB.getPeers Sha256.hexHash sixthByte (saying (lit "ab")) freshNet (Sha256.hex (lit "abc"))).1 = .ok (lit "ab") ∧
      ¬ Verified Sha256.hexHash (Sha256.hex (lit "abc"))
        (pairB.getPeers Sha256.hexHash sixthByte (saying (lit "ab")) freshNet (Sha256.hex (lit "abc"))) := by
  have hres : (pairB.getPeers Sha256.hexHash sixthByte (saying (lit "ab")) freshNet (Sha256.hex (lit "abc"))).1 =
      .ok (lit "ab") := by
    rw [getPeers, targets_eq, if_pos (by decide), (pairB.getCalls_one _ _ _).1]
    exact ⟨by decide, .inl (answered_saying _ (by decide))⟩
  refine ⟨freshNet_reachable _ _, hres, fun h => ?_⟩
  exact absurd (h.1 _ hres) (by rw [Sha256.hexHash_eq, Sha256.hex_eq]; decide +kernel)

end DistributedChunkService

end Dstore
