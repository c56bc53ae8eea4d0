import Dstore.Cluster.ServiceSpec
/-!
# Quorums

`put` starts its count at one, for the coordinator's own copy, whether or not
the coordinator is a target of the plan; and the plan has one target at most.
So a write succeeds with a quorum of two on a plan of one target, and with a
quorum of one although the target has nothing (`off_plan_copy_counts`).
`put_on_quorum_iff` says exactly when a successful write is where it should be.

Where the coordinator is the target, a read there that is answered finds the
chunk (`get_after_put`).
-/
open Dstore.Lib

namespace Dstore

/-! ## A small cluster -/

/-- Three nodes of the documentation's compose file. -/
def nodeA : LiveNode := .of (lit "node-a") (lit "node-a:8080")
def nodeB : LiveNode := .of (lit "node-b") (lit "node-b:8080")
def nodeC : LiveNode := .of (lit "node-c") (lit "node-c:8080")

/-- Processes that have just started, with nothing on disk. -/
def freshNet : Net where
  token := lit "admin-token"
  stores _ := .create (lit "/data/chunks") (64 * 1024 * 1024) fun _ => none
  views _ := .empty (Layout.newestFirst _)
  queues _ := none
  clock := 0

theorem freshNet_sound (H : HexHash) (S : Set Bytes) : freshNet.Sound H S := fun _ => ChunkStore.Sound.create _ _

/-- A `std::hash` that looks at the sixth byte. -/
def sixthByte (s : Str) : Nat := (s.getD 5 0).toNat

namespace DistributedChunkService

variable {H : HexHash} {hash64 : Str → Nat} {S : Set Bytes} (svc : DistributedChunkService) {net : Net}

/-! ## Where a successful write is -/

/-- The disk that a put gets its chunk to on a node, if it gets there. -/
def reached (cond : Conditions) (t : StorageNode) : Option (Option DiskFault) :=
  if svc.is_self t then some cond.disk else NodeClient.reaches (cond.deliver t) t

/-- The node has the chunk, or the put gets it there and the disk takes it. -/
def Keeps (H : HexHash) (cond : Conditions) (net : Net) (b : Bytes) (t : StorageNode) : Prop :=
  (net.stores t.id).Holds H (H.hex b) ∨ ∃ disk, svc.reached cond t = some disk ∧ (net.stores t.id).takes H disk b

/-- After a put that its own disk accepts a target has the chunk if it keeps
it. -/
theorem put_holds_target_iff {cond : Conditions} {b : Bytes} (h : svc.Accepts H cond net b) {t : StorageNode}
    (ht : t ∈ svc.targets hash64 net (H.hex b)) :
    ((svc.put H hash64 cond net b).2.stores t.id).Holds H (H.hex b) ↔ svc.Keeps H cond net b t := by
  rw [svc.put_holds_iff, Keeps, reached]
  refine or_congr_right ?_
  cases hself : svc.is_self t with
  | true =>
    have hme := (svc.is_self_iff t).1 hself
    have hno : ∀ x, svc.peer = some x → x.id ≠ t.id := fun x hx =>
      hme ▸ svc.ne_me_of_not_self (svc.not_self_of_peer hx)
    rw [if_pos rfl, ← hme]
    constructor
    · rintro (⟨-, htakes⟩ | ⟨-, x, disk, hx, hid, -⟩)
      · exact ⟨_, rfl, htakes⟩
      · exact absurd hid (hno x hx)
    · rintro ⟨disk, hdisk, htakes⟩
      rw [← Option.some.inj hdisk] at htakes
      exact .inl ⟨rfl, htakes⟩
  | false =>
    have hpeer : svc.peer = some t := by
      rw [targets_eq] at ht
      split at ht
      · rename_i hrf
        obtain rfl := List.mem_singleton.1 ht
        exact if_pos ⟨hrf, hself⟩
      · cases ht
    rw [if_neg (by simp)]
    constructor
    · rintro (⟨hid, -⟩ | ⟨-, x, disk, hx, -, hreaches, htakes⟩)
      · exact absurd hid (svc.ne_me_of_not_self hself)
      · obtain rfl : t = x := Option.some.inj (hpeer.symm.trans hx)
        exact ⟨disk, hreaches, htakes⟩
    · rintro ⟨disk, hreaches, htakes⟩
      exact .inr ⟨h, t, disk, hpeer, rfl, hreaches, htakes⟩

/-- A successful put is on a write quorum of the plan's targets exactly when
it fails (its own disk refuses the chunk, the address of the peer throws, or
the acknowledgements are too few), or the write quorum is one and the plan's
target keeps the chunk. -/
theorem put_on_quorum_iff (H : HexHash) (hash64 : Str → Nat) (svc : DistributedChunkService) (hq : 1 ≤ svc.write_quorum)
    (net : Net) (b : Bytes) (cond : Conditions) :
    ((svc.put H hash64 cond net b).1.isOk = true →
      ∃ L : List StorageNode, L.Sublist (svc.targets hash64 net (H.hex b)) ∧ svc.write_quorum ≤ L.length ∧
        ∀ t ∈ L, ((svc.put H hash64 cond net b).2.stores t.id).Holds H (H.hex b)) ↔
    (¬ svc.Accepts H cond net b ∨ ¬ svc.Reachable ∨ 1 + ((svc.acked cond net (H.hex b)).toNat : Int) < svc.write_quorum ∨
      1 ≤ svc.replication_factor ∧ svc.write_quorum = 1 ∧ svc.Keeps H cond net b svc.latest) := by
  rw [svc.put_ok_iff]
  constructor
  · intro hprop
    by_contra hcon
    simp only [not_or, not_not, not_lt] at hcon
    obtain ⟨haccept, hreach, hle, hno⟩ := hcon
    obtain ⟨L, hL, hlen, hall⟩ := hprop ⟨haccept, hreach, hle⟩
    obtain ⟨t, ht⟩ : ∃ t, t ∈ L := List.exists_mem_of_length_pos (by omega)
    have htT := hL.subset ht
    have hkeeps := (svc.put_holds_target_iff haccept htT).1 (hall t ht)
    have hshort := hL.length_le
    rw [targets_eq] at htT hshort
    split at htT
    · rename_i hrf
      obtain rfl := List.mem_singleton.1 htT
      rw [if_pos hrf, List.length_singleton] at hshort
      exact hno ⟨hrf, by omega, hkeeps⟩
    · cases htT
  · rintro (h | h | h | ⟨hrf, hone, hkeeps⟩) ⟨haccept, hreach, hle⟩
    · exact absurd haccept h
    · exact absurd hreach h
    · omega
    · have htargets : svc.targets hash64 net (H.hex b) = [svc.latest] := by rw [targets_eq, if_pos hrf]
      refine ⟨[svc.latest], by rw [htargets], by rw [hone]; rfl, fun t ht => ?_⟩
      obtain rfl := List.mem_singleton.1 ht
      exact (svc.put_holds_target_iff haccept (by rw [htargets]; exact ht)).2 hkeeps

/-- Node B of two, keeping one copy of each chunk. -/
def pairB : DistributedChunkService where
  self := nodeB
  replication_factor := 1
  write_quorum := 1
  read_quorum := 1
  seed_members := [nodeA]

/-- With every peer in reach the chunk is where the plan wants it. -/
theorem pairB_put_on_quorum : 1 ≤ pairB.write_quorum ∧
    ((pairB.put Sha256.hexHash sixthByte {} freshNet (lit "abc")).1.isOk = true →
      ∃ L : List StorageNode, L.Sublist (pairB.targets sixthByte freshNet (Sha256.hex (lit "abc"))) ∧
        pairB.write_quorum ≤ (L.length : Int) ∧
        ∀ t ∈ L, ((pairB.put Sha256.hexHash sixthByte {} freshNet (lit "abc")).2.stores
          t.id).Holds Sha256.hexHash (Sha256.hex (lit "abc"))) :=
  ⟨by decide, (put_on_quorum_iff Sha256.hexHash sixthByte pairB (by decide) freshNet (lit "abc") {}).2
    (.inr (.inr (.inr ⟨by decide, rfl, .inr ⟨none, by decide +kernel, .inr ⟨rfl, rfl, rfl⟩⟩⟩)))⟩

/-- With node A down, node B puts a chunk whose plan is node A alone. -/
theorem pairB_put_refused :
    (pairB.targets sixthByte freshNet (Sha256.hex (lit "abc"))).map (·.id) = [lit "node-a"] ∧
    (pairB.put Sha256.hexHash sixthByte { deliver := fun _ => .refused } freshNet (lit "abc")).1.isOk = true ∧
    ((pairB.put Sha256.hexHash sixthByte { deliver := fun _ => .refused } freshNet (lit "abc")).2.stores
      (lit "node-a")).exists_ (Sha256.hex (lit "abc")) = false := by
  rw [Sha256.hexHash_eq, Sha256.hex_eq]
  decide +kernel

/-- The put succeeds on node B's own copy, and no target has the chunk. -/
theorem off_plan_copy_counts :
    (pairB.put Sha256.hexHash sixthByte { deliver := fun _ => .refused } freshNet (lit "abc")).1.isOk = true ∧
    1 ≤ pairB.write_quorum ∧
    ¬ ∃ L : List StorageNode, L.Sublist (pairB.targets sixthByte freshNet (Sha256.hex (lit "abc"))) ∧
      pairB.write_quorum ≤ L.length ∧
      ∀ t ∈ L, ((pairB.put Sha256.hexHash sixthByte { deliver := fun _ => .refused } freshNet (lit "abc")).2.stores
        t.id).Holds Sha256.hexHash (Sha256.hex (lit "abc")) := by
  obtain ⟨hplan, hok, hnone⟩ := pairB_put_refused
  refine ⟨hok, by decide, ?_⟩
  rintro ⟨L, hL, hlen, hall⟩
  obtain ⟨t, ht⟩ : ∃ t, t ∈ L := List.exists_mem_of_length_pos (by
    have : (1 : Int) ≤ L.length := hlen
    omega)
  have hid : t.id = lit "node-a" := by
    have := List.mem_map_of_mem (f := fun n : StorageNode => n.id) (hL.subset ht)
    rw [hplan] at this
    exact List.mem_singleton.1 this
  have := (hall t ht).exists_
  rw [hid, hnone] at this
  cases this

/-! ## Reading it back -/

/-- A target that answers a read, with the chunk or that it is not there. -/
def replies (H : HexHash) (reads : StorageNode → Delivery) (c : Str) (net : Net) (t : StorageNode) : Bool :=
  match (svc.ask H reads c net t).1 with
  | .ok _ => true
  | .error (.status status) => status.code = .kNotFound
  | .error .exception => false

/-- A node that has the file and replies to itself has the chunk. -/
theorem own_get_of_replies {reads : StorageNode → Delivery} {c : Str} {t : StorageNode} (hself : svc.is_self t = true)
    (hr : svc.replies H reads c net t = true) (hfile : (net.stores svc.me).file c ≠ none) :
    ∃ b, ((net.stores svc.me).get H c).1 = .ok b ∧ (svc.ask H reads c net t).1 = .ok b := by
  unfold replies ask at hr
  unfold ask
  rw [if_pos hself] at hr ⊢
  dsimp only at hr ⊢
  rcases hget : ((net.stores svc.me).get H c).1 with e | b
  · rw [hget] at hr
    exact absurd (ChunkStore.file_of_not_found hget (of_decide_eq_true hr)) hfile
  · exact ⟨b, rfl, rfl⟩

/-- After a put that succeeded on a coordinator among the plan's targets, with
quorums that add up to more than the replicas, as long as no store loses the
file of the chunk: `get` returns the bytes when `read_quorum` targets answer,
with the chunk or that it is not there. -/
theorem get_after_put (H : HexHash) (hash64 : Str → Nat) (svc : DistributedChunkService) (S : Set Bytes)
    (hinj : Set.InjOn H.hex S) (net : Net) (b : Bytes) (hb : b ∈ S) (cond : Conditions)
    (hok : (svc.put H hash64 cond net b).1.isOk = true)
    (hself : ∃ t ∈ svc.targets hash64 net (H.hex b), svc.is_self t = true)
    (hquorums : svc.replication_factor < svc.write_quorum + svc.read_quorum)
    (later : Net) (hlater : (later.stores svc.me).Verified H S)
    (hkeep : ∀ id, ((svc.put H hash64 cond net b).2.stores id).file (H.hex b) ≠ none →
      (later.stores id).file (H.hex b) ≠ none)
    (reads repairs : StorageNode → Delivery)
    (hreplies : svc.read_quorum ≤
      ((svc.targets hash64 later (H.hex b)).countP (svc.replies H reads (H.hex b) later) : Nat)) :
    (svc.get H hash64 reads repairs later (H.hex b)).1 = .ok b := by
  obtain ⟨t, ht, hts⟩ := hself
  rw [targets_eq] at ht
  split at ht
  · rename_i hrf
    obtain rfl := List.mem_singleton.1 ht
    -- the coordinator is the one target, so both quorums are one
    have hpeer : svc.peer = none := if_neg fun h => by simp [hts] at h
    have hwq : svc.write_quorum ≤ 1 := by
      have hle := ((svc.put_ok_iff hash64).1 hok).2.2
      rw [acked, hpeer] at hle
      exact hle
    have htargets : svc.targets hash64 later (H.hex b) = [svc.latest] := by rw [targets_eq, if_pos hrf]
    rw [htargets] at hreplies
    have hans : svc.replies H reads (H.hex b) later svc.latest = true := by
      by_contra hno
      rw [List.countP_singleton, if_neg hno] at hreplies
      omega
    have hrq : svc.read_quorum ≤ 1 := by
      have := List.countP_le_length (p := svc.replies H reads (H.hex b) later) (l := [svc.latest])
      rw [List.length_singleton] at this
      omega
    obtain ⟨v, hown, hask⟩ := svc.own_get_of_replies hts hans (hkeep _ (svc.file_of_put_ok hash64 hok))
    obtain ⟨hvS, hvc⟩ := hlater.get (H.digest b) hown
    obtain rfl : v = b := hinj hvS hb hvc
    exact (svc.get_ok_iff hash64 reads repairs _ v).2
      ⟨hrq, .inl ⟨_, by rw [htargets]; exact List.mem_singleton_self _, hask⟩⟩
  · cases ht

/-- Node A of two, where the list of members that it is given ends in itself. -/
def listedA : DistributedChunkService where
  self := nodeA
  replication_factor := 1
  write_quorum := 1
  read_quorum := 1
  seed_members := [nodeB, nodeA]

theorem listedA_put : (listedA.put Sha256.hexHash sixthByte {} freshNet (lit "abc")).1.isOk = true ∧
    (∃ t ∈ listedA.targets sixthByte freshNet (Sha256.hex (lit "abc")), listedA.is_self t = true) ∧
    listedA.read_quorum ≤ ((listedA.targets sixthByte (listedA.put Sha256.hexHash sixthByte {} freshNet (lit "abc")).2
      (Sha256.hex (lit "abc"))).countP (listedA.replies Sha256.hexHash (fun _ => .fine) (Sha256.hex (lit "abc"))
        (listedA.put Sha256.hexHash sixthByte {} freshNet (lit "abc")).2) : Nat) := by
  rw [Sha256.hexHash_eq, Sha256.hex_eq]
  decide +kernel

theorem listedA_get_after_put :
    (listedA.get Sha256.hexHash sixthByte (fun _ => .fine) (fun _ => .fine)
      (listedA.put Sha256.hexHash sixthByte {} freshNet (lit "abc")).2 (Sha256.hex (lit "abc"))).1 = .ok (lit "abc") :=
  get_after_put Sha256.hexHash sixthByte listedA { lit "abc" } (Set.injOn_singleton _ _) freshNet (lit "abc")
    (Set.mem_singleton _) {} listedA_put.1 listedA_put.2.1 (by decide) _
    (listedA.put_sound sixthByte (Set.mem_singleton _) (freshNet_sound _ _) (Conditions.whole_fine _) _).verified
    (fun _ => id) (fun _ => .fine) (fun _ => .fine) listedA_put.2.2

/-- Node A of three with the default quorums. -/
def trioA : DistributedChunkService where
  self := nodeA
  replication_factor := 3
  write_quorum := 2
  read_quorum := 2
  seed_members := [nodeB, nodeC]

/-- A put that node C misses. -/
def missedByC : Conditions where
  deliver t := if t.id = lit "node-c" then .refused else .fine

end DistributedChunkService

end Dstore
