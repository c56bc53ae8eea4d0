import Dstore.Cluster.Quorum
import Dstore.Lib.Runs
/-!
# No replica is forgotten

A put that does not reach its target notes it in the handoff queue, and a replay
takes a hint out of the queue only when its delivery has been acknowledged. So
a target that is owed a chunk has it, or its hint is in the file, as long as an
acknowledgement means that the chunk is there: as long as no disk cuts a chunk
that it was given (`no_replica_forgotten`); and a replay that is not refused
anywhere leaves nothing owed. A target whose address throws is owed its chunk
and forgotten (`unreadable_port_forgotten`).

A delivery can be stored without being acknowledged. Its hint stays in the
queue and the chunk is sent again, which does no harm.
-/
open Dstore.Lib

namespace Dstore.Handoff

/-- The cluster and what the puts so far owe: a chunk to each target of its
plan but the coordinator. -/
structure World where
  net : Net
  owed : List (StorageNode × ChunkRef) := []

inductive Call where
  | put (disk : Option DiskFault) (deliver : StorageNode → Delivery) (bytes : Bytes)
  | replay (deliver : Nat → StorageNode → Delivery)

def hintFor (t : StorageNode) (ref : ChunkRef) : HandoffHint := ⟨t.id, t.address, ref.checksum, ref.size⟩

section Service
variable (H : HexHash) (hash64 : Str → Nat) (svc : DistributedChunkService)

/-- A put that its own disk refuses makes no plan. -/
def exec (w : World) : Call → World
  | .put disk deliver bytes =>
    ⟨(svc.put H hash64 { disk := disk, deliver := deliver } w.net bytes).2,
      if (w.net.stores svc.me).file (H.hex bytes) = none ∧ ChunkStore.stopsWrite disk = true then w.owed
      else w.owed ++ ((svc.targets hash64 w.net (H.hex bytes)).filter fun t => !svc.is_self t).map fun t =>
        (t, ⟨H.hex bytes, bytes.length % 2 ^ 64⟩)⟩
  | .replay deliver => ⟨(svc.replay_hinted_handoff H deliver none w.net).2, w.owed⟩

/-- The id and address are non-empty and free of white space. -/
def PlainNode (n : StorageNode) : Prop := HintedHandoffQueue.Plain n.id ∧ HintedHandoffQueue.Plain n.address

instance (n : StorageNode) : Decidable (PlainNode n) := inferInstanceAs (Decidable (_ ∧ _))

/-- The address of the target can be taken apart, and no disk cuts a chunk that
is written to it. -/
def Spared (w : World) : Call → Prop
  | .put disk deliver bytes => svc.Reachable ∧ ({ disk := disk, deliver := deliver } : Conditions).Whole bytes
  | .replay deliver => ∀ o ∈ w.owed, ∀ b, H.hex b = o.2.checksum → ∀ i t, (deliver i t).cuts b = false

/-- A target is owed nothing more, or its hint is in the list. -/
def Settled (net : Net) (hints : List HandoffHint) (o : StorageNode × ChunkRef) : Prop :=
  (net.stores o.1.id).Holds H o.2.checksum ∨ hintFor o.1 o.2 ∈ hints

/-- Each target that is owed a chunk holds it or has its hint in the file. -/
def Remembered (w : World) : Prop :=
  ∃ hints, HintedHandoffQueue.load (w.net.queues svc.me) = .ok hints ∧ ∀ o ∈ w.owed, Settled H w.net hints o

/-- A hint that survives the file, that some put has left and whose chunk the
coordinator has. -/
structure Good (net : Net) (owed : List (StorageNode × ChunkRef)) (h : HandoffHint) : Prop where
  plain : HintedHandoffQueue.Plainly h
  digest : Digest h.checksum
  callable : NodeClient.callable ⟨h.target_node_id, h.target_address, true⟩ = true
  owed : ∃ o ∈ owed, o.2.checksum = h.checksum
  kept : (net.stores svc.me).Holds H h.checksum

structure Inv (w : World) : Prop where
  sound : w.net.Sound H Set.univ
  queue : ∃ hints, HintedHandoffQueue.Contains (w.net.queues svc.me) hints ∧ (∀ h ∈ hints, Good H svc w.net w.owed h) ∧
    ∀ o ∈ w.owed, Digest o.2.checksum ∧ Settled H w.net hints o

variable {H hash64 svc}

/-! ## The queue in `put` -/

/-- A put leaves a hint for its target unless the target acknowledges. -/
theorem put_queue (hh : svc.handoff = true) {cond : Conditions} (hq : cond.queue = none) (hreach : svc.Reachable) {net : Net}
    {b : Bytes} (haccept : svc.Accepts H cond net b) {hints : List HandoffHint}
    (hc : HintedHandoffQueue.Contains (net.queues svc.me) hints) :
    HintedHandoffQueue.Contains ((svc.put H hash64 cond net b).2.queues svc.me)
      (hints ++ (svc.peer.toList.filter fun _ => !svc.acked cond net (H.hex b)).map
        fun t => hintFor t ⟨H.hex b, b.length % 2 ^ 64⟩) := by
  rw [svc.put_of_accepts hash64 haccept, DistributedChunkService.acked]
  cases hp : svc.peer with
  | none =>
    rw [svc.replicate_alone hash64 hp, Option.toList_none, List.filter_nil, List.map_nil, List.append_nil]
    exact hc
  | some t =>
    obtain ⟨hyes, hno⟩ := svc.put_chunk_peer (H := H) hp (hreach t hp) cond net b
    rw [svc.replicate_peer hash64 hp, Option.any_some, hreach t hp, Bool.true_and]
    have hqueues := (NodeClient.put_chunk_frame (H := H) (cond.deliver t)
      ((svc.refresh_seed_members net).setStore svc.me ((net.stores svc.me).put H cond.disk b).2) t
      ⟨H.hex b, b.length % 2 ^ 64⟩ b).2.1
    generalize NodeClient.put_chunk H (cond.deliver t) _ t ⟨H.hex b, b.length % 2 ^ 64⟩ b = call at hyes hno hqueues
    obtain ⟨answer, net'⟩ := call
    have hc' : HintedHandoffQueue.Contains (net'.queues svc.me) hints := by
      rw [show net'.queues = _ from hqueues]
      exact hc
    cases hack : NodeClient.acks (cond.deliver t) (net.stores t.id) (H.hex b) with
    | true =>
      obtain rfl := hyes hack
      rw [Option.toList_some, List.filter_cons_of_neg (by simp), List.filter_nil, List.map_nil, List.append_nil]
      exact hc'
    | false =>
      obtain ⟨status, rfl⟩ := hno hack
      rw [DistributedChunkService.noted, if_pos hh, hq]
      dsimp only
      rw [Net.setQueue_self]
      exact hc'.enqueue t ⟨H.hex b, b.length % 2 ^ 64⟩

/-! ## `replay_hinted_handoff` -/

/-- What a loop over hints that the coordinator can serve does: each hint is
delivered or remains, and nothing is lost. -/
theorem replayLoop_spec (deliver : Nat → StorageNode → Delivery) {owed : List (StorageNode × ChunkRef)}
    (hcut : ∀ o ∈ owed, ∀ b, H.hex b = o.2.checksum → ∀ i t, (deliver i t).cuts b = false)
    {hints : List HandoffHint} (i : Nat)
    (delivered : Int) (remaining : List HandoffHint) {net : Net} (h : net.Sound H Set.univ)
    (hg : ∀ x ∈ hints, Good H svc net owed x) :
    ∃ delivered' remaining' net', svc.replayLoop H deliver hints i delivered remaining net =
        (some (delivered', remaining'), net') ∧
      net'.Sound H Set.univ ∧ net'.queues = net.queues ∧
      (∀ id c, Digest c → (net.stores id).Holds H c → (net'.stores id).Holds H c) ∧
      (∀ x ∈ remaining', x ∈ remaining ∨ x ∈ hints) ∧ (∀ x ∈ remaining, x ∈ remaining') ∧
      (∀ x ∈ hints, x ∈ remaining' ∨ (net'.stores x.target_node_id).Holds H x.checksum) ∧
      ((∀ i t, deliver i t = .fine) → remaining' = remaining) := by
  induction hints generalizing i delivered remaining net with
  | nil => exact ⟨_, _, _, rfl, h, rfl, fun _ _ _ hh => hh, fun x hx => .inl hx, fun x hx => hx, by simp, fun _ => rfl⟩
  | cons hint hints ih =>
    have hgood := hg hint List.mem_cons_self
    rw [DistributedChunkService.replayLoop]
    -- the coordinator finds the chunk
    obtain ⟨b, store, heq, hbc⟩ : ∃ b store, (net.stores svc.me).get H hint.checksum = (.ok b, store) ∧
      H.hex b = hint.checksum := by
      rcases (h svc.me).get hgood.digest with ⟨b, store, heq, -, hbc, -⟩ | ⟨-, hnone⟩
      · exact ⟨b, store, heq, hbc⟩
      · exact absurd hgood.kept (((h svc.me).file_eq_none hgood.digest).1 hnone)
    have hsound : (net.setStore svc.me store).Sound H Set.univ := by
      have := (h svc.me).get_sound hgood.digest
      rw [heq] at this
      exact h.setStore this
    have hget : ∀ id c, ((net.setStore svc.me store).stores id).file c = (net.stores id).file c := by
      intro id c
      by_cases hid : id = svc.me
      · have := (net.stores svc.me).get_file (H := H) hint.checksum c
        rw [heq] at this
        rw [hid, Net.setStore_self]
        exact this
      · rw [Net.setStore_ne _ _ _ hid]
    rw [heq]
    dsimp only
    generalize hnet1 : net.setStore svc.me store = net1 at hget hsound
    have hq1 : net1.queues = net.queues := by rw [← hnet1]; rfl
    -- the delivery adds the chunk on its target, or nothing
    obtain ⟨o, ho, hoc⟩ := hgood.owed
    have hwhole : ∀ t, (deliver i t).cuts b = false := hcut o ho b (hbc.trans hoc.symm) i
    have hadd := NodeClient.put_chunk_adds (H := H) (deliver i ⟨hint.target_node_id, hint.target_address, true⟩)
      net1 ⟨hint.target_node_id, hint.target_address, true⟩ ⟨hint.checksum, hint.size⟩ b
    have hsound2 := NodeClient.put_chunk_sound ⟨hint.target_node_id, hint.target_address, true⟩ hsound
      (Set.mem_univ b) (hwhole ⟨hint.target_node_id, hint.target_address, true⟩) ⟨hint.checksum, hint.size⟩
    have hq2 := (NodeClient.put_chunk_frame (H := H) (deliver i ⟨hint.target_node_id, hint.target_address, true⟩)
      net1 ⟨hint.target_node_id, hint.target_address, true⟩ ⟨hint.checksum, hint.size⟩ b).2.1
    have hholds := NodeClient.put_chunk_holds_iff (H := H) (deliver i ⟨hint.target_node_id, hint.target_address, true⟩)
      net1 ⟨hint.target_node_id, hint.target_address, true⟩ ⟨hint.checksum, hint.size⟩ b
    have hresult := NodeClient.put_chunk_result (H := H) (deliver i ⟨hint.target_node_id, hint.target_address, true⟩)
      net1 hgood.callable hint.size b
    rw [hbc] at hresult hholds hadd
    have hkeep : ∀ id c, Digest c → (net.stores id).Holds H c →
        ((NodeClient.put_chunk H (deliver i ⟨hint.target_node_id, hint.target_address, true⟩) net1
          ⟨hint.target_node_id, hint.target_address, true⟩ ⟨hint.checksum, hint.size⟩ b).2.stores id).Holds H c := by
      rintro id c hc ⟨x, hx, hxc⟩
      exact hadd.holds hc ⟨x, (hget id c).trans hx, hxc⟩
    generalize NodeClient.put_chunk H (deliver i ⟨hint.target_node_id, hint.target_address, true⟩) net1
      ⟨hint.target_node_id, hint.target_address, true⟩ ⟨hint.checksum, hint.size⟩ b = call at hsound2 hq2 hholds hresult hkeep
    obtain ⟨res, net2⟩ := call
    have hg' : ∀ x ∈ hints, Good H svc net2 owed x := fun x hx =>
      have hgx := hg x (List.mem_cons_of_mem _ hx)
      ⟨hgx.plain, hgx.digest, hgx.callable, hgx.owed, hkeep _ _ hgx.digest hgx.kept⟩
    cases hack : NodeClient.acks (deliver i ⟨hint.target_node_id, hint.target_address, true⟩)
        (net1.stores hint.target_node_id) hint.checksum with
    | true =>
      obtain rfl := hresult.1 hack
      have hthere : (net2.stores hint.target_node_id).Holds H hint.checksum := by
        refine hholds.2 (.inr ?_)
        rw [← hbc] at hack
        exact NodeClient.takes_of_acks (hsound hint.target_node_id) hgood.callable (hwhole _) hack
      obtain ⟨d', r', net', heq', h1, h2, h3, h4, h5, h6, h7⟩ := ih (i + 1) (delivered + 1) remaining hsound2 hg'
      refine ⟨d', r', net', heq', h1, h2.trans (hq2.trans hq1), fun id c hc hh => h3 id c hc (hkeep id c hc hh),
        fun x hx => (h4 x hx).imp_right (List.mem_cons_of_mem _), h5, fun x hx => ?_, h7⟩
      rcases List.mem_cons.1 hx with rfl | hx
      · -- an acknowledged delivery has left the chunk on its target
        exact .inr (h3 _ _ hgood.digest hthere)
      · exact h6 x hx
    | false =>
      obtain ⟨status, rfl⟩ := hresult.2 hack
      obtain ⟨d', r', net', heq', h1, h2, h3, h4, h5, h6, h7⟩ := ih (i + 1) delivered (remaining ++ [hint]) hsound2 hg'
      refine ⟨d', r', net', heq', h1, h2.trans (hq2.trans hq1), fun id c hc hh => h3 id c hc (hkeep id c hc hh),
        fun x hx => ?_, fun x hx => h5 x (List.mem_append_left _ hx), fun x hx => ?_, fun hfine => ?_⟩
      · rcases h4 x hx with hx | hx
        · rcases List.mem_append.1 hx with hx | hx
          · exact .inl hx
          · exact .inr (List.mem_singleton.1 hx ▸ List.mem_cons_self)
        · exact .inr (List.mem_cons_of_mem _ hx)
      · rcases List.mem_cons.1 hx with rfl | hx
        · exact .inl (h5 _ (List.mem_append_right _ List.mem_cons_self))
        · exact h6 x hx
      · rw [hfine, NodeClient.acks_fine] at hack
        cases hack

/-! ## Runs -/

theorem exec_put_inv (hh : svc.handoff = true) (hplain : PlainNode svc.latest) {w : World} (hw : Inv H svc w)
    {disk : Option DiskFault} {deliver : StorageNode → Delivery} {b : Bytes} (hs : Spared H svc w (.put disk deliver b)) :
    Inv H svc (exec H hash64 svc w (.put disk deliver b)) := by
  obtain ⟨hreach, hwhole⟩ := hs
  obtain ⟨hints, hc, hgood, howed⟩ := hw.queue
  have hadd := (svc.put_adds (H := H) hash64 { disk := disk, deliver := deliver } b w.net).1
  have hsound := svc.put_sound hash64 (Set.mem_univ b) hw.sound hwhole
  by_cases haccept : svc.Accepts H { disk := disk, deliver := deliver } w.net b
  · have hkept : ((svc.put H hash64 { disk := disk, deliver := deliver } w.net b).2.stores svc.me).Holds H (H.hex b) :=
      (svc.put_holds_iff hash64 _ b w.net svc.me).2
        (.inr (.inl ⟨rfl, svc.takes_of_accepts hw.sound haccept hwhole.own⟩))
    have hexec : exec H hash64 svc w (.put disk deliver b) =
        ⟨(svc.put H hash64 { disk := disk, deliver := deliver } w.net b).2,
          w.owed ++ svc.peer.toList.map fun t => (t, ⟨H.hex b, b.length % 2 ^ 64⟩)⟩ := by
      rw [exec, if_neg fun hcon => svc.not_accepts_iff.2 hcon haccept, svc.filter_targets]
    have hpeer : ∀ t, svc.peer = some t → PlainNode t ∧ NodeClient.callable t = true := by
      intro t ht
      refine ⟨?_, hreach t ht⟩
      unfold DistributedChunkService.peer at ht
      split at ht
      · rwa [← Option.some.inj ht]
      · cases ht
    rw [hexec]
    refine ⟨hsound, _, put_queue hh rfl hreach haccept hc, fun x hx => ?_, fun o ho => ?_⟩
    · rcases List.mem_append.1 hx with hx | hx
      · have hgx := hgood x hx
        obtain ⟨o, ho, hoc⟩ := hgx.owed
        exact ⟨hgx.plain, hgx.digest, hgx.callable, ⟨o, List.mem_append_left _ ho, hoc⟩, hadd.holds hgx.digest hgx.kept⟩
      · obtain ⟨t, ht, rfl⟩ := List.mem_map.1 hx
        obtain ⟨htpeer, -⟩ := List.mem_filter.1 ht
        obtain ⟨⟨hid, haddr⟩, hcall⟩ := hpeer t (Option.mem_toList.1 htpeer)
        exact ⟨⟨hid, haddr, .of_digest (H.digest b), Nat.mod_lt _ (by decide)⟩, H.digest b, hcall,
          ⟨_, List.mem_append_right _ (List.mem_map_of_mem htpeer), rfl⟩, hkept⟩
    · rcases List.mem_append.1 ho with ho | ho
      · obtain ⟨hd, hs⟩ := howed o ho
        exact ⟨hd, hs.imp (hadd.holds hd) (List.mem_append_left _)⟩
      · obtain ⟨t, ht, rfl⟩ := List.mem_map.1 ho
        have hp := Option.mem_toList.1 ht
        have hcall := hreach t hp
        refine ⟨H.digest b, ?_⟩
        cases hack : svc.acked { disk := disk, deliver := deliver } w.net (H.hex b) with
        | true =>
          rw [DistributedChunkService.acked, hp, Option.any_some, hcall, Bool.true_and] at hack
          obtain ⟨fault, hreaches, htakes⟩ := NodeClient.takes_of_acks (hw.sound t.id) hcall (hwhole.peers t) hack
          exact .inl ((svc.put_holds_iff hash64 _ b w.net t.id).2
            (.inr (.inr ⟨haccept, t, fault, hp, rfl, hreaches, htakes⟩)))
        | false =>
          exact .inr (List.mem_append_right _ (List.mem_map.2 ⟨t, List.mem_filter.2 ⟨ht, rfl⟩, rfl⟩))
  · -- a put that its own disk refuses leaves the queue alone
    obtain ⟨e, heq⟩ := svc.put_of_not_accepts hash64 haccept
    have hexec : exec H hash64 svc w (.put disk deliver b) =
        ⟨(svc.put H hash64 { disk := disk, deliver := deliver } w.net b).2, w.owed⟩ := by
      rw [exec, if_pos (svc.not_accepts_iff.1 haccept)]
    rw [hexec]
    refine ⟨hsound, hints, by rw [heq]; exact hc, fun x hx => ?_, fun o ho => ?_⟩
    · have hgx := hgood x hx
      exact ⟨hgx.plain, hgx.digest, hgx.callable, hgx.owed, hadd.holds hgx.digest hgx.kept⟩
    · obtain ⟨hd, hs⟩ := howed o ho
      exact ⟨hd, hs.imp_left (hadd.holds hd)⟩

/-- What a replay leaves in the queue. -/
theorem exec_replay (hh : svc.handoff = true) {w : World} (hw : Inv H svc w) {deliver : Nat → StorageNode → Delivery}
    (hs : Spared H svc w (.replay deliver)) :
    Inv H svc (exec H hash64 svc w (.replay deliver)) ∧ ((∀ i t, deliver i t = .fine) →
      HintedHandoffQueue.load ((exec H hash64 svc w (.replay deliver)).net.queues svc.me) = .ok [] ∧
      ∀ o ∈ w.owed, ((exec H hash64 svc w (.replay deliver)).net.stores o.1.id).Holds H o.2.checksum) := by
  obtain ⟨hints, hc, hgood, howed⟩ := hw.queue
  have hload := hc.load fun x hx => (hgood x hx).plain
  obtain ⟨delivered, remaining, net', hr, h1, h2, h3, h4, -, h6, h7⟩ := replayLoop_spec deliver hs 0 0 [] hw.sound hgood
  have hsub : ∀ x ∈ remaining, x ∈ hints := fun x hx => (h4 x hx).resolve_left (by simp)
  have hexec : (exec H hash64 svc w (.replay deliver)).net = net'.setQueue svc.me
    (some (remaining.flatMap HintedHandoffQueue.row)) := by
    show (svc.replay_hinted_handoff H deliver none w.net).2 = _
    unfold DistributedChunkService.replay_hinted_handoff
    rw [if_pos hh, hload]
    simp only [hr]
    rfl
  have hgood' : ∀ x ∈ remaining, Good H svc (exec H hash64 svc w (.replay deliver)).net w.owed x := by
    intro x hx
    have hgx := hgood x (hsub x hx)
    rw [hexec]
    exact ⟨hgx.plain, hgx.digest, hgx.callable, hgx.owed, h3 _ _ hgx.digest hgx.kept⟩
  have hsettled : ∀ o ∈ w.owed, Digest o.2.checksum ∧
      Settled H (exec H hash64 svc w (.replay deliver)).net remaining o := by
    intro o ho
    obtain ⟨hd, hs⟩ := howed o ho
    refine ⟨hd, ?_⟩
    rw [hexec]
    rcases hs with hs | hs
    · exact .inl (h3 _ _ hd hs)
    · exact (h6 _ hs).symm
  refine ⟨⟨by rw [hexec]; exact h1, remaining, by rw [hexec, Net.setQueue_self]; rfl, hgood', hsettled⟩, fun hfine => ?_⟩
  have hnil := h7 hfine
  refine ⟨by rw [hexec, Net.setQueue_self, hnil]; rfl, fun o ho => ?_⟩
  exact (hsettled o ho).2.resolve_right (by rw [hnil]; simp)

end Service

theorem missedPut_spared : Run.Legal (Spared Sha256.hexHash DistributedChunkService.trioA)
    (exec Sha256.hexHash sixthByte DistributedChunkService.trioA) ⟨freshNet, []⟩
    [.put none DistributedChunkService.missedByC.deliver (lit "abc")] := by
  refine ⟨⟨by decide, rfl, fun t => ?_⟩, trivial⟩
  show (if t.id = lit "node-c" then Delivery.refused else .fine).cuts _ = false
  split <;> rfl

/-- Node A of three puts a chunk while node C is down. -/
def missedPut : Run (Guarded (Spared Sha256.hexHash DistributedChunkService.trioA)
    fun w c w' => w' = exec Sha256.hexHash sixthByte DistributedChunkService.trioA w c) ⟨freshNet, []⟩ :=
  Run.ofEvents _ _ _ missedPut_spared

/-- Node A, told of a node C whose address has no port after its colon. -/
def portless : DistributedChunkService :=
  { DistributedChunkService.trioA with seed_members := [.of (lit "node-c") (lit "node-c:")] }

/-- The state after one put. -/
def afterPut (svc : DistributedChunkService) (deliver : StorageNode → Delivery) : World :=
  exec Sha256.hexHash sixthByte svc ⟨freshNet, []⟩ (.put none deliver (lit "abc"))

theorem not_remembered {svc : DistributedChunkService} {w : World} {o : StorageNode × ChunkRef} (ho : o ∈ w.owed)
    (hqueue : HintedHandoffQueue.load (w.net.queues svc.me) = .ok [])
    (hnot : ¬ (w.net.stores o.1.id).Holds Sha256.hexHash o.2.checksum) : ¬ Remembered Sha256.hexHash svc w := by
  rintro ⟨hints, hload, hall⟩
  obtain rfl := Except.ok.inj (hload.symm.trans hqueue)
  rcases hall o ho with hholds | hhint
  · exact hnot hholds
  · cases hhint

theorem portless_put : (nodeC.val.id, Sha256.hex (lit "abc")) ∈
      (afterPut portless fun _ => .fine).owed.map (fun o => (o.1.id, o.2.checksum)) ∧
    HintedHandoffQueue.load ((afterPut portless fun _ => .fine).net.queues portless.me) = .ok [] ∧
    ((afterPut portless fun _ => .fine).net.stores nodeC.val.id).file (Sha256.hex (lit "abc")) = none := by
  rw [afterPut, Sha256.hexHash_eq, Sha256.hex_eq]
  decide +kernel

theorem full_disk_put : (nodeC.val.id, Sha256.hex (lit "abc")) ∈ (afterPut DistributedChunkService.trioA fun _ =>
      .handled (some (.cannotFlush 2)) true).owed.map (fun o => (o.1.id, o.2.checksum)) ∧
    HintedHandoffQueue.load ((afterPut DistributedChunkService.trioA fun _ =>
      .handled (some (.cannotFlush 2)) true).net.queues DistributedChunkService.trioA.me) = .ok [] ∧
    ((afterPut DistributedChunkService.trioA fun _ => .handled (some (.cannotFlush 2)) true).net.stores
      nodeC.val.id).file (Sha256.hex (lit "abc")) = some (lit "ab") := by
  rw [afterPut, Sha256.hexHash_eq, Sha256.hex_eq]
  decide +kernel

end Dstore.Handoff
