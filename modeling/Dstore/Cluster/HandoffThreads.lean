import Dstore.Cluster.Handoff
/-!
# Puts and replays at the same time

`HintedHandoffQueue` locks each of its operations, but a replay is a load, one
send for each hint and a rewrite, and the lock is free in between. A `Thread` is
a `put` or a `replay_hinted_handoff` between two of its steps, and a step is one
call to the store, to a peer or to the queue; the threads take steps in any
order. A thread that runs alone does what the call does (`run_put`,
`run_replay`).
-/
open Dstore.Lib

namespace Dstore.HandoffRace

/-- A call between two steps. -/
inductive Thread where
  | putStart (bytes : Bytes)
  | putLocal (bytes : Bytes)
  | putPlan (local_ref : ChunkRef) (bytes : Bytes)
  /-- These targets are left. -/
  | putSend (local_ref : ChunkRef) (bytes : Bytes) (targets : List StorageNode) (acknowledgements : Int)
  /-- The put to `node` has failed. -/
  | putNote (node : StorageNode) (local_ref : ChunkRef) (bytes : Bytes) (targets : List StorageNode)
      (acknowledgements : Int)
  | putDone (result : Outcome ChunkRef)
  | replayStart
  /-- Of the hints loaded these are left and those remain. -/
  | replayRead (loaded rest : List HandoffHint) (delivered : Int) (remaining : List HandoffHint)
  /-- The bytes for `hint` have been read. -/
  | replaySend (hint : HandoffHint) (bytes : Bytes) (loaded rest : List HandoffHint) (delivered : Int)
      (remaining : List HandoffHint)
  | replayDone (result : Outcome Int)

/-- What the outside does to one step. -/
structure Fate where
  disk : Option DiskFault := none
  delivery : Delivery := .fine
  queue : Option HintedHandoffQueue.Fault := none

section Steps
variable (H : HexHash) (hash64 : Str → Nat) (svc : DistributedChunkService)

namespace Thread

/-- The node a hint is for, as a replay calls it. -/
def targetOf (hint : HandoffHint) : StorageNode := ⟨hint.target_node_id, hint.target_address, true⟩

def step (fate : Fate) : Thread → Net → Thread × Net
  | .putStart bytes, net => (.putLocal bytes, svc.refresh_seed_members net)
  | .putLocal bytes, net =>
    match (net.stores svc.me).put H fate.disk bytes with
    | (.error status, store) => (.putDone (.error (.status status)), net.setStore svc.me store)
    | (.ok local_ref, store) => (.putPlan local_ref bytes, net.setStore svc.me store)
  | .putPlan local_ref bytes, net =>
    let plan := (net.views svc.me).write_plan hash64 local_ref.checksum svc.replication_factor svc.write_quorum
    (.putSend local_ref bytes plan.targets 1, net)
  | .putSend local_ref bytes (node :: rest) acknowledgements, net =>
    if svc.is_self node then (.putSend local_ref bytes rest acknowledgements, net)
    else
      match NodeClient.put_chunk H fate.delivery net node local_ref bytes with
      | (.ok (), net) => (.putSend local_ref bytes rest (acknowledgements + 1), net)
      | (.error .exception, net) => (.putDone (.error .exception), net)
      | (.error (.status _), net) =>
        (if svc.handoff then .putNote node local_ref bytes rest acknowledgements
          else .putSend local_ref bytes rest acknowledgements, net)
  | .putSend local_ref _ [] acknowledgements, net =>
    (.putDone (if acknowledgements < svc.write_quorum then .error (.status (.Unavailable (lit "quorum write failed")))
      else .ok local_ref), net)
  | .putNote node local_ref bytes rest acknowledgements, net =>
    (.putSend local_ref bytes rest acknowledgements,
      net.setQueue svc.me (HintedHandoffQueue.enqueue (net.queues svc.me) fate.queue node local_ref).2)
  | .putDone result, net => (.putDone result, net)
  | .replayStart, net =>
    if svc.handoff then
      match HintedHandoffQueue.load (net.queues svc.me) with
      | .error status => (.replayDone (.error (.status status)), net)
      | .ok loaded => (.replayRead loaded loaded 0 [], net)
    else (.replayDone (.ok 0), net)
  | .replayRead loaded (hint :: rest) delivered remaining, net =>
    let (found, store) := (net.stores svc.me).get H hint.checksum
    let net := net.setStore svc.me store
    match found with
    | .error _ => (.replayRead loaded rest delivered (remaining ++ [hint]), net)
    | .ok bytes => (.replaySend hint bytes loaded rest delivered remaining, net)
  | .replayRead _ [] delivered remaining, net =>
    match HintedHandoffQueue.replace (net.queues svc.me) fate.queue remaining with
    | (.error status, file) => (.replayDone (.error (.status status)), net.setQueue svc.me file)
    | (.ok (), file) => (.replayDone (.ok delivered), net.setQueue svc.me file)
  | .replaySend hint bytes loaded rest delivered remaining, net =>
    match NodeClient.put_chunk H fate.delivery net (targetOf hint) ⟨hint.checksum, hint.size⟩ bytes with
    | (.ok (), net) => (.replayRead loaded rest (delivered + 1) remaining, net)
    | (.error .exception, net) => (.replayDone (.error .exception), net)
    | (.error (.status _), net) => (.replayRead loaded rest delivered (remaining ++ [hint]), net)
  | .replayDone result, net => (.replayDone result, net)

/-- The hint whose enqueue returns ok in the step. -/
def accepts (fate : Fate) (net : Net) : Thread → List HandoffHint
  | .putNote node local_ref _ _ _ =>
    if Result.isOk (HintedHandoffQueue.enqueue (net.queues svc.me) fate.queue node local_ref).1
    then [Handoff.hintFor node local_ref] else []
  | _ => []

/-- The hint that the step delivers. -/
def delivers (fate : Fate) (net : Net) : Thread → List HandoffHint
  | .replaySend hint bytes _ _ _ _ =>
    if (NodeClient.put_chunk H fate.delivery net (targetOf hint) ⟨hint.checksum, hint.size⟩ bytes).1.isOk
    then [hint] else []
  | _ => []

/-- The list a replay in progress has loaded and not yet written back. -/
def loaded : Thread → List HandoffHint
  | .replayRead loaded _ _ _ | .replaySend _ _ loaded _ _ _ => loaded
  | _ => []

/-! ## A thread that runs alone -/

def run : List Fate → Thread → Net → Thread × Net
  | [], th, net => (th, net)
  | fate :: fates, th, net => run fates (th.step H hash64 svc fate net).1 (th.step H hash64 svc fate net).2

variable {H hash64 svc}

theorem run_cons {fate : Fate} {fates : List Fate} {th th' : Thread} {net net' : Net}
    (h : th.step H hash64 svc fate net = (th', net')) :
    run H hash64 svc (fate :: fates) th net = run H hash64 svc fates th' net' := by
  rw [run, h]

theorem run_append (fates fates' : List Fate) (th : Thread) (net : Net) :
    run H hash64 svc (fates ++ fates') th net =
      run H hash64 svc fates' (run H hash64 svc fates th net).1 (run H hash64 svc fates th net).2 := by
  induction fates generalizing th net with
  | nil => rfl
  | cons fate fates ih => exact ih _ _

/-- The loop of `put`, up to the count or the exception that ends it. -/
theorem run_putSend (cond : Conditions) (ref : ChunkRef) (bytes : Bytes) (targets : List StorageNode) (acks : Int)
    (net : Net) :
    ∃ fates, run H hash64 svc fates (.putSend ref bytes targets acks) net =
      ((svc.replicate H cond ref bytes targets acks net).1.elim (.putDone (.error .exception)) (.putSend ref bytes []),
        (svc.replicate H cond ref bytes targets acks net).2) := by
  induction targets generalizing acks net with
  | nil => exact ⟨[], rfl⟩
  | cons node rest ih =>
    rw [DistributedChunkService.replicate]
    cases hself : svc.is_self node with
    | true =>
      obtain ⟨fates, hrun⟩ := ih acks net
      exact ⟨{} :: fates, (run_cons (by simp only [step, hself, if_true])).trans hrun⟩
    | false =>
      simp only [Bool.false_eq_true, if_false]
      rcases hcall : NodeClient.put_chunk H (cond.deliver node) net node ref bytes with ⟨(status | -) | u, net'⟩
      · cases hh : svc.handoff with
        | false =>
          obtain ⟨fates, hrun⟩ := ih acks net'
          refine ⟨{ delivery := cond.deliver node } :: fates, (run_cons ?_).trans hrun⟩
          simp only [step, hself, Bool.false_eq_true, if_false, hcall, hh]
        | true =>
          -- the failed call and the note are two steps
          obtain ⟨fates, hrun⟩ := ih acks
            (net'.setQueue svc.me (HintedHandoffQueue.enqueue (net'.queues svc.me) cond.queue node ref).2)
          have hnote : run H hash64 svc ({ queue := cond.queue } :: fates) (.putNote node ref bytes rest acks) net' = _ := hrun
          refine ⟨{ delivery := cond.deliver node } :: { queue := cond.queue } :: fates, (run_cons ?_).trans hnote⟩
          simp only [step, hself, Bool.false_eq_true, if_false, hcall, hh, if_true]
      · refine ⟨[{ delivery := cond.deliver node }], (run_cons ?_).trans rfl⟩
        simp only [step, hself, Bool.false_eq_true, if_false, hcall]
        rfl
      · obtain ⟨fates, hrun⟩ := ih (acks + 1) net'
        refine ⟨{ delivery := cond.deliver node } :: fates, (run_cons ?_).trans hrun⟩
        simp only [step, hself, Bool.false_eq_true, if_false, hcall]

/-- A put that runs alone does what `put` does. -/
theorem run_put (cond : Conditions) (net : Net) (bytes : Bytes) :
    ∃ fates, run H hash64 svc fates (.putStart bytes) net =
      (.putDone (svc.put H hash64 cond net bytes).1, (svc.put H hash64 cond net bytes).2) := by
  unfold DistributedChunkService.put
  generalize hnet : svc.refresh_seed_members net = net0
  simp only
  rcases hput : (net0.stores svc.me).put H cond.disk bytes with ⟨r, store⟩
  have hstart : ∀ fates, run H hash64 svc ({} :: { disk := cond.disk } :: fates) (.putStart bytes) net =
      run H hash64 svc fates (step H hash64 svc { disk := cond.disk } (.putLocal bytes) net0).1
        (step H hash64 svc { disk := cond.disk } (.putLocal bytes) net0).2 := by
    intro fates
    rw [← hnet]
    rfl
  cases r with
  | error status =>
    refine ⟨[{}, { disk := cond.disk }], ?_⟩
    rw [hstart, step, hput]
    rfl
  | ok ref =>
    generalize hplan : ((net0.setStore svc.me store).views svc.me).write_plan hash64 ref.checksum svc.replication_factor
      svc.write_quorum = plan
    obtain ⟨fates, hrun⟩ : ∃ fates, run H hash64 svc fates (.putSend ref bytes plan.targets 1)
      (net0.setStore svc.me store) = _ :=
      run_putSend cond ref bytes plan.targets 1 (net0.setStore svc.me store)
    rcases hcall : svc.replicate H cond ref bytes plan.targets 1 (net0.setStore svc.me store) with ⟨- | acks, net'⟩
    · rw [hcall] at hrun
      refine ⟨{} :: { disk := cond.disk } :: {} :: fates, ?_⟩
      rw [hstart, step, hput]
      simp only [run, step, hplan, hrun, hcall]
      rfl
    · rw [hcall] at hrun
      refine ⟨{} :: { disk := cond.disk } :: {} :: (fates ++ [({} : Fate)]), ?_⟩
      rw [hstart, step, hput]
      simp only [run, step, hplan, run_append, hrun, hcall]
      dsimp only [Option.elim_some]
      split <;> rfl

/-- The loop of `replay_hinted_handoff`, to its end or to an exception. -/
theorem run_replayRead (deliver : Nat → StorageNode → Delivery) (loaded hints : List HandoffHint) (i : Nat) (delivered : Int)
    (remaining : List HandoffHint) (net : Net) :
    ∃ fates, run H hash64 svc fates (.replayRead loaded hints delivered remaining) net =
      ((svc.replayLoop H deliver hints i delivered remaining net).1.elim (.replayDone (.error .exception))
          fun p => .replayRead loaded [] p.1 p.2,
        (svc.replayLoop H deliver hints i delivered remaining net).2) := by
  induction hints generalizing i delivered remaining net with
  | nil => exact ⟨[], rfl⟩
  | cons hint rest ih =>
    rw [DistributedChunkService.replayLoop]
    rcases hget : (net.stores svc.me).get H hint.checksum with ⟨found, store⟩
    cases found with
    | error status =>
      obtain ⟨fates, hrun⟩ := ih i delivered (remaining ++ [hint]) (net.setStore svc.me store)
      exact ⟨{} :: fates, (run_cons (by simp only [step, hget])).trans hrun⟩
    | ok bytes =>
      simp only
      have hread : step H hash64 svc {} (.replayRead loaded (hint :: rest) delivered remaining) net =
          (.replaySend hint bytes loaded rest delivered remaining, net.setStore svc.me store) := by
        simp only [step, hget]
      rcases hcall : NodeClient.put_chunk H (deliver i ⟨hint.target_node_id, hint.target_address, true⟩)
        (net.setStore svc.me store) ⟨hint.target_node_id, hint.target_address, true⟩ ⟨hint.checksum, hint.size⟩ bytes with
        ⟨(status | -) | u, net'⟩
      · obtain ⟨fates, hrun⟩ := ih (i + 1) delivered (remaining ++ [hint]) net'
        refine ⟨{} :: { delivery := deliver i (targetOf hint) } :: fates, (run_cons hread).trans ((run_cons ?_).trans hrun)⟩
        simp only [step, targetOf, hcall]
      · refine ⟨[{}, { delivery := deliver i (targetOf hint) }], (run_cons hread).trans ((run_cons ?_).trans rfl)⟩
        simp only [step, targetOf, hcall]
        rfl
      · obtain ⟨fates, hrun⟩ := ih (i + 1) (delivered + 1) remaining net'
        refine ⟨{} :: { delivery := deliver i (targetOf hint) } :: fates, (run_cons hread).trans ((run_cons ?_).trans hrun)⟩
        simp only [step, targetOf, hcall]

/-- A replay that runs alone does what `replay_hinted_handoff` does. -/
theorem run_replay (deliver : Nat → StorageNode → Delivery) (fault : Option HintedHandoffQueue.Fault) (net : Net) :
    ∃ fates, run H hash64 svc fates .replayStart net =
      (.replayDone (svc.replay_hinted_handoff H deliver fault net).1,
        (svc.replay_hinted_handoff H deliver fault net).2) := by
  unfold DistributedChunkService.replay_hinted_handoff
  cases hh : svc.handoff with
  | false => exact ⟨[{}], by simp [run, step, hh]⟩
  | true =>
    simp only [if_true]
    cases hload : HintedHandoffQueue.load (net.queues svc.me) with
    | error status => exact ⟨[{}], by simp [run, step, hh, hload]⟩
    | ok loaded =>
      obtain ⟨fates, hrun⟩ : ∃ fates, run H hash64 svc fates (.replayRead loaded loaded 0 []) net = _ :=
        run_replayRead deliver loaded loaded 0 0 [] net
      simp only
      generalize svc.replayLoop H deliver loaded 0 0 [] net = looped at hrun ⊢
      have hstart : step H hash64 svc {} .replayStart net = (.replayRead loaded loaded 0 [], net) := by
        simp only [step, hh, if_true, hload]
      refine ⟨{} :: (fates ++ [{ queue := fault }]), (run_cons hstart).trans ?_⟩
      rw [run_append, hrun]
      obtain ⟨- | ⟨delivered, remaining⟩, net'⟩ := looped
      · rfl
      · simp only [run, step, Option.elim_some]
        rcases HintedHandoffQueue.replace (net'.queues svc.me) fault remaining with ⟨r, file⟩
        cases r with
        | error status => rfl
        | ok u => rfl

end Thread

/-! ## All threads -/

/-- The cluster, the calls that were made, and two lists that are kept only for
the record: the hints whose enqueue returned ok, and those a replay delivered. -/
structure World where
  net : Net
  threads : List Thread := []
  accepted : List HandoffHint := []
  delivered : List HandoffHint := []

inductive Event where
  | put (bytes : Bytes)
  | replay
  /-- Time passes. -/
  | tick (now : Nat)
  /-- Thread `i` takes its next step. -/
  | step (i : Nat) (fate : Fate)

def exec (w : World) : Event → World
  | .put bytes => { w with threads := w.threads ++ [.putStart bytes] }
  | .replay => { w with threads := w.threads ++ [.replayStart] }
  | .tick now => { w with net := { w.net with clock := now } }
  | .step i fate =>
    match w.threads[i]? with
    | none => w
    | some th =>
      let (th', net) := th.step H hash64 svc fate w.net
      ⟨net, w.threads.set i th', w.accepted ++ th.accepts svc fate w.net, w.delivered ++ th.delivers H fate w.net⟩

/-- The hint is in the queue file. -/
def InFile (net : Net) (h : HandoffHint) : Prop :=
  ∃ hints, HintedHandoffQueue.load (net.queues svc.me) = .ok hints ∧ h ∈ hints

/-- A replay other than thread `i` has the hint. -/
def HeldBeside (w : World) (i : Nat) (h : HandoffHint) : Prop :=
  ∃ j th, j ≠ i ∧ w.threads[j]? = some th ∧ h ∈ th.loaded

/-- Every accepted hint is in the file, delivered, or loaded by a replay in
progress. -/
def Kept (w : World) : Prop :=
  ∀ h ∈ w.accepted, InFile svc w.net h ∨ h ∈ w.delivered ∨ ∃ th ∈ w.threads, h ∈ th.loaded

/-- The file takes the whole text, or none of it and the caller is told. -/
def WholeRow (text : Str) : Option HintedHandoffQueue.Fault → Prop
  | none | some .cannotOpen => True
  | some (.cannotAppend n) => n = 0 ∨ text.length ≤ n
  | some (.cannotFlush n) => text.length ≤ n

/-- What a rewrite by thread `i` takes out of the file: what the replay has
loaded, what is delivered, and what another replay has. -/
def Covers (w : World) (i : Nat) (loaded : List HandoffHint) : Prop :=
  ∀ h ∈ w.accepted, InFile svc w.net h → h ∈ loaded ∨ h ∈ w.delivered ∨ HeldBeside w i h

/-- What a replay that ends without a rewrite lets go of. -/
def LetsGo (w : World) (i : Nat) (loaded : List HandoffHint) : Prop :=
  ∀ h ∈ w.accepted, h ∈ loaded → InFile svc w.net h ∨ h ∈ w.delivered ∨ HeldBeside w i h

/-- A rewrite is not cut short and takes out only what it covers. One that
cannot open the file lets go of what the replay has loaded instead. -/
def SafeRewrite (w : World) (i : Nat) (loaded remaining : List HandoffHint) : Option HintedHandoffQueue.Fault → Prop
  | none => Covers svc w i loaded
  | some (.cannotAppend n) | some (.cannotFlush n) =>
    (remaining.flatMap HintedHandoffQueue.row).length ≤ n ∧ Covers svc w i loaded
  | some .cannotOpen => LetsGo svc w i loaded

/-- Plain names in a note, no write of the queue file cut short, and safe
rewrites; a replay that meets an address that throws ends without one. -/
def SafeStep (w : World) (i : Nat) (fate : Fate) : Thread → Prop
  | .putNote node local_ref _ _ _ =>
    Handoff.PlainNode node ∧ WholeRow (HintedHandoffQueue.row (Handoff.hintFor node local_ref)) fate.queue
  | .replayRead loaded [] _ remaining => SafeRewrite svc w i loaded remaining fate.queue
  | .replaySend hint _ loaded _ _ _ => NodeClient.callable (Thread.targetOf hint) = true ∨ LetsGo svc w i loaded
  | _ => True

def Safe (w : World) : Event → Prop
  | .step i fate => ∀ th ∈ w.threads[i]?, SafeStep svc w i fate th
  | _ => True

instance (net : Net) (h : HandoffHint) : Decidable (InFile svc net h) :=
  match hload : HintedHandoffQueue.load (net.queues svc.me) with
  | .ok hints => decidable_of_iff (h ∈ hints) (by simp [InFile, hload])
  | .error status => isFalse (by simp [InFile, hload])

instance (w : World) (i : Nat) (h : HandoffHint) : Decidable (HeldBeside w i h) :=
  decidable_of_iff (∃ j < w.threads.length, j ≠ i ∧ ∃ th ∈ w.threads[j]?, h ∈ th.loaded) (by
    constructor
    · rintro ⟨j, -, hj, th, hth, hh⟩
      exact ⟨j, th, hj, hth, hh⟩
    · rintro ⟨j, th, hj, hth, hh⟩
      exact ⟨j, (List.getElem?_eq_some_iff.1 hth).1, hj, th, hth, hh⟩)

instance (w : World) (i : Nat) (loaded : List HandoffHint) : Decidable (Covers svc w i loaded) :=
  inferInstanceAs (Decidable (∀ h ∈ w.accepted, InFile svc w.net h → h ∈ loaded ∨ h ∈ w.delivered ∨ HeldBeside w i h))

instance (w : World) (i : Nat) (loaded : List HandoffHint) : Decidable (LetsGo svc w i loaded) :=
  inferInstanceAs (Decidable (∀ h ∈ w.accepted, h ∈ loaded → InFile svc w.net h ∨ h ∈ w.delivered ∨ HeldBeside w i h))

instance (text : Str) : ∀ fault, Decidable (WholeRow text fault)
  | none | some .cannotOpen => isTrue trivial
  | some (.cannotAppend n) => inferInstanceAs (Decidable (n = 0 ∨ text.length ≤ n))
  | some (.cannotFlush n) => inferInstanceAs (Decidable (text.length ≤ n))

instance (w : World) (i : Nat) (loaded remaining : List HandoffHint) :
    ∀ fault, Decidable (SafeRewrite svc w i loaded remaining fault)
  | none => inferInstanceAs (Decidable (Covers svc w i loaded))
  | some (.cannotAppend n) | some (.cannotFlush n) => inferInstanceAs (Decidable
      ((remaining.flatMap HintedHandoffQueue.row).length ≤ n ∧ Covers svc w i loaded))
  | some .cannotOpen => inferInstanceAs (Decidable (LetsGo svc w i loaded))

instance (w : World) (i : Nat) (fate : Fate) : ∀ th, Decidable (SafeStep svc w i fate th)
  | .putNote node local_ref _ _ _ => inferInstanceAs (Decidable (Handoff.PlainNode node ∧
      WholeRow (HintedHandoffQueue.row (Handoff.hintFor node local_ref)) fate.queue))
  | .replayRead loaded [] _ remaining => inferInstanceAs (Decidable (SafeRewrite svc w i loaded remaining fate.queue))
  | .replaySend hint _ loaded _ _ _ => inferInstanceAs (Decidable
      (NodeClient.callable (Thread.targetOf hint) = true ∨ LetsGo svc w i loaded))
  | .replayRead _ (_ :: _) _ _ | .putStart _ | .putLocal _ | .putPlan _ _ | .putSend _ _ _ _ | .putDone _ | .replayStart
  | .replayDone _ => isTrue trivial

instance (w : World) : ∀ e, Decidable (Safe svc w e)
  | .put _ | .replay | .tick _ => isTrue trivial
  | .step i fate => inferInstanceAs (Decidable (∀ th ∈ w.threads[i]?, SafeStep svc w i fate th))

end Steps

end Dstore.HandoffRace
