import Dstore.Cluster.WriteCalls
import Dstore.Lib.Runs
import Dstore.Server.Routes
import Dstore.Storage.Health
/-!
# Who was heard of

`last_seen` is set by a heartbeat that comes in, by a round of the
`HeartbeatWorker` for a peer that answers, and by every operation of the chunk
service, which begins with `refresh_seed_members`. The last one is no contact
at all. Of all these heartbeats the state keeps the last one, so an operation
leaves the last configured peer there, as seen just now, and a report is earned
only while no operation refreshes a peer that has just not been heard of
(`reports_earned_iff`).

The events of a run are the single chunk operations, heartbeats and calls of
the worker; a request is such a run (`putObject_run`, `getObject_run`,
`deleteObject_run`), and time passes between any two of them.
-/
open Dstore.Lib

namespace Dstore

namespace DistributedChunkService

variable (svc : DistributedChunkService)

/-- The view after a refresh. -/
theorem views_refresh (net : Net) : (svc.refresh_seed_members net).views svc.me =
    ((net.views svc.me).heartbeat net.clock svc.self).heartbeats net.clock svc.seed_members := by
  rw [refresh_seed_members, Net.setView_self]

/-- A remove of an unreferenced chunk refreshes. -/
theorem remove_refreshes (hash64 : Str → Nat) (disk : Option DiskFault) (deliver : StorageNode → Delivery)
    (net : Net) (c : Str)
    {references : Int} (h : references ≤ 0) :
    (svc.remove hash64 disk deliver net c references).2.views = (svc.refresh_seed_members net).views ∧
      (svc.remove hash64 disk deliver net c references).2.clock = net.clock := by
  rw [(svc.remove_unreferenced hash64 disk deliver c h net).1, targets_eq]
  split
  · rcases (svc.removeLoop_one disk deliver c svc.latest (svc.refresh_seed_members net)).1 with heq | ⟨fault, heq⟩
    · rw [heq]
      exact ⟨rfl, rfl⟩
    · rw [heq]
      exact ⟨rfl, rfl⟩
  · exact ⟨rfl, rfl⟩

end DistributedChunkService

/-! ## Runs of a node -/

/-- A cluster, and the contacts its node had with other ones, by id and time. -/
structure Watch where
  net : Net
  contacts : List (Str × Nat) := []

/-- What happens at a node. A call of the heartbeat worker is answered or not. -/
inductive NodeEvent where
  | tick (duration : Nat)
  | put (cond : Conditions) (bytes : Bytes)
  | get (reads repairs : StorageNode → Delivery) (checksum : Str)
  | remove (disk : Option DiskFault) (deliver : StorageNode → Delivery) (checksum : Str) (references : Int)
  | incoming (node_id : Str)
  | ping (peer : LiveNode) (answered : Bool)

/-- The operations that begin with `refresh_seed_members`. -/
def NodeEvent.Refreshes : NodeEvent → Prop
  | .put .. | .get .. => True
  | .remove _ _ _ references => references ≤ 0
  | .tick _ | .incoming _ | .ping .. => False

namespace Server

variable (H : HexHash) (hash64 : Str → Nat) (srv : Server)

/-- A heartbeat that is a contact. -/
def contact (m : Watch) (node : LiveNode) : Watch :=
  ⟨m.net.setView srv.me ((m.net.views srv.me).heartbeat m.net.clock node), (node.val.id, m.net.clock) :: m.contacts⟩

def watchStep (m : Watch) : NodeEvent → Watch
  | .tick duration => { m with net := { m.net with clock := m.net.clock + duration } }
  | .put cond bytes => { m with net := (srv.chunks.put H hash64 cond m.net bytes).2 }
  | .get reads repairs checksum => { m with net := (srv.chunks.get H hash64 reads repairs m.net checksum).2 }
  | .remove disk deliver checksum references =>
    { m with net := (srv.chunks.remove hash64 disk deliver m.net checksum references).2 }
  | .incoming node_id => srv.contact m (.of node_id (srv.peerAddress node_id))
  | .ping peer answered => if answered then srv.contact m peer else m

/-- A node that has just started. -/
def watchStart (layout : Layout (Str × NodeState)) (net : Net) : Watch :=
  ⟨net.setView srv.me (srv.chunks.boot layout net.clock), []⟩

/-- A peer that is reported as healthy, or as the leader, with a timeout that is
shorter than the node has run, was in contact within that time. -/
def Earned (start : Nat) (m : Watch) : Prop :=
  ∀ timeout : Int, start + timeout * 10 ^ 9 < m.net.clock → ∀ peer : StorageNode, peer.id ≠ srv.me →
    peer ∈ (m.net.views srv.me).healthy_nodes m.net.clock timeout ∨
        (m.net.views srv.me).elect_leader m.net.clock timeout = .ok peer →
      ∃ t, (peer.id, t) ∈ m.contacts ∧ t ≤ m.net.clock ∧ (m.net.clock : Int) - t ≤ timeout * 10 ^ 9

/-- Nothing is refreshed after the start but the node itself, or a peer that is
in contact right then. -/
def Timely (start : Nat) (m : Watch) (e : NodeEvent) : Prop :=
  e.Refreshes → m.net.clock = start ∨ srv.chunks.latest.id = srv.me ∨ (srv.chunks.latest.id, m.net.clock) ∈ m.contacts

variable {srv} {start : Nat} {m : Watch}

/-! ## Steps -/

/-- What an event does to the view and the contacts. -/
theorem watchStep_cases (srv : Server) (m : Watch) (e : NodeEvent) :
    (e.Refreshes ∧ (watchStep H hash64 srv m e).contacts = m.contacts ∧
        (watchStep H hash64 srv m e).net.clock = m.net.clock ∧
        (watchStep H hash64 srv m e).net.views srv.me =
          ((m.net.views srv.me).heartbeat m.net.clock srv.chunks.self).heartbeats m.net.clock srv.chunks.seed_members) ∨
      (∃ node : LiveNode, ¬ e.Refreshes ∧ watchStep H hash64 srv m e = srv.contact m node) ∨
      (¬ e.Refreshes ∧ (watchStep H hash64 srv m e).contacts = m.contacts ∧
        m.net.clock ≤ (watchStep H hash64 srv m e).net.clock ∧
        (watchStep H hash64 srv m e).net.views = m.net.views) := by
  have hrefresh : ∀ {net' : Net}, net'.views = (srv.chunks.refresh_seed_members m.net).views → net'.views srv.me =
      ((m.net.views srv.me).heartbeat m.net.clock srv.chunks.self).heartbeats m.net.clock srv.chunks.seed_members :=
    fun hviews => (congrFun hviews srv.me).trans (srv.chunks.views_refresh m.net)
  cases e with
  | tick duration => exact .inr (.inr ⟨id, rfl, Nat.le_add_right _ _, rfl⟩)
  | put cond bytes =>
    obtain ⟨-, hviews, hclock⟩ := srv.chunks.put_adds (H := H) hash64 cond bytes m.net
    exact .inl ⟨trivial, rfl, hclock, hrefresh hviews⟩
  | get reads repairs checksum =>
    obtain ⟨hviews, -, hclock, -⟩ := srv.chunks.get_frame (H := H) hash64 reads repairs checksum m.net
    exact .inl ⟨trivial, rfl, hclock, hrefresh hviews⟩
  | remove disk deliver checksum references =>
    by_cases hr : references ≤ 0
    · obtain ⟨hviews, hclock⟩ := srv.chunks.remove_refreshes hash64 disk deliver m.net checksum hr
      exact .inl ⟨hr, rfl, hclock, hrefresh hviews⟩
    · have hnet := srv.chunks.remove_referenced hash64 disk deliver checksum (show references > 0 by omega) m.net
      refine .inr (.inr ⟨hr, rfl, ?_, ?_⟩)
      · rw [watchStep, hnet]
      · rw [watchStep, hnet]
  | incoming node_id => exact .inr (.inl ⟨_, id, rfl⟩)
  | ping peer answered =>
    cases answered with
    | true => exact .inr (.inl ⟨peer, id, rfl⟩)
    | false => exact .inr (.inr ⟨id, rfl, Nat.le_refl _, rfl⟩)

/-- Whoever was seen was in contact then, is the node itself, or was put there at the start. -/
structure Honest (srv : Server) (start : Nat) (m : Watch) : Prop where
  started : start ≤ m.net.clock
  seen : ∀ id t, (m.net.views srv.me).SeenAt id t →
    t ≤ m.net.clock ∧ (t = start ∨ id = srv.me ∨ (id, t) ∈ m.contacts)

theorem started_step (e : NodeEvent) (h : start ≤ m.net.clock) : start ≤ (watchStep H hash64 srv m e).net.clock := by
  rcases watchStep_cases H hash64 srv m e with ⟨-, -, hclock, -⟩ | ⟨node, -, heq⟩ | ⟨-, -, hclock, -⟩
  · rw [hclock]
    exact h
  · rw [heq]
    exact h
  · exact Nat.le_trans h hclock

theorem honest_start (layout : Layout (Str × NodeState)) (net : Net) : Honest srv net.clock (srv.watchStart layout net) := by
  refine ⟨Nat.le_refl _, fun id t hseen => ?_⟩
  rw [watchStart, Net.setView_self] at hseen
  obtain ⟨-, rfl⟩ := ClusterState.seenAt_heartbeats.1 hseen
  exact ⟨Nat.le_refl _, .inl rfl⟩

/-- A step that refreshes in time keeps the reports honest. -/
theorem Honest.step (h : Honest srv start m) {e : NodeEvent} (he : srv.Timely start m e) :
    Honest srv start (watchStep H hash64 srv m e) := by
  refine ⟨started_step H hash64 e h.started, ?_⟩
  rcases watchStep_cases H hash64 srv m e with
    ⟨hrefreshes, hcontacts, hclock, hview⟩ | ⟨node, -, heq⟩ | ⟨-, hcontacts, hclock, hviews⟩
  · rw [hcontacts, hclock, hview]
    intro id t hseen
    obtain ⟨rfl, rfl⟩ := ClusterState.seenAt_heartbeats.1 hseen
    exact ⟨Nat.le_refl _, he hrefreshes⟩
  · rw [heq, contact]
    simp only [Net.setView_self]
    intro id t hseen
    obtain ⟨rfl, rfl⟩ := ClusterState.seenAt_heartbeat.1 hseen
    exact ⟨Nat.le_refl _, .inr (.inr List.mem_cons_self)⟩
  · rw [hcontacts, hviews]
    intro id t hseen
    obtain ⟨hle, hor⟩ := h.seen id t hseen
    exact ⟨Nat.le_trans hle hclock, hor⟩

/-- Honest reports are earned. -/
theorem Honest.earned (h : Honest srv start m) : srv.Earned start m := by
  intro timeout hlate peer hpeer hreported
  have hhealthy : peer ∈ (m.net.views srv.me).healthy_nodes m.net.clock timeout :=
    hreported.elim id ClusterState.mem_of_elect_leader
  obtain ⟨t, hseen, hrecent⟩ := ClusterState.exists_mem_healthy_nodes.1 ⟨peer, hhealthy, rfl⟩
  obtain ⟨hle, hor⟩ := h.seen peer.id t hseen
  rcases hor with rfl | hme | hcontact
  · -- the start was too long ago
    omega
  · exact absurd hme hpeer
  · exact ⟨t, hcontact, hle, hrecent⟩

/-- A refresh without contact is reported at once. -/
theorem timely_of_earned {e : NodeEvent} (hstart : start ≤ m.net.clock)
    (h : srv.Earned start (watchStep H hash64 srv m e)) : srv.Timely start m e := by
  intro hrefreshes
  rcases watchStep_cases H hash64 srv m e with
    ⟨-, hcontacts, hclock, hview⟩ | ⟨node, hno, -⟩ | ⟨hno, -⟩
  · by_cases hnow : m.net.clock = start
    · exact .inl hnow
    by_cases hme : srv.chunks.latest.id = srv.me
    · exact .inr (.inl hme)
    have hseen : ((watchStep H hash64 srv m e).net.views srv.me).SeenAt srv.chunks.latest.id m.net.clock := by
      rw [hview]
      exact ClusterState.seenAt_heartbeats.2 ⟨rfl, rfl⟩
    obtain ⟨n, hn, hid⟩ : ∃ n ∈ ((watchStep H hash64 srv m e).net.views srv.me).healthy_nodes m.net.clock 0,
        n.id = srv.chunks.latest.id := ClusterState.exists_mem_healthy_nodes.2 ⟨m.net.clock, hseen, by omega⟩
    rw [← hclock] at hn
    obtain ⟨t, hcontact, hle, hrecent⟩ := h 0 (by omega) n (by rw [hid]; exact hme) (.inl hn)
    rw [hcontacts, hid] at hcontact
    rw [hclock] at hle hrecent
    obtain rfl : t = m.net.clock := by omega
    exact .inr (.inr hcontact)
  · exact absurd hrefreshes hno
  · exact absurd hrefreshes hno

/-- In a run, every report is earned at every moment exactly when every
operation on chunks comes at the moment of the start, or when the last
configured peer is in contact, or when that is the node itself. -/
theorem reports_earned_iff (H : HexHash) (hash64 : Str → Nat) (srv : Server) (layout : Layout (Str × NodeState)) (net : Net)
    (events : List NodeEvent) :
    (∀ n, srv.Earned net.clock (Run.stateAfter (watchStep H hash64 srv) (srv.watchStart layout net) events n)) ↔
      Run.Legal (srv.Timely net.clock) (watchStep H hash64 srv) (srv.watchStart layout net) events := by
  constructor
  · have hrun : ∀ m : Watch, net.clock ≤ m.net.clock →
        (∀ n, srv.Earned net.clock (Run.stateAfter (watchStep H hash64 srv) m events n)) →
          Run.Legal (srv.Timely net.clock) (watchStep H hash64 srv) m events := by
      induction events with
      | nil => exact fun _ _ _ => trivial
      | cons e events ih =>
        intro m hm h
        have hnext : srv.Earned net.clock (watchStep H hash64 srv m e) := by
          have h1 := h 1
          cases events with
          | nil => exact h1
          | cons e' events => exact h1
        exact ⟨timely_of_earned H hash64 hm hnext, ih _ (started_step H hash64 e hm) fun n => h (n + 1)⟩
    exact hrun _ (Nat.le_refl _)
  · intro h n
    have hhonest := (Run.ofEvents _ _ _ h).inv (Honest srv net.clock) (honest_start layout net)
      (fun m e m' hm ⟨htimely, heq⟩ => heq ▸ hm.step H hash64 htimely) n
    rw [Run.ofEvents_state] at hhonest
    exact hhonest.earned

/-- A read some time after the start. -/
theorem start_then_get (srv : Server) (layout : Layout (Str × NodeState)) (net : Net) (duration : Nat)
    (reads repairs : StorageNode → Delivery) (c : Str) :
    ∃ m : Watch, Run.stateAfter (watchStep H hash64 srv) (srv.watchStart layout net) [.tick duration, .get reads repairs c] 2 = m ∧
      m.net.clock = net.clock + duration ∧ m.contacts = [] ∧
      m.net.views srv.me = ((srv.chunks.boot layout net.clock).heartbeat (net.clock + duration) srv.chunks.self).heartbeats
        (net.clock + duration) srv.chunks.seed_members := by
  refine ⟨watchStep H hash64 srv (watchStep H hash64 srv (srv.watchStart layout net) (.tick duration))
    (.get reads repairs c),
    rfl, ?_⟩
  rcases watchStep_cases H hash64 srv (watchStep H hash64 srv (srv.watchStart layout net) (.tick duration))
    (.get reads repairs c)
    with ⟨-, hcontacts, hclock, hview⟩ | ⟨node, hno, -⟩ | ⟨hno, -⟩
  · refine ⟨hclock, hcontacts, hview.trans ?_⟩
    rw [watchStep, watchStart]
    simp only [Net.setView_self]
    rfl
  · exact absurd trivial hno
  · exact absurd trivial hno

/-- A node with a peer that it never hears of. -/
def lonely : Server :=
  ⟨0, { self := .of (lit "b") (lit "b:1"), replication_factor := 2, write_quorum := 2, read_quorum := 1,
        seed_members := [.of (lit "a") (lit "a:1")] }⟩

/-- Ten seconds after its start someone reads a chunk. -/
def lonelyRead : List NodeEvent := [.tick 10000000000, .get (fun _ => .refused) (fun _ => .refused) (lit "c")]

/-- The peer that was never heard of is then the leader of the last five seconds. -/
theorem silent_peer_leads :
    ((Run.stateAfter (watchStep Sha256.hexHash (fun _ => 0) lonely) (lonely.watchStart (Layout.newestFirst _) freshNet)
        lonelyRead 2).net.views lonely.me).elect_leader 10000000000 5 = .ok ⟨lit "a", lit "a:1", true⟩ ∧
      ¬ ∀ n, lonely.Earned 0 (Run.stateAfter (watchStep Sha256.hexHash (fun _ => 0) lonely)
        (lonely.watchStart (Layout.newestFirst _) freshNet) lonelyRead n) := by
  obtain ⟨m, hm, hclock, hcontacts, hview⟩ := start_then_get Sha256.hexHash (fun _ => 0) lonely
    (Layout.newestFirst _) freshNet
    10000000000 (fun _ => .refused) (fun _ => .refused) (lit "c")
  rw [show freshNet.clock = 0 from rfl, Nat.zero_add] at hclock hview
  have hleader : (m.net.views lonely.me).elect_leader 10000000000 5 = .ok ⟨lit "a", lit "a:1", true⟩ := by
    rw [hview]
    decide +kernel
  rw [lonelyRead, hm]
  refine ⟨hleader, fun h => ?_⟩
  have hearned := h 2
  rw [hm] at hearned
  obtain ⟨t, hcontact, -⟩ := hearned 5 (by omega) ⟨lit "a", lit "a:1", true⟩ (by decide)
    (.inr (by rw [hclock]; exact hleader))
  rw [hcontacts] at hcontact
  cases hcontact

/-! ## Requests are runs -/

section Requests

/-- The chunk operations of a request, one after the other. -/
def IsOperation : NodeEvent → Prop
  | .put .. | .get .. | .remove .. => True
  | .tick _ | .incoming _ | .ping .. => False

/-- From one net to another by chunk operations. -/
def RunsTo (srv : Server) (net net' : Net) : Prop :=
  ∃ events : List NodeEvent, (∀ e ∈ events, IsOperation e) ∧
    ∀ contacts, events.foldl (watchStep H hash64 srv) ⟨net, contacts⟩ = ⟨net', contacts⟩

theorem RunsTo.refl (net : Net) : RunsTo H hash64 srv net net := ⟨[], by simp, fun _ => rfl⟩

theorem RunsTo.cons {net net' net'' : Net} {e : NodeEvent} (he : IsOperation e)
    (hstep : ∀ contacts, watchStep H hash64 srv ⟨net, contacts⟩ e = ⟨net', contacts⟩)
    (h : RunsTo H hash64 srv net' net'') : RunsTo H hash64 srv net net'' := by
  obtain ⟨events, hops, hrun⟩ := h
  refine ⟨e :: events, List.forall_mem_cons.2 ⟨he, hops⟩, fun contacts => ?_⟩
  rw [List.foldl_cons, hstep, hrun]

theorem putParts_run (srv : Server) (cond : Nat → Conditions) (i : Nat) (parts : List Bytes) (refs : List ChunkRef)
    (net : Net) :
    RunsTo H hash64 srv net (srv.putParts H hash64 cond i parts refs net).2 := by
  induction parts generalizing i refs net with
  | nil => exact .refl H hash64 net
  | cons part parts ih =>
    have hstep : ∀ contacts, watchStep H hash64 srv ⟨net, contacts⟩ (.put (cond i) part) =
        ⟨(srv.chunks.put H hash64 (cond i) net part).2, contacts⟩ := fun _ => rfl
    rw [putParts]
    generalize srv.chunks.put H hash64 (cond i) net part = call at hstep
    obtain ⟨e | ref, net'⟩ := call
    · exact .cons H hash64 (by trivial) hstep (.refl H hash64 net')
    · exact .cons H hash64 (by trivial) hstep (ih _ _ net')

theorem getParts_run (srv : Server) (cond : GetConditions) (i : Nat) (refs : List ChunkRef) (out : Bytes) (net : Net) :
    RunsTo H hash64 srv net (srv.getParts H hash64 cond i refs out net).2 := by
  induction refs generalizing i out net with
  | nil => exact .refl H hash64 net
  | cons ref refs ih =>
    have hstep : ∀ contacts, watchStep H hash64 srv ⟨net, contacts⟩ (.get (cond.reads i) (cond.repairs i) ref.checksum) =
        ⟨(srv.chunks.get H hash64 (cond.reads i) (cond.repairs i) net ref.checksum).2, contacts⟩ := fun _ => rfl
    rw [getParts]
    split
    · exact .refl H hash64 net
    · generalize srv.chunks.get H hash64 (cond.reads i) (cond.repairs i) net ref.checksum = call at hstep
      obtain ⟨e | data, net'⟩ := call
      · exact .cons H hash64 (by trivial) hstep (.refl H hash64 net')
      · exact .cons H hash64 (by trivial) hstep (ih _ _ net')

theorem removeParts_run (srv : Server) (cond : DeleteConditions) (db : MetadataStore) (i : Nat)
    (refs : List ChunkRef) (net : Net) :
    RunsTo H hash64 srv net (srv.removeParts hash64 cond db i refs net).2 := by
  induction refs generalizing i net with
  | nil => exact .refl H hash64 net
  | cons ref refs ih =>
    have hstep : ∀ contacts, watchStep H hash64 srv ⟨net, contacts⟩
        (.remove (cond.disk i) (cond.deliver i) ref.checksum (db.chunk_ref_count ref.checksum)) =
          ⟨(srv.chunks.remove hash64 (cond.disk i) (cond.deliver i) net ref.checksum (db.chunk_ref_count ref.checksum)).2,
            contacts⟩ := fun _ => rfl
    rw [removeParts]
    generalize srv.chunks.remove hash64 (cond.disk i) (cond.deliver i) net ref.checksum _ = call at hstep
    obtain ⟨(status | -) | u, net'⟩ := call
    · exact .cons H hash64 (by trivial) hstep (ih (i + 1) net')
    · exact .cons H hash64 (by trivial) hstep (.refl H hash64 net')
    · exact .cons H hash64 (by trivial) hstep (ih (i + 1) net')

theorem putObject_run (cond : PutConditions) (req : HttpRequest) (w : World) :
    RunsTo H hash64 srv w.net (srv.putObject H hash64 cond req w).2.net := by
  have hrun := putParts_run H hash64 srv cond.chunks 0 (chunk_bytes req.body srv.chunk_size) [] w.net
  unfold putObject
  split
  · exact .refl H hash64 _
  · simp only
    split
    · exact .refl H hash64 _
    · rcases (w.wal srv.me).append H cond.wal _ with ⟨status | u, log⟩
      · exact .refl H hash64 _
      · simp only [World.setWal_net, World.setNet_metadata, World.setWal_metadata]
        generalize srv.putParts H hash64 cond.chunks 0 (chunk_bytes req.body srv.chunk_size) [] w.net = call at hrun
        obtain ⟨status | chunks, net⟩ := call
        · exact hrun
        · simp only
          rcases (w.metadata srv.me).put_object cond.metadata _ with ⟨status | u, db⟩ <;> exact hrun

theorem getObject_run (cond : GetConditions) (req : HttpRequest) (w : World) :
    RunsTo H hash64 srv w.net (srv.getObject H hash64 cond req w).2.net := by
  unfold getObject
  split
  · exact .refl H hash64 _
  · simp only
    split
    · exact .refl H hash64 _
    · rename_i m _
      have hrun := getParts_run H hash64 srv cond 0 m.chunks [] w.net
      generalize srv.getParts H hash64 cond 0 m.chunks [] w.net = call at hrun
      obtain ⟨status | out, net⟩ := call
      · exact hrun
      · simp only
        split <;> exact hrun

theorem deleteObject_run (cond : DeleteConditions) (req : HttpRequest) (w : World) :
    RunsTo H hash64 srv w.net (srv.deleteObject H hash64 cond req w).2.net := by
  unfold deleteObject
  split
  · exact .refl H hash64 _
  · simp only
    split
    · exact .refl H hash64 _
    · rename_i m _
      rcases (w.wal srv.me).append H cond.wal _ with ⟨status | u, log⟩
      · exact .refl H hash64 _
      · simp only [World.setWal_metadata]
        rcases (w.metadata srv.me).delete_object cond.metadata _ _ with ⟨status | u, db⟩
        · exact .refl H hash64 _
        · have hrun := removeParts_run H hash64 srv cond db 0 m.chunks w.net
          simp only [World.setMetadata_net, World.setWal_net]
          generalize srv.removeParts hash64 cond db 0 m.chunks w.net = call at hrun
          obtain ⟨failure | u, net⟩ := call <;> exact hrun

/-- The heartbeat route is a contact. -/
theorem postHeartbeat_step (req : HttpRequest) (w : World) (contacts : List (Str × Nat))
    (h : authorized w.net.token req .kAdmin = .ok ()) :
    (srv.postHeartbeat req w).2.net = (watchStep H hash64 srv ⟨w.net, contacts⟩ (.incoming req.body)).net := by
  simp only [postHeartbeat, h]
  rfl

end Requests

end Server

end Dstore
