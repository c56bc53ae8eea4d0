import Dstore.Cluster.Quorum
import Dstore.Server.ObjectRoutes
/-!
# What the object handlers do

With no faults, on a node that is `Ready`: the one other node of its plans, if
there is one, can be called and completes its write quorum, and one answer
completes its read quorum. An upload then stores each part on all the `sources`
of the node, and a read finds a chunk that one of them has (`Stored`). `Keeps`
is what a handler does to the chunk files of the whole cluster: those in `kept`
stay where they are.
-/
open Dstore.Lib

namespace Dstore

variable (H : HexHash) (hash64 : Str → Nat) {S : Set Bytes}

namespace DistributedChunkService

variable (svc : DistributedChunkService)

/-- The view of a process that has just started. -/
def boot (layout : Layout (Str × NodeState)) (now : Nat) : ClusterState :=
  ClusterState.heartbeats (.empty layout) now (svc.self :: svc.seed_members)

theorem known_boot (layout : Layout (Str × NodeState)) (now : Nat) : (svc.boot layout now).known_nodes = [svc.latest] :=
  ClusterState.known_heartbeats (.empty layout) now svc.self svc.seed_members

theorem started_boot (layout : Layout (Str × NodeState)) (now : Nat) : (svc.boot layout now).Started := by
  rw [ClusterState.Started, known_boot]
  exact List.cons_ne_nil _ _

theorem started_refresh (net : Net) : ((svc.refresh_seed_members net).views svc.me).Started := by
  rw [ClusterState.Started, known_refresh]
  exact List.cons_ne_nil _ _

/-- The ids of the nodes in a plan. -/
def homes : List Str := if 1 ≤ svc.replication_factor then [svc.latest.id] else []

/-- The ids of the nodes where an operation puts a chunk or looks for it. -/
def sources : List Str := svc.me :: svc.homes

theorem ids_targets (net : Net) (c : Str) : (svc.targets hash64 net c).map (·.id) = svc.homes := by
  rw [targets_eq, homes]
  split <;> rfl

theorem mem_homes {net : Net} {c id : Str} : (∃ t ∈ svc.targets hash64 net c, t.id = id) ↔ id ∈ svc.homes := by
  rw [← svc.ids_targets hash64 net c, List.mem_map]

variable {H hash64 svc} {net : Net}

/-- A put stores the chunk on all sources. -/
theorem put_stored (hash64 : Str → Nat) (hreach : svc.Reachable)
    (hq : svc.write_quorum ≤ 1 + (svc.peer.isSome.toNat : Int)) (h : net.Sound H S) {b : Bytes} (hb : b ∈ S) :
    ∃ net', svc.put H hash64 {} net b = (.ok ⟨H.hex b, b.length % 2 ^ 64⟩, net') ∧ Adds (H.hex b) net net' ∧
      net'.Sound H S ∧ net'.views = (svc.refresh_seed_members net).views ∧
      ∀ id ∈ svc.sources, (net'.stores id).Holds H (H.hex b) := by
  have hok : (svc.put H hash64 {} net b).1 = .ok ⟨H.hex b, b.length % 2 ^ 64⟩ := by
    rw [svc.put_result hash64 (show svc.Accepts H {} net b from fun _ => rfl) hreach, svc.acked_fine hreach,
      if_neg (by omega)]
  obtain ⟨hadd, hviews, -⟩ := svc.put_adds (H := H) hash64 {} b net
  obtain ⟨hme, htargets⟩ := svc.put_places hash64 b hreach h
  refine ⟨_, Prod.ext hok rfl, hadd, svc.put_sound hash64 hb h (Conditions.whole_fine b), hviews, fun id hid => ?_⟩
  rcases List.mem_cons.1 hid with rfl | hid
  · exact hme
  · obtain ⟨t, ht, rfl⟩ := (svc.mem_homes hash64).2 hid
    exact htargets t ht

/-- A put that cannot make its write quorum is refused. -/
theorem put_refused (hreach : svc.Reachable) (hq : 1 + (svc.peer.isSome.toNat : Int) < svc.write_quorum) (net : Net)
    (b : Bytes) : (svc.put H hash64 {} net b).1 = .error (.status (.Unavailable (lit "quorum write failed"))) := by
  rw [svc.put_result hash64 (show svc.Accepts H {} net b from fun _ => rfl) hreach, svc.acked_fine hreach, if_pos hq]

/-- A chunk that a source has is found. -/
theorem get_stored (hash64 : Str → Nat) (hreach : svc.Reachable) (hq : svc.read_quorum ≤ 1) (h : net.Sound H S)
    {c : Str} (hc : Digest c) (hst : ∃ id ∈ svc.sources, (net.stores id).Holds H c) :
    ∃ b ∈ S, H.hex b = c ∧ ∃ net', svc.get H hash64 (fun _ => .fine) (fun _ => .fine) net c = (.ok b, net') := by
  obtain ⟨id, hid, hholds⟩ := hst
  have hisok := (h id).get_isOk hc hholds
  have hfound : (∃ t ∈ svc.targets hash64 net c, svc.answers H (fun _ => .fine) c net t = true) ∨
      ((net.stores svc.me).get H c).1.isOk = true := by
    rcases List.mem_cons.1 hid with rfl | hid
    · exact .inr hisok
    · obtain ⟨t, ht, rfl⟩ := (svc.mem_homes hash64).2 hid
      exact .inl ⟨t, ht, (svc.answers_fine hash64 hreach ht).trans hisok⟩
  obtain ⟨b, hb, hbc, hok⟩ := svc.get_found hash64 (fun _ => .fine) (fun _ => .fine) h hc hq hreach hfound
  exact ⟨b, hb, hbc, _, Prod.ext hok rfl⟩

/-- On sound stores a node that is asked says that it has not found the chunk,
or gives it. -/
theorem ask_fine (h : net.Sound H S) {c : Str} (hc : Digest c) {t : StorageNode}
    (hcall : svc.is_self t = false → NodeClient.callable t = true) {e : Failure}
    (he : (svc.ask H (fun _ => .fine) c net t).1 = .error e) : ∃ m, e = .status (.NotFound m) := by
  unfold ask at he
  cases hself : svc.is_self t with
  | true =>
    rw [if_pos hself] at he
    rcases (h svc.me).get hc with ⟨b, s', heq, -⟩ | ⟨heq, -⟩
    · rw [heq] at he
      cases he
    · rw [heq] at he
      exact ⟨_, (Except.error.inj he).symm⟩
  | false =>
    rw [if_neg (by simp [hself]), NodeClient.get_chunk_result _ _ (hcall hself)] at he
    cases hget : ((net.stores t.id).get H c).1 with
    | ok b =>
      rw [hget] at he
      cases he
    | error status =>
      rw [hget] at he
      exact ⟨_, (Except.error.inj he).symm⟩

/-- On sound stores a get that fails has not made its read quorum. -/
theorem get_fails (hreach : svc.Reachable) (h : net.Sound H S) {c : Str} (hc : Digest c)
    (hno : (svc.get H hash64 (fun _ => .fine) (fun _ => .fine) net c).1.isOk = false) :
    (svc.get H hash64 (fun _ => .fine) (fun _ => .fine) net c).1 =
      .error (.status (.Unavailable (lit "quorum read failed"))) := by
  -- what follows the loop when its last error is that nothing was found
  have hend : ∀ (net' : Net) (m : Str) (responses : Int) (failed : List StorageNode),
      (svc.readLoop H (fun _ => .fine) (fun _ => .fine) c [] responses (.NotFound m) failed net').1.isOk = false →
      (svc.readLoop H (fun _ => .fine) (fun _ => .fine) c [] responses (.NotFound m) failed net').1 =
        .error (.status (.Unavailable (lit "quorum read failed"))) := by
    intro net' m responses failed hno
    rw [readLoop] at hno ⊢
    rcases hget : (net'.stores svc.me).get H c with ⟨e | v, store⟩
    · rfl
    · simp only [hget] at hno ⊢
      split at hno
      · cases hno
      · rename_i hq
        rw [if_neg hq]
        rfl
  have hrefresh : (svc.refresh_seed_members net).Sound H S := h
  have htarget : ∀ t ∈ svc.targets hash64 net c, svc.is_self t = false → NodeClient.callable t = true :=
    fun t ht hself => svc.callable_of_target hash64 hreach ht hself
  rw [get_eq] at hno ⊢
  rw [targets_eq] at hno htarget ⊢
  split at hno
  · rename_i hrf
    rw [if_pos hrf] at htarget ⊢
    have hask := fun e => ask_fine hrefresh hc (htarget svc.latest (List.mem_singleton_self _)) (e := e)
    rw [readLoop] at hno ⊢
    generalize svc.ask H (fun _ => .fine) c (svc.refresh_seed_members net) svc.latest = call at hask hno ⊢
    rcases call with ⟨e | v, net'⟩
    · obtain ⟨m, rfl⟩ := hask e rfl
      exact hend _ _ _ _ hno
    · dsimp only at hno ⊢
      split at hno
      · cases hno
      · rename_i hq
        rw [if_neg hq]
        exact hend _ _ _ _ hno
  · rename_i hrf
    rw [if_neg hrf]
    exact hend _ _ _ _ hno

/-- One answer is not enough for a larger read quorum. -/
theorem get_short (hreach : svc.Reachable) (hq : 1 < svc.read_quorum) (h : net.Sound H S) {c : Str} (hc : Digest c) :
    (svc.get H hash64 (fun _ => .fine) (fun _ => .fine) net c).1 =
      .error (.status (.Unavailable (lit "quorum read failed"))) := by
  refine get_fails hreach h hc (Bool.eq_false_iff.2 fun hok => ?_)
  exact absurd ((svc.get_isOk_iff hash64 hreach).1 hok).1 (by omega)

/-- When no source has the chunk, in its cache or on disk, a get fails. -/
theorem get_gone (hreach : svc.Reachable) (h : net.Sound H S) {c : Str} (hc : Digest c)
    (hgone : ∀ id ∈ svc.sources, (∀ v, (c, v) ∉ (net.stores id).cache.toList) ∧ (net.stores id).file c = none) :
    (svc.get H hash64 (fun _ => .fine) (fun _ => .fine) net c).1 =
      .error (.status (.Unavailable (lit "quorum read failed"))) := by
  have hmissing : ∀ id ∈ svc.sources, ((net.stores id).get H c).1.isOk = false := by
    intro id hid
    rw [ChunkStore.get_missing (hgone id hid).1 (hgone id hid).2]
    rfl
  refine get_fails hreach h hc (Bool.eq_false_iff.2 fun hok => ?_)
  obtain ⟨-, ⟨t, ht, hans⟩ | hown⟩ := (svc.get_isOk_iff hash64 hreach).1 hok
  · rw [svc.answers_fine hash64 hreach ht,
      hmissing t.id (List.mem_cons_of_mem _ ((svc.mem_homes hash64).1 ⟨t, ht, rfl⟩))] at hans
    cases hans
  · rw [hmissing svc.me List.mem_cons_self] at hown
    cases hown

end DistributedChunkService

/-! ## What a handler keeps -/

/-- Between `net` and `net'` only the node of the service acted, and the chunks
in `kept` are where they were. -/
structure Keeps (S : Set Bytes) (svc : DistributedChunkService) (kept : Str → Str → Prop) (net net' : Net) : Prop where
  sound : net'.Sound H S
  holds : ∀ id c, kept id c → Digest c → (net.stores id).Holds H c → (net'.stores id).Holds H c
  token : net'.token = net.token
  views : ∀ i, i ≠ svc.me → net'.views i = net.views i
  started : (net.views svc.me).Started → (net'.views svc.me).Started

namespace Keeps

variable {H} {svc : DistributedChunkService} {kept : Str → Str → Prop} {net net' net'' : Net}

theorem refl (h : net.Sound H S) : Keeps H S svc kept net net := ⟨h, fun _ _ _ _ h => h, rfl, fun _ _ => rfl, id⟩

theorem trans (h : Keeps H S svc kept net net') (h' : Keeps H S svc kept net' net'') : Keeps H S svc kept net net'' where
  sound := h'.sound
  holds id c hk hc hh := h'.holds id c hk hc (h.holds id c hk hc hh)
  token := h'.token.trans h.token
  views i hi := (h'.views i hi).trans (h.views i hi)
  started hs := h'.started (h.started hs)

theorem mono {kept' : Str → Str → Prop} (h : Keeps H S svc kept net net') (hk : ∀ id c, kept' id c → kept id c) :
    Keeps H S svc kept' net net' :=
  ⟨h.sound, fun id c hc => h.holds id c (hk id c hc), h.token, h.views, h.started⟩

/-- What an operation leaves that has made its heartbeats. -/
theorem of_refresh (hsound : net'.Sound H S)
    (hholds : ∀ id c, kept id c → Digest c → (net.stores id).Holds H c → (net'.stores id).Holds H c)
    (ht : net'.token = net.token) (hv : net'.views = (svc.refresh_seed_members net).views) :
    Keeps H S svc kept net net' where
  sound := hsound
  holds := hholds
  token := ht
  views i hi := by rw [hv]; exact if_neg hi
  started _ := by rw [hv]; exact svc.started_refresh net

theorem of_adds {c : Str} (h : Adds c net net') (hsound : net'.Sound H S)
    (hv : net'.views = (svc.refresh_seed_members net).views) : Keeps H S svc kept net net' :=
  of_refresh hsound (fun _ _ _ hc hh => h.holds hc hh) h.token hv

/-- A get keeps everything. -/
theorem of_get (hash64 : Str → Nat) {c : Str} (hc : Digest c) (h : net.Sound H S) (reads repairs : StorageNode → Delivery) :
    Keeps H S svc kept net (svc.get H hash64 reads repairs net c).2 := by
  obtain ⟨hviews, -, -, htoken, hfile⟩ := svc.get_frame (H := H) hash64 reads repairs c net
  refine of_refresh (svc.get_sound hash64 reads repairs hc h) (fun id c' _ _ hh => ?_) htoken hviews
  obtain ⟨b, hb, hx⟩ := hh
  exact ⟨b, (hfile id c').trans hb, hx⟩

end Keeps

namespace Server

variable {H} {hash64} {srv : Server} {net : Net}

/-- The reference of a part. -/
def refOf (H : HexHash) (part : Bytes) : ChunkRef := ⟨H.hex part, part.length % 2 ^ 64⟩

/-- A server whose peer can be called, and that can make its write quorum. -/
structure Writable (srv : Server) : Prop where
  reachable : srv.chunks.Reachable
  writes : srv.chunks.write_quorum ≤ 1 + (srv.chunks.peer.isSome.toNat : Int)

/-- One that can also make its read quorum. -/
structure Ready (srv : Server) : Prop extends srv.Writable where
  reads : srv.chunks.read_quorum ≤ 1

/-- A source of the node has the chunk. -/
def Stored (H : HexHash) (srv : Server) (net : Net) (c : Str) : Prop :=
  ∃ id ∈ srv.chunks.sources, (net.stores id).Holds H c

/-- No source of the node has the chunk, in its cache or on disk. -/
def Gone (srv : Server) (net : Net) (c : Str) : Prop :=
  ∀ id ∈ srv.chunks.sources, (∀ v, (c, v) ∉ (net.stores id).cache.toList) ∧ (net.stores id).file c = none

theorem Stored.mono {net' : Net} {c : Str} (h : srv.Stored H net c)
    (hk : ∀ id, (net.stores id).Holds H c → (net'.stores id).Holds H c) : srv.Stored H net' c := by
  obtain ⟨id, hid, hh⟩ := h
  exact ⟨id, hid, hk id hh⟩

/-- An upload stores every part. -/
theorem putParts_spec (hash64 : Str → Nat) (hr : srv.Writable) (parts : List Bytes) (i : Nat) (refs : List ChunkRef)
    (h : net.Sound H S) (hS : ∀ p ∈ parts, p ∈ S) :
    ∃ net', srv.putParts H hash64 (fun _ => {}) i parts refs net = (.ok (refs ++ parts.map (refOf H)), net') ∧
      Keeps H S srv.chunks (fun _ _ => True) net net' ∧ ∀ p ∈ parts, srv.Stored H net' (H.hex p) := by
  induction parts generalizing i refs net with
  | nil => exact ⟨net, by simp [putParts], .refl h, by simp⟩
  | cons p parts ih =>
    obtain ⟨net₁, hput, hadd, hsound, hviews, hholds⟩ :=
      DistributedChunkService.put_stored hash64 hr.reachable hr.writes h (hS p List.mem_cons_self)
    have hkeep : Keeps H S srv.chunks (fun _ _ => True) net net₁ := .of_adds hadd hsound hviews
    obtain ⟨net', hrest, hkeep', hstored⟩ :=
      ih (i + 1) (refs ++ [refOf H p]) hsound fun q hq => hS q (List.mem_cons_of_mem _ hq)
    refine ⟨net', ?_, hkeep.trans hkeep', fun q hq => ?_⟩
    · rw [putParts, hput]
      simp only
      rw [show (⟨H.hex p, p.length % 2 ^ 64⟩ : ChunkRef) = refOf H p from rfl, hrest]
      simp
    · rcases List.mem_cons.1 hq with rfl | hq
      · -- the later parts leave this one where it is
        have hstored₁ : srv.Stored H net₁ (H.hex q) := ⟨srv.me, List.mem_cons_self, hholds _ List.mem_cons_self⟩
        exact hstored₁.mono fun id => hkeep'.holds id _ trivial (H.digest q)
      · exact hstored q hq

/-- An upload to a node that cannot make its write quorum ends with its first
part. -/
theorem putParts_refused (hash64 : Str → Nat) (hreach : srv.chunks.Reachable)
    (hq : 1 + (srv.chunks.peer.isSome.toNat : Int) < srv.chunks.write_quorum) (p : Bytes) (parts : List Bytes) (i : Nat)
    (refs : List ChunkRef) (h : net.Sound H S) (hp : p ∈ S) :
    ∃ net', srv.putParts H hash64 (fun _ => {}) i (p :: parts) refs net =
        (.error (.status (.Unavailable (lit "quorum write failed"))), net') ∧
      Keeps H S srv.chunks (fun _ _ => True) net net' := by
  obtain ⟨hadd, hviews, -⟩ := srv.chunks.put_adds (H := H) hash64 {} p net
  refine ⟨_, ?_, .of_adds hadd (srv.chunks.put_sound hash64 hp h (Conditions.whole_fine p)) hviews⟩
  rw [putParts, ← Prod.eta (srv.chunks.put H hash64 _ net p), DistributedChunkService.put_refused hreach hq]

/-- The plan that a read looks at first is too small when two nodes are to
answer for two replicas. -/
theorem plan_short_iff (hs : (net.views srv.me).Started) (c : Str) :
    (((net.views srv.me).read_plan hash64 c srv.chunks.replication_factor srv.chunks.read_quorum).targets.length : Int) <
        min srv.chunks.read_quorum srv.chunks.replication_factor ↔
      1 < srv.chunks.read_quorum ∧ 1 < srv.chunks.replication_factor := by
  obtain ⟨node, hnode⟩ := hs.single
  rw [ClusterState.read_plan, ClusterState.write_plan_targets hash64 hnode]
  split
  · simp only [List.length_singleton]
    omega
  · simp only [List.length_nil]
    omega

/-- The content of a chunk: the byte string of `S` with its checksum. -/
noncomputable def contentOf (H : HexHash) (S : Set Bytes) (ref : ChunkRef) : Bytes := Function.invFunOn H.hex S ref.checksum

theorem contentOf_refOf (hinj : Set.InjOn H.hex S) {p : Bytes} (hp : p ∈ S) : contentOf H S (refOf H p) = p :=
  hinj.leftInvOn_invFunOn hp

theorem contentOf_eq (hinj : Set.InjOn H.hex S) {b : Bytes} (hb : b ∈ S) {ref : ChunkRef} (hc : H.hex b = ref.checksum) :
    contentOf H S ref = b := by
  rw [contentOf, ← hc]
  exact hinj.leftInvOn_invFunOn hb

/-- Chunks that are stored are read back in order. -/
theorem getParts_spec (hash64 : Str → Nat) (hr : srv.Ready) (hinj : Set.InjOn H.hex S) (refs : List ChunkRef) (i : Nat)
    (out : Bytes) (hs : (net.views srv.me).Started) (h : net.Sound H S)
    (hst : ∀ ref ∈ refs, Digest ref.checksum ∧ srv.Stored H net ref.checksum) :
    ∃ net', srv.getParts H hash64 {} i refs out net = (.ok (out ++ (refs.map (contentOf H S)).flatten), net') ∧
      Keeps H S srv.chunks (fun _ _ => True) net net' := by
  induction refs generalizing i out net with
  | nil => exact ⟨net, by rw [getParts, List.map_nil, List.flatten_nil, List.append_nil], .refl h⟩
  | cons ref refs ih =>
    obtain ⟨hd, hstored⟩ := hst ref List.mem_cons_self
    obtain ⟨b, hb, hbc, net₁, hget⟩ := DistributedChunkService.get_stored hash64 hr.reachable hr.reads h hd hstored
    have hkeep : Keeps H S srv.chunks (fun _ _ => True) net
        (srv.chunks.get H hash64 (fun _ => .fine) (fun _ => .fine) net ref.checksum).2 := .of_get hash64 hd h _ _
    rw [hget] at hkeep
    obtain ⟨net', hrest, hkeep'⟩ := ih (i + 1) (out ++ b) (hkeep.started hs) hkeep.sound fun r hmem => by
      obtain ⟨hdr, hstr⟩ := hst r (List.mem_cons_of_mem _ hmem)
      exact ⟨hdr, hstr.mono fun id => hkeep.holds id _ trivial hdr⟩
    refine ⟨net', ?_, hkeep.trans hkeep'⟩
    rw [getParts]
    refine (if_neg fun hshort => absurd ((plan_short_iff hs _).1 hshort).1 (not_lt.2 hr.reads)).trans ?_
    rw [hget]
    show srv.getParts H hash64 {} (i + 1) refs (out ++ b) net₁ = _
    rw [hrest, List.map_cons, List.flatten_cons, contentOf_eq hinj hb hbc, List.append_assoc]

/-- With a larger read quorum every read of an object fails with its first chunk. -/
theorem getParts_short (hreach : srv.chunks.Reachable) (hq : 1 < srv.chunks.read_quorum) (hs : (net.views srv.me).Started)
    (h : net.Sound H S) {ref : ChunkRef} (hd : Digest ref.checksum) (i : Nat) (refs : List ChunkRef) (out : Bytes) :
    (srv.getParts H hash64 {} i (ref :: refs) out net).1 = .error (.status (.Unavailable
      (if 1 < srv.chunks.replication_factor then lit "insufficient healthy replicas for quorum read"
        else lit "quorum read failed"))) := by
  rw [getParts]
  by_cases hrf : 1 < srv.chunks.replication_factor
  · rw [if_pos ((plan_short_iff hs _).2 ⟨hq, hrf⟩), if_pos hrf]
  · rw [if_neg fun hshort => hrf ((plan_short_iff hs _).1 hshort).2, if_neg hrf,
      ← Prod.eta (srv.chunks.get H hash64 _ _ net ref.checksum), DistributedChunkService.get_short hreach hq h hd]

/-- A read that begins with a chunk that is gone fails. -/
theorem getParts_gone (hash64 : Str → Nat) (hreach : srv.chunks.Reachable) (hsound : net.Sound H S) {c : Str} (hc : Digest c)
    (h : srv.Gone net c) (i size : Nat) (refs : List ChunkRef) (out : Bytes) :
    ∃ m net', srv.getParts H hash64 {} i (⟨c, size⟩ :: refs) out net = (.error (.status (.Unavailable m)), net') := by
  rw [getParts]
  split
  · exact ⟨_, _, rfl⟩
  · rw [← Prod.eta (srv.chunks.get H hash64 _ _ net c), DistributedChunkService.get_gone hreach hsound hc h]
    exact ⟨_, _, rfl⟩

/-- A remove of one chunk by the node. -/
theorem remove_keeps (srv : Server) (hash64 : Str → Nat) {c : Str} (hc : Digest c) (references : Int) (h : net.Sound H S)
    (disk : Option DiskFault) (deliver : StorageNode → Delivery) :
    Keeps H S srv.chunks (fun id c' => ¬ (references ≤ 0 ∧ c' = c ∧ id ∈ srv.chunks.homes)) net
      (srv.chunks.remove hash64 disk deliver net c references).2 := by
  obtain ⟨hviews, htoken, -, -, hfile⟩ := srv.chunks.remove_frame hash64 disk deliver hc references net
  have hsound := srv.chunks.remove_sound hash64 disk deliver hc references h
  have hholds : ∀ id c', ¬ (references ≤ 0 ∧ c' = c ∧ id ∈ srv.chunks.homes) → Digest c' → (net.stores id).Holds H c' →
      ((srv.chunks.remove hash64 disk deliver net c references).2.stores id).Holds H c' := by
    rintro id c' hk hc' ⟨b, hb, hx⟩
    exact ⟨b, (hfile id c' hc' fun hcon => hk ⟨hcon.1, hcon.2.1, (srv.chunks.mem_homes hash64).1 hcon.2.2⟩).trans hb, hx⟩
  rcases hviews with hv | hv
  · exact ⟨hsound, hholds, htoken, fun i _ => by rw [hv], fun h => by rw [hv]; exact h⟩
  · exact .of_refresh hsound hholds htoken hv

/-- When the peer can be called a delete goes on to its last chunk. -/
theorem removeParts_cons (hreach : srv.chunks.Reachable) (cond : DeleteConditions) (db : MetadataStore) (ref : ChunkRef)
    (refs : List ChunkRef) (i : Nat) (net : Net) : srv.removeParts hash64 cond db i (ref :: refs) net =
      srv.removeParts hash64 cond db (i + 1) refs (srv.chunks.remove hash64 (cond.disk i) (cond.deliver i) net ref.checksum
        (db.chunk_ref_count ref.checksum)).2 := by
  have hno := srv.chunks.remove_returns hash64 (cond.disk i) (cond.deliver i) ref.checksum
    (db.chunk_ref_count ref.checksum) net hreach
  rw [removeParts]
  generalize srv.chunks.remove hash64 (cond.disk i) (cond.deliver i) net ref.checksum _ = call at hno ⊢
  rcases call with ⟨(status | -) | u, net'⟩
  · rfl
  · exact absurd rfl hno
  · rfl

theorem removeParts_ok (hreach : srv.chunks.Reachable) (cond : DeleteConditions) (db : MetadataStore) (refs : List ChunkRef)
    (i : Nat) (net : Net) : (srv.removeParts hash64 cond db i refs net).1 = .ok () := by
  induction refs generalizing i net with
  | nil => rfl
  | cons ref refs ih => rw [removeParts_cons hreach, ih]

/-- The files that a delete takes are those of chunks that it finds unreferenced,
on the homes of the node. -/
theorem removeParts_spec (hash64 : Str → Nat) (hreach : srv.chunks.Reachable) (cond : DeleteConditions) (db : MetadataStore)
    (refs : List ChunkRef) (i : Nat) (h : net.Sound H S) (hd : ∀ ref ∈ refs, Digest ref.checksum) :
    Keeps H S srv.chunks
      (fun id c => ¬ (id ∈ srv.chunks.homes ∧ ∃ ref ∈ refs, ref.checksum = c ∧ db.chunk_ref_count c ≤ 0)) net
      (srv.removeParts hash64 cond db i refs net).2 := by
  induction refs generalizing i net with
  | nil => exact .refl h
  | cons ref refs ih =>
    have hkeep := srv.remove_keeps hash64 (hd ref List.mem_cons_self) (db.chunk_ref_count ref.checksum) h
      (cond.disk i) (cond.deliver i)
    rw [removeParts_cons hreach]
    refine (hkeep.mono fun id c hno hcon => hno ⟨hcon.2.2, ref, List.mem_cons_self, hcon.2.1.symm, ?_⟩).trans
      ((ih (i + 1) hkeep.sound fun r hr => hd r (List.mem_cons_of_mem _ hr)).mono fun id c hno hcon =>
        hno ⟨hcon.1, hcon.2.imp fun r hr => ⟨List.mem_cons_of_mem _ hr.1, hr.2⟩⟩)
    rw [hcon.2.1]
    exact hcon.1

/-- It leaves the caches, and takes the files of a chunk that it finds
unreferenced from the homes of the node. -/
theorem removeParts_gone (hash64 : Str → Nat) (hreach : srv.chunks.Reachable) (db : MetadataStore)
    (refs : List ChunkRef) (i : Nat)
    (hd : ∀ ref ∈ refs, Digest ref.checksum) {c : Str} (hc : Digest c) (net : Net) (id : Str) :
    ((srv.removeParts hash64 {} db i refs net).2.stores id).cache = (net.stores id).cache ∧
      ((net.stores id).file c = none ∨
          id ∈ srv.chunks.homes ∧ (∃ ref ∈ refs, ref.checksum = c ∧ db.chunk_ref_count c ≤ 0) →
        ((srv.removeParts hash64 {} db i refs net).2.stores id).file c = none) := by
  induction refs generalizing i net with
  | nil =>
    refine ⟨rfl, fun hor => hor.resolve_right ?_⟩
    rintro ⟨-, ref, href, -⟩
    cases href
  | cons ref refs ih =>
    have hdr := hd ref List.mem_cons_self
    obtain ⟨-, -, -, hcache, hfile⟩ := srv.chunks.remove_frame hash64 none (fun _ => .fine) hdr
      (db.chunk_ref_count ref.checksum) net
    rw [removeParts_cons hreach]
    obtain ⟨hsame, hgone⟩ := ih (i + 1) (fun r hr => hd r (List.mem_cons_of_mem _ hr))
      (srv.chunks.remove hash64 none (fun _ => .fine) net ref.checksum (db.chunk_ref_count ref.checksum)).2
    refine ⟨hsame.trans (hcache id), fun hor => hgone ?_⟩
    -- the file is gone after this chunk, or it is that of a later one
    rcases hor with hnone | ⟨hid, r, hmem, rfl, hcount⟩
    · by_cases htaken : db.chunk_ref_count ref.checksum ≤ 0 ∧ c = ref.checksum ∧
          ∃ t ∈ srv.chunks.targets hash64 net ref.checksum, t.id = id
      · obtain ⟨hcount, rfl, ht⟩ := htaken
        exact .inl (srv.chunks.remove_gone hash64 hc hcount hreach ht)
      · exact .inl ((hfile id c hc htaken).trans hnone)
    · rcases List.mem_cons.1 hmem with rfl | hmem
      · exact .inl (srv.chunks.remove_gone hash64 hc hcount hreach ((srv.chunks.mem_homes hash64).2 hid))
      · exact .inr ⟨hid, r, hmem, rfl, hcount⟩

end Server

end Dstore
