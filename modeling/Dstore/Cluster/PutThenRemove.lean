import Dstore.Cluster.Placement
import Dstore.Storage.ChunkCache
/-!
# Remove after put

With every node in reach `put` leaves a file and a cached copy on the
coordinator and on the target of its plan. `remove` goes to the target and takes
its file: the coordinator keeps its own when it is not the target, and cached
copies stay, where a read finds them. So the put is undone only where the
coordinator is the target and no node could read its copy
(`put_then_remove_iff`).
-/

namespace Dstore

namespace ChunkStore

variable {H : HexHash} {s : ChunkStore}

theorem get_isOk_of_cached {c : Str} {b : Bytes} (h : (c, b) ∈ s.cache.toList) : (s.get H c).1.isOk = true := by
  rcases s.get_cases (H := H) c with ⟨b', cache, heq, -⟩ | ⟨hnot, -⟩
  · rw [heq]
    rfl
  · exact absurd h (hnot b)

/-- A chunk that was put is in front of the cache. -/
theorem cached_of_put (hroom : 0 < s.cache.capacity) (b : Bytes) : (H.hex b, b) ∈ (s.put H none b).2.cache.toList := by
  obtain ⟨n, hn⟩ : ∃ n, s.cache.capacity = n + 1 := ⟨s.cache.capacity - 1, by omega⟩
  rw [put_cache, LruCache.put_toList, hn, List.take_succ_cons]
  exact List.mem_cons_self

end ChunkStore

namespace Members

variable {H : HexHash} {hash64 : Str → Nat} (m : Members)

/-- The cluster after a put on node `i` and a remove of the chunk there. -/
def putThenRemove (H : HexHash) (hash64 : Str → Nat) (i : Str) (net : Net) (b : Bytes) : Net :=
  ((m.service i).remove hash64 none (fun _ => .fine) ((m.service i).put H hash64 {} net b).2 (H.hex b) 0).2

/-- No node has the file of the chunk, and no node finds it. -/
def Gone (H : HexHash) (hash64 : Str → Nat) (net : Net) (c : Str) : Prop :=
  ∀ j ∈ m.ids, (net.stores j).exists_ c = false ∧
    ((m.service j).get H hash64 (fun _ => .fine) (fun _ => .fine) net c).1.isOk = false

/-- Node `i` is the target of its plans. -/
def OwnTarget (i : Str) : Prop := 1 ≤ (m.service i).replication_factor ∧ (m.service i).latest.id = i

instance (i : Str) : Decidable (m.OwnTarget i) := inferInstanceAs (Decidable (_ ∧ _))

/-- Node `j` reads from node `i`, and wants no other answer. -/
def ReadsFrom (j i : Str) : Prop :=
  1 ≤ (m.service j).replication_factor ∧ (m.service j).latest.id = i ∧ (m.service j).read_quorum ≤ 1

instance (j i : Str) : Decidable (m.ReadsFrom j i) := inferInstanceAs (Decidable (_ ∧ _ ∧ _))

section PutRemove
variable {net : Net} {b : Bytes} {i : Str}

/-- What a put and a remove leave of the file on the coordinator. -/
theorem putThenRemove_own_file (hi : i ∈ m.ids) :
    ((m.putThenRemove H hash64 i net b).stores i).exists_ (H.hex b) = false ↔ m.OwnTarget i := by
  have hme : (m.service i).me = i := m.runs i hi
  have hput : (((m.service i).put H hash64 {} net b).2.stores i).file (H.hex b) ≠ none := by
    have hstore := (m.service i).put_stores_me (H := H) hash64 {} net b
    rw [hme] at hstore
    rw [hstore]
    exact (ChunkStore.put_exists fun _ => rfl).2
  have htargets : (∃ t ∈ (m.service i).targets hash64 ((m.service i).put H hash64 {} net b).2 (H.hex b), t.id = i) ↔
      m.OwnTarget i := by
    rw [DistributedChunkService.targets_eq, OwnTarget]
    split <;> simp [*]
  have hexists : ((m.putThenRemove H hash64 i net b).stores i).exists_ (H.hex b) = false ↔
      ((m.putThenRemove H hash64 i net b).stores i).file (H.hex b) = none := by
    simp [ChunkStore.exists_, ChunkStore.file]
  rw [hexists, ← htargets]
  constructor
  · intro hnone
    by_contra hno
    have hsame := ((m.service i).remove_frame hash64 none (fun _ => .fine) (H.digest b) 0
      ((m.service i).put H hash64 {} net b).2).2.2.2.2 i _ (H.digest b) fun h => hno h.2.2
    exact hput (hsame.symm.trans hnone)
  · exact (m.service i).remove_gone hash64 (H.digest b) le_rfl (m.reachable i hi)

variable (hno : ∀ x, (net.stores x).file (H.hex b) = none ∧ ∀ v, (H.hex b, v) ∉ (net.stores x).cache.toList)
include hno

/-- Where the coordinator is its own target, the only trace of a put and a remove
is its cached copy. -/
theorem putThenRemove_store (hash64 : Str → Nat) (hroom : 0 < (net.stores i).cache.capacity) (hi : i ∈ m.ids)
    (hown : m.OwnTarget i) (x : Str) :
    ((m.putThenRemove H hash64 i net b).stores x).exists_ (H.hex b) = false ∧
      ((((m.putThenRemove H hash64 i net b).stores x).get H (H.hex b)).1.isOk = true ↔ x = i) := by
  have hme : (m.service i).me = i := m.runs i hi
  have hpeer : (m.service i).peer = none := if_neg fun h => by
    have := ((m.service i).is_self_iff (m.service i).latest).2 (hown.2.trans hme.symm)
    rw [h.2] at this
    cases this
  have hframe := (m.service i).remove_frame hash64 none (fun _ => .fine) (H.digest b) 0
    ((m.service i).put H hash64 {} net b).2
  have hput := (m.service i).put_stores (H := H) hash64 (b := b) (m.reachable i hi) net x
  by_cases hx : x = i
  · subst hx
    rw [hme, if_pos (.inl rfl)] at hput
    refine ⟨(m.putThenRemove_own_file hi).2 hown, fun _ => rfl, fun _ => ?_⟩
    -- the remove has left the cache
    refine ChunkStore.get_isOk_of_cached (b := b) ?_
    rw [putThenRemove, hframe.2.2.2.1 x, hput]
    exact ChunkStore.cached_of_put hroom b
  · rw [hme, hpeer, if_neg (by simp [hx])] at hput
    have hfile : ((m.putThenRemove H hash64 i net b).stores x).file (H.hex b) = none := by
      refine (hframe.2.2.2.2 x _ (H.digest b) ?_).trans ((congrArg (ChunkStore.file · (H.hex b)) hput).trans (hno x).1)
      rintro ⟨-, -, t, ht, rfl⟩
      rw [DistributedChunkService.targets_eq, if_pos hown.1] at ht
      exact hx (List.mem_singleton.1 ht ▸ hown.2)
    have hcache : ((m.putThenRemove H hash64 i net b).stores x).cache = (net.stores x).cache :=
      (hframe.2.2.2.1 x).trans (congrArg ChunkStore.cache hput)
    refine ⟨by simpa [ChunkStore.exists_, ChunkStore.file] using hfile, fun hok => ?_, fun h => absurd h hx⟩
    rw [ChunkStore.get_missing (by rw [hcache]; exact (hno x).2) hfile] at hok
    cases hok

end PutRemove

/-- A put of a new chunk and its remove leave no trace exactly when the
coordinator is the target of its plan, and no node could read the chunk from the
coordinator's cache. The caches have room for a chunk, as the constructor makes
them. -/
theorem put_then_remove_iff (H : HexHash) (hash64 : Str → Nat) (m : Members) (net : Net)
    (hroom : ∀ x, 0 < (net.stores x).cache.capacity) (b : Bytes)
    (hno : ∀ x, (net.stores x).file (H.hex b) = none ∧ ∀ v, (H.hex b, v) ∉ (net.stores x).cache.toList) (i : Str)
    (hi : i ∈ m.ids) :
    m.Gone H hash64 (m.putThenRemove H hash64 i net b) (H.hex b) ↔
      m.OwnTarget i ∧ ∀ j ∈ m.ids, ¬ m.ReadsFrom j i := by
  have hget : m.OwnTarget i → ∀ j ∈ m.ids, (((m.service j).get H hash64 (fun _ => .fine) (fun _ => .fine)
      (m.putThenRemove H hash64 i net b) (H.hex b)).1.isOk = true ↔ m.ReadsFrom j i) := by
    intro hown j hj
    have hstore := fun x => (m.putThenRemove_store hno hash64 (hroom i) hi hown x).2
    have htarget : (∃ t ∈ (m.service j).targets hash64 (m.putThenRemove H hash64 i net b) (H.hex b),
        (m.service j).answers H (fun _ => .fine) (H.hex b) (m.putThenRemove H hash64 i net b) t = true) ↔
          1 ≤ (m.service j).replication_factor ∧ (m.service j).latest.id = i := by
      have hans : ∀ t ∈ (m.service j).targets hash64 (m.putThenRemove H hash64 i net b) (H.hex b),
          ((m.service j).answers H (fun _ => .fine) (H.hex b) (m.putThenRemove H hash64 i net b) t = true ↔ t.id = i) := by
        intro t ht
        rw [(m.service j).answers_fine hash64 (m.reachable j hj) ht, hstore]
      rw [DistributedChunkService.targets_eq] at hans ⊢
      split
      · rename_i hrf
        rw [if_pos hrf] at hans
        simp only [List.mem_singleton, exists_eq_left, hrf, true_and]
        exact hans _ (List.mem_singleton_self _)
      · rename_i hrf
        simp [hrf]
    rw [(m.service j).get_isOk_iff hash64 (m.reachable j hj), htarget, m.runs j hj, hstore, ReadsFrom]
    constructor
    · rintro ⟨hq, ⟨hrf, hlatest⟩ | rfl⟩
      · exact ⟨hrf, hlatest, hq⟩
      · exact ⟨hown.1, hown.2, hq⟩
    · rintro ⟨hrf, hlatest, hq⟩
      exact ⟨hq, .inl ⟨hrf, hlatest⟩⟩
  constructor
  · intro hgone
    have hown := (m.putThenRemove_own_file hi).1 (hgone i hi).1
    refine ⟨hown, fun j hj hread => ?_⟩
    have hok := (hget hown j hj).2 hread
    rw [(hgone j hj).2] at hok
    cases hok
  · rintro ⟨hown, hread⟩ j hj
    exact ⟨(m.putThenRemove_store hno hash64 (hroom i) hi hown j).1,
      Bool.eq_false_iff.2 fun hok => hread j hj ((hget hown j hj).1 hok)⟩

/-! ## Two nodes -/

/-- Node A has been told of node B and of itself, and node B of node A. -/
def pair (read_quorum : Int) : Members :=
  .two { DistributedChunkService.listedA with read_quorum := read_quorum }
    { DistributedChunkService.pairB with read_quorum := read_quorum }
    (show nodeB.val.id ≠ nodeA.val.id by decide) (show DistributedChunkService.listedA.Reachable by decide)
    (show DistributedChunkService.pairB.Reachable by decide)

theorem freshNet_empty (x c : Str) :
    (freshNet.stores x).file c = none ∧ ∀ v, (c, v) ∉ (freshNet.stores x).cache.toList :=
  ⟨rfl, by simp [freshNet, ChunkStore.create]⟩

/-- Two answers cannot be had from one target, so what node A put is gone. -/
theorem pair_gone : (pair 2).Gone Sha256.hexHash sixthByte
    ((pair 2).putThenRemove Sha256.hexHash sixthByte (lit "node-a") freshNet (lit "abc")) (Sha256.hex (lit "abc")) :=
  (put_then_remove_iff Sha256.hexHash sixthByte (pair 2) freshNet (fun _ => Nat.succ_pos _) (lit "abc")
    (fun x => freshNet_empty x _) (lit "node-a") List.mem_cons_self).2 (by decide)

/-- What node B put and removed is still on its disk. -/
theorem pair_not_gone :
    (((pair 1).service (lit "node-b")).put Sha256.hexHash sixthByte {} freshNet (lit "abc")).1.isOk = true ∧
      (((pair 1).putThenRemove Sha256.hexHash sixthByte (lit "node-b") freshNet (lit "abc")).stores
        (lit "node-b")).exists_ (Sha256.hex (lit "abc")) = true ∧
      ¬ (pair 1).Gone Sha256.hexHash sixthByte
        ((pair 1).putThenRemove Sha256.hexHash sixthByte (lit "node-b") freshNet (lit "abc")) (Sha256.hex (lit "abc")) := by
  have hB : lit "node-b" ∈ (pair 1).ids := List.mem_cons_of_mem _ List.mem_cons_self
  have hleft : (((pair 1).putThenRemove Sha256.hexHash sixthByte (lit "node-b") freshNet (lit "abc")).stores
      (lit "node-b")).exists_ (Sha256.hex (lit "abc")) = true := by
    refine (Bool.not_eq_false _).mp fun hgone => ?_
    exact absurd ((pair 1).putThenRemove_own_file hB |>.1 hgone) (by decide)
  refine ⟨?_, hleft, fun h => ?_⟩
  · rw [Sha256.hexHash_eq]
    decide +kernel
  · have hfile := (h (lit "node-b") hB).1
    rw [hleft] at hfile
    cases hfile

end Members

end Dstore
