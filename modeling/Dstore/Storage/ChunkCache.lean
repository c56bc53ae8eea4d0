import Mathlib.Algebra.Group.Action.Defs
import Mathlib.Algebra.Order.BigOperators.Group.List
import Mathlib.Algebra.Order.Group.Nat
import Mathlib.Algebra.Order.Ring.Int
import Dstore.Lib.Refinement
import Dstore.Storage.ChunkStore
/-!
# What the cache of a chunk store is worth

A chunk is verified when it comes from its file, and believed when it comes
from the cache. So every chunk that is read is under its own hash, whatever
happens to the files (`local_reads_verified`).

But the cache does not follow the files. It answers like the files alone as
long as no cached chunk is asked for whose file has gone (`cache_transparent_iff`):
`remove_if_unreferenced` removes a file and leaves the cached chunk. `put` goes
by the file's name and leaves a damaged file as it is (`put_durable_iff`). And
it makes room by the number of chunks, not by their sizes
(`cached_bytes_le`).
-/
open Dstore.Lib

namespace Dstore

namespace ChunkStore

variable {H : HexHash}

/-- A chunk that is cached is returned as it is; any other is read from its
file and verified. -/
theorem get_cases (s : ChunkStore) (c : Str) :
    (∃ b cache, s.get H c = (.ok b, { s with cache := cache }) ∧ (c, b) ∈ s.cache.toList ∧
        cache.toList = (c, b) :: s.cache.toList.filter (fun p => p.1 ≠ c) ∧ cache.capacity = s.cache.capacity) ∨
      (∀ b, (c, b) ∉ s.cache.toList) ∧
        ((∃ b, s.file c = some b ∧ H.hex b = c ∧ s.get H c = (.ok b, { s with cache := s.cache.put c b })) ∨
          (∀ b, s.file c = some b → H.hex b ≠ c) ∧ ∃ e, s.get H c = (.error e, s)) := by
  have hfile : s.disk (Path.resolve (s.path_for c)) = s.file c := rfl
  have hcap : (s.cache.get c).2.capacity = s.cache.capacity := LruCache.get_capacity _ _
  unfold ChunkStore.get
  rcases s.cache.get_cases c with ⟨h1, hnot, -⟩ | ⟨b, h1, hmem, hlist⟩
  · rw [← Prod.eta (s.cache.get c), h1]
    simp only [hfile]
    refine .inr ⟨hnot, ?_⟩
    cases hf : s.file c with
    | none => exact .inr ⟨by simp, _, rfl⟩
    | some b =>
      simp only
      by_cases hx : H.hex b = c
      · rw [if_neg (by simpa using hx)]
        exact .inl ⟨b, rfl, hx, rfl⟩
      · rw [if_pos hx]
        refine .inr ⟨fun b' hb' => ?_, _, rfl⟩
        obtain rfl := Option.some.inj hb'
        exact hx
  · rw [← Prod.eta (s.cache.get c), h1]
    exact .inl ⟨b, _, rfl, hmem, hlist, hcap⟩

/-- What a store has just answered it answers again. -/
theorem get_again (s : ChunkStore) (c : Str) : ((s.get H c).2.get H c).1 = (s.get H c).1 := by
  rcases s.get_cases (H := H) c with ⟨b, cache, heq, -, hlist, -⟩ | ⟨hnot, ⟨b, hf, hx, heq⟩ | ⟨-, e, heq⟩⟩
  · -- the chunk is in front of the cache now
    rw [heq]
    have hfront : (c, b) ∈ cache.toList := hlist ▸ List.mem_cons_self
    rcases get_cases (H := H) { s with cache := cache } c with ⟨b', cache', heq', hmem, -⟩ | ⟨hnot, -⟩
    · rw [heq']
      have hmem : (c, b') ∈ cache.toList := hmem
      rw [hlist] at hmem
      rcases List.mem_cons.1 hmem with h | h
      · rw [(Prod.mk.inj h).2]
      · exact absurd rfl (of_decide_eq_true (List.mem_filter.1 h).2)
    · exact absurd hfront (hnot b)
  · rw [heq]
    rcases get_cases (H := H) { s with cache := s.cache.put c b } c with ⟨b', cache', heq', hmem, -⟩ | ⟨-,
      ⟨b', hf', -, heq'⟩ | ⟨hbad, -⟩⟩
    · rw [heq']
      rcases LruCache.mem_of_mem_put hmem with h | h
      · rw [(Prod.mk.inj h).2]
      · exact absurd h (hnot b')
    · rw [heq']
      have hf' : s.file c = some b' := hf'
      rw [hf] at hf'
      rw [Option.some.inj hf']
    · exact absurd hx (hbad b hf)
  · rw [heq]
    simp only
    rw [heq]

end ChunkStore

/-! ## Stores of a running process -/

/-- The states of a store: files can change under it, the cache cannot. -/
inductive ChunkStore.Reachable (H : HexHash) : ChunkStore → Prop
  | create (root : Str) (cache_bytes : Nat) (disk : Disk) : Reachable H (ChunkStore.create root cache_bytes disk)
  | put {s : ChunkStore} (h : Reachable H s) (fault : Option DiskFault) (bytes : Bytes) : Reachable H (s.put H fault bytes).2
  | get {s : ChunkStore} (h : Reachable H s) (checksum : Str) : Reachable H (s.get H checksum).2
  | remove {s : ChunkStore} (h : Reachable H s) (fault : Option DiskFault) (checksum : Str) (references : Int) :
    Reachable H (s.remove_if_unreferenced fault checksum references).2
  | files {s : ChunkStore} (h : Reachable H s) (disk : Disk) : Reachable H { s with disk := disk }

namespace ChunkStore

variable {H : HexHash} {s : ChunkStore}

/-- What `get` caches and returns was cached or has been verified. -/
theorem get_mem (c : Str) :
    (∀ b, (s.get H c).1 = .ok b → (c, b) ∈ s.cache.toList ∨ H.hex b = c) ∧
      ∀ p ∈ (s.get H c).2.cache.toList, p ∈ s.cache.toList ∨ H.hex p.2 = p.1 := by
  rcases s.get_cases (H := H) c with ⟨b, cache, heq, hmem, hlist, -⟩ | ⟨-, ⟨b, -, hx, heq⟩ | ⟨-, e, heq⟩⟩
  · rw [heq]
    refine ⟨fun b' hb' => ?_, fun p hp => ?_⟩
    · cases hb'
      exact .inl hmem
    · have hp : p ∈ cache.toList := hp
      rw [hlist] at hp
      rcases List.mem_cons.1 hp with rfl | hp
      · exact .inl hmem
      · exact .inl (List.mem_filter.1 hp).1
  · rw [heq]
    refine ⟨fun b' hb' => ?_, fun p hp => ?_⟩
    · cases hb'
      exact .inr hx
    · rcases LruCache.mem_of_mem_put hp with rfl | hp
      · exact .inr hx
      · exact .inl hp
  · rw [heq]
    refine ⟨fun b hb => ?_, fun p hp => .inl hp⟩
    cases hb

/-- Every cached chunk is under its own hash. -/
theorem Reachable.cached (h : Reachable H s) : ∀ p ∈ s.cache.toList, H.hex p.2 = p.1 := by
  induction h with
  | create root cache_bytes disk => simp [ChunkStore.create]
  | @put s _ fault bytes ih =>
    intro p hp
    rcases s.put_cases H fault bytes with ⟨-, s', heq, -, hcache, -⟩ | ⟨-, -, e, s', heq, -, hcache, -⟩
    · rw [heq, hcache] at hp
      rcases LruCache.mem_of_mem_put hp with rfl | hp
      · rfl
      · exact ih p hp
    · rw [heq, hcache] at hp
      exact ih p hp
  | @get s _ checksum ih =>
    intro p hp
    rcases (get_mem checksum).2 p hp with hp | hx
    · exact ih p hp
    · exact hx
  | @remove s _ fault checksum references ih =>
    intro p hp
    apply ih p
    unfold ChunkStore.remove_if_unreferenced at hp
    split at hp
    · exact hp
    · split at hp <;> exact hp
  | files _ disk ih => exact ih

/-- A store of a running process returns what was asked for. -/
theorem Reachable.hex_get (h : Reachable H s) {c : Str} {b : Bytes} (hb : (s.get H c).1 = .ok b) : H.hex b = c := by
  rcases (get_mem c).1 b hb with hmem | hx
  · exact h.cached _ hmem
  · exact hx

/-- Whatever happens to the files, what is read and what is cached is under its
own hash. -/
theorem local_reads_verified (h : Reachable H s) :
    (∀ c b, (s.get H c).1 = .ok b → H.hex b = c) ∧ ∀ p ∈ s.cache.toList, H.hex p.2 = p.1 :=
  ⟨fun _ _ hb => h.hex_get hb, h.cached⟩

/-- A store whose one chunk has been cut short on disk. -/
def cutStore : ChunkStore :=
  { ((create (lit "/d") 0 fun _ => none).put Sha256.hexHash none (lit "abc")).2 with disk := fun _ => some (lit "ab") }

theorem cutStore_verified :
    (∀ c b, (cutStore.get Sha256.hexHash c).1 = .ok b → Sha256.hexHash.hex b = c) ∧
      ∀ p ∈ cutStore.cache.toList, Sha256.hexHash.hex p.2 = p.1 :=
  local_reads_verified (((Reachable.create _ _ _).put none (lit "abc")).files _)

/-! ## What `put` leaves on disk -/

/-- What `put` stored is there for the next process unless its file was there
already with other bytes, since a file that is there is taken for the chunk, or
was not there and is cut as the stream is destroyed, which nobody notices. -/
theorem put_durable_iff (s : ChunkStore) (fault : Option DiskFault) (b : Bytes) (cache_bytes : Nat) :
    ((s.put H fault b).1.isOk = true →
        ((create s.root cache_bytes (s.put H fault b).2.disk).get H (H.hex b)).1 = .ok b) ↔
      s.file (H.hex b) = some b ∨ (s.file (H.hex b) = none ∧ cutsWrite fault b = false) := by
  have hnew : ∀ s' : ChunkStore, s'.root = s.root →
      (create s.root cache_bytes s'.disk).file (H.hex b) = s'.file (H.hex b) := by
    intro s' hroot
    show s'.disk (Path.resolve (path_for (create s.root cache_bytes s'.disk) _)) = s'.disk (Path.resolve (s'.path_for _))
    unfold path_for
    rw [hroot]
    rfl
  rcases s.put_cases H fault b with ⟨-, s', heq, hroot, -, hfile⟩ | ⟨hno, hstops, e, s', heq, -, -, -⟩
  · rw [heq]
    have hf := (hnew s' hroot).trans (hfile _ (H.digest b))
    rw [if_pos rfl] at hf
    rcases (create s.root cache_bytes s'.disk).get_cases (H := H) (H.hex b) with
      ⟨v, cache, -, hmem, -⟩ | ⟨-, ⟨v, hv, -, hget⟩ | ⟨hbad, e, hget⟩⟩
    · cases hmem
    · rw [hget]
      rw [hf, Option.some.injEq] at hv
      subst hv
      cases hs : s.file (H.hex b) with
      | none => simp [Result.isOk, flushed_eq_iff]
      | some x => simp [Result.isOk]
    · rw [hget]
      cases hs : s.file (H.hex b) with
      | none =>
        rw [hs] at hf
        simp only [Result.isOk, forall_const, reduceCtorEq, false_or, true_and, false_iff]
        intro hwhole
        rw [← flushed_eq_iff] at hwhole
        exact absurd (congrArg H.hex hwhole) (hbad _ hf)
      | some x =>
        rw [hs] at hf
        simp only [Result.isOk, forall_const, reduceCtorEq, false_and, or_false, Option.some.injEq, false_iff]
        rintro rfl
        exact absurd rfl (hbad _ hf)
  · have hwhole : cutsWrite fault b = false := by
      rcases fault with - | (- | n | n | message)
      case some.cannotFlush => cases hstops
      all_goals rfl
    rw [heq]
    exact ⟨fun _ => .inr ⟨hno, hwhole⟩, fun _ h => by cases h⟩

/-- A chunk whose file has been cut short is taken for stored. -/
theorem put_cut_file :
    ((create (lit "/d") 0 fun _ => some (lit "ab")).put Sha256.hexHash none (lit "abc")).1.isOk = true ∧
      ((create (lit "/d") 0 ((create (lit "/d") 0 fun _ => some (lit "ab")).put Sha256.hexHash none (lit "abc")).2.disk).get
        Sha256.hexHash (Sha256.hex (lit "abc"))).1 ≠ .ok (lit "abc") := by
  rw [Sha256.hexHash_eq, Sha256.hex_eq]
  decide +kernel

end ChunkStore

/-! ## With and without the cache -/

/-- A call on a store; `fault` is what the disk does to it. -/
inductive ChunkRequest where
  | put (fault : Option DiskFault) (bytes : Bytes)
  | get (checksum : Str)
  | remove (fault : Option DiskFault) (checksum : Str) (references : Int)
  | exists_ (checksum : Str)

inductive ChunkAnswer where
  | stored (result : Result ChunkRef)
  | read (result : Result Bytes)
  | removed (result : Result Unit)
  | there (found : Bool)
  deriving DecidableEq

namespace ChunkStore

def serve (H : HexHash) : Machine ChunkStore ChunkRequest ChunkAnswer
  | s, .put fault bytes => (.stored (s.put H fault bytes).1, (s.put H fault bytes).2)
  | s, .get checksum => (.read (s.get H checksum).1, (s.get H checksum).2)
  | s, .remove fault checksum references =>
    (.removed (s.remove_if_unreferenced fault checksum references).1, (s.remove_if_unreferenced fault checksum references).2)
  | s, .exists_ checksum => (.there (s.exists_ checksum), s)

end ChunkStore

/-- A chunk store that has no cache: every call goes to the files. -/
structure ChunkFiles where
  root : Str
  disk : Disk

namespace ChunkFiles

def path_for (f : ChunkFiles) (checksum : Str) : Str := Path.div (Path.div f.root (checksum.take 2)) checksum

def put (H : HexHash) (f : ChunkFiles) (fault : Option DiskFault) (bytes : Bytes) : Result ChunkRef × ChunkFiles :=
  let checksum := H.hex bytes
  let path := f.path_for checksum
  let tmp := path ++ lit ".tmp"
  let ref : ChunkRef := ⟨checksum, bytes.length % 2 ^ 64⟩
  if (f.disk (Path.resolve path)).isSome then (.ok ref, f)
  else
    match fault with
    | some .cannotOpen => (.error (.Internal (lit "failed to open chunk temp file")), f)
    | some (.cannotWrite n) =>
      (.error (.Internal (lit "failed to write chunk")), { f with disk := f.disk.write tmp (bytes.take n) })
    | _ => (.ok ref, { f with disk := (f.disk.write tmp (ChunkStore.flushed fault bytes)).rename tmp path })

def get (H : HexHash) (f : ChunkFiles) (checksum : Str) : Result Bytes :=
  match f.disk (Path.resolve (f.path_for checksum)) with
  | none => .error (.NotFound (lit "chunk not found: " ++ checksum))
  | some bytes =>
    if H.hex bytes ≠ checksum then .error (.Internal (lit "chunk checksum mismatch: " ++ checksum)) else .ok bytes

def remove_if_unreferenced (f : ChunkFiles) (fault : Option DiskFault) (checksum : Str) (references : Int) :
    Result Unit × ChunkFiles :=
  if references > 0 then (.ok (), f)
  else
    match fault with
    | some (.cannotRemove message) => (.error (.Internal (lit "failed to remove chunk: " ++ message)), f)
    | _ => (.ok (), { f with disk := f.disk.remove (f.path_for checksum) })

def exists_ (f : ChunkFiles) (checksum : Str) : Bool := (f.disk (Path.resolve (f.path_for checksum))).isSome

def serve (H : HexHash) : Machine ChunkFiles ChunkRequest ChunkAnswer
  | f, .put fault bytes => (.stored (f.put H fault bytes).1, (f.put H fault bytes).2)
  | f, .get checksum => (.read (f.get H checksum), f)
  | f, .remove fault checksum references =>
    (.removed (f.remove_if_unreferenced fault checksum references).1, (f.remove_if_unreferenced fault checksum references).2)
  | f, .exists_ checksum => (.there (f.exists_ checksum), f)

end ChunkFiles

namespace ChunkStore

variable {H : HexHash} {s : ChunkStore}

/-- The files of a store. -/
def files (s : ChunkStore) : ChunkFiles := ⟨s.root, s.disk⟩

theorem put_files (s : ChunkStore) (fault : Option DiskFault) (b : Bytes) :
    (s.put H fault b).1 = (s.files.put H fault b).1 ∧ (s.put H fault b).2.files = (s.files.put H fault b).2 := by
  unfold ChunkStore.put ChunkFiles.put
  by_cases h : (s.disk (Path.resolve (s.path_for (H.hex b)))).isSome = true
  · simp only
    rw [if_pos h, if_pos (show (s.files.disk (Path.resolve (s.files.path_for (H.hex b)))).isSome = true from h)]
    exact ⟨rfl, rfl⟩
  · simp only
    rw [if_neg h, if_neg (show ¬ (s.files.disk (Path.resolve (s.files.path_for (H.hex b)))).isSome = true from h)]
    rcases fault with - | (- | n | n | message) <;> exact ⟨rfl, rfl⟩

theorem remove_files (s : ChunkStore) (fault : Option DiskFault) (c : Str) (references : Int) :
    (s.remove_if_unreferenced fault c references).1 = (s.files.remove_if_unreferenced fault c references).1 ∧
      (s.remove_if_unreferenced fault c references).2.files = (s.files.remove_if_unreferenced fault c references).2 := by
  unfold ChunkStore.remove_if_unreferenced ChunkFiles.remove_if_unreferenced
  split
  · exact ⟨rfl, rfl⟩
  · rcases fault with - | (- | n | n | message) <;> exact ⟨rfl, rfl⟩

theorem get_files (s : ChunkStore) (c : Str) : (s.get H c).2.files = s.files := by
  rcases s.get_cases (H := H) c with ⟨b, cache, heq, -⟩ | ⟨-, ⟨b, -, -, heq⟩ | ⟨-, e, heq⟩⟩ <;> rw [heq] <;> rfl

theorem files_get_none {c : Str} (h : s.file c = none) :
    s.files.get H c = .error (.NotFound (lit "chunk not found: " ++ c)) := by
  have hdisk : s.files.disk (Path.resolve (s.files.path_for c)) = none := h
  unfold ChunkFiles.get
  rw [hdisk]

theorem files_get_some {c : Str} {b : Bytes} (h : s.file c = some b) : s.files.get H c =
    if H.hex b ≠ c then .error (.Internal (lit "chunk checksum mismatch: " ++ c)) else .ok b := by
  have hdisk : s.files.disk (Path.resolve (s.files.path_for c)) = some b := h
  unfold ChunkFiles.get
  rw [hdisk]

theorem files_get_eq_ok (s : ChunkStore) (c : Str) (b : Bytes) :
    s.files.get H c = .ok b ↔ s.file c = some b ∧ H.hex b = c := by
  cases hf : s.file c with
  | none => simp [files_get_none hf]
  | some x =>
    rw [files_get_some hf, Option.some.injEq]
    by_cases hx : H.hex x = c
    · rw [if_neg (not_not.2 hx)]
      constructor
      · intro h
        cases h
        exact ⟨rfl, hx⟩
      · rintro ⟨rfl, -⟩
        rfl
    · rw [if_pos hx]
      constructor
      · intro h
        cases h
      · rintro ⟨rfl, h⟩
        exact absurd h hx

theorem get_of_not_cached {c : Str} (h : ∀ b, (c, b) ∉ s.cache.toList) : (s.get H c).1 = s.files.get H c := by
  have hfile : s.disk (Path.resolve (s.path_for c)) = s.file c := rfl
  rcases s.cache.get_cases c with ⟨h1, -, -⟩ | ⟨b, -, h2, -⟩
  · unfold ChunkStore.get
    rw [← Prod.eta (s.cache.get c), h1]
    simp only [hfile]
    cases hf : s.file c with
    | none => rw [files_get_none hf]
    | some b =>
      rw [files_get_some hf]
      simp only
      split <;> rfl
  · exact absurd h2 (h b)

/-- The file of a cached chunk that is asked for has its bytes. -/
def Current (s : ChunkStore) : ChunkRequest → Prop
  | .get checksum => ∀ p ∈ s.cache.toList, p.1 = checksum → s.file checksum = some p.2
  | _ => True

instance (s : ChunkStore) : ∀ q, Decidable (s.Current q)
  | .get checksum => inferInstanceAs (Decidable (∀ p ∈ s.cache.toList, p.1 = checksum → s.file checksum = some p.2))
  | .put _ _ | .remove _ _ _ | .exists_ _ => inferInstanceAs (Decidable True)

/-- A `get` answers like the files exactly when it is current. -/
theorem Reachable.get_eq_files_iff (h : Reachable H s) (c : Str) :
    (s.get H c).1 = s.files.get H c ↔ s.Current (.get c) := by
  by_cases hc : ∃ b, (c, b) ∈ s.cache.toList
  · obtain ⟨b, hb⟩ := hc
    have hone : ∀ b', (c, b') ∈ s.cache.toList → b' = b := fun b' hb' => s.cache.eq_of_mem hb' hb
    rcases s.get_cases (H := H) c with ⟨b', cache, heq, hmem, -⟩ | ⟨hnot, -⟩
    · obtain rfl := hone b' hmem
      rw [heq]
      show .ok b' = s.files.get H c ↔ _
      rw [eq_comm, files_get_eq_ok]
      constructor
      · rintro ⟨hf, -⟩ p hp rfl
        rwa [hone p.2 hp]
      · intro hcur
        exact ⟨hcur _ hmem rfl, h.cached _ hmem⟩
    · exact absurd hb (hnot b)
  · rw [not_exists] at hc
    refine ⟨fun _ p hp hk => ?_, fun _ => get_of_not_cached hc⟩
    subst hk
    exact absurd hp (hc p.2)

theorem Reachable.serve (h : Reachable H s) (q : ChunkRequest) : Reachable H (serve H s q).2 := by
  cases q with
  | put fault b => exact h.put fault b
  | get c => exact h.get c
  | remove fault c references => exact h.remove fault c references
  | exists_ c => exact h

/-- With its cache a store answers like its files as long as what is asked for
is current. -/
theorem serve_refines (H : HexHash) : (serve H).Refines (ChunkFiles.serve H) Current
    (fun s f => Reachable H s ∧ f = s.files) (fun x y => x = y) := by
  rintro s f q ⟨hs, rfl⟩ hq
  cases q with
  | put fault b =>
    obtain ⟨h1, h2⟩ := s.put_files (H := H) fault b
    exact ⟨congrArg ChunkAnswer.stored h1, hs.serve (.put fault b), h2.symm⟩
  | get c => exact ⟨congrArg ChunkAnswer.read ((hs.get_eq_files_iff c).2 hq), hs.serve (.get c), (s.get_files c).symm⟩
  | remove fault c references =>
    obtain ⟨h1, h2⟩ := s.remove_files fault c references
    exact ⟨congrArg ChunkAnswer.removed h1, hs.serve (.remove fault c references), h2.symm⟩
  | exists_ c => exact ⟨rfl, hs, rfl⟩

/-- A `get` that is not current gives itself away. -/
theorem serve_breaks (s : ChunkStore) (f : ChunkFiles) (q : ChunkRequest) (hr : Reachable H s ∧ f = s.files)
    (hq : ¬ s.Current q) : (serve H s q).1 ≠ (ChunkFiles.serve H f q).1 := by
  obtain ⟨hs, rfl⟩ := hr
  cases q with
  | get c =>
    intro h
    exact hq ((hs.get_eq_files_iff c).1 (ChunkAnswer.read.inj h))
  | put fault b => exact absurd trivial hq
  | remove fault c references => exact absurd trivial hq
  | exists_ c => exact absurd trivial hq

/-! ## Intact files -/

/-- No file is cut without notice. -/
def Whole : ChunkRequest → Prop
  | .put fault bytes => cutsWrite fault bytes = false
  | _ => True

/-- Every chunk file has the chunk it is named after. -/
def Intact (H : HexHash) (s : ChunkStore) : Prop := ∀ c, Digest c → ∀ b, s.file c = some b → H.hex b = c

theorem Intact.serve (h : s.Intact H) {q : ChunkRequest} (hq : Whole q) : (serve H s q).2.Intact H := by
  intro c hc x hx
  cases q with
  | put fault b =>
    have hx : (s.put H fault b).2.file c = some x := hx
    rcases s.put_cases H fault b with ⟨-, s', heq, -, -, hfile⟩ | ⟨-, -, e, s', heq, -, -, hfile⟩
    · rw [heq, hfile c hc] at hx
      split at hx
      · rename_i hcb
        subst hcb
        cases hf : s.file (H.hex b) with
        | none =>
          rw [hf, flushed_eq_iff.2 hq] at hx
          obtain rfl : b = x := Option.some.inj hx
          rfl
        | some y =>
          rw [hf] at hx
          obtain rfl : y = x := Option.some.inj hx
          exact h _ hc y hf
      · exact h c hc x hx
    · rw [heq, hfile c hc] at hx
      exact h c hc x hx
  | get c' =>
    have hx : (s.get H c').2.file c = some x := hx
    rw [get_file] at hx
    exact h c hc x hx
  | remove fault c' references =>
    have hx : (s.remove_if_unreferenced fault c' references).2.file c = some x := hx
    refine h c hc x ?_
    unfold ChunkStore.remove_if_unreferenced at hx
    split at hx
    · exact hx
    · -- whatever file that was, it has gone
      have hgone : ∀ d : Disk, d = s.disk.remove (s.path_for c') → d (Path.resolve (s.path_for c)) = some x →
          s.file c = some x := by
        rintro d rfl hd
        unfold Disk.remove Disk.set at hd
        split at hd
        · cases hd
        · exact hd
      rcases fault with - | (- | n | n | message)
      case some.cannotRemove => exact hx
      all_goals exact hgone _ rfl hx
  | exists_ c' => exact h c hc x hx

/-- On intact files a current `get` succeeds exactly when the file is there. -/
theorem Intact.get_isOk_iff (h : s.Intact H) (hs : Reachable H s) {c : Str} (hc : Digest c) (hcur : s.Current (.get c)) :
    (s.get H c).1.isOk = true ↔ s.exists_ c = true := by
  rw [(hs.get_eq_files_iff c).2 hcur]
  show _ ↔ (s.file c).isSome = true
  cases hf : s.file c with
  | none =>
    rw [files_get_none hf]
    simp [Result.isOk]
  | some b =>
    rw [(files_get_eq_ok s c b).2 ⟨hf, h c hc b hf⟩]
    simp [Result.isOk]

/-- Over intact files a store answers as without a cache exactly when no `get`
asks for a cached chunk whose file has not its bytes; and then, on a disk that
cuts no file without notice, `get` succeeds for the chunks that exist. -/
theorem cache_transparent_iff (H : HexHash) (root : Str) (cache_bytes : Nat) (disk : Disk)
    (hdisk : (create root cache_bytes disk).Intact H) (requests : List ChunkRequest) :
    ((serve H).responses (create root cache_bytes disk) requests = (ChunkFiles.serve H).responses ⟨root, disk⟩ requests ↔
      Run.Legal Current (serve H).next (create root cache_bytes disk) requests) ∧
    (Run.Legal Current (serve H).next (create root cache_bytes disk) requests → (∀ q ∈ requests, Whole q) →
      ∀ t c, requests[t]? = some (.get c) → Digest c →
        (((Run.stateAfter (serve H).next (create root cache_bytes disk) requests t).get H c).1.isOk = true ↔
          (Run.stateAfter (serve H).next (create root cache_bytes disk) requests t).exists_ c = true)) := by
  have hstart : Reachable H (create root cache_bytes disk) := .create _ _ _
  constructor
  · rw [← (serve_refines H).responses_match_iff serve_breaks ⟨hstart, rfl⟩, List.forall₂_eq_eq_eq]
    rfl
  · intro hlegal hwhole t c ht hc
    have hinv := Run.stateAfter_inv (fun s => Reachable H s ∧ s.Intact H) (serve H).next ⟨hstart, hdisk⟩
      (fun s q hq hs => ⟨hs.1.serve q, hs.2.serve (hwhole q hq)⟩) t
    exact hinv.2.get_isOk_iff hinv.1 hc (hlegal.guard ht)

theorem empty_intact (root : Str) (cache_bytes : Nat) : (create root cache_bytes fun _ => none).Intact H := by
  intro c _ b hb
  cases hb

theorem cache_transparent_abc :
    (serve Sha256.hexHash).responses (create (lit "/d") 0 fun _ => none)
        [.put none (lit "abc"), .get (Sha256.hex (lit "abc"))] =
      (ChunkFiles.serve Sha256.hexHash).responses ⟨lit "/d", fun _ => none⟩
        [.put none (lit "abc"), .get (Sha256.hex (lit "abc"))] :=
  (cache_transparent_iff Sha256.hexHash (lit "/d") 0 (fun _ => none) (empty_intact _ _)
    [.put none (lit "abc"), .get (Sha256.hex (lit "abc"))]).1.2 (by rw [Sha256.hexHash_eq, Sha256.hex_eq]; decide +kernel)

/-- A chunk that has been removed is read from the cache. -/
theorem removed_chunk_read :
    (create (lit "/d") 0 fun _ => none).Intact Sha256.hexHash ∧
      (serve Sha256.hexHash).responses (create (lit "/d") 0 fun _ => none)
          [.put none (lit "abc"), .remove none (Sha256.hex (lit "abc")) 0, .get (Sha256.hex (lit "abc"))] ≠
        (ChunkFiles.serve Sha256.hexHash).responses ⟨lit "/d", fun _ => none⟩
          [.put none (lit "abc"), .remove none (Sha256.hex (lit "abc")) 0, .get (Sha256.hex (lit "abc"))] :=
  ⟨empty_intact _ _, by rw [Sha256.hexHash_eq, Sha256.hex_eq]; decide +kernel⟩

/-! ## The size of the cache -/

/-- The payload of the cache. -/
def cachedBytes (s : ChunkStore) : Nat := (s.cache.toList.map fun p => p.2.length).sum

/-- The chunk that is put or read from its file has at most `n` bytes. -/
def AtMost (n : Nat) (s : ChunkStore) : ChunkRequest → Prop
  | .put _ bytes => bytes.length ≤ n
  | .get checksum => ∀ b, s.file checksum = some b → b.length ≤ n
  | _ => True

/-- A cache of `m` chunks of at most `n` bytes. -/
structure Fits (m n : Nat) (s : ChunkStore) : Prop where
  capacity : s.cache.capacity = m
  length : s.cache.toList.length ≤ m
  sizes : ∀ p ∈ s.cache.toList, p.2.length ≤ n

theorem Fits.cachedBytes_le {m n : Nat} (h : s.Fits m n) : s.cachedBytes ≤ m * n := by
  have hsum : s.cachedBytes ≤ (s.cache.toList.map fun p => p.2.length).length • n := by
    refine List.sum_le_card_nsmul _ n fun x hx => ?_
    obtain ⟨p, hp, rfl⟩ := List.mem_map.1 hx
    exact h.sizes p hp
  rw [List.length_map, smul_eq_mul] at hsum
  exact hsum.trans (Nat.mul_le_mul_right n h.length)

theorem Fits.cache_put {m n : Nat} (h : s.Fits m n) {s' : ChunkStore} {c : Str} {b : Bytes}
    (hs' : s'.cache = s.cache.put c b) (hb : b.length ≤ n) : s'.Fits m n where
  capacity := by rw [hs', LruCache.put_capacity, h.capacity]
  length := by
    rw [hs', LruCache.put_toList, ← h.capacity]
    exact List.length_take_le _ _
  sizes p hp := by
    rw [hs'] at hp
    rcases LruCache.mem_of_mem_put hp with rfl | hp
    · exact hb
    · exact h.sizes p hp

theorem Fits.serve {m n : Nat} (h : s.Fits m n) {q : ChunkRequest} (hq : s.AtMost n q) : (serve H s q).2.Fits m n := by
  cases q with
  | put fault b =>
    show (s.put H fault b).2.Fits m n
    rcases s.put_cases H fault b with ⟨-, s', heq, -, hcache, -⟩ | ⟨-, -, e, s', heq, -, hcache, -⟩
    · rw [heq]
      exact h.cache_put hcache hq
    · rw [heq]
      exact ⟨hcache ▸ h.capacity, hcache ▸ h.length, hcache ▸ h.sizes⟩
  | get c =>
    show (s.get H c).2.Fits m n
    rcases s.get_cases (H := H) c with ⟨b, cache, heq, hmem, hlist, hcap⟩ | ⟨-, ⟨b, hf, -, heq⟩ | ⟨-, e, heq⟩⟩
    · rw [heq]
      refine ⟨hcap.trans h.capacity, ?_, fun p hp => ?_⟩
      · show cache.toList.length ≤ m
        have hlt : (s.cache.toList.filter fun p => p.1 ≠ c).length < s.cache.toList.length :=
          List.length_filter_lt_length_iff_exists.2 ⟨(c, b), hmem, by simp⟩
        have := h.length
        rw [hlist, List.length_cons]
        omega
      · have hp : p ∈ cache.toList := hp
        rw [hlist] at hp
        rcases List.mem_cons.1 hp with rfl | hp
        · exact h.sizes _ hmem
        · exact h.sizes p (List.mem_filter.1 hp).1
    · rw [heq]
      exact h.cache_put rfl (hq b hf)
    · rw [heq]
      exact h
  | remove fault c references =>
    have hcache : (s.remove_if_unreferenced fault c references).2.cache = s.cache := by
      unfold ChunkStore.remove_if_unreferenced
      split
      · rfl
      · rcases fault with _ | _ | n | message <;> rfl
    exact ⟨hcache ▸ h.capacity, hcache ▸ h.length, hcache ▸ h.sizes⟩
  | exists_ c => exact h

theorem put_cache (s : ChunkStore) (b : Bytes) : (s.put H none b).2.cache = s.cache.put (H.hex b) b := by
  rcases s.put_cases H none b with ⟨-, s', heq, -, hcache, -⟩ | ⟨-, hfault, -⟩
  · rw [heq, hcache]
  · cases hfault

/-- Chunks of different hashes are all in the cache after they were put, if
there is room for their number. -/
theorem sum_le_cachedBytes (s : ChunkStore) {chunks : List Bytes} (hn : (chunks.map H.hex).Nodup)
    (hlen : chunks.length ≤ s.cache.capacity) :
    (chunks.map List.length).sum ≤ ((chunks.map (ChunkRequest.put none)).foldl (serve H).next s).cachedBytes := by
  have hcache : ∀ (chunks : List Bytes) (s : ChunkStore),
      ((chunks.map (ChunkRequest.put none)).foldl (serve H).next s).cache =
        s.cache.putAll (chunks.map fun b => (H.hex b, b)) := by
    intro chunks
    induction chunks with
    | nil => intro s; rfl
    | cons b chunks ih =>
      intro s
      rw [List.map_cons, List.foldl_cons, ih, List.map_cons, LruCache.putAll_cons]
      exact congrArg (LruCache.putAll · _) (s.put_cache b)
  have hkeys : (chunks.map fun b => (H.hex b, b)).map Prod.fst = chunks.map H.hex := by
    rw [List.map_map]
    rfl
  obtain ⟨rest, hrest⟩ := s.cache.putAll_isPrefix (hkeys ▸ hn) (by rwa [List.length_map])
  have hsizes : ((chunks.map fun b => (H.hex b, b)).map fun p => p.2.length) = chunks.map List.length := by
    rw [List.map_map]
    rfl
  rw [cachedBytes, hcache, ← hrest, List.map_append, List.sum_append, List.map_reverse, List.sum_reverse, hsizes]
  exact Nat.le_add_right _ _

/-- The cache makes room for `cache_bytes / 4096 + 1` chunks. It keeps to its
budget when all of them together do, and no larger chunks are handled: then in
every run; with larger ones, not in the run that puts as many. -/
theorem cached_bytes_le (H : HexHash) (root : Str) (cache_bytes : Nat) (disk : Disk) (n : Nat) :
    ((cache_bytes / 4096 + 1) * n ≤ cache_bytes →
      ∀ (r : Run (Guarded (AtMost n) fun s q s' => s' = (serve H).next s q) (create root cache_bytes disk)) (t : Nat),
        (r.state t).cachedBytes ≤ cache_bytes) ∧
    (cache_bytes < (cache_bytes / 4096 + 1) * n →
      ∀ chunks : List Bytes, chunks.length = cache_bytes / 4096 + 1 → (∀ b ∈ chunks, b.length = n) →
        (chunks.map H.hex).Nodup →
        cache_bytes < ((chunks.map (ChunkRequest.put none)).foldl (serve H).next
          (create root cache_bytes disk)).cachedBytes) := by
  constructor
  · intro hn r t
    have hfits := r.inv (Fits (cache_bytes / 4096 + 1) n) ⟨rfl, Nat.zero_le _, by simp [create]⟩ (by
      rintro s q s' hs ⟨hq, rfl⟩
      exact hs.serve hq) t
    exact hfits.cachedBytes_le.trans hn
  · intro hn chunks hlen hsize hnd
    have hsum : (chunks.map List.length).sum = (cache_bytes / 4096 + 1) * n := by
      rw [List.map_congr_left hsize, List.map_const', List.sum_replicate, hlen, smul_eq_mul]
    have := (create root cache_bytes disk).sum_le_cachedBytes hnd (Nat.le_of_eq hlen)
    omega

/-- A chunk of 4096 bytes. -/
def page : Bytes := List.replicate 4096 0

theorem page_length : page.length = 4096 := List.length_replicate

/-- Beside a chunk of the whole budget there is room for one byte more; the
second pair is there in case the two chunks of the first one have one hash. -/
theorem page_overruns :
    page.length = 4096 ∧ ∃ t, 4096 < (Run.stateAfter (serve Sha256.hexHash).next (create (lit "/d") 4096 fun _ => none)
      [.put none page, .put none [1], .put none page, .put none [2]] t).cachedBytes := by
  refine ⟨page_length, ?_⟩
  have hsum : ∀ b : Bytes, b.length = 1 → ([page, b].map List.length).sum = 4097 := by
    intro b hb
    simp [hb, page_length]
  by_cases h : Sha256.hexHash.hex page = Sha256.hexHash.hex [1]
  · refine ⟨4, ?_⟩
    have hne : Sha256.hexHash.hex [1] ≠ Sha256.hexHash.hex [2] := by decide +kernel
    have hnd : ([page, [2]].map Sha256.hexHash.hex).Nodup := by
      rw [List.map_cons, List.map_cons, h]
      simpa using hne
    have hcap : ∀ s b, ((serve Sha256.hexHash).next s (.put none b)).cache.capacity = s.cache.capacity := by
      intro s b
      show (s.put Sha256.hexHash none b).2.cache.capacity = _
      rw [put_cache, LruCache.put_capacity]
    have hle := sum_le_cachedBytes (H := Sha256.hexHash) ((serve Sha256.hexHash).next ((serve Sha256.hexHash).next
      (create (lit "/d") 4096 fun _ => none) (.put none page)) (.put none [1])) hnd (by
        rw [hcap, hcap]
        exact Nat.le_refl 2)
    rw [hsum [2] rfl] at hle
    exact hle
  · refine ⟨2, ?_⟩
    have hnd : ([page, [1]].map Sha256.hexHash.hex).Nodup := by simpa using h
    have hle := sum_le_cachedBytes (H := Sha256.hexHash) (create (lit "/d") 4096 fun _ => none) hnd (Nat.le_refl 2)
    rw [hsum [1] rfl] at hle
    exact hle

end ChunkStore

end Dstore
