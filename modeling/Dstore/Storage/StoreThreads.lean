import Dstore.Lib.Files
import Dstore.Lib.Inevitable
import Dstore.Storage.ChunkCache
/-!
# A chunk store and its threads

`ChunkStore` call by call of the cache and the file system, for threads that
share it. `put` and `remove_if_unreferenced` hold `mu_`; `get` does not, so it
reads files while others write and remove them, and the process may be gone
between any two calls. The cache has a lock of its own, which makes each call of
it one step.

A call that nobody comes in between is that of `ChunkStore` (`serve_alone`);
`Storage.StoreRuns` is about calls that overlap. As in `ChunkStore`, a disk that
fails is noticed while `put` writes (`cannotWrite`), or not at all: what the
stream still holds when it is destroyed, up to all of a small chunk, is written
after the check (`cannotFlush`), and the temporary file is renamed as it is.
What has been written outlives the process.
-/
open Dstore.Lib

namespace Dstore

namespace StoreThreads

/-- What the threads share. -/
structure Shared where
  files : Files (List Str) UInt8
  cache : LruCache Str Bytes
  /-- Somebody has `mu_`. -/
  locked : Bool := false

/-- Where a thread is in its call. -/
inductive Stage where
  | called
  /-- It has the lock. -/
  | locked
  /-- The temporary file is open, with the first bytes in it. -/
  | writing (file : Nat) (written : Nat)
  /-- The temporary file is closed. -/
  | written
  /-- The file of the chunk is there. -/
  | stored
  /-- The chunk is not in the cache. -/
  | missed
  /-- Its file is open, and the first bytes have been read. -/
  | reading (file : Nat) (bytes : Bytes)
  /-- What was read has the right checksum. -/
  | verified (bytes : Bytes)
  | answered (answer : ChunkAnswer)
  /-- The process was gone before the answer. -/
  | lost
  deriving DecidableEq

deriving instance DecidableEq for ChunkRequest

/-- The stages inside the lock. -/
def Stage.holds : Stage → Bool
  | .locked | .writing _ _ | .written | .stored => true
  | _ => false

section Defs
variable (H : HexHash) (root : Str)

/-- The store that the files and the cache make. -/
def Shared.store (s : Shared) : ChunkStore := ⟨root, s.files.read, s.cache⟩

def chunkPath (checksum : Str) : List Str := Path.resolve (Path.div (Path.div root (checksum.take 2)) checksum)

def tmpPath (checksum : Str) : List Str :=
  Path.resolve (Path.div (Path.div root (checksum.take 2)) checksum ++ lit ".tmp")

/-- How much is written before the disk fails. -/
def writable (fault : Option DiskFault) (bytes : Bytes) : Nat :=
  match fault with
  | some (.cannotWrite n) | some (.cannotFlush n) => min n bytes.length
  | _ => bytes.length

/-- The next step of a call. A thread that waits for the lock cannot take one;
of a file, `count` bytes are read or written at most. -/
def step (count : Nat) (s : Shared) : ChunkRequest → Stage → Option (Stage × Shared)
  | .put _ _, .called => if s.locked then none else some (.locked, { s with locked := true })
  | .put fault bytes, .locked =>
    if (s.files.names (chunkPath root (H.hex bytes))).isSome then some (.stored, s)
    else if fault = some .cannotOpen then
      some (.answered (.stored (.error (.Internal (lit "failed to open chunk temp file")))), { s with locked := false })
    else
      let (file, files) := s.files.openTruncated (tmpPath root (H.hex bytes))
      some (.writing file 0, { s with files })
  | .put fault bytes, .writing file written =>
    if written < writable fault bytes then
      let more := (bytes.drop written).take (min count (writable fault bytes - written))
      some (.writing file (written + more.length), { s with files := s.files.append file more })
    else
      match fault with
      | some (.cannotWrite _) =>
        some (.answered (.stored (.error (.Internal (lit "failed to write chunk")))), { s with locked := false })
      | _ => some (.written, s)
  | .put _ bytes, .written =>
    some (.stored, { s with files := s.files.rename (tmpPath root (H.hex bytes)) (chunkPath root (H.hex bytes)) })
  | .put _ bytes, .stored =>
    some (.answered (.stored (.ok ⟨H.hex bytes, bytes.length % 2 ^ 64⟩)),
      { s with cache := s.cache.put (H.hex bytes) bytes, locked := false })
  | .get checksum, .called =>
    match s.cache.get checksum with
    | (some cached, cache) => some (.answered (.read (.ok cached)), { s with cache })
    | (none, _) => some (.missed, s)
  | .get checksum, .missed =>
    match s.files.names (chunkPath root checksum) with
    | none => some (.answered (.read (.error (.NotFound (lit "chunk not found: " ++ checksum)))), s)
    | some file => some (.reading file [], s)
  | .get checksum, .reading file bytes =>
    if bytes.length < (s.files.content file).length then
      some (.reading file (bytes ++ ((s.files.content file).drop bytes.length).take count), s)
    else if H.hex bytes ≠ checksum then
      some (.answered (.read (.error (.Internal (lit "chunk checksum mismatch: " ++ checksum)))), s)
    else some (.verified bytes, s)
  | .get checksum, .verified bytes =>
    some (.answered (.read (.ok bytes)), { s with cache := s.cache.put checksum bytes })
  | .remove _ _ references, .called =>
    if references > 0 then some (.answered (.removed (.ok ())), s)
    else if s.locked then none
    else some (.locked, { s with locked := true })
  | .remove fault checksum _, .locked =>
    match fault with
    | some (.cannotRemove message) =>
      some (.answered (.removed (.error (.Internal (lit "failed to remove chunk: " ++ message)))),
        { s with locked := false })
    | _ => some (.answered (.removed (.ok ())), { s with files := s.files.unlink (chunkPath root checksum), locked := false })
  | .exists_ checksum, .called =>
    some (.answered (.there (s.files.names (chunkPath root checksum)).isSome), s)
  | _, _ => none

/-- What a step can do, with what has to hold for it. -/
inductive Moves (s : Shared) : ChunkRequest → Stage → Stage → Shared → Prop
  | lock {fault : Option DiskFault} {bytes : Bytes} : s.locked = false →
      Moves s (.put fault bytes) .called .locked { s with locked := true }
  | present {fault : Option DiskFault} {bytes : Bytes} : (s.files.names (chunkPath root (H.hex bytes))).isSome →
      Moves s (.put fault bytes) .locked .stored s
  | cannotOpen {fault : Option DiskFault} {bytes : Bytes} (status : Status) :
      Moves s (.put fault bytes) .locked (.answered (.stored (.error status))) { s with locked := false }
  | openTmp {fault : Option DiskFault} {bytes : Bytes} {file : Nat} {files : Files (List Str) UInt8} :
      s.files.openTruncated (tmpPath root (H.hex bytes)) = (file, files) →
      Moves s (.put fault bytes) .locked (.writing file 0) { s with files }
  | write {fault : Option DiskFault} {bytes : Bytes} {file written : Nat} (k : Nat) :
      Moves s (.put fault bytes) (.writing file written) (.writing file (written + ((bytes.drop written).take k).length))
        { s with files := s.files.append file ((bytes.drop written).take k) }
  | cannotWrite {fault : Option DiskFault} {bytes : Bytes} {file written : Nat} (status : Status) :
      Moves s (.put fault bytes) (.writing file written) (.answered (.stored (.error status))) { s with locked := false }
  | close {fault : Option DiskFault} {bytes : Bytes} {file written : Nat} : writable fault bytes ≤ written →
      (∀ n, fault ≠ some (.cannotWrite n)) → Moves s (.put fault bytes) (.writing file written) .written s
  | rename {fault : Option DiskFault} {bytes : Bytes} :
      Moves s (.put fault bytes) .written .stored
        { s with files := s.files.rename (tmpPath root (H.hex bytes)) (chunkPath root (H.hex bytes)) }
  | finish {fault : Option DiskFault} {bytes : Bytes} (ref : ChunkRef) :
      Moves s (.put fault bytes) .stored (.answered (.stored (.ok ref)))
        { s with cache := s.cache.put (H.hex bytes) bytes, locked := false }
  | hit {checksum : Str} {cached : Bytes} {cache : LruCache Str Bytes} : s.cache.get checksum = (some cached, cache) →
      Moves s (.get checksum) .called (.answered (.read (.ok cached))) { s with cache }
  | miss {checksum : Str} : Moves s (.get checksum) .called .missed s
  | absent {checksum : Str} (status : Status) : s.files.names (chunkPath root checksum) = none →
      Moves s (.get checksum) .missed (.answered (.read (.error status))) s
  | opened {checksum : Str} {file : Nat} : s.files.names (chunkPath root checksum) = some file →
      Moves s (.get checksum) .missed (.reading file []) s
  | more {checksum : Str} {file : Nat} {bytes : Bytes} (k : Nat) :
      Moves s (.get checksum) (.reading file bytes)
        (.reading file (bytes ++ ((s.files.content file).drop bytes.length).take k)) s
  | mismatch {checksum : Str} {file : Nat} {bytes : Bytes} (status : Status) :
      (s.files.content file).length ≤ bytes.length → H.hex bytes ≠ checksum →
      Moves s (.get checksum) (.reading file bytes) (.answered (.read (.error status))) s
  | verify {checksum : Str} {file : Nat} {bytes : Bytes} : H.hex bytes = checksum →
      Moves s (.get checksum) (.reading file bytes) (.verified bytes) s
  | keep {checksum : Str} {bytes : Bytes} :
      Moves s (.get checksum) (.verified bytes) (.answered (.read (.ok bytes)))
        { s with cache := s.cache.put checksum bytes }
  | referenced {fault : Option DiskFault} {checksum : Str} {references : Int} :
      Moves s (.remove fault checksum references) .called (.answered (.removed (.ok ()))) s
  | lockRemove {fault : Option DiskFault} {checksum : Str} {references : Int} : s.locked = false →
      Moves s (.remove fault checksum references) .called .locked { s with locked := true }
  | cannotRemove {fault : Option DiskFault} {checksum : Str} {references : Int} (status : Status) :
      Moves s (.remove fault checksum references) .locked (.answered (.removed (.error status))) { s with locked := false }
  | unlink {fault : Option DiskFault} {checksum : Str} {references : Int} :
      Moves s (.remove fault checksum references) .locked (.answered (.removed (.ok ())))
        { s with files := s.files.unlink (chunkPath root checksum), locked := false }
  | look {checksum : Str} (found : Bool) : Moves s (.exists_ checksum) .called (.answered (.there found)) s

end Defs

variable {H : HexHash} {root : Str}

theorem moves_of_step {count : Nat} {s s' : Shared} {q : ChunkRequest} {st st' : Stage}
    (h : step H root count s q st = some (st', s')) : Moves H root s q st st' s' := by
  cases q with
  | put fault bytes =>
    cases st with
    | called =>
      rw [step] at h
      split at h <;> cases h
      exact .lock (Bool.eq_false_iff.2 ‹_›)
    | locked =>
      rw [step] at h
      split at h
      · cases h
        exact .present ‹_›
      · split at h
        · cases h
          exact .cannotOpen _
        · cases h
          exact .openTmp rfl
    | writing file written =>
      rcases fault with - | (- | n | n | message)
      all_goals
        simp only [step] at h
        split at h
        · cases h
          exact .write _
        · cases h
          first
          | exact .cannotWrite _
          | exact .close (Nat.le_of_not_lt ‹_›) fun _ => by simp
    | written => cases h; exact .rename
    | stored => cases h; exact .finish _
    | _ => cases h
  | get checksum =>
    cases st with
    | called =>
      rw [step] at h
      split at h <;> cases h
      · exact .hit ‹_›
      · exact .miss
    | missed =>
      rw [step] at h
      split at h <;> cases h
      · exact .absent _ ‹_›
      · exact .opened ‹_›
    | reading file bytes =>
      rw [step] at h
      split at h
      · cases h
        exact .more _
      · split at h <;> cases h
        · exact .mismatch _ (Nat.le_of_not_lt ‹_›) ‹_›
        · exact .verify (not_not.1 ‹_›)
    | verified bytes => cases h; exact .keep
    | _ => cases h
  | remove fault checksum references =>
    cases st with
    | called =>
      rw [step] at h
      split at h
      · cases h
        exact .referenced
      · split at h <;> cases h
        exact .lockRemove (Bool.eq_false_iff.2 ‹_›)
    | locked =>
      rcases fault with - | (- | n | n | message)
      all_goals
        simp only [step] at h
        cases h
        first
        | exact .cannotRemove _
        | exact .unlink
    | _ => cases h
  | exists_ checksum =>
    cases st with
    | called => cases h; exact .look _
    | _ => cases h

/-- Of a write that is not refused everything is in the file, but for what the
flush cuts. -/
theorem take_writable {fault : Option DiskFault} (h : ∀ n, fault ≠ some (.cannotWrite n)) (bytes : Bytes) :
    bytes.take (writable fault bytes) = ChunkStore.flushed fault bytes := by
  rcases fault with - | (- | n | n | message)
  case some.cannotWrite => exact absurd rfl (h n)
  case some.cannotFlush => exact List.take_eq_take_min.symm
  all_goals exact List.take_length

/-! ## Names -/

theorem chunkPath_inj {c c' : Str} (h : Digest c) (h' : Digest c') (he : chunkPath root c = chunkPath root c') : c = c' :=
  ChunkStore.resolve_path_inj ⟨root, fun _ => none, .empty 0⟩ h h' he

theorem chunkPath_ne_tmpPath {c c' : Str} (h : Digest c) (h' : Digest c') : chunkPath root c' ≠ tmpPath root c :=
  ChunkStore.resolve_tmp_ne ⟨root, fun _ => none, .empty 0⟩ h h'

/-! ## A call by itself -/

variable (H root) in
/-- A thread that nobody comes in between gets to `Q`, however much it reads and
writes at a time. -/
abbrev Gets (q : ChunkRequest) (Q : Stage × Shared → Prop) : Stage × Shared → Prop :=
  Inevitably (fun x y => ∃ count > 0, step H root count x.2 q x.1 = some y) Q

section Gets
variable {q : ChunkRequest} {Q : Stage × Shared → Prop} {st st' : Stage} {s s' : Shared}

theorem Gets.step (h : ∀ count, StoreThreads.step H root count s q st = some (st', s')) (h' : Gets H root q Q (st', s')) :
    Gets H root q Q (st, s) := by
  refine .later ⟨(st', s'), 1, Nat.one_pos, h 1⟩ ?_
  rintro x ⟨count, -, hx⟩
  obtain rfl := Option.some.inj ((h count).symm.trans hx)
  exact h'

end Gets

theorem isSome_names (s : Shared) (c : Str) :
    ((s.store root).disk (Path.resolve ((s.store root).path_for c))).isSome = (s.files.names (chunkPath root c)).isSome :=
  Option.isSome_map

theorem append_append (f : Files (List Str) UInt8) (file : Nat) (a b : Bytes) :
    (f.append file a).append file b = f.append file (a ++ b) := by
  simp [Files.append]

/-- The temporary file is written up to where the disk fails. -/
theorem gets_written {fault : Option DiskFault} {bytes : Bytes} {Q : Stage × Shared → Prop} {file : Nat} {s : Shared}
    (h : Gets H root (.put fault bytes) Q (.writing file (writable fault bytes),
      { s with files := s.files.append file (bytes.take (writable fault bytes)) })) (written : Nat)
    (hle : written ≤ writable fault bytes) :
    Gets H root (.put fault bytes) Q (.writing file written,
      { s with files := s.files.append file (bytes.take written) }) := by
  have hall : writable fault bytes ≤ bytes.length := by
    unfold writable
    split
    · exact Nat.min_le_right _ _
    · exact Nat.min_le_right _ _
    · exact Nat.le_refl _
  induction hn : writable fault bytes - written using Nat.strongRecOn generalizing written with
  | ind n ih =>
    rcases Nat.eq_or_lt_of_le hle with rfl | hlt
    · exact h
    · have hstep : ∀ count, step H root count { s with files := s.files.append file (bytes.take written) } (.put fault bytes)
          (.writing file written) = some (.writing file (written + min count (writable fault bytes - written)),
            { s with
              files := s.files.append file (bytes.take (written + min count (writable fault bytes - written))) }) := by
        intro count
        simp only [step]
        rw [if_pos hlt, append_append, ← List.take_add, List.length_take, List.length_drop, Nat.min_eq_left]
        omega
      refine .later ⟨_, 1, Nat.one_pos, hstep 1⟩ ?_
      rintro x ⟨count, hcount, hx⟩
      obtain rfl := Option.some.inj ((hstep count).symm.trans hx)
      exact ih _ (by omega) _ (by omega) rfl

/-- The disk after the temporary file of a chunk has been written. -/
theorem disk_written (s : Shared) {tmp : List Str} {file : Nat} {files : Files (List Str) UInt8}
    (hopen : s.files.openTruncated tmp = (file, files)) (more : Bytes) :
    (files.append file more).names tmp = some file ∧ (files.append file more).content file = more ∧
      ∀ x, (files.append file more).read x = if x = tmp then some more else s.files.read x := by
  obtain ⟨file', files', heq, hnames, hcontent, -⟩ := s.files.openTruncated_spec tmp
  obtain ⟨rfl, rfl⟩ := Prod.mk.inj (hopen.symm.trans heq)
  have hname : files.names tmp = some file := by rw [hnames, Function.update_self]
  have hempty : files.content file = [] := by rw [hcontent, Function.update_self]
  refine ⟨hname, ?_, fun x => ?_⟩
  · show Function.update files.content file _ file = _
    rw [Function.update_self, hempty, List.nil_append]
  · have hread := s.files.read_openTruncated tmp x
    rw [hopen] at hread
    rw [Files.read_append hname, hempty, List.nil_append, hread]
    split <;> rfl

theorem store_eq {files : Files (List Str) UInt8} {disk : Disk} {cache : LruCache Str Bytes} {locked : Bool}
    (h : ∀ x, files.read x = disk x) : Shared.store root ⟨files, cache, locked⟩ = ⟨root, disk, cache⟩ := by
  unfold Shared.store
  rw [funext h]

variable (H root) in
/-- The thread answers what the store does, and leaves the store the same. -/
def Served (s : Shared) (q : ChunkRequest) (x : Stage × Shared) : Prop :=
  x.1 = .answered (ChunkStore.serve H (s.store root) q).1 ∧ x.2.store root = (ChunkStore.serve H (s.store root) q).2 ∧
    x.2.locked = false

variable (H root) in
abbrev Alone (s : Shared) (q : ChunkRequest) : Prop := Gets H root q (Served H root s q) (.called, s)

theorem lock_put {fault : Option DiskFault} {bytes : Bytes} {s : Shared} (h : s.locked = false) (count : Nat) :
    step H root count s (.put fault bytes) .called = some (.locked, { s with locked := true }) := by
  simp [step, h]

/-- A `put` that finds the file. -/
theorem put_known_alone {fault : Option DiskFault} {bytes : Bytes} {s : Shared} (h : s.locked = false)
    (hthere : (s.files.names (chunkPath root (H.hex bytes))).isSome = true) : Alone H root s (.put fault bytes) := by
  have hput : (s.store root).put H fault bytes = (.ok ⟨H.hex bytes, bytes.length % 2 ^ 64⟩,
      { s.store root with cache := s.cache.put (H.hex bytes) bytes }) := by
    unfold ChunkStore.put
    exact if_pos ((isSome_names s _).trans hthere)
  refine .step (lock_put h) (.step (fun _ => if_pos hthere) (.step (fun _ => rfl) (.now ?_)))
  rw [Served, ChunkStore.serve, hput]
  exact ⟨rfl, rfl, rfl⟩

section New
variable {bytes : Bytes} {s : Shared} (h : s.locked = false)
  (hnew : ¬ (s.files.names (chunkPath root (H.hex bytes))).isSome = true)
include h hnew

/-- A `put` that cannot make the temporary file. -/
theorem put_unopened_alone : Alone H root s (.put (some .cannotOpen) bytes) := by
  have hput : (s.store root).put H (some .cannotOpen) bytes =
      (.error (.Internal (lit "failed to open chunk temp file")), s.store root) := by
    unfold ChunkStore.put
    exact if_neg ((isSome_names s _).symm ▸ hnew)
  refine .step (lock_put h) (.step (fun _ => (if_neg hnew).trans (if_pos rfl)) (.now ?_))
  rw [Served, ChunkStore.serve, hput]
  exact ⟨rfl, rfl, rfl⟩

/-- A `put` that makes the temporary file has it written up to where the disk
fails. -/
theorem put_writing {fault : Option DiskFault} (hopens : fault ≠ some .cannotOpen) :
    ∃ file files, (∀ Q, Gets H root (.put fault bytes) Q (.writing file (writable fault bytes), { s with files, locked := true }) →
        Gets H root (.put fault bytes) Q (.called, s)) ∧
      files.names (tmpPath root (H.hex bytes)) = some file ∧ files.content file = bytes.take (writable fault bytes) ∧
      ∀ x, files.read x = if x = tmpPath root (H.hex bytes) then some
        (bytes.take (writable fault bytes)) else s.files.read x := by
  rcases hopen : s.files.openTruncated (tmpPath root (H.hex bytes)) with ⟨file, files⟩
  have hwriting : ∀ count, step H root count { s with locked := true } (.put fault bytes) .locked =
      some (.writing file 0, { s with files := files.append file (bytes.take 0), locked := true }) := by
    intro count
    simp only [step]
    rw [if_neg hnew, if_neg hopens, hopen]
    simp [Files.append]
  exact ⟨file, _, fun Q hQ => .step (lock_put h)
    (.step hwriting (gets_written (s := { s with files, locked := true }) hQ 0 (Nat.zero_le _))),
    disk_written s hopen _⟩

/-- A `put` that fails in the temporary file. -/
theorem put_unwritten_alone (n : Nat) : Alone H root s (.put (some (.cannotWrite n)) bytes) := by
  have hput : (s.store root).put H (some (.cannotWrite n)) bytes = (.error (.Internal (lit "failed to write chunk")),
      { s.store root with
        disk := (s.store root).disk.write ((s.store root).path_for (H.hex bytes) ++ lit ".tmp") (bytes.take n) }) := by
    unfold ChunkStore.put
    exact if_neg ((isSome_names s _).symm ▸ hnew)
  have hopens : some (.cannotWrite n) ≠ some DiskFault.cannotOpen := nofun
  obtain ⟨file, files, hwriting, -, -, hread⟩ := put_writing h hnew hopens
  refine hwriting _ (.step (fun _ => if_neg (Nat.lt_irrefl _)) (.now ?_))
  rw [Served, ChunkStore.serve, hput]
  refine ⟨rfl, store_eq fun x => (hread x).trans ?_, rfl⟩
  have htake : bytes.take (writable (some (.cannotWrite n)) bytes) = bytes.take n := List.take_eq_take_min.symm
  rw [htake]
  rfl

/-- A `put` that its disk does not refuse. -/
theorem put_written_alone {fault : Option DiskFault} (hworks : ChunkStore.stopsWrite fault = false) :
    Alone H root s (.put fault bytes) := by
  have hput : (s.store root).put H fault bytes = (.ok ⟨H.hex bytes, bytes.length % 2 ^ 64⟩,
      { s.store root with
        disk := ((s.store root).disk.write ((s.store root).path_for (H.hex bytes) ++ lit ".tmp")
          (ChunkStore.flushed fault bytes)).rename ((s.store root).path_for (H.hex bytes) ++ lit ".tmp")
            ((s.store root).path_for (H.hex bytes))
        cache := s.cache.put (H.hex bytes) bytes }) := by
    unfold ChunkStore.put
    rw [if_neg ((isSome_names s _).symm ▸ hnew)]
    rcases fault with - | (- | n | n | message)
    all_goals first | rfl | cases hworks
  have hopens : fault ≠ some .cannotOpen := by
    rintro rfl
    cases hworks
  have hwrites : ∀ n, fault ≠ some (.cannotWrite n) := by
    rintro n rfl
    cases hworks
  obtain ⟨file, files, hwriting, hname, hcontent, hread⟩ := put_writing h hnew hopens
  have hclose : ∀ count, step H root count { s with files, locked := true } (.put fault bytes)
      (.writing file (writable fault bytes)) = some (.written, { s with files, locked := true }) := by
    intro count
    simp only [step]
    rw [if_neg (Nat.lt_irrefl _)]
  rw [take_writable hwrites] at hcontent hread
  refine hwriting _ (.step hclose (.step (fun _ => rfl) (.step (fun _ => rfl) (.now ?_))))
  rw [Served, ChunkStore.serve, hput]
  refine ⟨rfl, store_eq fun x => (Files.read_rename hname _ x).trans ?_, rfl⟩
  have htmp : tmpPath root (H.hex bytes) ≠ chunkPath root (H.hex bytes) :=
    (chunkPath_ne_tmpPath (H.digest bytes) (H.digest bytes)).symm
  show _ = if x = tmpPath root (H.hex bytes) then none else if x = chunkPath root (H.hex bytes)
    then (if tmpPath root (H.hex bytes) = tmpPath root (H.hex bytes) then some (ChunkStore.flushed fault bytes) else _)
    else if x = tmpPath root (H.hex bytes) then some (ChunkStore.flushed fault bytes) else _
  rw [hcontent, hread, if_pos rfl]
  by_cases hx : x = chunkPath root (H.hex bytes)
  · rw [if_pos hx, if_neg (hx ▸ htmp.symm), if_pos hx]
  · rw [if_neg hx, if_neg hx]
    split <;> rfl

end New

/-- What `get` answers that does not find the chunk in the cache. -/
theorem get_missed {checksum : Str} {s : Shared} {cache : LruCache Str Bytes} (h : s.cache.get checksum = (none, cache)) :
    (s.store root).get H checksum =
      match s.files.read (chunkPath root checksum) with
      | none => (.error (.NotFound (lit "chunk not found: " ++ checksum)), s.store root)
      | some bytes =>
        if H.hex bytes ≠ checksum then
          (.error (.Internal (lit "chunk checksum mismatch: " ++ checksum)), s.store root)
        else (.ok bytes, { s.store root with cache := s.cache.put checksum bytes }) := by
  unfold ChunkStore.get
  show (match s.cache.get checksum with | (some cached, cache) => _ | (none, _) => _) = _
  rw [h]
  rfl

/-- The file of a chunk is read to its end. -/
theorem gets_read {checksum : Str} {Q : Stage × Shared → Prop} {file : Nat} {s : Shared}
    (h : Gets H root (.get checksum) Q (.reading file (s.files.content file), s)) (n : Nat) :
    Gets H root (.get checksum) Q (.reading file ((s.files.content file).take n), s) := by
  induction hm : (s.files.content file).length - n using Nat.strongRecOn generalizing n with
  | ind m ih =>
    rcases Nat.lt_or_ge n (s.files.content file).length with hlt | hge
    · have hlength : ((s.files.content file).take n).length = n := List.length_take_of_le hlt.le
      have hstep : ∀ count, step H root count s (.get checksum) (.reading file ((s.files.content file).take n)) =
          some (.reading file ((s.files.content file).take (n + count)), s) := by
        intro count
        simp only [step]
        rw [hlength, if_pos hlt, List.take_add]
      refine .later ⟨_, 1, Nat.one_pos, hstep 1⟩ ?_
      rintro x ⟨count, hcount, hx⟩
      obtain rfl := Option.some.inj ((hstep count).symm.trans hx)
      exact ih _ (by omega) _ rfl
    · rwa [List.take_of_length_le hge]

theorem get_alone (checksum : Str) {s : Shared} (hfree : s.locked = false) : Alone H root s (.get checksum) := by
  rcases hcached : s.cache.get checksum with ⟨cached | cached, cache⟩
  · have hmissed : ∀ count, step H root count s (.get checksum) .called = some (.missed, s) := by
      intro count
      simp only [step]
      rw [hcached]
    have hget := @get_missed H root checksum s cache hcached
    rcases hfile : s.files.names (chunkPath root checksum) with - | file
    · have habsent : ∀ count, step H root count s (.get checksum) .missed =
          some (.answered (.read (.error (.NotFound (lit "chunk not found: " ++ checksum)))), s) := by
        intro count
        simp only [step]
        rw [hfile]
      rw [Files.read, hfile] at hget
      refine .step hmissed (.step habsent (.now ?_))
      rw [Served, ChunkStore.serve, hget]
      exact ⟨rfl, rfl, hfree⟩
    · have hopened : ∀ count, step H root count s (.get checksum) .missed = some (.reading file [], s) := by
        intro count
        simp only [step]
        rw [hfile]
      rw [Files.read, hfile] at hget
      refine .step hmissed (.step hopened (gets_read ?_ 0))
      by_cases hhex : H.hex (s.files.content file) = checksum
      · have hverified : ∀ count, step H root count s (.get checksum) (.reading file (s.files.content file)) =
            some (.verified (s.files.content file), s) :=
          fun _ => (if_neg (Nat.lt_irrefl _)).trans (if_neg (not_not.2 hhex))
        refine .step hverified (.step (fun _ => rfl) (.now ?_))
        rw [Served, ChunkStore.serve, hget.trans (if_neg (not_not.2 hhex))]
        exact ⟨rfl, rfl, hfree⟩
      · have hmismatch : ∀ count, step H root count s (.get checksum) (.reading file (s.files.content file)) =
            some (.answered (.read (.error (.Internal (lit "chunk checksum mismatch: " ++ checksum)))), s) :=
          fun _ => (if_neg (Nat.lt_irrefl _)).trans (if_pos hhex)
        refine .step hmismatch (.now ?_)
        rw [Served, ChunkStore.serve, hget.trans (if_pos hhex)]
        exact ⟨rfl, rfl, hfree⟩
  · have hget : (s.store root).get H checksum = (.ok cached, { s.store root with cache }) := by
      unfold ChunkStore.get
      show (match s.cache.get checksum with | (some cached, cache) => _ | (none, _) => _) = _
      rw [hcached]
    have hhit : ∀ count, step H root count s (.get checksum) .called = some (.answered (.read (.ok cached)),
      { s with cache }) := by
      intro count
      simp only [step]
      rw [hcached]
    refine .step hhit (.now ?_)
    rw [Served, ChunkStore.serve, hget]
    exact ⟨rfl, rfl, hfree⟩

theorem remove_alone (fault : Option DiskFault) (checksum : Str) (references : Int) {s : Shared} (hfree : s.locked = false) :
    Alone H root s (.remove fault checksum references) := by
  by_cases hreferences : references > 0
  · have hremove : (s.store root).remove_if_unreferenced fault checksum references = (.ok (), s.store root) :=
      if_pos hreferences
    refine .step (fun _ => if_pos hreferences) (.now ?_)
    rw [Served, ChunkStore.serve, hremove]
    exact ⟨rfl, rfl, hfree⟩
  · have hlock : ∀ count, step H root count s (.remove fault checksum references) .called =
        some (.locked, { s with locked := true }) := by
      intro count
      simp only [step]
      rw [if_neg hreferences, hfree]
      rfl
    by_cases hfails : ∃ message, fault = some (.cannotRemove message)
    · obtain ⟨message, rfl⟩ := hfails
      have hremove : (s.store root).remove_if_unreferenced (some (.cannotRemove message)) checksum references =
          (.error (.Internal (lit "failed to remove chunk: " ++ message)), s.store root) := if_neg hreferences
      refine .step hlock (.step (fun _ => rfl) (.now ?_))
      rw [Served, ChunkStore.serve, hremove]
      exact ⟨rfl, rfl, rfl⟩
    · have hremove : (s.store root).remove_if_unreferenced fault checksum references =
          (.ok (), { s.store root with disk := (s.store root).disk.remove ((s.store root).path_for checksum) }) := by
        refine (if_neg hreferences).trans ?_
        split
        · exact absurd ⟨_, rfl⟩ hfails
        · rfl
      have hunlinked : ∀ count, step H root count { s with locked := true } (.remove fault checksum references) .locked =
          some (.answered (.removed (.ok ())),
            { s with files := s.files.unlink (chunkPath root checksum), locked := false }) := by
        intro count
        simp only [step]
        split
        · exact absurd ⟨_, rfl⟩ hfails
        · rfl
      refine .step hlock (.step hunlinked (.now ?_))
      rw [Served, ChunkStore.serve, hremove]
      exact ⟨rfl, store_eq (s.files.read_unlink (chunkPath root checksum)), rfl⟩

theorem exists_alone (checksum : Str) {s : Shared} (hfree : s.locked = false) : Alone H root s (.exists_ checksum) := by
  refine .step (fun _ => rfl) (.now ⟨?_, rfl, hfree⟩)
  rw [← isSome_names s checksum]
  rfl

/-- A call that nobody comes in between is that of the store: however much is
read and written at a time, the thread gets to the answer and to the state that
`ChunkStore` has after the call. -/
theorem serve_alone (H : HexHash) (root : Str) (q : ChunkRequest) (s : Shared) (hfree : s.locked = false) :
    Inevitably (fun x y => ∃ count > 0, step H root count x.2 q x.1 = some y)
      (fun x => x.1 = .answered (ChunkStore.serve H (s.store root) q).1 ∧
        x.2.store root = (ChunkStore.serve H (s.store root) q).2 ∧ x.2.locked = false) (.called, s) := by
  cases q with
  | put fault bytes =>
    by_cases hthere : (s.files.names (chunkPath root (H.hex bytes))).isSome = true
    · exact put_known_alone hfree hthere
    · rcases fault with - | (- | n | n | message)
      · exact put_written_alone hfree hthere rfl
      · exact put_unopened_alone hfree hthere
      · exact put_unwritten_alone hfree hthere n
      · exact put_written_alone hfree hthere rfl
      · exact put_written_alone hfree hthere rfl
  | get checksum => exact get_alone checksum hfree
  | remove fault checksum references => exact remove_alone fault checksum references hfree
  | exists_ checksum => exact exists_alone checksum hfree

theorem first_put_alone :
    Inevitably (fun x y => ∃ count > 0, step Sha256.hexHash (lit "/d") count x.2 (.put none (lit "abc")) x.1 = some y)
      (fun x =>
        x.1 = .answered (ChunkStore.serve Sha256.hexHash (.create (lit "/d") 0 fun _ => none) (.put none (lit "abc"))).1 ∧
          x.2.store (lit "/d") =
            (ChunkStore.serve Sha256.hexHash (.create (lit "/d") 0 fun _ => none) (.put none (lit "abc"))).2 ∧
          x.2.locked = false)
      (.called, ⟨.empty, .empty 1, false⟩) :=
  serve_alone Sha256.hexHash (lit "/d") (.put none (lit "abc")) ⟨.empty, .empty 1, false⟩ rfl

end StoreThreads

end Dstore
