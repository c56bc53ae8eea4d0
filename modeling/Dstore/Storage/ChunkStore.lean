import Mathlib.Algebra.Order.Ring.Int
import Mathlib.Data.Set.Function
import Dstore.Common.LruCache
import Dstore.Common.Sha256
/-!
# The chunk store

`ChunkStore` of `chunk_store.cpp`: content-addressed files under a root
directory, `root/ab/ab12...`, behind an LRU cache. The disk is a map from
resolved paths to contents, so what `std::filesystem` does with a path text is
part of the model (`Path.div`, `Path.resolve`); directories are not files and
are always there. `root` is the absolute path of the chunk directory.

A store is `Sound` for a set of byte strings when every chunk file and every
cache entry is one of them, under its own hash. All operations keep a store
sound, and on a sound store `get` never fails on a chunk whose file is there.
-/

namespace Dstore

/-! ## Paths -/

namespace Path

def slash : UInt8 := 47

/-- `std::filesystem::path::operator/`: an absolute right side replaces the
left one, and a separator is added after a file name. -/
def div (p q : Str) : Str :=
  if q.head? = some slash then q
  else if p = [] ∨ p.getLast? = some slash then p ++ q
  else p ++ slash :: q

/-- Go from a directory to its entry of that name. -/
def enter (dir : List Str) (name : Str) : List Str :=
  if name = [] ∨ name = lit "." then dir else if name = lit ".." then dir.dropLast else dir ++ [name]

/-- Follow the rest of a path text, `name` being the component read so far. -/
def follow : List Str → Str → Str → List Str
  | dir, name, [] => enter dir name
  | dir, name, c :: rest => if c = slash then follow (enter dir name) [] rest else follow dir (name ++ [c]) rest

/-- The file a path text denotes, as the list of names from the root. -/
def resolve (p : Str) : List Str := follow [] [] p

theorem follow_append_slash (dir : List Str) (name p q : Str) :
    follow dir name (p ++ slash :: q) = follow (follow dir name p) [] q := by
  induction p generalizing dir name with
  | nil => simp [follow]
  | cons c p ih =>
    rw [List.cons_append, follow, follow]
    split
    · exact ih _ _
    · exact ih _ _

theorem follow_name (dir : List Str) (name q : Str) (hq : slash ∉ q) : follow dir name q = enter dir (name ++ q) := by
  induction q generalizing name with
  | nil => simp [follow]
  | cons c q ih =>
    rw [List.mem_cons, not_or] at hq
    rw [follow, if_neg (Ne.symm hq.1), ih _ hq.2, List.append_assoc]
    rfl

/-- A plain name is the last component of a path that ends in it. -/
theorem resolve_append_name (p q : Str) (hq : slash ∉ q) (h3 : 3 ≤ q.length) :
    resolve (p ++ slash :: q) = resolve p ++ [q] := by
  have h0 : ¬ (q = [] ∨ q = lit ".") := by
    rintro (rfl | rfl) <;> simp [lit] at h3
  have h2 : q ≠ lit ".." := by
    rintro rfl
    simp [lit] at h3
  rw [resolve, follow_append_slash, follow_name _ _ _ hq, List.nil_append, enter, if_neg h0, if_neg h2]
  rfl

end Path

/-! ## The store -/

abbrev Disk := List Str → Option Bytes

namespace Disk

def set (d : Disk) (path : Str) (content : Option Bytes) : Disk :=
  fun p => if p = Path.resolve path then content else d p

def write (d : Disk) (path : Str) (bytes : Bytes) : Disk := d.set path (some bytes)

def remove (d : Disk) (path : Str) : Disk := d.set path none

def rename (d : Disk) (src dst : Str) : Disk := (d.set dst (d (Path.resolve src))).set src none

end Disk

/-- What a disk can refuse to do. A failed write leaves a part of the file. What
is still in the buffer of the stream, up to all of a small file, is written when
the stream is destroyed, and nobody notices when that fails. -/
inductive DiskFault where
  | cannotOpen
  | cannotWrite (written : Nat)
  | cannotFlush (written : Nat)
  | cannotRemove (message : Str)
  deriving DecidableEq, Repr

structure ChunkRef where
  checksum : Str
  size : Nat := 0
  deriving DecidableEq, Repr

structure ChunkStore where
  root : Str
  disk : Disk
  cache : LruCache Str Bytes

namespace ChunkStore

variable (H : HexHash)

/-- The constructor, on the files that are there. -/
def create (root : Str) (cache_bytes : Nat) (disk : Disk) : ChunkStore := ⟨root, disk, .empty (cache_bytes / 4096 + 1)⟩

def path_for (s : ChunkStore) (checksum : Str) : Str := Path.div (Path.div s.root (checksum.take 2)) checksum

/-- What is in the temporary file when it is renamed. -/
def flushed (fault : Option DiskFault) (bytes : Bytes) : Bytes :=
  match fault with
  | some (.cannotFlush n) => bytes.take n
  | _ => bytes

def put (s : ChunkStore) (fault : Option DiskFault) (bytes : Bytes) : Result ChunkRef × ChunkStore :=
  let checksum := H.hex bytes
  let path := s.path_for checksum
  let tmp := path ++ lit ".tmp"
  let finish (disk : Disk) : Result ChunkRef × ChunkStore :=
    (.ok ⟨checksum, bytes.length % 2 ^ 64⟩, { s with disk := disk, cache := s.cache.put checksum bytes })
  if (s.disk (Path.resolve path)).isSome then finish s.disk
  else
    match fault with
    | some .cannotOpen => (.error (.Internal (lit "failed to open chunk temp file")), s)
    | some (.cannotWrite n) =>
      (.error (.Internal (lit "failed to write chunk")), { s with disk := s.disk.write tmp (bytes.take n) })
    | _ => finish ((s.disk.write tmp (flushed fault bytes)).rename tmp path)

/-- Directories are left out of the disk: for a checksum such as "" or "..",
whose path is one, the code opens the directory and throws while it reads. -/
def get (s : ChunkStore) (checksum : Str) : Result Bytes × ChunkStore :=
  match s.cache.get checksum with
  | (some cached, cache) => (.ok cached, { s with cache := cache })
  | (none, _) =>
    match s.disk (Path.resolve (s.path_for checksum)) with
    | none => (.error (.NotFound (lit "chunk not found: " ++ checksum)), s)
    | some bytes =>
      if H.hex bytes ≠ checksum then (.error (.Internal (lit "chunk checksum mismatch: " ++ checksum)), s)
      else (.ok bytes, { s with cache := s.cache.put checksum bytes })

def remove_if_unreferenced (s : ChunkStore) (fault : Option DiskFault) (checksum : Str) (references : Int) :
    Result Unit × ChunkStore :=
  if references > 0 then (.ok (), s)
  else
    match fault with
    | some (.cannotRemove message) => (.error (.Internal (lit "failed to remove chunk: " ++ message)), s)
    | _ => (.ok (), { s with disk := s.disk.remove (s.path_for checksum) })

/-- `ChunkStore::exists`. Directories are left out; the code finds them too. -/
def exists_ (s : ChunkStore) (checksum : Str) : Bool := (s.disk (Path.resolve (s.path_for checksum))).isSome

/-- A new process over the same files. -/
def restart (s : ChunkStore) : ChunkStore := { s with cache := .empty s.cache.capacity }

/-! ### Chunk files -/

/-- The content of the file of a chunk. -/
def file (s : ChunkStore) (checksum : Str) : Option Bytes := s.disk (Path.resolve (s.path_for checksum))

theorem slash_not_mem {c : Str} (h : ∀ x ∈ c, isHex x = true) : Path.slash ∉ c :=
  fun hm => absurd (h _ hm) (by decide)

/-- The path of a chunk ends in its checksum. -/
theorem path_for_eq (s : ChunkStore) {c : Str} (h : Digest c) :
    s.path_for c = Path.div s.root (c.take 2) ++ Path.slash :: c := by
  have hs := slash_not_mem h.2
  have h1 : c.head? ≠ some Path.slash := fun hc => hs (List.mem_of_mem_head? hc)
  obtain ⟨a, b, rest, rfl⟩ : ∃ a b rest, c = a :: b :: rest := by
    match c, h.1 with
    | a :: b :: rest, _ => exact ⟨a, b, rest, rfl⟩
  rw [path_for, Path.div, if_neg h1, if_neg]
  -- the directory ends in the second digit of the checksum
  have hb : (Path.div s.root [a, b]).getLast? = some b := by
    unfold Path.div
    split
    · rfl
    · split <;> simp
  rintro (h0 | h0)
  · have h0 : Path.div s.root [a, b] = [] := h0
    simp [h0] at hb
  · have h0 : (Path.div s.root [a, b]).getLast? = some Path.slash := h0
    rw [hb] at h0
    exact hs (by simp [Option.some.inj h0])

theorem resolve_path_for (s : ChunkStore) {c : Str} (h : Digest c) :
    Path.resolve (s.path_for c) = Path.resolve (Path.div s.root (c.take 2)) ++ [c] := by
  rw [path_for_eq s h, Path.resolve_append_name _ _ (slash_not_mem h.2) (by rw [h.1]; decide)]

theorem resolve_path_inj (s : ChunkStore) {c c' : Str} (h : Digest c) (h' : Digest c')
    (he : Path.resolve (s.path_for c) = Path.resolve (s.path_for c')) : c = c' := by
  rw [resolve_path_for s h, resolve_path_for s h'] at he
  simpa using List.append_inj_right' he rfl

/-- A temporary file is not the file of a chunk. -/
theorem resolve_tmp_ne (s : ChunkStore) {c c' : Str} (h : Digest c) (h' : Digest c') :
    Path.resolve (s.path_for c') ≠ Path.resolve (s.path_for c ++ lit ".tmp") := by
  have hs : Path.slash ∉ c ++ lit ".tmp" := by
    rw [List.mem_append, not_or]
    exact ⟨slash_not_mem h.2, by decide⟩
  rw [resolve_path_for s h', path_for_eq s h, List.append_assoc, List.cons_append,
    Path.resolve_append_name _ _ hs (by rw [List.length_append, h.1]; decide)]
  intro he
  have hc : c' = c ++ lit ".tmp" := by simpa using List.append_inj_right' he rfl
  have := congrArg List.length hc
  rw [h'.1, List.length_append, h.1] at this
  exact absurd this (by decide)

/-- Storing a file through a temporary one changes no other chunk. -/
theorem file_renamed (s : ChunkStore) {c c' : Str} (h : Digest c) (h' : Digest c') (b : Bytes)
    (cache : LruCache Str Bytes) :
    file { s with
      disk := (s.disk.write (s.path_for c ++ lit ".tmp") b).rename (s.path_for c ++ lit ".tmp") (s.path_for c)
      cache := cache } c' = if c' = c then some b else s.file c' := by
  have htmp := resolve_tmp_ne s h h'
  show Disk.rename _ _ _ (Path.resolve (s.path_for c')) = if c' = c then some b else s.disk (Path.resolve (s.path_for c'))
  simp only [Disk.rename, Disk.write, Disk.set, if_neg htmp, if_true]
  by_cases hc : c' = c
  · rw [if_pos (by rw [hc]), if_pos hc]
  · rw [if_neg (fun he => hc (resolve_path_inj s h' h he)), if_neg hc]

/-- A temporary file that is left behind changes no chunk. -/
theorem file_tmp (s : ChunkStore) {c c' : Str} (h : Digest c) (h' : Digest c') (b : Bytes) :
    file { s with disk := s.disk.write (s.path_for c ++ lit ".tmp") b } c' = s.file c' :=
  if_neg (resolve_tmp_ne s h h')

/-- The disk cannot store a new file, and `put` is told. -/
def stopsWrite : Option DiskFault → Bool
  | some .cannotOpen | some (.cannotWrite _) => true
  | _ => false

/-- The disk cuts a new file as the stream is destroyed, and `put` is not told. -/
def cutsWrite : Option DiskFault → Bytes → Bool
  | some (.cannotFlush n), bytes => n < bytes.length
  | _, _ => false

theorem flushed_eq_iff {fault : Option DiskFault} {b : Bytes} : flushed fault b = b ↔ cutsWrite fault b = false := by
  rcases fault with - | (- | n | n | message)
  case some.cannotFlush =>
    have htake : b.take n = b ↔ b.length ≤ n := ⟨fun h => by
      have := congrArg List.length h
      rw [List.length_take] at this
      omega, List.take_of_length_le⟩
    simp [flushed, cutsWrite, htake]
  all_goals exact ⟨fun _ => rfl, fun _ => rfl⟩

/-- `put` succeeds, leaves a file for its chunk in place and touches no other
chunk; or its chunk was not there, the disk is at fault and no chunk changes. -/
theorem put_cases (s : ChunkStore) (fault : Option DiskFault) (b : Bytes) :
    ((s.file (H.hex b) = none → stopsWrite fault = false) ∧
      ∃ s', s.put H fault b = (.ok ⟨H.hex b, b.length % 2 ^ 64⟩, s') ∧ s'.root = s.root ∧
        s'.cache = s.cache.put (H.hex b) b ∧
        ∀ c, Digest c → s'.file c = if c = H.hex b then some ((s.file c).getD (flushed fault b)) else s.file c) ∨
    (s.file (H.hex b) = none ∧ stopsWrite fault = true ∧
      ∃ e s', s.put H fault b = (.error e, s') ∧ s'.root = s.root ∧ s'.cache = s.cache ∧
        ∀ c, Digest c → s'.file c = s.file c) := by
  have hfile : s.disk (Path.resolve (s.path_for (H.hex b))) = s.file (H.hex b) := rfl
  unfold put
  simp only [hfile]
  cases hf : s.file (H.hex b) with
  | some x =>
    rw [if_pos (by rfl)]
    refine .inl ⟨fun h => absurd h (by simp), _, rfl, rfl, rfl, fun c _ => ?_⟩
    show s.file c = _
    split
    · rename_i hc
      rw [hc, hf]
      rfl
    · rfl
  | none =>
    rw [if_neg (by simp)]
    have hnew : ∀ (x : Bytes) (c : Str), Digest c → file { s with
        disk := (s.disk.write (s.path_for (H.hex b) ++ lit ".tmp") x).rename (s.path_for (H.hex b) ++ lit ".tmp")
          (s.path_for (H.hex b))
        cache := s.cache.put (H.hex b) b } c = if c = H.hex b then some ((s.file c).getD x) else s.file c := by
      intro x c hc
      rw [file_renamed s (H.digest b) hc]
      split
      · rename_i he
        rw [he, hf]
        rfl
      · rfl
    match fault with
    | some .cannotOpen => exact .inr ⟨rfl, rfl, _, _, rfl, rfl, rfl, fun _ _ => rfl⟩
    | some (.cannotWrite n) =>
      exact .inr ⟨rfl, rfl, _, _, rfl, rfl, rfl, fun c hc => file_tmp s (H.digest b) hc _⟩
    | some (.cannotFlush n) => exact .inl ⟨fun _ => rfl, _, rfl, rfl, rfl, hnew _⟩
    | some (.cannotRemove m) => exact .inl ⟨fun _ => rfl, _, rfl, rfl, rfl, hnew _⟩
    | none => exact .inl ⟨fun _ => rfl, _, rfl, rfl, rfl, hnew _⟩

/-- Every chunk file and every cache entry is a byte string of `S` under its
own hash. -/
structure Sound (S : Set Bytes) (s : ChunkStore) : Prop where
  files : ∀ c, Digest c → ∀ b, s.file c = some b → b ∈ S ∧ H.hex b = c
  cached : ∀ p ∈ s.cache.toList, p.2 ∈ S ∧ H.hex p.2 = p.1

/-- The store has the chunk on disk. -/
def Holds (s : ChunkStore) (checksum : Str) : Prop := ∃ b, s.file checksum = some b ∧ H.hex b = checksum

/-- The store has the chunk of `b` already, or its disk takes it. -/
def takes (s : ChunkStore) (fault : Option DiskFault) (b : Bytes) : Prop :=
  s.Holds H (H.hex b) ∨ s.file (H.hex b) = none ∧ stopsWrite fault = false ∧ H.hex (flushed fault b) = H.hex b

/-- What a get can return is of `S`: every cached chunk has the hash it is
cached under. A file may have any other content. -/
structure Verified (S : Set Bytes) (s : ChunkStore) : Prop where
  files : ∀ c, Digest c → ∀ b, s.file c = some b → H.hex b = c → b ∈ S
  cached : ∀ p ∈ s.cache.toList, p.2 ∈ S ∧ H.hex p.2 = p.1

section Spec
variable {H} {S : Set Bytes} {s : ChunkStore}

theorem Verified.get (h : Verified H S s) {c : Str} (hc : Digest c) {b : Bytes} (hb : (s.get H c).1 = .ok b) :
    b ∈ S ∧ H.hex b = c := by
  unfold ChunkStore.get at hb
  rcases s.cache.get_cases c with ⟨h1, -, -⟩ | ⟨v, h1, h2, -⟩
  · rw [← Prod.eta (s.cache.get c), h1] at hb
    dsimp only at hb
    split at hb
    · cases hb
    · rename_i x hfile
      split at hb
      · cases hb
      · rename_i hx
        obtain rfl := Except.ok.inj hb
        exact ⟨h.files c hc x hfile (not_not.1 hx), not_not.1 hx⟩
  · rw [← Prod.eta (s.cache.get c), h1] at hb
    obtain rfl := Except.ok.inj hb
    exact h.cached _ h2

theorem Sound.verified (h : Sound H S s) : Verified H S s := ⟨fun c hc b hb _ => (h.files c hc b hb).1, h.cached⟩

theorem Holds.exists_ {c : Str} (h : s.Holds H c) : s.exists_ c = true := by
  obtain ⟨b, hb, -⟩ := h
  show (s.file c).isSome = true
  rw [hb]
  rfl

theorem Sound.holds_iff (h : Sound H S s) {c : Str} (hc : Digest c) : s.Holds H c ↔ s.exists_ c = true := by
  constructor
  · exact Holds.exists_
  · intro he
    obtain ⟨b, hb⟩ := Option.isSome_iff_exists.1 (show (s.file c).isSome = true from he)
    exact ⟨b, hb, (h.files c hc b hb).2⟩

theorem Sound.file_eq_none (h : Sound H S s) {c : Str} (hc : Digest c) : s.file c = none ↔ ¬ s.Holds H c := by
  rw [h.holds_iff hc]
  show s.file c = none ↔ ¬ (s.file c).isSome = true
  simp

/-- What a put leaves of its chunk. -/
theorem holds_put_iff {fault : Option DiskFault} {b : Bytes} :
    (s.put H fault b).2.Holds H (H.hex b) ↔ s.takes H fault b := by
  rcases s.put_cases H fault b with ⟨hok, s', heq, -, -, hfile⟩ | ⟨hnone, hstop, e, s', heq, -, -, hfile⟩
  · rw [heq, Holds, hfile _ (H.digest b), if_pos rfl, takes, Holds]
    cases hf : s.file (H.hex b) with
    | none => simp [hok hf]
    | some x => simp
  · rw [heq, Holds, hfile _ (H.digest b), takes, Holds, hnone, hstop]
    simp

/-- The file of a chunk that was there stays, and no other file changes. -/
theorem put_file (s : ChunkStore) (fault : Option DiskFault) (b : Bytes) {c : Str} (hc : Digest c)
    (h : c ≠ H.hex b ∨ s.file c ≠ none) : (s.put H fault b).2.file c = s.file c := by
  rcases s.put_cases H fault b with ⟨-, s', heq, -, -, hfile⟩ | ⟨-, -, e, s', heq, -, -, hfile⟩
  · rw [heq, hfile c hc]
    split
    · rename_i hcb
      cases hf : s.file c with
      | none => exact absurd hf (h.resolve_left (absurd hcb))
      | some x => rfl
    · rfl
  · rw [heq, hfile c hc]

/-- A put that succeeds leaves a file for its chunk. -/
theorem put_exists {fault : Option DiskFault} {b : Bytes} (h : s.file (H.hex b) = none → stopsWrite fault = false) :
    (s.put H fault b).1 = .ok ⟨H.hex b, b.length % 2 ^ 64⟩ ∧ (s.put H fault b).2.file (H.hex b) ≠ none := by
  rcases s.put_cases H fault b with ⟨-, s', heq, -, -, hfile⟩ | ⟨hnone, hstop, -⟩
  · rw [heq, hfile _ (H.digest b), if_pos rfl]
    exact ⟨rfl, by simp⟩
  · rw [h hnone] at hstop
    cases hstop

/-- A put that the disk stops. -/
theorem put_stopped {fault : Option DiskFault} {b : Bytes} (hnone : s.file (H.hex b) = none)
    (hstop : stopsWrite fault = true) : (∃ e, (s.put H fault b).1 = .error e) ∧
      ∀ c, Digest c → (s.put H fault b).2.file c = s.file c := by
  rcases s.put_cases H fault b with ⟨hok, -⟩ | ⟨-, -, e, s', heq, -, -, hfile⟩
  · rw [hok hnone] at hstop
    cases hstop
  · rw [heq]
    exact ⟨⟨e, rfl⟩, hfile⟩

/-- `put` on a sound store whose disk does not cut the chunk. -/
theorem Sound.put (h : Sound H S s) {fault : Option DiskFault} {b : Bytes} (hwhole : cutsWrite fault b = false)
    (hb : b ∈ S) :
    Sound H S (s.put H fault b).2 ∧
      (∀ c, Digest c → s.Holds H c → (s.put H fault b).2.file c = s.file c) ∧
      (∀ c, Digest c → c ≠ H.hex b → (s.put H fault b).2.file c = s.file c) ∧
      ((¬ s.Holds H (H.hex b) → stopsWrite fault = false) →
        (s.put H fault b).1 = .ok ⟨H.hex b, b.length % 2 ^ 64⟩ ∧ (s.put H fault b).2.Holds H (H.hex b)) ∧
      (¬ s.Holds H (H.hex b) → stopsWrite fault = true →
        (∃ e, (s.put H fault b).1 = .error e) ∧ ¬ (s.put H fault b).2.Holds H (H.hex b)) := by
  rcases s.put_cases H fault b with ⟨hok, s', heq, -, hcache, hfile⟩ | ⟨hno, hfault, e, s', heq, -, hcache, hfile⟩
  · rw [heq]
    rw [flushed_eq_iff.2 hwhole] at hfile
    have hsound : Sound H S s' := by
      refine ⟨fun c hc x hx => ?_, fun p hp => ?_⟩
      · rw [hfile c hc] at hx
        split at hx
        · rename_i hcb
          cases hf : s.file c with
          | none =>
            rw [hf] at hx
            obtain rfl : b = x := Option.some.inj hx
            exact ⟨hb, hcb.symm⟩
          | some y =>
            rw [hf] at hx
            obtain rfl : y = x := Option.some.inj hx
            exact h.files c hc y hf
        · exact h.files c hc x hx
      · rw [hcache] at hp
        rcases LruCache.mem_of_mem_put hp with rfl | hp
        · exact ⟨hb, rfl⟩
        · exact h.cached p hp
    refine ⟨hsound, fun c hc ⟨x, hx, _⟩ => ?_, fun c hc hne => ?_, fun _ => ⟨rfl, ?_⟩, fun hno hst => ?_⟩
    · rw [hfile c hc, hx]
      split <;> rfl
    · rw [hfile c hc, if_neg hne]
    · rw [hsound.holds_iff (H.digest b)]
      show (s'.file _).isSome = true
      rw [hfile _ (H.digest b), if_pos rfl]
      rfl
    · rw [hok ((h.file_eq_none (H.digest b)).2 hno)] at hst
      cases hst
  · rw [heq]
    have hsound : Sound H S s' := by
      refine ⟨fun c hc x hx => h.files c hc x (by rwa [hfile c hc] at hx), fun p hp => h.cached p (by rwa [hcache] at hp)⟩
    have hnh : ¬ s'.Holds H (H.hex b) := by
      rw [← hsound.file_eq_none (H.digest b), hfile _ (H.digest b)]
      exact hno
    refine ⟨hsound, fun c hc _ => hfile c hc, fun c hc _ => hfile c hc, fun hok => ?_, fun _ _ => ⟨⟨e, rfl⟩, hnh⟩⟩
    rw [hok ((h.file_eq_none (H.digest b)).1 hno)] at hfault
    cases hfault

/-- `get` on a sound store: a byte string with the hash, or the file is not
there. The disk does not change. -/
theorem Sound.get (h : Sound H S s) {c : Str} (hc : Digest c) :
    (∃ b s', s.get H c = (.ok b, s') ∧ b ∈ S ∧ H.hex b = c ∧ Sound H S s' ∧ s'.root = s.root ∧ s'.disk = s.disk) ∨
      (s.get H c = (.error (.NotFound (lit "chunk not found: " ++ c)), s) ∧ s.file c = none) := by
  unfold ChunkStore.get
  rcases s.cache.get_cases c with ⟨h1, -, -⟩ | ⟨b, h1, h2, -⟩
  · rw [← Prod.eta (s.cache.get c), h1]
    have hfile : s.disk (Path.resolve (s.path_for c)) = s.file c := rfl
    simp only [hfile]
    cases hf : s.file c with
    | none => exact .inr ⟨rfl, rfl⟩
    | some b =>
      obtain ⟨hb, hx⟩ := h.files c hc b hf
      simp only [hx, ne_eq, not_true, if_false]
      refine .inl ⟨b, _, rfl, hb, hx, ⟨h.files, fun p hp => ?_⟩, rfl, rfl⟩
      rcases LruCache.mem_of_mem_put hp with rfl | hp
      · exact ⟨hb, hx⟩
      · exact h.cached p hp
  · rw [← Prod.eta (s.cache.get c), h1]
    obtain ⟨hb, hx⟩ := h.cached _ h2
    exact .inl ⟨b, _, rfl, hb, hx, ⟨h.files, fun p hp => h.cached p (LruCache.mem_of_mem_get hp)⟩, rfl, rfl⟩

/-- A sound store on a disk that works takes every chunk. -/
theorem Sound.takes (h : Sound H S s) (b : Bytes) : s.takes H none b := by
  by_cases hh : s.Holds H (H.hex b)
  · exact .inl hh
  · exact .inr ⟨(h.file_eq_none (H.digest b)).2 hh, rfl, rfl⟩

/-- A sound store finds the chunks that it holds. -/
theorem Sound.get_isOk (h : Sound H S s) {c : Str} (hc : Digest c) (hh : s.Holds H c) : (s.get H c).1.isOk = true := by
  rcases h.get hc with ⟨b, s', heq, -⟩ | ⟨-, hnone⟩
  · rw [heq]
    rfl
  · exact absurd hh ((h.file_eq_none hc).1 hnone)

theorem Sound.get_sound (h : Sound H S s) {c : Str} (hc : Digest c) : Sound H S (s.get H c).2 := by
  rcases h.get hc with ⟨b, s', heq, -, -, hs', -⟩ | ⟨heq, -⟩
  · rw [heq]; exact hs'
  · rw [heq]; exact h

/-- A chunk that is neither cached nor on disk. -/
theorem get_missing {s : ChunkStore} {c : Str} (hcache : ∀ v, (c, v) ∉ s.cache.toList) (hfile : s.file c = none) :
    s.get H c = (.error (.NotFound (lit "chunk not found: " ++ c)), s) := by
  unfold ChunkStore.get
  rcases s.cache.get_cases c with ⟨h1, -, -⟩ | ⟨b, -, h2, -⟩
  · rw [← Prod.eta (s.cache.get c), h1]
    have hdisk : s.disk (Path.resolve (s.path_for c)) = none := hfile
    simp only [hdisk]
  · exact absurd h2 (hcache b)

/-- A get says that a chunk is not found only when its file is not there. -/
theorem file_of_not_found {s : ChunkStore} {c : Str} {e : Status} (h : (s.get H c).1 = .error e)
    (hcode : e.code = .kNotFound) :
    s.file c = none := by
  unfold ChunkStore.get at h
  split at h
  · cases h
  · split at h
    · rename_i hdisk
      exact hdisk
    · split at h
      · rw [← Except.error.inj h] at hcode
        cases hcode
      · cases h

/-- A get that fails leaves the store as it was. -/
theorem get_of_error {s : ChunkStore} {c : Str} {e : Status} (h : (s.get H c).1 = .error e) : (s.get H c).2 = s := by
  unfold ChunkStore.get at h ⊢
  rcases hget : s.cache.get c with ⟨- | cached, cache⟩
  · rw [hget] at h
    dsimp only at h ⊢
    split
    · rfl
    · split
      · rfl
      · simp_all
  · rw [hget] at h
    cases h

theorem get_file (s : ChunkStore) (c c' : Str) : (s.get H c).2.file c' = s.file c' := by
  unfold ChunkStore.get
  split
  · rfl
  · split
    · rfl
    · split <;> rfl

/-- Removing a chunk removes its file at most; the cache stays. -/
theorem remove_file (s : ChunkStore) {c : Str} (hc : Digest c) (fault : Option DiskFault) :
    (s.remove_if_unreferenced fault c 0).2.cache = s.cache ∧ (s.remove_if_unreferenced fault c 0).2.root = s.root ∧
      ∀ c', Digest c' → (s.remove_if_unreferenced fault c 0).2.file c' =
        if c' = c ∧ (s.remove_if_unreferenced fault c 0).1.isOk = true then none else s.file c' := by
  have hfile : ∀ c', Digest c' → file { s with disk := s.disk.remove (s.path_for c) } c' =
      if c' = c then none else s.file c' := by
    intro c' hc'
    show (s.disk.remove _) (Path.resolve (s.path_for c')) = _
    simp only [Disk.remove, Disk.set]
    by_cases he : c' = c
    · rw [if_pos (by rw [he]), if_pos he]
    · rw [if_neg (fun hr => he (resolve_path_inj s hc' hc hr)), if_neg he]
      rfl
  have hremoved : ∀ c', Digest c' → file { s with disk := s.disk.remove (s.path_for c) } c' =
      if c' = c ∧ Result.isOk (.ok () : Result Unit) = true then none else s.file c' := fun c' hc' => by
    rw [hfile c' hc']
    simp [Result.isOk]
  rcases fault with - | (- | n | n | message)
  case some.cannotRemove => exact ⟨rfl, rfl, fun c' _ => (if_neg fun h => (by cases h.2)).symm⟩
  all_goals exact ⟨rfl, rfl, hremoved⟩

/-- Whatever the disk refuses, a store stays sound. -/
theorem Sound.remove (h : Sound H S s) {c : Str} (hc : Digest c) (fault : Option DiskFault) :
    Sound H S (s.remove_if_unreferenced fault c 0).2 := by
  obtain ⟨hcache, -, hfile⟩ := s.remove_file hc fault
  refine ⟨fun c' hc' b hb => ?_, by rw [hcache]; exact h.cached⟩
  rw [hfile c' hc'] at hb
  split at hb
  · cases hb
  · exact h.files c' hc' b hb

theorem Sound.restart (h : Sound H S s) : Sound H S s.restart := ⟨h.files, by simp [ChunkStore.restart]⟩

@[simp] theorem restart_file (s : ChunkStore) (c : Str) : s.restart.file c = s.file c := rfl

theorem Sound.create (root : Str) (n : Nat) : Sound H S (create root n fun _ => none) :=
  ⟨fun _ _ _ h => (by cases h), fun _ h => (by cases h)⟩

end Spec

end ChunkStore

end Dstore
