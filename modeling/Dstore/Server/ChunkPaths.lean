import Dstore.Lib.Walks
import Dstore.Metadata.MetadataStore
import Dstore.Server.ChunkRoutes
/-!
# Where the chunk routes lead

The end of the URL goes into `path_for` unchecked, and the system cuts the path
it makes at the first NUL byte. A path text is a walk through the tree of
files; the file lies in the chunk directory when the walk of the checksum stays
there, or comes back (`contained_iff`). A digest always leads to its own file
(`opened_digest`), while a checksum with a slash in front leads anywhere.
-/
open Dstore.Lib

namespace Dstore

namespace Path

/-- The move that a component of a path text makes. -/
def moveOf (name : Str) : List (Move Str) :=
  if name = [] ∨ name = lit "." then [] else if name = lit ".." then [.up] else [.down name]

/-- The moves of the rest of a path text, `name` being the component read so far. -/
def movesFrom : Str → Str → List (Move Str)
  | name, [] => moveOf name
  | name, c :: rest => if c = slash then moveOf name ++ movesFrom [] rest else movesFrom (name ++ [c]) rest

def moves (p : Str) : List (Move Str) := movesFrom [] p

theorem enter_eq_walk (dir : List Str) (name : Str) : enter dir name = walk dir (moveOf name) := by
  unfold enter moveOf
  split
  · rfl
  · split <;> rfl

theorem follow_eq_walk (dir : List Str) (name p : Str) : follow dir name p = walk dir (movesFrom name p) := by
  induction p generalizing dir name with
  | nil => exact enter_eq_walk dir name
  | cons c p ih =>
    rw [follow, movesFrom]
    split
    · rw [ih, enter_eq_walk, walk_append]
    · exact ih _ _

theorem resolve_eq_walk (p : Str) : resolve p = walk [] (moves p) := follow_eq_walk [] [] p

theorem movesFrom_append_slash (name p q : Str) : movesFrom name (p ++ slash :: q) = movesFrom name p ++ moves q := by
  induction p generalizing name with
  | nil => simp [movesFrom, moves]
  | cons c p ih =>
    rw [List.cons_append, movesFrom, movesFrom]
    split
    · rw [ih, List.append_assoc]
    · exact ih _

theorem movesFrom_name (name : Str) {q : Str} (hq : slash ∉ q) : movesFrom name q = moveOf (name ++ q) := by
  induction q generalizing name with
  | nil => rw [movesFrom, List.append_nil]
  | cons c q ih =>
    rw [List.mem_cons, not_or] at hq
    rw [movesFrom, if_neg (Ne.symm hq.1), ih _ hq.2, List.append_assoc]
    rfl

theorem moves_append_slash (p q : Str) : moves (p ++ slash :: q) = moves p ++ moves q := movesFrom_append_slash [] p q

/-- Joining paths joins their walks, unless the right one is absolute. -/
theorem moves_div (p : Str) {q : Str} (hq : q.head? ≠ some slash) : moves (div p q) = moves p ++ moves q := by
  unfold div
  rw [if_neg hq]
  split
  · rename_i hp
    rcases hp with rfl | hp
    · rfl
    · obtain ⟨r, rfl⟩ := List.getLast?_eq_some_iff.1 hp
      rw [List.append_assoc, List.singleton_append, moves_append_slash, moves_append_slash]
      simp [moves, movesFrom, moveOf]
  · exact moves_append_slash p q

/-! ### Paths cut at a NUL byte -/

theorem cstr_append_of_mem {p : Str} (h : 0 ∈ p) (q : Str) : cstr (p ++ q) = cstr p := by
  unfold cstr
  rw [List.takeWhile_append, if_neg]
  intro hlen
  have hall := List.takeWhile_eq_self_iff.1 ((List.takeWhile_prefix _).eq_of_length hlen)
  simpa using hall 0 h

theorem cstr_append {p : Str} (h : (0 : UInt8) ∉ p) (q : Str) : cstr (p ++ q) = p ++ cstr q :=
  List.takeWhile_append_of_pos fun c hc => by
    rw [decide_eq_true_iff]
    exact fun h0 => h (h0 ▸ hc)

theorem head_cstr {q : Str} {c : UInt8} (hq : q.head? ≠ some c) : (cstr q).head? ≠ some c := by
  cases q with
  | nil => exact hq
  | cons a q =>
    unfold cstr
    rw [List.takeWhile_cons]
    split
    · exact hq
    · simp

/-- The walk of a joined path after the cut. -/
theorem moves_cstr_div (p : Str) {q : Str} (hq : q.head? ≠ some slash) :
    (0 ∈ p → moves (cstr (div p q)) = moves (cstr p)) ∧ (0 ∉ p → moves (cstr (div p q)) = moves p ++ moves (cstr q)) := by
  have hslash : cstr (slash :: q) = slash :: cstr q := cstr_append (by decide : (0 : UInt8) ∉ [slash]) q
  constructor
  · intro h
    unfold div
    rw [if_neg hq]
    split
    · rw [cstr_append_of_mem h]
    · rw [cstr_append_of_mem h]
  · intro h
    rw [← moves_div p (head_cstr hq)]
    unfold div
    rw [if_neg hq, if_neg (head_cstr hq)]
    split
    · rw [cstr_append h]
    · rw [cstr_append h, hslash]

end Path

namespace ChunkStore

/-- The file that the system opens or removes for a chunk. -/
def opened (s : ChunkStore) (checksum : Str) : List Str := Path.resolve (cstr (s.path_for checksum))

/-- The chunk directory. -/
def dir (s : ChunkStore) : List Str := Path.resolve (cstr s.root)

/-- The walk of a checksum from the chunk directory on, first into the directory
of its two first characters. -/
def steps (c : Str) : List (Move Str) :=
  if (c.take 2).contains 0 then Path.moves (cstr c) else Path.moves (c.take 2) ++ Path.moves (cstr c)

variable (s : ChunkStore)

/-- The components of a checksum lead to a place below the chunk directory:
from the root of the file system when it begins with a slash, and else from the
chunk directory, where `..` may leave it and the names after it come back. -/
inductive LeadsTo (c : Str) (rest : List Str) : Prop
  | absolute (below : rest ≠ []) (start : c.head? = some Path.slash)
      (names : (normal (Path.moves (cstr c))).2 = s.dir ++ rest)
  | relative (below : rest ≠ []) (start : c.head? ≠ some Path.slash) (root : 0 ∉ s.root)
      (names : (normal (steps c)).2 = s.dir.drop (s.dir.length - (normal (steps c)).1) ++ rest)

/-- The files of two checksums are below the chunk directory, and not the same one. -/
structure Contained (c c' : Str) : Prop where
  first : ∃ rest, rest ≠ [] ∧ s.opened c = s.dir ++ rest
  second : ∃ rest, rest ≠ [] ∧ s.opened c' = s.dir ++ rest
  apart : c ≠ c' → s.opened c ≠ s.opened c'

/-! ## Opening a chunk -/

theorem opened_absolute {c : Str} (h : c.head? = some Path.slash) : s.opened c = (normal (Path.moves (cstr c))).2 := by
  have hpath : s.path_for c = c := by
    rw [path_for, Path.div, if_pos h]
  rw [opened, hpath, Path.resolve_eq_walk, walk_nil]

theorem opened_relative {c : Str} (h : c.head? ≠ some Path.slash) :
    (0 ∈ s.root → s.opened c = s.dir) ∧ (0 ∉ s.root → s.opened c = walk s.dir (steps c)) := by
  have htake : (c.take 2).head? ≠ some Path.slash := by
    rwa [List.head?_take, if_neg (by decide)]
  obtain ⟨hcut, hwhole⟩ := Path.moves_cstr_div (Path.div s.root (c.take 2)) h
  have hmem : 0 ∈ Path.div s.root (c.take 2) ↔ 0 ∈ s.root ∨ 0 ∈ c.take 2 := by
    unfold Path.div
    rw [if_neg htake]
    split
    · exact List.mem_append
    · rw [List.mem_append, List.mem_cons]
      simp [Path.slash]
  constructor
  · intro hroot
    rw [opened, path_for, dir, Path.resolve_eq_walk, Path.resolve_eq_walk, hcut (hmem.2 (.inl hroot)),
      (Path.moves_cstr_div s.root htake).1 hroot]
  · intro hroot
    have hdir : s.dir = walk [] (Path.moves s.root) := by
      rw [dir, cstr_eq hroot, Path.resolve_eq_walk]
    rw [opened, path_for, Path.resolve_eq_walk, hdir, ← walk_append, steps]
    by_cases htwo : 0 ∈ c.take 2
    · -- the path ends inside the first directory, with all there is of the checksum
      have hc : cstr (c.take 2) = cstr c := by
        conv_rhs => rw [← List.take_append_drop 2 c, Path.cstr_append_of_mem htwo]
      rw [hcut (hmem.2 (.inr htwo)), (Path.moves_cstr_div s.root htake).2 hroot, if_pos (by simpa using htwo), hc]
    · rw [hwhole (by rw [hmem, not_or]; exact ⟨hroot, htwo⟩), Path.moves_div _ htake, if_neg (by simpa using htwo),
        List.append_assoc]

theorem leadsTo_iff (c : Str) (rest : List Str) : s.LeadsTo c rest ↔ rest ≠ [] ∧ s.opened c = s.dir ++ rest := by
  constructor
  · rintro (⟨below, start, names⟩ | ⟨below, start, root, names⟩)
    · exact ⟨below, by rw [s.opened_absolute start, names]⟩
    · exact ⟨below, by rw [(s.opened_relative start).2 root, walk_eq_append_iff, names]⟩
  · rintro ⟨below, hopened⟩
    by_cases hstart : c.head? = some Path.slash
    · rw [s.opened_absolute hstart] at hopened
      exact .absolute below hstart hopened
    · obtain ⟨hnul, hwalk⟩ := s.opened_relative hstart
      by_cases hroot : 0 ∈ s.root
      · rw [hnul hroot, List.self_eq_append_right] at hopened
        exact absurd hopened below
      · rw [hwalk hroot, walk_eq_append_iff] at hopened
        exact .relative below hstart hroot hopened

/-- The files of two checksums are below the chunk directory and different when
their walks lead there, to different places. -/
theorem contained_iff (c c' : Str) :
    s.Contained c c' ↔ ∃ rest rest', s.LeadsTo c rest ∧ s.LeadsTo c' rest' ∧ (c ≠ c' → rest ≠ rest') := by
  constructor
  · rintro ⟨⟨rest, hne, h⟩, ⟨rest', hne', h'⟩, hapart⟩
    refine ⟨rest, rest', (s.leadsTo_iff c rest).2 ⟨hne, h⟩, (s.leadsTo_iff c' rest').2 ⟨hne', h'⟩, fun hcc heq => ?_⟩
    exact hapart hcc (by rw [h, h', heq])
  · rintro ⟨rest, rest', h, h', hapart⟩
    rw [leadsTo_iff] at h h'
    refine ⟨⟨rest, h⟩, ⟨rest', h'⟩, fun hcc heq => hapart hcc ?_⟩
    rw [h.2, h'.2] at heq
    exact List.append_cancel_left heq

/-- A checksum with a slash in front leads out of the chunk directory. -/
theorem escaping_delete : ∃ s : ChunkStore, s.dir = [lit "data", lit "chunks"] ∧
    s.disk [lit "etc", lit "passwd"] ≠ none ∧ ¬ s.Contained (lit "/etc/passwd") (lit "/etc/passwd") ∧
    (Server.deleteChunk [] none ⟨lit "DELETE", lit "/v1/chunks//etc/passwd", ∅, []⟩ s).1.status = 204 ∧
    (Server.deleteChunk [] none ⟨lit "DELETE", lit "/v1/chunks//etc/passwd", ∅, []⟩ s).2.disk
      [lit "etc", lit "passwd"] = none := by
  refine ⟨⟨lit "/data/chunks", fun _ => some [], .empty 1⟩, by decide +kernel, by decide, fun h => ?_, by decide +kernel,
    by decide +kernel⟩
  obtain ⟨rest, -, hbelow⟩ := h.first
  rw [show opened _ _ = [lit "etc", lit "passwd"] by decide +kernel,
    show dir _ = [lit "data", lit "chunks"] by decide +kernel] at hbelow
  exact absurd (List.cons.inj hbelow).1 (by decide +kernel)

/-! ## The operations -/

/-- A digest is a name in the directory of its two first digits. -/
theorem opened_digest (hroot : 0 ∉ s.root) {c : Str} (h : Digest c) : s.opened c = s.dir ++ [c.take 2, c] := by
  have hslash := slash_not_mem h.2
  have hzero : (0 : UInt8) ∉ c := fun hm => absurd (h.2 _ hm) (by decide)
  have hname : ∀ d : Str, Path.slash ∉ d → 2 ≤ d.length → d ≠ lit ".." → Path.moves d = [.down d] := by
    intro d hd hlen hdots
    have hfollow := Path.movesFrom_name [] hd
    rw [List.nil_append] at hfollow
    rw [Path.moves, hfollow, Path.moveOf, if_neg, if_neg hdots]
    rintro (rfl | rfl) <;> simp [lit] at hlen
  have hdot : ∀ d : Str, (∀ x ∈ d, isHex x = true) → d ≠ lit ".." := by
    rintro d hd rfl
    exact absurd (hd 46 (by decide +kernel)) (by decide)
  have hsub : ∀ x ∈ c.take 2, x ∈ c := fun x hx => List.mem_of_mem_take hx
  have hstart : c.head? ≠ some Path.slash := fun hc => hslash (List.mem_of_mem_head? hc)
  have hlen : 2 ≤ c.length := by
    rw [h.1]
    decide
  rw [(s.opened_relative hstart).2 hroot, steps, if_neg (by simpa using fun hx => hzero (hsub 0 hx)), cstr_eq hzero,
    hname _ (fun hx => hslash (hsub _ hx)) (by rw [List.length_take]; omega) (hdot _ fun x hx => h.2 x (hsub x hx)),
    hname c hslash hlen (hdot c h.2)]
  simp [walk]

/-- Digests are safe. -/
theorem digests_contained (hroot : 0 ∉ s.root) {c c' : Str} (h : Digest c) (h' : Digest c') : s.Contained c c' := by
  refine ⟨⟨_, by simp, s.opened_digest hroot h⟩, ⟨_, by simp, s.opened_digest hroot h'⟩, fun hne heq => hne ?_⟩
  rw [s.opened_digest hroot h, s.opened_digest hroot h'] at heq
  exact (by simpa using List.append_cancel_left heq : _ ∧ c = c').2

/-- Without NUL bytes the whole path counts. -/
theorem opened_eq (hroot : 0 ∉ s.root) {c : Str} (hc : 0 ∉ c) : s.opened c = Path.resolve (s.path_for c) := by
  have hdiv : ∀ {p q : Str}, 0 ∉ p → 0 ∉ q → (0 : UInt8) ∉ Path.div p q := by
    intro p q hp hq
    unfold Path.div
    split
    · exact hq
    · split
      · rw [List.mem_append, not_or]
        exact ⟨hp, hq⟩
      · rw [List.mem_append, List.mem_cons, not_or, not_or]
        exact ⟨hp, by decide, hq⟩
  rw [opened, path_for, cstr_eq (hdiv (hdiv hroot fun hx => hc (List.mem_of_mem_take hx)) hc)]

/-- What is read depends on one file, -/
theorem get_of_opened (H : HexHash) {s s' : ChunkStore} {c : Str} (hroot : 0 ∉ s.root) (hc : 0 ∉ c)
    (hsame : s'.root = s.root) (hcache : s'.cache = s.cache) (hfile : s'.disk (s.opened c) = s.disk (s.opened c)) :
    (s'.get H c).1 = (s.get H c).1 := by
  have hpath : s'.path_for c = s.path_for c := by
    rw [path_for, path_for, hsame]
  rw [s.opened_eq hroot hc] at hfile
  unfold get
  rw [hpath, hfile, hcache]
  cases s.cache.get c with
  | mk cached cache =>
    cases cached with
    | some b => rfl
    | none =>
      cases s.disk (Path.resolve (s.path_for c)) with
      | none => rfl
      | some b =>
        simp only
        split <;> rfl

/-- and no other file is removed. -/
theorem remove_of_opened (fault : Option DiskFault) {c : Str} (references : Int) (hroot : 0 ∉ s.root) (hc : 0 ∉ c)
    {p : List Str} (hp : p ≠ s.opened c) : (s.remove_if_unreferenced fault c references).2.disk p = s.disk p := by
  rw [s.opened_eq hroot hc] at hp
  unfold remove_if_unreferenced
  split
  · rfl
  · split
    · rfl
    · exact if_neg hp

end ChunkStore

end Dstore
