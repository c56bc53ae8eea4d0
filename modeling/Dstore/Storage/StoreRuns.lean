import Dstore.Lib.Runs
import Dstore.Storage.StoreThreads
/-!
# Calls of a chunk store that overlap

Any number of threads in a chunk store, and a process that goes down at any
time. Writers make a file in a temporary place that no reader looks at, and the
name of a chunk leads only to files that nobody writes to any more (`Settled`),
so a reader that has opened one reads the whole of it, whatever happens to its
name meanwhile. All this is about disks that do not cut a file after `put` has
checked its stream (`Uncut`); where one does, the cut file gets the name.
-/
open Dstore.Lib

namespace Dstore

namespace StoreThreads

variable {H : HexHash} {root : Str}

/-! ## What one step keeps -/

variable (root) in
/-- No `put` writes to the file any more. -/
def Settled (s : Shared) (file : Nat) : Prop :=
  file < s.files.next ∧ ∀ c, Digest c → s.files.names (tmpPath root c) ≠ some file

variable (H root) in
/-- What a thread can rely on. -/
def Fine (s : Shared) : ChunkRequest → Stage → Prop
  | .put _ bytes, .writing file written =>
    s.files.names (tmpPath root (H.hex bytes)) = some file ∧ s.files.content file = bytes.take written
  | .put _ bytes, .written =>
    ∃ file, s.files.names (tmpPath root (H.hex bytes)) = some file ∧ s.files.content file = bytes
  | .put _ bytes, .stored => (s.files.names (chunkPath root (H.hex bytes))).isSome = true
  | .get checksum, .reading file bytes =>
    Digest checksum → Settled root s file ∧ H.hex (s.files.content file) = checksum ∧ bytes <+: s.files.content file
  | .get checksum, .verified bytes => H.hex bytes = checksum
  | .get checksum, .answered answer => ∀ bytes, answer = .read (.ok bytes) → H.hex bytes = checksum
  | _, _ => True

variable (H root) in
/-- The files of chunks are whole. -/
def Whole (s : Shared) : Prop := ∀ c, Digest c → ∀ bytes, s.files.read (chunkPath root c) = some bytes → H.hex bytes = c

variable (H) in
/-- The cache has nothing under a wrong checksum. -/
def Cached (s : Shared) : Prop := ∀ p ∈ s.cache.toList, H.hex p.2 = p.1

theorem Fine.congr {s s' : Shared} (hs : s'.files = s.files) {q : ChunkRequest} {st : Stage} (h : Fine H root s q st) :
    Fine H root s' q st := by
  unfold Fine Settled at h ⊢
  rw [hs]
  exact h

section Step
variable {s s' : Shared} {q : ChunkRequest} {st st' : Stage} (h : Moves H root s q st st' s')
include h

/-- Only inside the lock files are changed. -/
theorem Moves.files : s'.files = s.files ∨ st.holds = true := by
  cases h with
  | openTmp | write | rename | unlink => exact .inr rfl
  | _ => exact .inl rfl

theorem Moves.lock_cases : (st'.holds = st.holds ∧ s'.locked = s.locked) ∨
    (st.holds = false ∧ s.locked = false ∧ s'.locked = true) ∨ (st.holds = true ∧ st'.holds = false) := by
  cases h with
  | lock hfree => exact .inr (.inl ⟨rfl, hfree, rfl⟩)
  | lockRemove hfree => exact .inr (.inl ⟨rfl, hfree, rfl⟩)
  | cannotOpen | cannotWrite | finish | cannotRemove | unlink => exact .inr (.inr ⟨rfl, rfl⟩)
  | _ => exact .inl ⟨rfl, rfl⟩

theorem Moves.whole (hw : Whole H root s) (hf : Fine H root s q st) : Whole H root s' := by
  cases h with
  | @openTmp _ bytes file files hopen =>
    intro c hc x hx
    have hread := s.files.read_openTruncated (tmpPath root (H.hex bytes)) (chunkPath root c)
    rw [hopen, if_neg (chunkPath_ne_tmpPath (H.digest bytes) hc)] at hread
    exact hw c hc x (hread.symm.trans hx)
  | @write _ bytes file written k =>
    intro c hc x hx
    have hread := Files.read_append hf.1 ((bytes.drop written).take k) (chunkPath root c)
    rw [if_neg (chunkPath_ne_tmpPath (H.digest bytes) hc)] at hread
    exact hw c hc x (hread.symm.trans hx)
  | @rename _ bytes =>
    obtain ⟨file, hfile, hcontent⟩ := hf
    intro c hc x hx
    have hread := Files.read_rename hfile (chunkPath root (H.hex bytes)) (chunkPath root c)
    rw [if_neg (chunkPath_ne_tmpPath (H.digest bytes) hc)] at hread
    have hx := hread.symm.trans hx
    split at hx
    · rename_i he
      rw [hcontent] at hx
      rw [← Option.some.inj hx]
      exact (chunkPath_inj hc (H.digest bytes) he).symm
    · exact hw c hc x hx
  | @unlink _ checksum _ =>
    intro c hc x hx
    have hx := (s.files.read_unlink (chunkPath root checksum) (chunkPath root c)).symm.trans hx
    split at hx
    · cases hx
    · exact hw c hc x hx
  | _ => exact hw

theorem Moves.cached (hc : Cached H s) (hf : Fine H root s q st) : Cached H s' := by
  cases h with
  | finish =>
    intro p hp
    rcases LruCache.mem_of_mem_put hp with rfl | hp
    · rfl
    · exact hc p hp
  | keep =>
    intro p hp
    rcases LruCache.mem_of_mem_put hp with rfl | hp
    · exact hf
    · exact hc p hp
  | @hit checksum cached cache hhit =>
    intro p hp
    have hmem := LruCache.mem_of_mem_get (c := s.cache) (k := checksum) (p := p)
    rw [hhit] at hmem
    exact hc p (hmem hp)
  | _ => exact hc

/-- What is settled stays as it is. -/
theorem Moves.settled (hf : Fine H root s q st) {i : Nat} (hi : Settled root s i) :
    Settled root s' i ∧ s'.files.content i = s.files.content i := by
  obtain ⟨hlt, htmp⟩ := hi
  cases h with
  | @openTmp _ bytes file files hopen =>
    obtain ⟨file', files', heq, hnames, hcontent, hnext, hnew, -⟩ := s.files.openTruncated_spec (tmpPath root (H.hex bytes))
    obtain ⟨rfl, rfl⟩ := Prod.mk.inj (hopen.symm.trans heq)
    have hne : i ≠ file := by
      rintro rfl
      rcases hnew with hnew | rfl
      · exact htmp _ (H.digest bytes) hnew
      · exact Nat.lt_irrefl _ hlt
    refine ⟨⟨Nat.lt_of_lt_of_le hlt hnext, fun c hc => ?_⟩, ?_⟩
    · show files.names _ ≠ _
      rw [hnames]
      by_cases he : tmpPath root c = tmpPath root (H.hex bytes)
      · rw [he, Function.update_self]
        exact fun heq => hne (Option.some.inj heq).symm
      · rw [Function.update_of_ne he]
        exact htmp c hc
    · show files.content i = _
      rw [hcontent, Function.update_of_ne hne]
  | @write _ bytes file written k =>
    have hne : i ≠ file := by
      rintro rfl
      exact htmp _ (H.digest bytes) hf.1
    exact ⟨⟨hlt, htmp⟩, Function.update_of_ne hne _ _⟩
  | @rename _ bytes =>
    obtain ⟨file, hfile, -⟩ := hf
    obtain ⟨hnames, hcontent, hnext⟩ := Files.rename_spec hfile (chunkPath root (H.hex bytes))
    refine ⟨⟨hnext.symm ▸ hlt, fun c hc => ?_⟩, congrFun hcontent i⟩
    show (s.files.rename _ _).names _ ≠ _
    rw [hnames, Function.update_of_ne (chunkPath_ne_tmpPath hc (H.digest bytes)).symm]
    by_cases he : tmpPath root c = tmpPath root (H.hex bytes)
    · rw [he, Function.update_self]
      exact nofun
    · rw [Function.update_of_ne he]
      exact htmp c hc
  | @unlink _ checksum _ =>
    refine ⟨⟨hlt, fun c hc => ?_⟩, rfl⟩
    show Function.update s.files.names (chunkPath root checksum) none (tmpPath root c) ≠ _
    by_cases he : tmpPath root c = chunkPath root checksum
    · rw [he, Function.update_self]
      exact nofun
    · rw [Function.update_of_ne he]
      exact htmp c hc
  | _ => exact ⟨⟨hlt, htmp⟩, rfl⟩

/-- A thread goes on with what it can rely on. -/
theorem Moves.fine (hw : Whole H root s) (hc : Cached H s) (hq : ChunkStore.Whole q) (hf : Fine H root s q st) :
    Fine H root s' q st' := by
  cases h with
  | present hsome => exact hsome
  | @openTmp _ bytes file files hopen =>
    obtain ⟨file', files', heq, hnames, hcontent, -⟩ := s.files.openTruncated_spec (tmpPath root (H.hex bytes))
    obtain ⟨rfl, rfl⟩ := Prod.mk.inj (hopen.symm.trans heq)
    refine ⟨?_, ?_⟩
    · show files.names _ = _
      rw [hnames, Function.update_self]
    · show files.content file = _
      rw [hcontent, Function.update_self, List.take_zero]
  | @write _ bytes file written k =>
    refine ⟨hf.1, ?_⟩
    show Function.update s.files.content file _ file = _
    rw [Function.update_self, hf.2, List.take_add]
    exact congrArg _ (List.prefix_iff_eq_take.1 (List.take_prefix k _))
  | @close fault bytes file written hend hwrites =>
    have hall : bytes.take (writable fault bytes) = bytes :=
      (take_writable hwrites bytes).trans (ChunkStore.flushed_eq_iff.2 hq)
    refine ⟨file, hf.1, hf.2.trans (List.take_of_length_le ?_)⟩
    exact (List.take_eq_self_iff bytes).1 hall |>.trans hend
  | @rename _ bytes =>
    obtain ⟨file, hfile, -⟩ := hf
    show ((s.files.rename _ _).names _).isSome = true
    rw [(Files.rename_spec hfile _).1, Function.update_self]
    rfl
  | @hit checksum cached cache hhit =>
    rcases s.cache.get_cases checksum with ⟨hnone, -⟩ | ⟨v, hv, hmem, -⟩
    · rw [hhit] at hnone
      cases hnone
    · rw [hhit] at hv
      obtain rfl := Option.some.inj hv
      rintro _ ⟨⟩
      exact hc _ hmem
  | @opened checksum file hfile =>
    intro hd
    refine ⟨⟨s.files.names_lt _ _ hfile, fun c hc' he => ?_⟩, ?_, List.nil_prefix⟩
    · exact chunkPath_ne_tmpPath hc' hd (s.files.names_inj _ _ _ hfile he)
    · refine hw checksum hd _ ?_
      rw [Files.read, hfile]
      rfl
  | @more checksum file bytes k =>
    intro hd
    obtain ⟨hsettled, hhex, rest, hrest⟩ := hf hd
    refine ⟨hsettled, hhex, ?_⟩
    rw [← hrest, List.drop_left, List.prefix_append_right_inj]
    exact List.take_prefix k rest
  | verify hhex => exact hhex
  | keep =>
    rintro _ ⟨⟩
    exact hf
  | absent | mismatch =>
    intro read hread
    cases hread
  | _ => trivial

end Step

/-! ## Threads -/

/-- The threads of a store, and the calls that they have made. -/
structure World where
  shared : Shared
  threads : List (ChunkRequest × Stage) := []

inductive Event where
  | call (q : ChunkRequest)
  /-- The next step of thread `i`. -/
  | step (i count : Nat)
  /-- The process is gone, and a new one opens the store. -/
  | crash

def Stage.crash : Stage → Stage
  | .answered answer => .answered answer
  | _ => .lost

namespace World

variable (H root) in
def exec (w : World) : Event → Option World
  | .call q => some { w with threads := w.threads ++ [(q, .called)] }
  | .step i count =>
    match w.threads[i]? with
    | none => none
    | some (q, st) =>
      (StoreThreads.step H root count w.shared q st).map fun next => ⟨next.2, w.threads.set i (q, next.1)⟩
  | .crash =>
    some ⟨⟨w.shared.files, .empty w.shared.cache.capacity, false⟩, w.threads.map fun x => (x.1, x.2.crash)⟩

/-- A store that was just opened. -/
def start (cache_bytes : Nat) (files : Files (List Str) UInt8) : World :=
    ⟨⟨files, .empty (cache_bytes / 4096 + 1), false⟩, []⟩

variable (H root) in
abbrev Execution (w : World) := Run (fun (w : World) e w' => w.exec H root e = some w') w

/-- No call is on a disk that cuts a file without notice. -/
def Uncut (w : World) : Prop := ∀ q ∈ w.threads.map Prod.fst, ChunkStore.Whole q

variable (H root) in
structure Inv (w : World) : Prop where
  whole : Whole H root w.shared
  cached : Cached H w.shared
  fine : ∀ x ∈ w.threads, Fine H root w.shared x.1 x.2
  /-- At most one thread has the lock. -/
  lock : ∀ (i : Nat) x, w.threads[i]? = some x → x.2.holds = true →
    w.shared.locked = true ∧ ∀ (j : Nat) y, w.threads[j]? = some y → y.2.holds = true → j = i

/-- The cases of an event. -/
theorem exec_cases {w w' : World} {e : Event} (h : w.exec H root e = some w') :
    (∃ q, w' = { w with threads := w.threads ++ [(q, .called)] }) ∨
      (∃ i q st st' s', w.threads[i]? = some (q, st) ∧ Moves H root w.shared q st st' s' ∧
        w' = ⟨s', w.threads.set i (q, st')⟩) ∨
      w' = ⟨⟨w.shared.files, .empty w.shared.cache.capacity, false⟩, w.threads.map fun x => (x.1, x.2.crash)⟩ := by
  cases e with
  | call q =>
    cases h
    exact .inl ⟨q, rfl⟩
  | step i count =>
    rw [exec] at h
    split at h
    · cases h
    · rename_i q st hi
      obtain ⟨⟨st', s'⟩, hstep, rfl⟩ := Option.map_eq_some_iff.1 h
      exact .inr (.inl ⟨i, q, st, st', s', hi, moves_of_step hstep, rfl⟩)
  | crash =>
    cases h
    exact .inr (.inr rfl)

/-- Calls are added, and stay what they are. -/
theorem requests_exec {w w' : World} {e : Event} (he : w.exec H root e = some w') :
    w.threads.map Prod.fst <+: w'.threads.map Prod.fst := by
  rcases exec_cases he with ⟨q, rfl⟩ | ⟨i, q, st, st', s', hi, hmoves, rfl⟩ | rfl
  · rw [List.map_append]
    exact List.prefix_append _ _
  · obtain ⟨hlt, hget⟩ := List.getElem?_eq_some_iff.1 hi
    have hsame : (w.threads.map Prod.fst).set i q = w.threads.map Prod.fst := by
      refine List.ext_getElem? fun j => ?_
      by_cases hij : i = j
      · subst hij
        rw [List.getElem?_set_self (by simpa using hlt), List.getElem?_map, hi]
        rfl
      · rw [List.getElem?_set_ne hij]
    have hset : (w.threads.set i (q, st')).map Prod.fst = w.threads.map Prod.fst := List.map_set.trans hsame
    exact hset ▸ List.prefix_refl _
  · have hsame : (w.threads.map fun x => (x.1, x.2.crash)).map Prod.fst = w.threads.map Prod.fst := List.map_map
    exact hsame ▸ List.prefix_refl _

theorem holds_crash (st : Stage) : st.crash.holds = false := by cases st <;> rfl

theorem fine_crash {s s' : Shared} {q : ChunkRequest} {st : Stage} (h : Fine H root s q st) : Fine H root s' q st.crash := by
  cases st with
  | answered answer => cases q <;> exact h
  | _ => cases q <;> trivial

/-- What a step of another thread leaves of what a thread can rely on. -/
theorem fine_other {s s' : Shared} {q r : ChunkRequest} {st st' other : Stage} (h : Moves H root s q st st' s')
    (hf : Fine H root s q st) (hr : Fine H root s r other) (hlock : st.holds = true → other.holds = false) :
    Fine H root s' r other := by
  rcases h.files with hfiles | hholds
  · exact hr.congr hfiles
  · have hno := hlock hholds
    cases other with
    | locked | writing | written | stored => cases hno
    | reading file bytes =>
      cases r with
      | get checksum =>
        intro hd
        obtain ⟨hsettled, hhex, hfront⟩ := hr hd
        obtain ⟨hsettled', hcontent⟩ := h.settled hf hsettled
        rw [hcontent]
        exact ⟨hsettled', hhex, hfront⟩
      | _ => trivial
    | _ => cases r <;> exact hr

theorem Inv.exec {w w' : World} {e : Event} (h : Inv H root w) (hcut : w.Uncut) (he : w.exec H root e = some w') :
    Inv H root w' := by
  rcases exec_cases he with ⟨q, rfl⟩ | ⟨i, q, st, st', s', hi, hmoves, rfl⟩ | rfl
  · refine ⟨h.whole, h.cached, fun x hx => ?_, ?_⟩
    · rcases List.mem_append.1 hx with hx | hx
      · exact h.fine x hx
      · rw [List.mem_singleton.1 hx]
        cases q <;> trivial
    · have hold : ∀ (j : Nat) y, (w.threads ++ [(q, Stage.called)])[j]? = some y → y.2.holds = true →
        w.threads[j]? = some y := by
        intro j y hj hy
        rcases Nat.lt_or_ge j w.threads.length with hlt | hge
        · rwa [List.getElem?_append_left hlt] at hj
        · rw [List.getElem?_append_right hge, List.getElem?_singleton] at hj
          split at hj <;> cases hj
          cases hy
      intro i x hx hholds
      obtain ⟨hlocked, honly⟩ := h.lock i x (hold i x hx hholds) hholds
      exact ⟨hlocked, fun j y hj hy => honly j y (hold j y hj hy) hy⟩
  · have hfine := h.fine _ (List.mem_of_getElem? hi)
    refine ⟨hmoves.whole h.whole hfine, hmoves.cached h.cached hfine, ?_, ?_⟩
    · intro x hx
      obtain ⟨j, hj⟩ := List.mem_iff_getElem?.1 hx
      by_cases hji : i = j
      · subst hji
        rw [List.getElem?_set_self (List.getElem?_eq_some_iff.1 hi).1] at hj
        cases hj
        exact hmoves.fine h.whole h.cached (hcut q (List.mem_map_of_mem (List.mem_of_getElem? hi))) hfine
      · rw [List.getElem?_set_ne hji] at hj
        refine fine_other hmoves hfine (h.fine x (List.mem_of_getElem? hj)) fun hholds => ?_
        by_contra hx
        exact hji ((h.lock i _ hi hholds).2 j x hj (Bool.not_eq_false _ ▸ hx)).symm
    · -- who has the lock now had it before, or is the thread that moved
      have hold : ∀ (j : Nat) y, (w.threads.set i (q, st'))[j]? = some y → y.2.holds = true →
          (j = i ∧ st'.holds = true) ∨ (j ≠ i ∧ w.threads[j]? = some y) := by
        intro j y hj hy
        by_cases hji : j = i
        · subst hji
          rw [List.getElem?_set_self (List.getElem?_eq_some_iff.1 hi).1] at hj
          cases hj
          exact .inl ⟨rfl, hy⟩
        · rw [List.getElem?_set_ne (Ne.symm hji)] at hj
          exact .inr ⟨hji, hj⟩
      rcases hmoves.lock_cases with ⟨hsame, hlocked⟩ | ⟨-, hfree, hlocked⟩ | ⟨hhad, hgone⟩
      · have hbefore : ∀ (j : Nat) y, (w.threads.set i (q, st'))[j]? = some y → y.2.holds = true →
            ∃ x, w.threads[j]? = some x ∧ x.2.holds = true := by
          intro j y hj hy
          rcases hold j y hj hy with ⟨rfl, hst⟩ | ⟨-, hj⟩
          · exact ⟨_, hi, hsame ▸ hst⟩
          · exact ⟨y, hj, hy⟩
        intro j y hj hy
        obtain ⟨x, hx, hholds⟩ := hbefore j y hj hy
        obtain ⟨hwas, honly⟩ := h.lock j x hx hholds
        refine ⟨hlocked.trans hwas, fun k z hk hz => ?_⟩
        obtain ⟨x', hx', hholds'⟩ := hbefore k z hk hz
        exact honly k x' hx' hholds'
      · have honly : ∀ (j : Nat) y, (w.threads.set i (q, st'))[j]? = some y → y.2.holds = true → j = i := by
          intro j y hj hy
          rcases hold j y hj hy with ⟨hji, -⟩ | ⟨-, hj⟩
          · exact hji
          · have hwas := (h.lock j y hj hy).1
            rw [hfree] at hwas
            cases hwas
        intro j y hj hy
        obtain rfl := honly j y hj hy
        exact ⟨hlocked, honly⟩
      · intro j y hj hy
        rcases hold j y hj hy with ⟨-, hst⟩ | ⟨hne, hj⟩
        · rw [hgone] at hst
          cases hst
        · exact absurd ((h.lock i _ hi hhad).2 j y hj hy) hne
  · refine ⟨h.whole, nofun, ?_, ?_⟩
    · intro x hx
      obtain ⟨y, hy, rfl⟩ := List.mem_map.1 hx
      exact fine_crash (h.fine y hy)
    · intro i x hx hholds
      obtain ⟨y, -, rfl⟩ := List.mem_map.1 (List.mem_of_getElem? hx)
      rw [holds_crash] at hholds
      cases hholds

theorem inv_run {cache_bytes : Nat} {files : Files (List Str) UInt8}
    (hwhole : ∀ c, Digest c → ∀ bytes, files.read (chunkPath root c) = some bytes → H.hex bytes = c)
    (r : Execution H root (start cache_bytes files)) (t : Nat) (hcut : (r.state t).Uncut) : Inv H root (r.state t) := by
  refine r.inv (fun w => w.Uncut → Inv H root w) (fun _ => ⟨hwhole, nofun, nofun, nofun⟩) (fun w e w' h he hcut => ?_) t hcut
  have hbefore : w.Uncut := fun q hq => hcut q ((requests_exec he).subset hq)
  exact (h hbefore).exec hbefore he

/-- Whatever the threads do and wherever the process goes down, on disks that cut
no file without notice a file under the name of a chunk is that chunk, whole; and
what a call of `get` answers has the checksum that it was asked for. -/
theorem chunk_files_whole (H : HexHash) (root : Str) (cache_bytes : Nat) (files : Files (List Str) UInt8)
    (hwhole : ∀ c, Digest c → ∀ bytes, files.read (chunkPath root c) = some bytes → H.hex bytes = c)
    (r : Execution H root (start cache_bytes files)) (t : Nat) (hcut : (r.state t).Uncut) :
    (∀ c, Digest c → ∀ bytes, (r.state t).shared.files.read (chunkPath root c) = some bytes → H.hex bytes = c) ∧
      ∀ c bytes, (.get c, .answered (.read (.ok bytes))) ∈ (r.state t).threads → H.hex bytes = c :=
  ⟨(inv_run hwhole r t hcut).whole, fun _ bytes hx => (inv_run hwhole r t hcut).fine _ hx bytes rfl⟩

/-- A `put` that goes down while it writes, a second one of the same chunk, and
a `get` after the process went down again. -/
def storedAgain : List Event :=
  [.call (.put none (lit "abc")), .step 0 0, .step 0 0, .step 0 2, .crash,
    .call (.put none (lit "abc")), .step 1 0, .step 1 0, .step 1 2, .step 1 2, .step 1 0, .step 1 0, .step 1 0, .crash,
    .call (.get (Sha256.hex (lit "abc"))), .step 2 0, .step 2 0, .step 2 9, .step 2 0, .step 2 0]

def storedRun : Execution Sha256.hexHash (lit "/d") (start 0 .empty) :=
  Run.ofPartial (World.exec Sha256.hexHash (lit "/d")) _ storedAgain

def storedAfter (H : HexHash) (t : Nat) : World :=
  Run.stateAfter (fun w e => (World.exec H (lit "/d") w e).getD w) (start 0 .empty) storedAgain t

theorem storedRun_state (t : Nat) : storedRun.state t = storedAfter Sha256.hashKnown t := by
  rw [← Sha256.hexHash_eq]
  rfl

theorem storedRun_uncut : (storedRun.state 20).Uncut := by
  have hrequests : (storedRun.state 20).threads.map Prod.fst =
      [.put none (lit "abc"), .put none (lit "abc"), .get (Sha256.hex (lit "abc"))] := by
    rw [storedRun_state, Sha256.hex_eq]
    decide +kernel
  intro q hq
  rw [hrequests] at hq
  rcases List.mem_cons.1 hq with rfl | hq
  · rfl
  rcases List.mem_cons.1 hq with rfl | hq
  · rfl
  · rw [List.mem_singleton.1 hq]
    trivial

theorem storedRun_whole :
    (∀ c, Digest c → ∀ bytes, (storedRun.state 20).shared.files.read (chunkPath (lit "/d") c) = some bytes →
        Sha256.hexHash.hex bytes = c) ∧
      ∀ c bytes, (.get c, .answered (.read (.ok bytes))) ∈ (storedRun.state 20).threads → Sha256.hexHash.hex bytes = c :=
  chunk_files_whole Sha256.hexHash (lit "/d") 0 .empty (fun _ _ _ h => by cases h) storedRun 20 storedRun_uncut

/-! ## Chunks that stay -/

variable (root) in
/-- Somebody is about to remove the file of a chunk. -/
def Removing (w : World) (checksum : Str) : Prop :=
  ∃ fault c references, (.remove fault c references, Stage.locked) ∈ w.threads ∧ chunkPath root c = chunkPath root checksum

variable (root) in
def Present (w : World) (checksum : Str) : Prop := (w.shared.files.names (chunkPath root checksum)).isSome = true

theorem Present.exec {w w' : World} {e : Event} {c : Str} (hc : Digest c) (hw : Inv H root w) (h : Present root w c)
    (hkeep : ¬ Removing root w c) (he : w.exec H root e = some w') : Present root w' c := by
  rcases exec_cases he with ⟨q, rfl⟩ | ⟨i, q, st, st', s', hi, hmoves, rfl⟩ | rfl
  · exact h
  · have hmem := List.mem_of_getElem? hi
    have hfine := hw.fine _ hmem
    unfold Present at h ⊢
    cases hmoves with
    | @openTmp _ bytes file files hopen =>
      obtain ⟨file', files', heq, hnames, -⟩ := w.shared.files.openTruncated_spec (tmpPath root (H.hex bytes))
      obtain ⟨rfl, rfl⟩ := Prod.mk.inj (hopen.symm.trans heq)
      show (files.names _).isSome = true
      rwa [hnames, Function.update_of_ne (chunkPath_ne_tmpPath (H.digest bytes) hc)]
    | @rename _ bytes =>
      obtain ⟨file, hfile, -⟩ := hfine
      show ((w.shared.files.rename _ _).names _).isSome = true
      rw [(Files.rename_spec hfile _).1]
      by_cases heq : chunkPath root c = chunkPath root (H.hex bytes)
      · rw [heq, Function.update_self]
        rfl
      · rwa [Function.update_of_ne heq, Function.update_of_ne (chunkPath_ne_tmpPath (H.digest bytes) hc)]
    | @unlink fault checksum references =>
      show (Function.update w.shared.files.names (chunkPath root checksum) none (chunkPath root c)).isSome = true
      rwa [Function.update_of_ne fun heq => hkeep ⟨fault, checksum, references, hmem, heq.symm⟩]
    | _ => exact h
  · exact h

/-- What a thread is after an event that it was there before. -/
theorem thread_before {w w' : World} {e : Event} (he : w.exec H root e = some w') {i : Nat} {q : ChunkRequest}
    {answer : ChunkAnswer} (hi : w'.threads[i]? = some (q, .answered answer)) :
    w.threads[i]? = some (q, .answered answer) ∨
      ∃ st s', w.threads[i]? = some (q, st) ∧ Moves H root w.shared q st (.answered answer) s' ∧ w'.shared = s' := by
  rcases exec_cases he with ⟨r, rfl⟩ | ⟨j, r, st, st', s', hj, hmoves, rfl⟩ | rfl
  · rcases Nat.lt_or_ge i w.threads.length with hlt | hge
    · rw [List.getElem?_append_left hlt] at hi
      exact .inl hi
    · rw [List.getElem?_append_right hge, List.getElem?_singleton] at hi
      split at hi <;> cases hi
  · by_cases hij : j = i
    · subst hij
      rw [List.getElem?_set_self (List.getElem?_eq_some_iff.1 hj).1] at hi
      cases hi
      exact .inr ⟨st, s', hj, hmoves, rfl⟩
    · rw [List.getElem?_set_ne hij] at hi
      exact .inl hi
  · rw [List.getElem?_map, Option.map_eq_some_iff] at hi
    obtain ⟨⟨r, st⟩, hr, heq⟩ := hi
    obtain ⟨rfl, hst⟩ := Prod.mk.inj heq
    cases st <;> cases hst
    exact .inl hr

/-- A `put` returns with the file of its chunk there. -/
theorem present_of_stored {w w' : World} {e : Event} {fault : Option DiskFault} {bytes : Bytes} {ref : ChunkRef} {i : Nat}
    (hw : Inv H root w) (hkeep : ¬ Removing root w (H.hex bytes))
    (h : w.threads[i]? = some (.put fault bytes, .answered (.stored (.ok ref))) → Present root w (H.hex bytes))
    (he : w.exec H root e = some w') (hi : w'.threads[i]? = some (.put fault bytes, .answered (.stored (.ok ref)))) :
    Present root w' (H.hex bytes) := by
  rcases thread_before he hi with hold | ⟨st, s', hold, hmoves, hshared⟩
  · exact (h hold).exec (H.digest bytes) hw hkeep he
  · cases hmoves with
    | finish ref =>
      unfold Present
      rw [hshared]
      exact hw.fine _ (List.mem_of_getElem? hold)

/-- A `get` of a chunk whose file is there does not fail. -/
theorem not_failed {w w' : World} {e : Event} {c : Str} {status : Status} {j : Nat} (hc : Digest c) (hw : Inv H root w)
    (hpresent : Present root w c) (h : w.threads[j]? ≠ some (.get c, .answered (.read (.error status))))
    (he : w.exec H root e = some w') : w'.threads[j]? ≠ some (.get c, .answered (.read (.error status))) := by
  intro hj
  rcases thread_before he hj with hold | ⟨st, s', hold, hmoves, -⟩
  · exact h hold
  · cases hmoves with
    | absent status hnone =>
      rw [Present, hnone] at hpresent
      cases hpresent
    | @mismatch _ file bytes status hend hne =>
      obtain ⟨-, hhex, hfront⟩ := hw.fine _ (List.mem_of_getElem? hold) hc
      rw [← hfront.eq_of_length_le hend] at hhex
      exact hne hhex

/-- A chunk that a `put` has returned for is read by every later `get`, however
the calls overlap and also after crashes, as long as nobody removes its file and
no disk cuts a file without notice. -/
theorem stored_chunk_is_read (H : HexHash) (root : Str) (cache_bytes : Nat) (files : Files (List Str) UInt8)
    (hwhole : ∀ c, Digest c → ∀ bytes, files.read (chunkPath root c) = some bytes → H.hex bytes = c)
    (r : Execution H root (start cache_bytes files)) (called stored answered i j : Nat) (fault : Option DiskFault)
    (bytes : Bytes)
    (ref : ChunkRef) (result : Result Bytes) (hcut : (r.state answered).Uncut)
    (hcalled : (r.state called).threads.length ≤ i)
    (hstored : (r.state stored).threads[i]? = some (.put fault bytes, .answered (.stored (.ok ref))))
    (hlater : (r.state stored).threads.length ≤ j)
    (hanswered : (r.state answered).threads[j]? = some (.get (H.hex bytes), .answered (.read result)))
    (hkept : ∀ t, called ≤ t → t < answered → ¬ Removing root (r.state t) (H.hex bytes)) :
    ∃ read, result = .ok read ∧ H.hex read = H.hex bytes := by
  have hrequests := r.mono (fun w w' => w.threads.map Prod.fst <+: w'.threads.map Prod.fst) (fun _ => List.prefix_refl _)
    (fun _ _ _ => List.IsPrefix.trans) (fun _ _ => requests_exec)
  have hlength : ∀ t t', t ≤ t' → (r.state t).threads.length ≤ (r.state t').threads.length := fun t t' hle => by
    simpa only [List.length_map] using (hrequests t t' hle).length_le
  have hinv : ∀ t ≤ answered, Inv H root (r.state t) := fun t hle =>
    inv_run hwhole r t fun q hq => hcut q ((hrequests t answered hle).subset hq)
  have hbefore : called ≤ stored := by
    by_contra hlt
    have := hlength stored called (Nat.le_of_not_le hlt)
    have := (List.getElem?_eq_some_iff.1 hstored).1
    omega
  have hafter : stored ≤ answered := by
    by_contra hlt
    have := hlength answered stored (Nat.le_of_not_le hlt)
    have := (List.getElem?_eq_some_iff.1 hanswered).1
    omega
  have hpresent : Present root (r.state stored) (H.hex bytes) := by
    refine r.since (fun w => w.threads[i]? = some (.put fault bytes, .answered (.stored (.ok ref))) →
      Present root w (H.hex bytes))
      hbefore (fun hi => ?_) (fun t e hle hlt hw he hi => ?_) hstored
    · have := (List.getElem?_eq_some_iff.1 hi).1
      omega
    · have hlt := Nat.lt_of_lt_of_le hlt hafter
      exact present_of_stored (hinv t hlt.le) (hkept t hle hlt) hw he hi
  cases result with
  | ok read => exact ⟨read, rfl, (hinv answered (Nat.le_refl _)).fine _ (List.mem_of_getElem? hanswered) read rfl⟩
  | error status =>
    have hnever := r.since (fun w => Present root w (H.hex bytes) ∧
        w.threads[j]? ≠ some (.get (H.hex bytes), .answered (.read (.error status)))) hafter ⟨hpresent, fun hj => ?_⟩
      fun t e hle hlt hw he => ⟨hw.1.exec (H.digest bytes) (hinv t hlt.le) (hkept t (Nat.le_trans hbefore hle) hlt) he,
        not_failed (H.digest bytes) (hinv t hlt.le) hw.1 hw.2 he⟩
    · exact absurd hanswered hnever.2
    · have := (List.getElem?_eq_some_iff.1 hj).1
      omega

theorem storedRun_read :
    (storedRun.state 20).threads[2]? = some (.get (Sha256.hex (lit "abc")), .answered (.read (.ok (lit "abc")))) ∧
      ∃ read, Except.ok (lit "abc") = (.ok read : Result Bytes) ∧ Sha256.hex read = Sha256.hex (lit "abc") := by
  have hstored : (storedRun.state 13).threads[1]? =
      some (.put none (lit "abc"), .answered (.stored (.ok ⟨Sha256.hex (lit "abc"), 3⟩))) := by
    rw [storedRun_state, Sha256.hex_eq]
    decide +kernel
  have hread : (storedRun.state 20).threads[2]? =
      some (.get (Sha256.hex (lit "abc")), .answered (.read (.ok (lit "abc")))) := by
    rw [storedRun_state, Sha256.hex_eq]
    decide +kernel
  have hcalls : ∀ t < 20, ∀ x ∈ (storedRun.state t).threads,
      x.1 = .put none (lit "abc") ∨ x.1 = .get (Sha256.hex (lit "abc")) := by
    simp only [storedRun_state, Sha256.hex_eq]
    decide +kernel
  refine ⟨hread, stored_chunk_is_read Sha256.hexHash (lit "/d") 0 .empty (fun _ _ _ h => by cases h) storedRun 5 13 20 1 2 none
    (lit "abc") _ _ storedRun_uncut ?_ hstored ?_ hread fun t _ hlt => ?_⟩
  · rw [storedRun_state]
    decide +kernel
  · rw [storedRun_state]
    decide +kernel
  · rintro ⟨fault, c, references, hmem, -⟩
    rcases hcalls t hlt _ hmem with h | h <;> cases h

end World

end StoreThreads

end Dstore
