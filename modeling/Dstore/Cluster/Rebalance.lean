import Dstore.Cluster.Placement
import Dstore.Cluster.RepairWorker
import Dstore.Storage.ChunkCache
/-!
# What rebalancing restores

A rebalancing reads each chunk by the current plan, which is one node, and puts
it again. With every node in reach it finds a chunk when one answer is enough
and the target or the node itself has it, and it then puts it on the target. So
the placement of a bucket is restored when each of its chunks is found so and can
be put with the write quorum (`rebalance_restores_iff`); else it is passed over,
and the call reports success (`old_copies_not_found`).

A store can also answer from its cache for a chunk whose file was removed. The
condition is not only enough but necessary when there is no such chunk in the
bucket (`Backed`).
-/

namespace Dstore

/-! ## Cached chunks with their files -/

/-- The store does not answer for the chunk without its file. -/
def ChunkStore.Backed (s : ChunkStore) (c : Str) : Prop := ∀ b, (c, b) ∈ s.cache.toList → s.file c ≠ none

namespace ChunkStore

variable {H : HexHash} {S : Set Bytes} {s : ChunkStore} {c : Str}

theorem Backed.put (hb : s.Backed c) (hc : Digest c) (b : Bytes) : (s.put H none b).2.Backed c := by
  intro v hv
  by_cases hcb : c = H.hex b
  · rw [hcb]
    exact (put_exists fun _ => rfl).2
  · rw [s.put_file none b hc (.inl hcb)]
    rw [put_cache] at hv
    rcases LruCache.mem_of_mem_put hv with heq | hv
    · exact absurd (congrArg Prod.fst heq) hcb
    · exact hb v hv

theorem Backed.get (hb : s.Backed c) (c' : Str) : (s.get H c').2.Backed c := by
  intro v hv
  rw [get_file]
  rcases s.get_cases (H := H) c' with ⟨b, cache, heq, hmem, hlist, -⟩ | ⟨-, ⟨b, hfile, -, heq⟩ | ⟨-, e, heq⟩⟩
  · rw [heq, hlist] at hv
    rcases List.mem_cons.1 hv with heq' | hv
    · obtain ⟨rfl, rfl⟩ := Prod.mk.inj heq'
      exact hb _ hmem
    · exact hb v (List.mem_filter.1 hv).1
  · rw [heq] at hv
    rcases LruCache.mem_of_mem_put hv with heq' | hv
    · obtain ⟨rfl, rfl⟩ := Prod.mk.inj heq'
      rw [hfile]
      exact Option.some_ne_none _
    · exact hb v hv
  · rw [heq] at hv
    exact hb v hv

/-- It then finds the chunk when it has the file. -/
theorem get_isOk_iff (h : s.Sound H S) (hb : s.Backed c) (hc : Digest c) :
    (s.get H c).1.isOk = true ↔ s.exists_ c = true := by
  constructor
  · intro hok
    by_contra hno
    have hfile : s.file c = none := Option.not_isSome_iff_eq_none.1 hno
    rw [get_missing (fun v hv => hb v hv hfile) hfile] at hok
    cases hok
  · exact fun he => h.get_isOk hc ((h.holds_iff hc).2 he)

end ChunkStore

namespace DistributedChunkService

variable {H : HexHash} (hash64 : Str → Nat) (svc : DistributedChunkService) {S : Set Bytes} {net : Net} {c : Str}

/-! ## One chunk -/

/-- One answer is enough, the target or the node itself has the chunk, and its
put makes the write quorum. -/
def Mendable (net : Net) (c : Str) : Prop :=
  svc.read_quorum ≤ 1 ∧
    (1 ≤ svc.replication_factor ∧ (net.stores svc.latest.id).exists_ c = true ∨ (net.stores svc.me).exists_ c = true) ∧
    svc.write_quorum ≤ 1 + (svc.peer.isSome.toNat : Int)

instance (net : Net) (c : Str) : Decidable (svc.Mendable net c) := inferInstanceAs (Decidable (_ ∧ _ ∧ _))

/-- A chunk is read and put again; whether that worked. -/
def rewrite (H : HexHash) (net : Net) (c : Str) : Bool × Net :=
  match svc.get H hash64 (fun _ => .fine) (fun _ => .fine) net c with
  | (.error _, net) => (false, net)
  | (.ok bytes, net) => ((svc.put H hash64 {} net bytes).1.isOk, (svc.put H hash64 {} net bytes).2)

/-- A rewrite is a read, and a put if that has succeeded. -/
theorem rewrite_cases (h : net.Sound H S) (hc : Digest c) :
    ((svc.get H hash64 (fun _ => .fine) (fun _ => .fine) net c).1.isOk = false ∧
        svc.rewrite hash64 H net c = (false, (svc.get H hash64 (fun _ => .fine) (fun _ => .fine) net c).2)) ∨
      ∃ b ∈ S, H.hex b = c ∧ (svc.get H hash64 (fun _ => .fine) (fun _ => .fine) net c).1.isOk = true ∧
        svc.rewrite hash64 H net c =
          ((svc.put H hash64 {} (svc.get H hash64 (fun _ => .fine) (fun _ => .fine) net c).2 b).1.isOk,
            (svc.put H hash64 {} (svc.get H hash64 (fun _ => .fine) (fun _ => .fine) net c).2 b).2) := by
  have hvalue : ∀ b, (svc.get H hash64 (fun _ => .fine) (fun _ => .fine) net c).1 = .ok b → b ∈ S ∧ H.hex b = c :=
    fun _ => svc.value_of_get hash64 h hc
  unfold rewrite
  generalize svc.get H hash64 (fun _ => .fine) (fun _ => .fine) net c = call at hvalue
  rcases call with ⟨e | b, net'⟩
  · exact .inl ⟨rfl, rfl⟩
  · exact .inr ⟨b, (hvalue b rfl).1, (hvalue b rfl).2, rfl, rfl⟩

theorem get_adds (hash64 : Str → Nat) (net : Net) (c : Str) :
    Adds c net (svc.get H hash64 (fun _ => .fine) (fun _ => .fine) net c).2 := by
  obtain ⟨-, -, -, htoken, hfile⟩ := svc.get_frame (H := H) hash64 (fun _ => .fine) (fun _ => .fine) c net
  exact ⟨fun id c' _ _ => hfile id c', htoken⟩

/-- What a rewrite does, whether it works or not. -/
theorem rewrite_adds (h : net.Sound H S) (hc : Digest c) : Adds c net (svc.rewrite hash64 H net c).2 ∧
    (svc.rewrite hash64 H net c).2.Sound H S ∧ ((svc.rewrite hash64 H net c).2.views svc.me).known_nodes = [svc.latest] := by
  have hget := svc.get_adds hash64 (H := H) net c
  have hsound := svc.get_sound hash64 (fun _ => .fine) (fun _ => .fine) hc h
  rcases svc.rewrite_cases hash64 h hc with ⟨-, heq⟩ | ⟨b, hb, rfl, -, heq⟩
  · have hviews := (svc.get_frame (H := H) hash64 (fun _ => .fine) (fun _ => .fine) c net).1
    rw [heq]
    exact ⟨hget, hsound, by rw [hviews]; exact svc.known_refresh net⟩
  · obtain ⟨hput, hviews, -⟩ := svc.put_adds (H := H) hash64 {} b
      (svc.get H hash64 (fun _ => .fine) (fun _ => .fine) net (H.hex b)).2
    rw [heq]
    exact ⟨hget.trans hput, svc.put_sound hash64 hb hsound (Conditions.whole_fine b),
      by rw [hviews]; exact svc.known_refresh _⟩

/-- When a rewrite works. -/
theorem rewrite_ok_iff (h : net.Sound H S) (hc : Digest c) (hreach : svc.Reachable) :
    (svc.rewrite hash64 H net c).1 = true ↔
      (svc.get H hash64 (fun _ => .fine) (fun _ => .fine) net c).1.isOk = true ∧
        svc.write_quorum ≤ 1 + (svc.peer.isSome.toNat : Int) := by
  rcases svc.rewrite_cases hash64 h hc with ⟨hno, heq⟩ | ⟨b, -, rfl, hok, heq⟩
  · simp [heq, hno]
  · rw [heq, svc.put_ok_iff, svc.acked_fine hreach, hok]
    simp only [true_and, hreach]
    exact ⟨fun h => h.2, fun hq => ⟨fun _ => rfl, hq⟩⟩

/-- A chunk that is rewritten is on all its targets. -/
theorem rewrite_places (h : net.Sound H S) (hc : Digest c) (hreach : svc.Reachable)
    (hok : (svc.rewrite hash64 H net c).1 = true) :
    ((svc.rewrite hash64 H net c).2.stores svc.me).Holds H c ∧
      ∀ t ∈ svc.targets hash64 net c, ((svc.rewrite hash64 H net c).2.stores t.id).Holds H c := by
  rcases svc.rewrite_cases hash64 h hc with ⟨-, heq⟩ | ⟨b, -, rfl, -, heq⟩
  · rw [heq] at hok
    cases hok
  · have hsound := svc.get_sound hash64 (fun _ => .fine) (fun _ => .fine) hc h
    have hplaces := svc.put_places hash64 b hreach hsound
    rw [targets_eq] at hplaces ⊢
    rw [heq]
    exact hplaces

/-- A read finds what is on disk, and no more when the stores answer for nothing
else. -/
theorem get_isOk_of_exists (h : net.Sound H S) (hc : Digest c) (hreach : svc.Reachable) (hq : svc.read_quorum ≤ 1)
    (hfound : 1 ≤ svc.replication_factor ∧ (net.stores svc.latest.id).exists_ c = true ∨
      (net.stores svc.me).exists_ c = true) :
    (svc.get H hash64 (fun _ => .fine) (fun _ => .fine) net c).1.isOk = true := by
  have hget : ∀ id, (net.stores id).exists_ c = true → ((net.stores id).get H c).1.isOk = true := fun id he =>
    (h id).get_isOk hc (((h id).holds_iff hc).2 he)
  refine (svc.get_isOk_iff hash64 hreach).2 ⟨hq, hfound.imp (fun hlatest => ?_) (hget _)⟩
  have ht : svc.latest ∈ svc.targets hash64 net c := by
    rw [targets_eq, if_pos hlatest.1]
    exact List.mem_singleton_self _
  exact ⟨_, ht, (svc.answers_fine hash64 hreach ht).trans (hget _ hlatest.2)⟩

theorem exists_of_get_isOk (h : net.Sound H S) (hc : Digest c) (hreach : svc.Reachable) (hb : ∀ id, (net.stores id).Backed c)
    (hok : (svc.get H hash64 (fun _ => .fine) (fun _ => .fine) net c).1.isOk = true) : svc.read_quorum ≤ 1 ∧
      (1 ≤ svc.replication_factor ∧ (net.stores svc.latest.id).exists_ c = true ∨ (net.stores svc.me).exists_ c = true) := by
  obtain ⟨hq, ⟨t, ht, hans⟩ | hown⟩ := (svc.get_isOk_iff hash64 hreach).1 hok
  · rw [svc.answers_fine hash64 hreach ht, ChunkStore.get_isOk_iff (h t.id) (hb t.id) hc] at hans
    rw [targets_eq] at ht
    split at ht
    · rename_i hrf
      obtain rfl := List.mem_singleton.1 ht
      exact ⟨hq, .inl ⟨hrf, hans⟩⟩
    · cases ht
  · exact ⟨hq, .inr ((ChunkStore.get_isOk_iff (h svc.me) (hb svc.me) hc).1 hown)⟩

/-- A chunk that can be mended is rewritten. -/
theorem rewrite_ok_of_mendable (h : net.Sound H S) (hc : Digest c) (hreach : svc.Reachable) (hm : svc.Mendable net c) :
    (svc.rewrite hash64 H net c).1 = true :=
  (svc.rewrite_ok_iff hash64 h hc hreach).2 ⟨svc.get_isOk_of_exists hash64 h hc hreach hm.1 hm.2.1, hm.2.2⟩

/-- With no copy in a cache that is not on disk, no other chunk is rewritten. -/
theorem mendable_of_rewrite (h : net.Sound H S) (hc : Digest c) (hreach : svc.Reachable)
    (hb : ∀ id, (net.stores id).Backed c) (hok : (svc.rewrite hash64 H net c).1 = true) : svc.Mendable net c := by
  obtain ⟨hget, hq⟩ := (svc.rewrite_ok_iff hash64 h hc hreach).1 hok
  obtain ⟨hrq, hfound⟩ := svc.exists_of_get_isOk hash64 h hc hreach hb hget
  exact ⟨hrq, hfound, hq⟩

/-- A rewrite leaves no copy in a cache that is not on disk. -/
theorem rewrite_backed (hreach : svc.Reachable) (h : net.Sound H S) {c' : Str} (hc' : Digest c') (hc : Digest c)
    (hb : ∀ id, (net.stores id).Backed c) (id : Str) : ((svc.rewrite hash64 H net c').2.stores id).Backed c := by
  have hget := fun id => svc.get_stores_inv (H := H) hash64 (fun _ => .fine) (fun _ => .fine) c' (P := (·.Backed c))
    (fun _ hs => hs.get c') (hb id)
  rcases svc.rewrite_cases hash64 h hc' with ⟨-, heq⟩ | ⟨b, -, rfl, -, heq⟩
  · rw [heq]
    exact hget id
  · rw [heq, svc.put_stores hash64 b hreach]
    split
    · exact (hget id).put hc b
    · exact hget id

/-- A rewrite of one chunk neither helps nor harms another. -/
theorem mendable_other (h : net.Sound H S) {c' : Str} (hc : Digest c) (hc' : Digest c') (hne : c' ≠ c) :
    svc.Mendable (svc.rewrite hash64 H net c).2 c' ↔ svc.Mendable net c' := by
  have hexists : ∀ id, ((svc.rewrite hash64 H net c).2.stores id).exists_ c' = (net.stores id).exists_ c' := fun id =>
    congrArg Option.isSome ((svc.rewrite_adds hash64 h hc).1.same id c' hc' (.inl hne))
  simp only [Mendable, hexists]

/-- A chunk that can be mended stays so. -/
theorem mendable_again (h : net.Sound H S) (hc : Digest c) {c' : Str} (hc' : Digest c') (hm : svc.Mendable net c') :
    svc.Mendable (svc.rewrite hash64 H net c).2 c' := by
  have hkeeps : ∀ id, (net.stores id).exists_ c' = true → ((svc.rewrite hash64 H net c).2.stores id).exists_ c' = true := by
    intro id he
    exact Option.isSome_iff_ne_none.2 ((svc.rewrite_adds hash64 h hc).1.keeps hc' (Option.isSome_iff_ne_none.1 he))
  exact ⟨hm.1, hm.2.1.imp (fun hlatest => ⟨hlatest.1, hkeeps _ hlatest.2⟩) (hkeeps _), hm.2.2⟩

end DistributedChunkService

/-! ## A bucket -/

namespace MetadataStore

/-- The chunk entries of the objects of a bucket. -/
def entries (db : MetadataStore) (bucket : Str) : List ChunkRef :=
  match db.list_objects bucket with
  | .error _ => []
  | .ok objects => objects.flatMap (RepairWorker.chunksOf db)

/-- SQLite gets the key up to its first NUL byte. -/
theorem get_object_cstr {db : MetadataStore} {bucket key : Str} {m : ObjectMetadata} (h : db.get_object bucket key = .ok m) :
    ∃ m', db.get_object bucket (cstr key) = .ok m' ∧ m'.chunks = m.chunks := by
  rw [get_object] at h ⊢
  rw [cstr_cstr]
  split at h
  · cases h
  · rw [← Except.ok.inj h]
    exact ⟨_, rfl, rfl⟩

/-- The list has the chunks of every object that a read of the bucket finds. -/
theorem mem_entries_iff (db : MetadataStore) (bucket : Str) (ref : ChunkRef) :
    ref ∈ db.entries bucket ↔ ∃ key m, db.get_object bucket key = .ok m ∧ ref ∈ m.chunks := by
  rw [entries, list_objects]
  simp only [List.mem_flatMap, List.mem_map]
  constructor
  · rintro ⟨_, ⟨row, -, rfl⟩, href⟩
    rw [RepairWorker.chunksOf] at href
    split at href
    · cases href
    · rename_i m hm
      exact ⟨row.key, m, hm, href⟩
  · rintro ⟨key, m, hm, href⟩
    -- the row that the read found is listed
    obtain ⟨row, hrow⟩ : ∃ row, row ∈ db.tables.object (cstr bucket) (cstr key) := by
      refine List.exists_mem_of_ne_nil _ fun hnone => ?_
      rw [get_object_missing hnone] at hm
      cases hm
    have hof := (List.mem_filter.1 hrow).2
    rw [ObjectRow.isOf, decide_eq_true_iff] at hof
    refine ⟨_, ⟨row, ?_, rfl⟩, ?_⟩
    · rw [byKey, List.mem_insertionSort, List.mem_filter]
      exact ⟨(List.mem_filter.1 hrow).1, decide_eq_true hof.1⟩
    · obtain ⟨m', hm', hchunks⟩ := get_object_cstr hm
      rw [RepairWorker.chunksOf, hof.2, hm']
      show ref ∈ m'.chunks
      rw [hchunks]
      exact href

end MetadataStore

namespace RepairWorker

variable {H : HexHash} {hash64 : Str → Nat} {S : Set Bytes} {svc : DistributedChunkService} {net : Net}

/-- When no address throws, the loop rewrites chunk after chunk. -/
theorem repairLoop_cons (hreach : svc.Reachable) (i : Nat) (chunk : ChunkRef) (rest : List ChunkRef) (repaired : Nat) :
    repairLoop H hash64 svc {} i (chunk :: rest) repaired net = repairLoop H hash64 svc {} (i + 1) rest
      (if (svc.rewrite hash64 H net chunk.checksum).1 then repaired + 1 else repaired)
      (svc.rewrite hash64 H net chunk.checksum).2 := by
  have hget := svc.get_exception_iff (H := H) hash64 (fun _ => .fine) (fun _ => .fine) chunk.checksum net
  rw [repairLoop, DistributedChunkService.rewrite]
  generalize svc.get H hash64 (fun _ => .fine) (fun _ => .fine) net chunk.checksum = call at hget
  rcases call with ⟨(e | -) | b, net'⟩
  · rfl
  · exact absurd hreach (hget.1 rfl)
  · have hput : (svc.put H hash64 {} net' b).1 ≠ .error .exception := by
      rw [svc.put_result hash64 (fun _ => rfl) hreach]
      split <;> simp
    obtain ⟨result, net'', hcall⟩ : ∃ result net'', svc.put H hash64 {} net' b = (result, net'') := ⟨_, _, rfl⟩
    rw [hcall] at hput
    simp only [hcall]
    rcases result with (e | -) | ref
    · rfl
    · exact absurd rfl hput
    · rfl

/-- The loop returns, loses no chunk, learns of no node and counts each entry at
most once. -/
theorem repairLoop_frame (hash64 : Str → Nat) (hreach : svc.Reachable) (refs : List ChunkRef) (i repaired : Nat)
    (h : net.Sound H S)
    (hd : ∀ ref ∈ refs, Digest ref.checksum) :
    ∃ total net', repairLoop H hash64 svc {} i refs repaired net = (some total, net') ∧ total ≤ repaired + refs.length ∧
      (∀ id c, Digest c → (net.stores id).Holds H c → (net'.stores id).Holds H c) ∧
      (refs ≠ [] → (net'.views svc.me).known_nodes = [svc.latest]) := by
  induction refs generalizing i repaired net with
  | nil => exact ⟨repaired, net, rfl, le_rfl, fun _ _ _ hh => hh, fun hne => absurd rfl hne⟩
  | cons ref refs ih =>
    obtain ⟨hadd, hsound, hknown⟩ := svc.rewrite_adds hash64 h (hd ref List.mem_cons_self)
    obtain ⟨total, net', heq, hle, hholds, hlast⟩ := ih (i + 1)
      (if (svc.rewrite hash64 H net ref.checksum).1 then repaired + 1 else repaired) hsound
      fun r hr => hd r (List.mem_cons_of_mem _ hr)
    refine ⟨total, net', by rw [repairLoop_cons hreach, heq], hle.trans ?_,
      fun id c hc hh => hholds id c hc (hadd.holds hc hh), fun _ => ?_⟩
    · rw [List.length_cons]
      split <;> omega
    · cases refs with
      | nil =>
        obtain ⟨-, rfl⟩ := Prod.mk.inj heq
        exact hknown
      | cons r refs => exact hlast (List.cons_ne_nil _ _)

/-- Entries that can all be mended are all counted, and their chunks are on all
targets. -/
theorem repairLoop_mends (hash64 : Str → Nat) (hreach : svc.Reachable) (refs : List ChunkRef) (i repaired : Nat)
    (h : net.Sound H S)
    (hd : ∀ ref ∈ refs, Digest ref.checksum) (hm : ∀ ref ∈ refs, svc.Mendable net ref.checksum) :
    (repairLoop H hash64 svc {} i refs repaired net).1 = some (repaired + refs.length) ∧
      ∀ ref ∈ refs, ∀ t ∈ svc.targets hash64 net ref.checksum,
        ((repairLoop H hash64 svc {} i refs repaired net).2.stores t.id).Holds H ref.checksum := by
  induction refs generalizing i repaired net with
  | nil => exact ⟨rfl, fun ref href => by cases href⟩
  | cons ref refs ih =>
    have hc := hd ref List.mem_cons_self
    have hrest : ∀ r ∈ refs, Digest r.checksum := fun r hr => hd r (List.mem_cons_of_mem _ hr)
    obtain ⟨-, hsound, -⟩ := svc.rewrite_adds hash64 h hc
    have hok := svc.rewrite_ok_of_mendable hash64 h hc hreach (hm ref List.mem_cons_self)
    have hplaced := (svc.rewrite_places hash64 h hc hreach hok).2
    rw [repairLoop_cons hreach, hok, if_pos rfl]
    obtain ⟨h1, h2⟩ := ih (i + 1) (repaired + 1) hsound hrest fun r hr =>
      svc.mendable_again hash64 h hc (hrest r hr) (hm r (List.mem_cons_of_mem _ hr))
    obtain ⟨_, net', heq, -, hkeep, -⟩ := repairLoop_frame hash64 hreach refs (i + 1) (repaired + 1) hsound hrest
    rw [heq] at h2 ⊢
    refine ⟨by rw [← heq, h1, List.length_cons]; congr 1; omega, fun r hr t ht => ?_⟩
    rcases List.mem_cons.1 hr with rfl | hr
    · exact hkeep t.id _ hc (hplaced t ht)
    · refine h2 r hr t ?_
      rwa [DistributedChunkService.targets_eq] at ht ⊢

/-- When every entry was counted, each could be mended from the start. -/
theorem mendable_of_repairLoop (hash64 : Str → Nat) (hreach : svc.Reachable) (refs : List ChunkRef)
    (i repaired : Nat) (h : net.Sound H S)
    (hd : ∀ ref ∈ refs, Digest ref.checksum) (hb : ∀ ref ∈ refs, ∀ id, (net.stores id).Backed ref.checksum)
    (hall : (repairLoop H hash64 svc {} i refs repaired net).1 = some (repaired + refs.length)) :
    ∀ ref ∈ refs, svc.Mendable net ref.checksum := by
  induction refs generalizing i repaired net with
  | nil => exact fun ref href => by cases href
  | cons ref refs ih =>
    have hc := hd ref List.mem_cons_self
    have hrest : ∀ r ∈ refs, Digest r.checksum := fun r hr => hd r (List.mem_cons_of_mem _ hr)
    obtain ⟨-, hsound, -⟩ := svc.rewrite_adds hash64 h hc
    rw [repairLoop_cons hreach, List.length_cons] at hall
    cases hok : (svc.rewrite hash64 H net ref.checksum).1 with
    | false =>
      -- an entry that fails is missing from the count
      obtain ⟨total, net', heq, hle, -⟩ := repairLoop_frame hash64 hreach refs (i + 1) repaired hsound hrest
      rw [hok, if_neg (by simp), heq] at hall
      have := Option.some.inj hall
      omega
    | true =>
      rw [hok, if_pos rfl] at hall
      have hfirst := svc.mendable_of_rewrite hash64 h hc hreach (hb ref List.mem_cons_self) hok
      have hothers := ih (i + 1) (repaired + 1) hsound hrest (fun r hr => svc.rewrite_backed hash64 hreach h hc (hrest r hr)
        (hb r (List.mem_cons_of_mem _ hr))) (by rw [hall]; congr 1; omega)
      intro r hr
      rcases List.mem_cons.1 hr with rfl | hr
      · exact hfirst
      · by_cases hne : r.checksum = ref.checksum
        · rw [hne]
          exact hfirst
        · exact (svc.mendable_other hash64 h hc (hrest r hr) hne).1 (hothers r hr)

end RepairWorker

namespace RebalanceWorker

/-- After the call every chunk of every object of the bucket is on all targets
of the plan for it, and all chunk entries are counted. -/
def Restored (H : HexHash) (hash64 : Str → Nat) (svc : DistributedChunkService) (db : MetadataStore) (net : Net)
    (bucket : Str) :
    Prop :=
  (rebalance_bucket H hash64 svc {} db net bucket).1 = .ok ((db.entries bucket).length : Int) ∧
    ∀ key m, db.get_object bucket key = .ok m → ∀ ref ∈ m.chunks,
      ∀ t ∈ (((rebalance_bucket H hash64 svc {} db net bucket).2.views svc.me).write_plan hash64 ref.checksum
        svc.replication_factor svc.write_quorum).targets,
        ((rebalance_bucket H hash64 svc {} db net bucket).2.stores t.id).Holds H ref.checksum

/-- Every chunk of the bucket is found by one answer and can be put, and an
`int` can count the entries. -/
def Restorable (svc : DistributedChunkService) (db : MetadataStore) (net : Net) (bucket : Str) : Prop :=
  (db.entries bucket).length < 2 ^ 31 ∧
    ∀ key m, db.get_object bucket key = .ok m → ∀ ref ∈ m.chunks, svc.Mendable net ref.checksum

/-- Rebalancing, when no address throws, restores a bucket whose chunks can all
be mended; when no store answers for a chunk of the bucket without its file it
restores no other. -/
theorem rebalance_restores_iff (H : HexHash) (hash64 : Str → Nat) (svc : DistributedChunkService) (hreach : svc.Reachable)
    (S : Set Bytes) (net : Net) (h : net.Sound H S) (db : MetadataStore) (bucket : Str)
    (hd : ∀ key m, db.get_object bucket key = .ok m → ∀ ref ∈ m.chunks, Digest ref.checksum) :
    (Restorable svc db net bucket → Restored H hash64 svc db net bucket) ∧
      ((∀ key m, db.get_object bucket key = .ok m → ∀ ref ∈ m.chunks, ∀ id, (net.stores id).Backed ref.checksum) →
        (Restored H hash64 svc db net bucket ↔ Restorable svc db net bucket)) := by
  have hentries : ∀ P : Str → Prop, (∀ key m, db.get_object bucket key = .ok m → ∀ ref ∈ m.chunks, P ref.checksum) →
      ∀ ref ∈ db.entries bucket, P ref.checksum := by
    intro P hP ref href
    obtain ⟨key, m, hm, hmem⟩ := (db.mem_entries_iff bucket ref).1 href
    exact hP key m hm ref hmem
  have hdigest := hentries Digest hd
  obtain ⟨total, net', heq, hle, -, hknown⟩ :=
    RepairWorker.repairLoop_frame hash64 hreach (db.entries bucket) 0 0 h hdigest
  have hcall : rebalance_bucket H hash64 svc {} db net bucket = (.ok (int32 total), net') := by
    obtain ⟨objects, hobjects⟩ : ∃ objects, db.list_objects bucket = .ok objects := ⟨_, rfl⟩
    have hchunks : objects.flatMap (RepairWorker.chunksOf db) = db.entries bucket := by
      rw [MetadataStore.entries, hobjects]
    rw [rebalance_bucket, RepairWorker.repair_bucket, hobjects]
    simp only [hchunks, heq]
  have hmends : Restorable svc db net bucket → Restored H hash64 svc db net bucket := by
    rintro ⟨hsmall, hm⟩
    obtain ⟨hcount, hplaced⟩ := RepairWorker.repairLoop_mends hash64 hreach (db.entries bucket) 0 0 h hdigest
      (hentries (svc.Mendable net) hm)
    rw [heq] at hcount hplaced
    rw [Restored, hcall]
    refine ⟨?_, fun key m hread ref hmem t ht => ?_⟩
    · rw [Option.some.inj hcount, Nat.zero_add, int32_eq (by omega)]
    · have href : ref ∈ db.entries bucket := (db.mem_entries_iff bucket ref).2 ⟨key, m, hread, hmem⟩
      refine hplaced ref href t ?_
      have hk := hknown (List.ne_nil_of_mem href)
      rw [ClusterState.write_plan_congr hash64 (hk.trans (svc.known_refresh net).symm)] at ht
      exact ht
  refine ⟨hmends, fun hcached => ⟨fun hres => ?_, hmends⟩⟩
  obtain ⟨hcount, -⟩ := hres
  rw [hcall] at hcount
  have hcount := Except.ok.inj hcount
  have hlt := int32_lt total
  have hsmall : (db.entries bucket).length < 2 ^ 31 := by omega
  rw [int32_eq (by omega)] at hcount
  refine ⟨hsmall, fun key m hread ref hmem => ?_⟩
  exact RepairWorker.mendable_of_repairLoop hash64 hreach (db.entries bucket) 0 0 h hdigest
    (hentries (fun c => ∀ id, (net.stores id).Backed c) hcached)
    (by rw [heq, Nat.zero_add]; exact congrArg some (by omega)) ref ((db.mem_entries_iff bucket ref).2 ⟨key, m, hread, hmem⟩)

/-! ## Two nodes -/

/-- Node C of two, which has been told of node B. -/
def narrow : DistributedChunkService where
  self := nodeC
  replication_factor := 2
  write_quorum := 2
  read_quorum := 1
  seed_members := [nodeB]

/-- The same node once node A is a member, and two answers are wanted. -/
def widened : DistributedChunkService := { narrow with read_quorum := 2, seed_members := [nodeB, nodeA] }

/-- The cluster with a chunk from before, on nodes B and C. -/
def oldNet : Net := (narrow.put Sha256.hexHash sixthByte {} freshNet (lit "ab")).2

/-- The database of node C, with the object of the chunk. -/
def oldRows : MetadataStore :=
  (({} : MetadataStore).put_object {} ⟨lit "b", lit "x", 2, Sha256.hex (lit "ab"), [⟨Sha256.hex (lit "ab"), 2⟩]⟩).2

theorem oldNet_sound : oldNet.Sound Sha256.hexHash { lit "ab" } :=
  narrow.put_sound sixthByte (Set.mem_singleton _) (freshNet_sound _ _) (Conditions.whole_fine _)

theorem oldRows_entries : oldRows.entries (lit "b") = [⟨Sha256.hex (lit "ab"), 2⟩] := by
  rw [oldRows, Sha256.hex_eq]
  decide +kernel

theorem oldRows_checksum {key : Str} {m : ObjectMetadata} (hm : oldRows.get_object (lit "b") key = .ok m) {ref : ChunkRef}
    (href : ref ∈ m.chunks) : ref.checksum = Sha256.hex (lit "ab") := by
  have hmem : ref ∈ oldRows.entries (lit "b") := (oldRows.mem_entries_iff _ ref).2 ⟨key, m, hm, href⟩
  rw [oldRows_entries, List.mem_singleton] at hmem
  rw [hmem]

theorem oldNet_exists {node : LiveNode} (h : node ∈ [nodeB, nodeC]) :
    (oldNet.stores node.val.id).exists_ (Sha256.hex (lit "ab")) = true := by
  have hids : narrow.latest.id = nodeB.val.id ∧ narrow.me = nodeC.val.id := ⟨rfl, rfl⟩
  obtain ⟨hC, hB⟩ := narrow.put_places (H := Sha256.hexHash) sixthByte (lit "ab") (by decide) (freshNet_sound _ { lit "ab" })
  rw [DistributedChunkService.targets_eq, if_pos (by decide), List.forall_mem_singleton, hids.1] at hB
  rw [hids.2] at hC
  unfold oldNet
  rcases List.mem_cons.1 h with rfl | h
  · exact hB.exists_
  · rw [List.mem_singleton.1 h]
    exact hC.exists_

/-- When one answer is enough, the copy of node C is brought to node A. -/
theorem widened_restores : Restored Sha256.hexHash sixthByte { widened with read_quorum := 1 } oldRows oldNet (lit "b") := by
  refine (rebalance_restores_iff Sha256.hexHash sixthByte { widened with read_quorum := 1 } (by decide) { lit "ab" } oldNet
    oldNet_sound oldRows (lit "b") fun key m hm ref href => ?_).1 ⟨?_, fun key m hm ref href => ?_⟩
  · rw [oldRows_checksum hm href]
    exact Sha256.hexHash.digest (lit "ab")
  · rw [oldRows_entries]
    decide
  · rw [oldRows_checksum hm href]
    refine ⟨le_rfl, .inr ?_, by decide⟩
    rw [show DistributedChunkService.me { widened with read_quorum := 1 } = nodeC.val.id from rfl]
    exact oldNet_exists (by simp)

/-- When two answers are wanted it is not: a plan of one target cannot give them,
so the chunk is not read, not counted and not brought to node A. -/
theorem old_copies_not_found :
    oldNet.Sound Sha256.hexHash { lit "ab" } ∧ oldRows.entries (lit "b") = [⟨Sha256.hex (lit "ab"), 2⟩] ∧
      (oldNet.stores nodeB.val.id).exists_ (Sha256.hex (lit "ab")) = true ∧
      (oldNet.stores nodeC.val.id).exists_ (Sha256.hex (lit "ab")) = true ∧
      (rebalance_bucket Sha256.hexHash sixthByte widened {} oldRows oldNet (lit "b")).1.toOption = some 0 ∧
      ¬ Restored Sha256.hexHash sixthByte widened oldRows oldNet (lit "b") := by
  have hcount : (rebalance_bucket Sha256.hexHash sixthByte widened {} oldRows oldNet (lit "b")).1.toOption = some 0 := by
    rw [oldNet, oldRows, Sha256.hexHash_eq, Sha256.hex_eq]
    decide +kernel
  refine ⟨oldNet_sound, oldRows_entries, oldNet_exists (by simp), oldNet_exists (by simp), hcount, ?_⟩
  rintro ⟨hall, -⟩
  rw [hall, oldRows_entries] at hcount
  cases hcount

end RebalanceWorker

end Dstore
