import Dstore.Server.ObjectStore
/-!
# A single node

A node without peers, keeping one copy of each chunk, serves the requests of an
object store one after another. `single_node_object_store`: its answers are
those of a map, as long as no upload has more chunks than an `int` counts and
no delete misreads a reference count.

`chunk_ref_count` reads a 64-bit count with `sqlite3_column_int`. From `2 ^ 31`
references on the value it returns can be negative, and a delete then takes the
chunk away from the objects that still list it (`count_wraps`).
-/
open Dstore.Lib

namespace Dstore.Server

/-- No peers and one copy of everything. -/
structure Alone (srv : Server) : Prop where
  seeds : srv.chunks.seed_members = []
  replication_factor : srv.chunks.replication_factor = 1
  write_quorum : srv.chunks.write_quorum = 1
  read_quorum : srv.chunks.read_quorum = 1

section Alone
variable {srv : Server} (hs : srv.Alone)
include hs

/-- The only home of a chunk is the node itself. -/
theorem Alone.homes : srv.chunks.homes = [srv.me] := by
  rw [DistributedChunkService.homes, DistributedChunkService.latest, hs.replication_factor, hs.seeds, if_pos (le_refl _)]
  rfl

theorem Alone.peer : srv.chunks.peer = none := by
  refine srv.chunks.peer_eq_none.2 fun _ => (srv.chunks.is_self_iff _).2 ?_
  rw [DistributedChunkService.latest, hs.seeds]
  rfl

theorem Alone.ready : srv.Ready where
  reachable t ht := by
    rw [hs.peer] at ht
    cases ht
  writes := by
    rw [hs.write_quorum, hs.peer]
    decide
  reads := by rw [hs.read_quorum]

theorem Alone.working : Working [srv] where
  distinct := List.nodup_singleton srv.me
  reachable other hother := by
    obtain rfl := List.mem_singleton.1 hother
    exact hs.ready.reachable

end Alone

/-- Every chunk of the object is listed by no other row, or by a number of rows
that an `int` shows as positive. -/
def CountsRead (srv : Server) (w : World) (name : ObjectName) : Prop :=
  ∀ r ∈ (w.metadata srv.me).tables.parts name.bucket name.key,
    ((w.metadata srv.me).tables.erase name.bucket name.key).count r.checksum = 0 ∨
      0 < int32 (((w.metadata srv.me).tables.erase name.bucket name.key).count r.checksum)

instance (srv : Server) (w : World) (name : ObjectName) : Decidable (srv.CountsRead w name) :=
  inferInstanceAs (Decidable (∀ r ∈ (w.metadata srv.me).tables.parts name.bucket name.key, _))

/-- An upload of at most `2 ^ 31` chunks, or a delete whose counts are read as
they are. -/
def Safe (S : Set Bytes) (srv : Server) (w : World) : Request → Prop
  | .put _ body => srv.CanStore S body
  | .get _ => True
  | .delete name => srv.CountsRead w name

theorem Safe.canServe {S : Set Bytes} {srv : Server} (hs : srv.Alone) {w : World} {q : Request} (h : srv.Safe S w q) :
    CanServe S [srv] w srv q := by
  cases q with
  | put name body => exact ⟨h, hs.ready⟩
  | get name => trivial
  | delete name =>
    intro r hr hcount other hother hl
    have hzero := (h r hr).resolve_right (by omega)
    rw [List.mem_singleton.1 hother, tablesAfter, if_pos rfl] at hl
    exact absurd (Tables.lists_iff.1 hl) (by omega)

/-- A single node serves a request that is safe as its map of objects does. -/
theorem Alone.handle {H : HexHash} (hash64 : Str → Nat) {srv : Server} (hs : srv.Alone) {S : Set Bytes}
    (hinj : Set.InjOn H.hex S) {w : World} {o : Objects} {q : Request} (hc : Consistent H S [srv] w fun _ => o)
    (hq : srv.Safe S w q) : (Objects.serve o q).1.Matches (srv.handle H hash64 w q).1 ∧
      Consistent H S [srv] (srv.handle H hash64 w q).2 fun _ => (Objects.serve o q).2 := by
  obtain ⟨h1, h2⟩ := hc.handle hash64 hs.working hinj (List.mem_singleton_self srv) q (hq.canServe hs)
  refine ⟨h1, h2.sound, h2.started, h2.logs, h2.idle, h2.stored, fun other hother b k => ?_, fun other hother _ _ _ _ => ?_⟩
  · obtain rfl := List.mem_singleton.1 hother
    have hrows := h2.rows other hother b k
    rwa [setObjects, if_pos rfl] at hrows
  · rw [List.mem_singleton.1 hother]
    exact hs.ready

/-- A single node answers every sequence of requests as a map from names to
contents does. -/
theorem single_node_object_store (H : HexHash) (hash64 : Str → Nat) (srv : Server) (hs : srv.Alone) (S : Set Bytes)
    (hinj : Set.InjOn H.hex S) (w : World) (hw : Fresh H S [srv] w) (qs : List Request)
    (hq : Run.Legal (srv.Safe S) (srv.handle H hash64).next w qs) :
    List.Forall₂ (fun r a => a.Matches r) ((srv.handle H hash64).responses w qs)
      (Objects.serve.responses Objects.empty qs) := by
  have href : (srv.handle H hash64).Refines Objects.serve (srv.Safe S)
      (fun w o => Consistent H S [srv] w fun _ => o) fun r a => a.Matches r :=
    fun w o q hc hsafe => hs.handle hash64 hinj hc hsafe
  exact href.responses_match hw.consistent hq

/-- Node A alone, with chunks of two bytes. -/
def aloneA : Server where
  chunk_size := 2
  chunks :=
    { self := nodeA
      replication_factor := 1
      write_quorum := 1
      read_quorum := 1 }

theorem aloneA_alone : aloneA.Alone := ⟨rfl, rfl, rfl, rfl⟩

theorem objectX_ne_objectY : ¬ (objectX.bucket = objectY.bucket ∧ objectX.key = objectY.key) := by decide

/-- Two objects that share a chunk, a delete of the first and a read of the
second. -/
def shareRequests : List Request := [.put objectX (lit "abab"), .put objectY (lit "ab"), .delete objectX, .get objectY]

theorem shareRequests_safe : Run.Legal (aloneA.Safe { lit "ab" }) (aloneA.handle Sha256.hexHash sixthByte).next
    (World.start [aloneA]) shareRequests :=
  ⟨⟨by decide, by decide, by decide⟩, ⟨by decide, by decide, by decide⟩,
    show aloneA.CountsRead _ objectX by rw [Sha256.hexHash_eq]; decide +kernel, trivial, trivial⟩

/-- The second object is still there. -/
theorem aloneA_serves_shared :
    Run.Legal (aloneA.Safe { lit "ab" }) (aloneA.handle Sha256.hexHash sixthByte).next (World.start [aloneA]) shareRequests ∧
    List.Forall₂ (fun r (a : Answer) => a.Matches r)
      ((aloneA.handle Sha256.hexHash sixthByte).responses (World.start [aloneA]) shareRequests)
      [.created, .created, .deleted, .found (lit "ab")] :=
  ⟨shareRequests_safe, single_node_object_store Sha256.hexHash sixthByte aloneA aloneA_alone { lit "ab" }
    (Set.injOn_singleton _ _) (World.start [aloneA]) (fresh_start (List.nodup_singleton _)) shareRequests shareRequests_safe⟩

/-! ## A count that is too large -/

section Alone
variable {H : HexHash} {hash64 : Str → Nat} {S : Set Bytes} {srv : Server} (hs : srv.Alone) {net : Net}
include hs

/-- A put of a part is a put to the store of the node. -/
theorem Alone.put_store (hash64 : Str → Nat) (hsound : net.Sound H S) {p : Bytes} (hp : p ∈ S) :
    ∃ net', srv.chunks.put H hash64 {} net p = (.ok (refOf H p), net') ∧
      net'.stores srv.me = ((net.stores srv.me).put H none p).2 ∧ net'.Sound H S := by
  obtain ⟨net', hput, -, hsound', -⟩ :=
      DistributedChunkService.put_stored hash64 hs.ready.reachable hs.ready.writes hsound hp
  have hstore := srv.chunks.put_stores_me (H := H) hash64 {} net p
  rw [hput] at hstore
  exact ⟨net', hput, hstore, hsound'⟩

/-- The cache takes every part of an upload, in order. -/
theorem Alone.putParts_cache (parts : List Bytes) (i : Nat) (refs : List ChunkRef) (hsound : net.Sound H S)
    (hS : ∀ p ∈ parts, p ∈ S) :
    ((srv.putParts H hash64 (fun _ => {}) i parts refs net).2.stores srv.me).cache =
      (net.stores srv.me).cache.putAll (parts.map fun p => (H.hex p, p)) := by
  induction parts generalizing i refs net with
  | nil => rfl
  | cons p parts ih =>
    obtain ⟨net', hput, hstore, hsound'⟩ := hs.put_store hash64 hsound (hS p List.mem_cons_self)
    have hcache : (net'.stores srv.me).cache = (net.stores srv.me).cache.put (H.hex p) p := by
      rw [hstore]
      rcases (net.stores srv.me).put_cases H none p with ⟨-, s', heq, -, hc, -⟩ | ⟨-, hstop, -⟩
      · rw [heq]
        exact hc
      · cases hstop
    rw [Server.putParts, hput]
    simp only
    rw [ih _ _ hsound' fun q hq => hS q (List.mem_cons_of_mem _ hq), hcache]
    rfl

/-- An upload, as the tables and the cache see it. -/
theorem Alone.put_effect (hash64 : Str → Nat) {w : World} {m : Str → Objects} (hc : Consistent H S [srv] w m)
    (name : ObjectName)
    {body : Bytes} (hcan : srv.CanStore S body) :
    ((srv.handle H hash64 w (.put name body)).2.metadata srv.me).tables =
        (w.metadata srv.me).tables.upload (srv.metadataOf H name.bucket name.key body) ∧
      ((srv.handle H hash64 w (.put name body)).2.net.stores srv.me).cache =
        (w.net.stores srv.me).cache.putAll ((chunk_bytes body srv.chunk_size).map fun p => (H.hex p, p)) := by
  have hmem : srv ∈ [srv] := List.mem_singleton_self _
  obtain ⟨file, n, heq⟩ := handle_put hash64 hs.ready.toWritable hc.sound (hc.logs _ hmem) (hc.idle _ hmem) name hcan
  rw [heq, World.setMetadata_self, World.setMetadata_net, World.setNet_net]
  exact ⟨rfl, hs.putParts_cache _ 0 [] hc.sound hcan.content⟩

end Alone

/-- The strings of two bytes. -/
def pairs : Set Bytes := { p | p.length = 2 }

/-- The two bytes of a number. -/
def pairOf (i : Nat) : Bytes := [UInt8.ofNat (i / 256), UInt8.ofNat (i % 256)]

theorem pairOf_inj {i j : Nat} (hi : i < 65536) (hj : j < 65536) (h : pairOf i = pairOf j) : i = j := by
  simp only [pairOf, List.cons.injEq, and_true] at h
  have h1 := congrArg UInt8.toNat h.1
  have h2 := congrArg UInt8.toNat h.2
  simp only [UInt8.toNat_ofNat'] at h1 h2
  omega

/-- Other chunks, as many as the cache has room for. -/
def fillers : List Bytes := (List.range 16385).map fun i => pairOf (i + 1)

/-- `n` chunks of zeros. -/
def zeroParts (n : Nat) : List Bytes := List.replicate n (pairOf 0)

/-- A large object, a second one that shares its chunk, a delete of the second
and a read of the first. -/
def wrapRequests (n : Nat) : List Request :=
  [.put objectX (zeroParts n).flatten, .put objectY (pairOf 0 :: fillers).flatten, .delete objectY, .get objectX]

theorem zeroParts_pairs (n : Nat) : ∀ p ∈ zeroParts n, p ∈ pairs := fun p hp => by
  rw [List.eq_of_mem_replicate hp]
  rfl

theorem fillers_pairs : ∀ p ∈ pairOf 0 :: fillers, p ∈ pairs := by
  intro p hp
  rcases List.mem_cons.1 hp with rfl | hp
  · rfl
  · obtain ⟨i, -, rfl⟩ := List.mem_map.1 hp
    rfl

theorem flatten_length {l : List Bytes} (h : ∀ p ∈ l, p ∈ pairs) : l.flatten.length = 2 * l.length := by
  induction l with
  | nil => rfl
  | cons p l ih =>
    have hp : p.length = 2 := h p List.mem_cons_self
    rw [List.flatten_cons, List.length_append, ih fun q hq => h q (List.mem_cons_of_mem _ hq), hp, List.length_cons]
    omega

theorem canStore_pairs {l : List Bytes} (h : ∀ p ∈ l, p ∈ pairs) (hne : l ≠ []) (hlen : l.length ≤ 2 ^ 31) :
    chunk_bytes l.flatten aloneA.chunk_size = l ∧ aloneA.CanStore pairs l.flatten := by
  have hvec : l.flatten.length < 2 ^ 63 := by
    rw [flatten_length h]
    omega
  have hparts : chunk_bytes l.flatten aloneA.chunk_size = l := chunk_bytes_parts (by decide) h hne hvec
  exact ⟨hparts, hvec, by rwa [hparts], by rwa [hparts]⟩

theorem nodup_fillers {H : HexHash} (hinj : Set.InjOn H.hex pairs) :
    ((fillers.map fun p => (H.hex p, p)).map Prod.fst).Nodup ∧
      H.hex (pairOf 0) ∉ (fillers.map fun p => (H.hex p, p)).map Prod.fst := by
  have hS : ∀ p ∈ fillers, p ∈ pairs := fun p hp => fillers_pairs p (List.mem_cons_of_mem _ hp)
  rw [List.map_map]
  constructor
  · refine List.Nodup.map_on (fun p hp q hq he => hinj (hS p hp) (hS q hq) he) ?_
    refine List.Nodup.map_on (fun i hi j hj he => ?_) List.nodup_range
    rw [List.mem_range] at hi hj
    have := pairOf_inj (by omega) (by omega) he
    omega
  · intro hmem
    obtain ⟨p, hp, he⟩ := List.mem_map.1 hmem
    have hp0 := hinj (hS p hp) (show pairOf 0 ∈ pairs from rfl) he
    obtain ⟨i, hi, rfl⟩ := List.mem_map.1 hp
    rw [List.mem_range] at hi
    have := pairOf_inj (by omega) (by omega) hp0
    omega

theorem count_other_erased {H : HexHash} (t : Tables) (body : Bytes) (c : Str) :
    ((t.upload (aloneA.metadataOf H objectY.bucket objectY.key body)).erase objectY.bucket objectY.key).count c =
      (t.erase objectY.bucket objectY.key).count c := by
  have h := Tables.count_erase_upload t (aloneA.metadataOf H objectY.bucket objectY.key body) c
  rwa [show cstr (aloneA.metadataOf H objectY.bucket objectY.key body).bucket = objectY.bucket from cstr_eq objectY.noNul.1,
    show cstr (aloneA.metadataOf H objectY.bucket objectY.key body).key = objectY.key from cstr_eq objectY.noNul.2] at h

theorem count_shared {H : HexHash} {n : Nat} {body : Bytes} (h : chunk_bytes body aloneA.chunk_size = zeroParts n) :
    ((({} : Tables).upload (aloneA.metadataOf H objectX.bucket objectX.key body)).erase objectY.bucket objectY.key).count
      (H.hex (pairOf 0)) = n := by
  rw [Tables.count_erase_first]
  · rw [metadataOf, h, zeroParts, List.map_replicate, List.countP_replicate, if_pos]
    exact decide_eq_true (cstr_digest (H.digest _))
  · show ¬ (objectY.bucket = cstr objectX.bucket ∧ objectY.key = cstr objectX.key)
    rw [cstr_eq objectX.noNul.1, cstr_eq objectX.noNul.2]
    decide

/-- When the number of references reads as zero or less, the delete takes the
shared chunk from the first object. -/
theorem shared_chunk_lost {H : HexHash} (hinj : Set.InjOn H.hex pairs) (hash64 : Str → Nat) {n : Nat} (hn : 0 < n)
    (hle : n ≤ 2 ^ 31) (hneg : int32 n ≤ 0) :
    ∃ r₁ r₂ r₃ r₄, (aloneA.handle H hash64).responses (World.start [aloneA]) (wrapRequests n) = [r₁, r₂, r₃, r₄] ∧
      300 ≤ r₄.status := by
  refine ⟨_, _, _, _, rfl, ?_⟩
  have hmem : aloneA ∈ [aloneA] := List.mem_singleton_self _
  obtain ⟨hparts₁, hcan₁⟩ := canStore_pairs (zeroParts_pairs n) (by simp [zeroParts]; omega) (by simpa [zeroParts] using hle)
  obtain ⟨hparts₂, hcan₂⟩ := canStore_pairs fillers_pairs (by simp) (by simp [fillers])
  -- the two uploads
  have hfresh : Fresh H pairs [aloneA] (World.start [aloneA]) := fresh_start (List.nodup_singleton _)
  have hc₀ : Consistent H pairs [aloneA] (World.start [aloneA]) fun _ => Objects.empty := hfresh.consistent
  obtain ⟨ht₁, hk₁⟩ := aloneA_alone.put_effect hash64 hc₀ objectX hcan₁
  have hc₁ := (hc₀.put hash64 aloneA_alone.working hmem aloneA_alone.ready objectX hcan₁).2
  obtain ⟨ht₂, hk₂⟩ := aloneA_alone.put_effect hash64 hc₁ objectY hcan₂
  have hc₂ := (hc₁.put hash64 aloneA_alone.working hmem aloneA_alone.ready objectY hcan₂).2
  have hrows := hc₂.rows aloneA hmem
  simp only [setObjects, if_true] at hrows
  have hother := hrows objectY.bucket objectY.key
  rw [Objects.set_self] at hother
  have hshared := hrows objectX.bucket objectX.key
  rw [Objects.set_other _ _ _ objectX_ne_objectY, Objects.set_self] at hshared
  -- all the other references are those of the first object
  have hcount : (((aloneA.handle H hash64 (aloneA.handle H hash64 (World.start [aloneA])
      (.put objectX (zeroParts n).flatten)).2 (.put objectY (pairOf 0 :: fillers).flatten)).2.metadata aloneA.me).tables.erase
        objectY.bucket objectY.key).count (H.hex (pairOf 0)) = n := by
    rw [ht₂, count_other_erased, ht₁, start_tables, count_shared hparts₁]
  obtain ⟨ht₃, hsound₃, hstore₃⟩ := handle_delete_gone hash64 aloneA_alone.ready.reachable hc₂.sound
    (hc₂.logs aloneA hmem) objectY hother (p := pairOf 0) (by rw [hparts₂]; simp) (by rwa [hcount])
  obtain ⟨hk₃, hf₃⟩ := hstore₃ aloneA.me
  have hfirst : chunk_bytes (zeroParts n).flatten aloneA.chunk_size = pairOf 0 :: zeroParts (n - 1) := by
    obtain ⟨k, rfl⟩ : ∃ k, n = k + 1 := ⟨n - 1, by omega⟩
    rw [hparts₁]
    rfl
  refine le_of_le_of_eq (by decide) (handle_get_gone aloneA_alone.ready.reachable hsound₃ objectX
    (?_ : aloneA.Rows H pairs _ _ _ (some (zeroParts n).flatten)) hfirst fun id hid => ?_).symm
  · rw [ht₃]
    unfold Rows at hshared ⊢
    rwa [Tables.object_erase_other objectX_ne_objectY, Tables.parts_erase_other objectX_ne_objectY]
  · obtain rfl : id = aloneA.me := by
      rw [DistributedChunkService.sources, aloneA_alone.homes] at hid
      simpa using hid
    refine ⟨fun v => ?_, hf₃ (.inr ?_)⟩
    · -- the second upload has filled the cache with other chunks
      obtain ⟨hnodup, hfresh⟩ := nodup_fillers hinj
      rw [hk₃, hk₂, hparts₂, hk₁, List.map_cons, LruCache.putAll_cons]
      refine LruCache.not_mem_putAll _ hnodup ?_ hfresh (by simp [fillers]) v
      rw [LruCache.put_capacity, LruCache.putAll_capacity]
      simp only [fillers, List.length_map, List.length_range]
      rfl
    · rw [aloneA_alone.homes]
      exact List.mem_singleton_self _

/-- The digits of a number, the last one first. -/
def hexDigits : Nat → Nat → Str
  | 0, _ => []
  | k + 1, n => Sha256.hexDigit (UInt8.ofNat (n % 16)) :: hexDigits k (n / 16)

theorem hexDigits_digit (k n : Nat) : (hexDigits k n).length = k ∧ ∀ c ∈ hexDigits k n, isHex c = true := by
  induction k generalizing n with
  | zero => exact ⟨rfl, fun c hc => by cases hc⟩
  | succ k ih =>
    obtain ⟨h1, h2⟩ := ih (n / 16)
    refine ⟨by rw [hexDigits, List.length_cons, h1], fun c hc => ?_⟩
    rcases List.mem_cons.1 hc with rfl | hc
    · have hall : ∀ i : Fin 16, isHex (Sha256.hexDigit (UInt8.ofNat i.val)) = true := by decide
      exact hall ⟨n % 16, Nat.mod_lt _ (by decide)⟩
    · exact h2 c hc

theorem hexDigits_inj {k n m : Nat} (hn : n < 16 ^ k) (hm : m < 16 ^ k) (h : hexDigits k n = hexDigits k m) : n = m := by
  induction k generalizing n m with
  | zero => omega
  | succ k ih =>
    rw [hexDigits, hexDigits, List.cons.injEq] at h
    have hall : ∀ i j : Fin 16, Sha256.hexDigit (UInt8.ofNat i.val) = Sha256.hexDigit (UInt8.ofNat j.val) →
      i = j := by decide
    have hlow : n % 16 = m % 16 := congrArg Fin.val
      (hall ⟨n % 16, Nat.mod_lt _ (by decide)⟩ ⟨m % 16, Nat.mod_lt _ (by decide)⟩ h.1)
    have hhigh := ih (n := n / 16) (m := m / 16) (by rw [pow_succ] at hn; omega) (by rw [pow_succ] at hm; omega) h.2
    omega

/-- The value of two bytes; a length for anything else. -/
def tag : Bytes → Nat
  | [x, y] => x.toNat * 256 + y.toNat
  | b => 65536 + b.length

/-- A hash that tells the strings of two bytes from each other and from longer
ones of different lengths. -/
def tagHash : HexHash := ⟨fun b => hexDigits 64 (tag b), fun b => hexDigits_digit 64 (tag b)⟩

/-- The contents that are hashed. -/
def involved (n : Nat) : Set Bytes := pairs ∪ { (zeroParts n).flatten, (pairOf 0 :: fillers).flatten }

theorem tag_pair {b : Bytes} (h : b ∈ pairs) : ∃ x y, b = [x, y] ∧ tag b = x.toNat * 256 + y.toNat := by
  match b, h with
  | [x, y], _ => exact ⟨x, y, rfl, rfl⟩

theorem tag_long {b : Bytes} (h : 2 < b.length) : tag b = 65536 + b.length := by
  match b, h with
  | _ :: _ :: _ :: _, _ => rfl

theorem tagHash_injOn {n : Nat} (h1 : 1 < n) (hn : n ≠ 16386) (hlt : n < 2 ^ 32) : Set.InjOn tagHash.hex (involved n) := by
  have hlen₁ : (zeroParts n).flatten.length = 2 * n := by
    rw [flatten_length (zeroParts_pairs n), zeroParts, List.length_replicate]
  have hlen₂ : (pairOf 0 :: fillers).flatten.length = 2 * 16386 := by
    rw [flatten_length fillers_pairs, List.length_cons, fillers, List.length_map, List.length_range]
  have htag : ∀ b ∈ involved n, (b ∈ pairs ∧ tag b < 65536) ∨ (2 < b.length ∧ b.length < 2 ^ 33 ∧
      (b = (zeroParts n).flatten ∨ b = (pairOf 0 :: fillers).flatten)) := by
    rintro b (hb | rfl | rfl)
    · obtain ⟨x, y, -, ht⟩ := tag_pair hb
      have := x.toNat_lt
      have := y.toNat_lt
      exact .inl ⟨hb, by omega⟩
    · exact .inr ⟨by omega, by omega, .inl rfl⟩
    · exact .inr ⟨by omega, by omega, .inr rfl⟩
  intro b hb c hc he
  have hbound : ∀ {x : Bytes}, x ∈ involved n → tag x < 16 ^ 64 := by
    intro x hx
    rcases htag x hx with ⟨-, ht⟩ | ⟨h2, hl, -⟩
    · exact lt_trans ht (by decide)
    · rw [tag_long h2]
      have h16 : 2 ^ 34 < 16 ^ 64 := by decide
      omega
  have heq : tag b = tag c := hexDigits_inj (hbound hb) (hbound hc) he
  rcases htag b hb with ⟨hbp, hbt⟩ | ⟨hb2, -, hbs⟩ <;> rcases htag c hc with ⟨hcp, hct⟩ | ⟨hc2, -, hcs⟩
  · obtain ⟨x, y, rfl, htb⟩ := tag_pair hbp
    obtain ⟨x', y', rfl, htc⟩ := tag_pair hcp
    have := x.toNat_lt
    have := y.toNat_lt
    have := x'.toNat_lt
    have := y'.toNat_lt
    rw [UInt8.toNat_inj.1 (show x.toNat = x'.toNat by omega), UInt8.toNat_inj.1 (show y.toNat = y'.toNat by omega)]
  · rw [tag_long hc2] at heq
    omega
  · rw [tag_long hb2] at heq
    omega
  · rw [tag_long hb2, tag_long hc2] at heq
    rcases hbs with rfl | rfl <;> rcases hcs with rfl | rfl <;> first | rfl | omega

/-- The answers of an object store. -/
theorem serve_wrapRequests (n : Nat) : Objects.serve.responses Objects.empty (wrapRequests n) =
    [.created, .created, .deleted, .found (zeroParts n).flatten] := by
  simp only [wrapRequests, Machine.responses, Objects.serve, Objects.set_self, Objects.set_other _ _ _ objectX_ne_objectY]

/-- After `2 ^ 31` references from one object, the delete of another one that
shares the chunk removes it, and the first object can no longer be read:
whatever the hash, as long as it is injective on the contents, and there is
one that is. -/
theorem count_wraps :
    (∃ H : HexHash, Set.InjOn H.hex (involved (2 ^ 31))) ∧
    ∀ (H : HexHash) (hash64 : Str → Nat), Set.InjOn H.hex (involved (2 ^ 31)) →
      aloneA.Alone ∧ Fresh H (involved (2 ^ 31)) [aloneA] (World.start [aloneA]) ∧
      ¬ List.Forall₂ (fun r a => a.Matches r)
        ((aloneA.handle H hash64).responses (World.start [aloneA]) (wrapRequests (2 ^ 31)))
        (Objects.serve.responses Objects.empty (wrapRequests (2 ^ 31))) := by
  refine ⟨⟨tagHash, tagHash_injOn (by decide) (by decide) (by decide)⟩, fun H hash64 hinj => ?_⟩
  have hneg : int32 (2 ^ 31) ≤ 0 := by
    unfold int32 signed
    decide
  obtain ⟨r₁, r₂, r₃, r₄, hres, hstatus⟩ := shared_chunk_lost (hinj.mono Set.subset_union_left) hash64
    (show 0 < 2 ^ 31 by decide) le_rfl hneg
  refine ⟨aloneA_alone, fresh_start (List.nodup_singleton _), fun hall => ?_⟩
  rw [hres, serve_wrapRequests] at hall
  obtain ⟨-, hall⟩ := List.forall₂_cons.1 hall
  obtain ⟨-, hall⟩ := List.forall₂_cons.1 hall
  obtain ⟨-, hall⟩ := List.forall₂_cons.1 hall
  obtain ⟨hfound, -⟩ := List.forall₂_cons.1 hall
  have h200 : r₄.status = 200 := hfound.1
  rw [h200] at hstatus
  exact absurd hstatus (by decide)

end Dstore.Server
