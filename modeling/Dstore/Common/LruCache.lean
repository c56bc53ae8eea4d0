import Mathlib.Algebra.Order.Ring.Int
import Mathlib.Data.List.AList
import Mathlib.Data.List.Induction
/-!
# The LRU cache

`LruCache<Key, Value>` of `lru_cache.h`: a list of key/value pairs, most
recently used first, and an index from a key to an iterator into the list. A
list node has an identity of its own, `iter`, which is what an iterator points
at: it survives `splice` and is never used again after `erase`.

`LruCache` bundles the list and the index with the fact that they stay in
step. Read as a list of pairs, `put` and `get` are what one expects
(`put_toList`, `get_fst`, `get_toList`).
-/

namespace Dstore

variable {K V : Type}

structure LruNode (K V : Type) where
  iter : Nat
  key : K
  value : V

structure LruState (K V : Type) where
  capacity : Nat
  entries : List (LruNode K V) := []
  index : AList (fun _ : K => Nat) := ∅
  /-- The identity of the next list node. -/
  next : Nat := 0

namespace LruState

variable [DecidableEq K]

/-- Drop the list node and the index entry of a key, if it has one. -/
def erase (c : LruState K V) (key : K) : LruState K V :=
  match c.index.lookup key with
  | none => c
  | some it => { c with entries := c.entries.filter (fun e => e.iter ≠ it), index := c.index.erase key }

def push_front (c : LruState K V) (key : K) (value : V) : LruState K V :=
  { c with entries := ⟨c.next, key, value⟩ :: c.entries, index := c.index.insert key c.next, next := c.next + 1 }

/-- The eviction loop of `put`. -/
def evict : Nat → LruState K V → LruState K V
  | 0, c => c
  | fuel + 1, c =>
    if c.index.keys.length > c.capacity then
      match c.entries.getLast? with
      | none => c
      | some back => evict fuel { c with index := c.index.erase back.key, entries := c.entries.dropLast }
    else c

def put (c : LruState K V) (key : K) (value : V) : LruState K V :=
  let c := (c.erase key).push_front key value
  c.evict c.entries.length

def get (c : LruState K V) (key : K) : Option V × LruState K V :=
  match c.index.lookup key with
  | none => (none, c)
  | some it =>
    match c.entries.find? (fun e => e.iter = it) with
    | none => (none, c)
    | some e => (some e.value, { c with entries := e :: c.entries.filter (fun e => e.iter ≠ it) })

def size (c : LruState K V) : Nat := c.index.keys.length

def toList (c : LruState K V) : List (K × V) := c.entries.map fun e => (e.key, e.value)

/-- The index points at exactly the list nodes, each under its key. -/
structure WF (c : LruState K V) : Prop where
  keys : (c.entries.map (·.key)).Nodup
  iters : (c.entries.map (·.iter)).Nodup
  fresh : ∀ e ∈ c.entries, e.iter < c.next
  index : ∀ k i, c.index.lookup k = some i ↔ ∃ e ∈ c.entries, e.key = k ∧ e.iter = i

variable {c : LruState K V}

theorem WF.lookup_none (h : c.WF) {k : K} : c.index.lookup k = none ↔ ∀ e ∈ c.entries, e.key ≠ k := by
  rw [Option.eq_none_iff_forall_ne_some]
  constructor
  · intro hn e he hk
    exact hn e.iter ((h.index k e.iter).2 ⟨e, he, hk, rfl⟩)
  · intro hn i hi
    obtain ⟨e, he, hk, -⟩ := (h.index k i).1 hi
    exact hn e he hk

theorem WF.eq_of_iter (h : c.WF) {e e' : LruNode K V} (he : e ∈ c.entries) (he' : e' ∈ c.entries)
    (hi : e.iter = e'.iter) : e = e' :=
  List.inj_on_of_nodup_map h.iters he he' hi

theorem WF.eq_of_key (h : c.WF) {e e' : LruNode K V} (he : e ∈ c.entries) (he' : e' ∈ c.entries)
    (hk : e.key = e'.key) : e = e' :=
  List.inj_on_of_nodup_map h.keys he he' hk

/-- Removing the node of a key by its iterator removes it by its key. -/
theorem WF.filter_iter (h : c.WF) {k : K} {i : Nat} (hi : c.index.lookup k = some i) :
    c.entries.filter (fun e => e.iter ≠ i) = c.entries.filter (fun e => e.key ≠ k) := by
  obtain ⟨x, hx, hk, rfl⟩ := (h.index k i).1 hi
  apply List.filter_congr
  intro e he
  have : e.iter = x.iter ↔ e.key = k :=
    ⟨fun hi => hk ▸ congrArg _ (h.eq_of_iter he hx hi), fun hk' => congrArg _ (h.eq_of_key he hx (hk'.trans hk.symm))⟩
  simp [this]

/-- The index has as many keys as the list has nodes. -/
theorem WF.size_eq (h : c.WF) : c.index.keys.length = c.entries.length := by
  have hp : c.index.keys.Perm (c.entries.map (·.key)) := by
    refine (List.perm_ext_iff_of_nodup c.index.nodupKeys h.keys).2 ?_
    intro k
    show k ∈ c.index.keys ↔ _
    rw [← AList.mem_keys, ← AList.lookup_isSome, Option.isSome_iff_exists]
    simp only [h.index, List.mem_map]
    exact ⟨fun ⟨_, e, he, hk, _⟩ => ⟨e, he, hk⟩, fun ⟨e, he, hk⟩ => ⟨e.iter, e, he, hk, rfl⟩⟩
  simpa using hp.length_eq

/-- Keeping a sublist of the nodes and erasing one key keeps the two in step,
when that key's node is the only one to go. -/
theorem WF.without (h : c.WF) {l : List (LruNode K V)} {k : K} (hl : l.Sublist c.entries)
    (hk : ∀ e, e ∈ l ↔ e ∈ c.entries ∧ e.key ≠ k) :
    WF { c with entries := l, index := c.index.erase k } where
  keys := h.keys.sublist (hl.map _)
  iters := h.iters.sublist (hl.map _)
  fresh e he := h.fresh e (hl.subset he)
  index k' i := by
    show (c.index.erase k).lookup k' = some i ↔ _
    by_cases hkk : k' = k
    · subst hkk
      rw [AList.lookup_erase]
      simp only [reduceCtorEq, false_iff, not_exists]
      rintro e ⟨he, hek, -⟩
      exact ((hk e).1 he).2 hek
    · rw [AList.lookup_erase_ne hkk, h.index]
      constructor
      · rintro ⟨e, he, rfl, hi⟩
        exact ⟨e, (hk e).2 ⟨he, hkk⟩, rfl, hi⟩
      · rintro ⟨e, he, hek, hi⟩
        exact ⟨e, hl.subset he, hek, hi⟩

theorem WF.erase (h : c.WF) (k : K) : (c.erase k).WF := by
  unfold LruState.erase
  cases hi : c.index.lookup k with
  | none => exact h
  | some i =>
    refine h.without List.filter_sublist fun e => ?_
    rw [h.filter_iter hi]
    simp

theorem WF.erase_entries (h : c.WF) (k : K) : (c.erase k).entries = c.entries.filter (fun e => e.key ≠ k) := by
  unfold LruState.erase
  cases hi : c.index.lookup k with
  | none =>
    symm
    rw [List.filter_eq_self]
    intro e he
    simpa using h.lookup_none.1 hi e he
  | some i => exact h.filter_iter hi

theorem WF.push_front (h : c.WF) {k : K} (v : V) (hk : ∀ e ∈ c.entries, e.key ≠ k) : (c.push_front k v).WF where
  keys := by
    simp only [LruState.push_front, List.map_cons, List.nodup_cons, List.mem_map, not_exists]
    exact ⟨fun e he => hk e he.1 he.2, h.keys⟩
  iters := by
    simp only [LruState.push_front, List.map_cons, List.nodup_cons, List.mem_map, not_exists]
    exact ⟨fun e he => absurd he.2 (Nat.ne_of_lt (h.fresh e he.1)), h.iters⟩
  fresh := by
    simp only [LruState.push_front, List.forall_mem_cons]
    exact ⟨Nat.lt_succ_self _, fun e he => Nat.lt_succ_of_lt (h.fresh e he)⟩
  index k' i := by
    simp only [LruState.push_front, List.exists_mem_cons_iff]
    by_cases hkk : k' = k
    · subst hkk
      rw [AList.lookup_insert, Option.some.injEq]
      refine ⟨fun hi => .inl ⟨rfl, hi⟩, ?_⟩
      rintro (⟨-, hi⟩ | ⟨e, he, hek, -⟩)
      · exact hi
      · exact absurd hek (hk e he)
    · rw [AList.lookup_insert_ne hkk, h.index]
      refine ⟨.inr, ?_⟩
      rintro (⟨hek, -⟩ | h)
      · exact absurd hek.symm hkk
      · exact h

/-- The loop pops nodes until the capacity is met. -/
theorem WF.evict (h : c.WF) {fuel : Nat} (hf : c.entries.length ≤ fuel) :
    (c.evict fuel).WF ∧ (c.evict fuel).entries = c.entries.take c.capacity ∧
      (c.evict fuel).capacity = c.capacity := by
  induction fuel generalizing c with
  | zero =>
    have : c.entries = [] := List.length_eq_zero_iff.1 (Nat.le_zero.1 hf)
    exact ⟨h, by simp [LruState.evict, this], rfl⟩
  | succ fuel ih =>
    unfold LruState.evict
    rw [h.size_eq]
    by_cases hc : c.entries.length > c.capacity
    · rw [if_pos hc]
      have hne : c.entries ≠ [] := by rintro h0; simp [h0] at hc
      rw [List.getLast?_eq_some_getLast hne]
      have hsplit := List.dropLast_append_getLast hne
      generalize c.entries.getLast hne = back at hsplit
      have hw : WF { c with index := c.index.erase back.key, entries := c.entries.dropLast } := by
        refine h.without (List.dropLast_sublist _) fun e => ?_
        have hkeys := h.keys
        rw [← hsplit, List.map_append, List.nodup_append] at hkeys
        constructor
        · intro he
          exact ⟨List.dropLast_subset _ he, hkeys.2.2 _ (List.mem_map_of_mem he) _ (by simp)⟩
        · rintro ⟨he, hk⟩
          rw [← hsplit, List.mem_append, List.mem_singleton] at he
          rcases he with he | rfl
          · exact he
          · exact absurd rfl hk
      obtain ⟨h1, h2, h3⟩ := ih hw (by simp only [List.length_dropLast]; omega)
      refine ⟨h1, ?_, h3⟩
      rw [h2, List.dropLast_eq_take, List.take_take]
      congr 1
      simp only
      omega
    · rw [if_neg hc]
      exact ⟨h, (List.take_of_length_le (by omega)).symm, rfl⟩

theorem WF.put (h : c.WF) (k : K) (v : V) :
    (c.put k v).WF ∧ (c.put k v).toList = ((k, v) :: c.toList.filter (fun p => p.1 ≠ k)).take c.capacity ∧
      (c.put k v).capacity = c.capacity := by
  have he := h.erase_entries k
  have hcap : (c.erase k).capacity = c.capacity := by unfold LruState.erase; split <;> rfl
  have hp : ((c.erase k).push_front k v).WF := (h.erase k).push_front v (by rw [he]; simp)
  obtain ⟨h1, h2, h3⟩ := hp.evict (Nat.le_refl _)
  refine ⟨h1, ?_, h3.trans hcap⟩
  show ((c.put k v).entries).map _ = _
  unfold LruState.put
  rw [h2, List.map_take]
  simp only [LruState.push_front, he, hcap, List.map_cons, toList, List.filter_map]
  rfl

/-- `get` finds what the list holds and moves it to the front. -/
theorem WF.get (h : c.WF) (k : K) :
    (c.get k).2.WF ∧ (c.get k).2.capacity = c.capacity ∧
      (((c.get k).1 = none ∧ (∀ v, (k, v) ∉ c.toList) ∧ (c.get k).2 = c) ∨
        ∃ v, (c.get k).1 = some v ∧ (k, v) ∈ c.toList ∧
          (c.get k).2.toList = (k, v) :: c.toList.filter (fun p => p.1 ≠ k)) := by
  unfold LruState.get
  cases hi : c.index.lookup k with
  | none =>
    refine ⟨h, rfl, .inl ⟨rfl, fun v hv => ?_, rfl⟩⟩
    obtain ⟨e, he, heq⟩ := List.mem_map.1 hv
    exact h.lookup_none.1 hi e he (congrArg Prod.fst heq)
  | some i =>
    obtain ⟨e, he, hk, rfl⟩ := (h.index k i).1 hi
    have hf : c.entries.find? (fun x => x.iter = e.iter) = some e := by
      cases hx : c.entries.find? (fun x => x.iter = e.iter) with
      | none => exact absurd (List.find?_eq_none.1 hx e he) (by simp)
      | some x =>
        have := List.find?_some hx
        exact congrArg some (h.eq_of_iter (List.mem_of_find?_eq_some hx) he (by simpa using this))
    simp only [hf]
    have hperm : (e :: c.entries.filter (fun x => x.iter ≠ e.iter)).Perm c.entries := by
      rw [List.perm_ext_iff_of_nodup _ h.iters.of_map]
      · intro x
        simp only [List.mem_cons, List.mem_filter, decide_eq_true_eq]
        constructor
        · rintro (rfl | hx)
          · exact he
          · exact hx.1
        · intro hx
          by_cases hxe : x.iter = e.iter
          · exact .inl (h.eq_of_iter hx he hxe)
          · exact .inr ⟨hx, hxe⟩
      · refine List.nodup_cons.2 ⟨by simp, h.iters.of_map.filter _⟩
    refine ⟨?_, trivial, .inr ⟨e.value, rfl, ?_, ?_⟩⟩
    · exact {
        keys := (hperm.map _).nodup_iff.2 h.keys
        iters := (hperm.map _).nodup_iff.2 h.iters
        fresh := fun x hx => h.fresh x (hperm.mem_iff.1 hx)
        index := fun k' i => by
          rw [h.index]
          exact exists_congr fun x => and_congr_left' hperm.mem_iff.symm }
    · rw [← hk]
      exact List.mem_map_of_mem he
    · simp only [toList, List.map_cons, List.filter_map, hk]
      rw [h.filter_iter hi]
      rfl

end LruState

/-- A cache whose list and index are in step. -/
structure LruCache (K V : Type) [DecidableEq K] where
  state : LruState K V
  wf : state.WF

namespace LruCache

variable [DecidableEq K]

def empty (capacity : Nat) : LruCache K V where
  state := { capacity := capacity }
  wf := ⟨List.nodup_nil, List.nodup_nil, by simp, by simp⟩

def put (c : LruCache K V) (key : K) (value : V) : LruCache K V := ⟨c.state.put key value, (c.wf.put key value).1⟩

def get (c : LruCache K V) (key : K) : Option V × LruCache K V :=
  ((c.state.get key).1, ⟨(c.state.get key).2, (c.wf.get key).1⟩)

def capacity (c : LruCache K V) : Nat := c.state.capacity

def toList (c : LruCache K V) : List (K × V) := c.state.toList

@[simp] theorem toList_empty (n : Nat) : (empty n : LruCache K V).toList = [] := rfl

@[simp] theorem capacity_empty (n : Nat) : (empty n : LruCache K V).capacity = n := rfl

@[simp] theorem put_capacity (c : LruCache K V) (k : K) (v : V) : (c.put k v).capacity = c.capacity :=
  (c.wf.put k v).2.2

@[simp] theorem get_capacity (c : LruCache K V) (k : K) : (c.get k).2.capacity = c.capacity := (c.wf.get k).2.1

theorem put_toList (c : LruCache K V) (k : K) (v : V) :
    (c.put k v).toList = ((k, v) :: c.toList.filter (fun p => p.1 ≠ k)).take c.capacity := (c.wf.put k v).2.1

theorem get_cases (c : LruCache K V) (k : K) :
    ((c.get k).1 = none ∧ (∀ v, (k, v) ∉ c.toList) ∧ (c.get k).2 = c) ∨
      ∃ v, (c.get k).1 = some v ∧ (k, v) ∈ c.toList ∧
        (c.get k).2.toList = (k, v) :: c.toList.filter (fun p => p.1 ≠ k) := by
  rcases (c.wf.get k).2.2 with ⟨h1, h2, h3⟩ | ⟨v, h1, h2, h3⟩
  · refine .inl ⟨h1, h2, ?_⟩
    cases c
    simp only [get] at h3 ⊢
    congr 1
  · exact .inr ⟨v, h1, h2, h3⟩

theorem mem_of_mem_put {c : LruCache K V} {k : K} {v : V} {p : K × V} (h : p ∈ (c.put k v).toList) :
    p = (k, v) ∨ p ∈ c.toList := by
  rw [put_toList] at h
  rcases List.mem_cons.1 (List.mem_of_mem_take h) with h | h
  · exact .inl h
  · exact .inr (List.mem_filter.1 h).1

theorem mem_of_mem_get {c : LruCache K V} {k : K} {p : K × V} (h : p ∈ (c.get k).2.toList) : p ∈ c.toList := by
  rcases c.get_cases k with ⟨-, -, hc⟩ | ⟨v, -, hv, hl⟩
  · rwa [hc] at h
  · rw [hl] at h
    rcases List.mem_cons.1 h with rfl | h
    · exact hv
    · exact (List.mem_filter.1 h).1

/-- A key has one value. -/
theorem eq_of_mem (c : LruCache K V) {k : K} {v v' : V} (h : (k, v) ∈ c.toList) (h' : (k, v') ∈ c.toList) : v = v' := by
  obtain ⟨e, he, heq⟩ := List.mem_map.1 h
  obtain ⟨e', he', heq'⟩ := List.mem_map.1 h'
  obtain ⟨rfl, rfl⟩ := Prod.mk.inj heq
  obtain ⟨hk, rfl⟩ := Prod.mk.inj heq'
  rw [c.wf.eq_of_key he he' hk.symm]

/-! ### Eviction -/

/-- `put` of every entry of a list, in order. -/
def putAll (c : LruCache K V) (l : List (K × V)) : LruCache K V := l.foldl (fun c e => c.put e.1 e.2) c

theorem putAll_cons (c : LruCache K V) (e : K × V) (l : List (K × V)) : c.putAll (e :: l) = (c.put e.1 e.2).putAll l := rfl

@[simp] theorem putAll_capacity (c : LruCache K V) (l : List (K × V)) : (c.putAll l).capacity = c.capacity := by
  induction l generalizing c with
  | nil => rfl
  | cons e l ih => exact (ih _).trans (put_capacity _ _ _)

/-- As many entries as there is room for come first, the last one in front. -/
theorem putAll_isPrefix (c : LruCache K V) {l : List (K × V)} (hn : (l.map Prod.fst).Nodup) (hl : l.length ≤ c.capacity) :
    l.reverse <+: (c.putAll l).toList := by
  induction l using List.reverseRecOn with
  | nil => exact List.nil_prefix
  | append_singleton l e ih =>
    rw [List.map_append, List.nodup_append] at hn
    rw [List.length_append, List.length_singleton] at hl
    obtain ⟨rest, hrest⟩ := ih hn.1 (by omega)
    have hfresh : l.reverse.filter (fun p => p.1 ≠ e.1) = l.reverse := by
      refine List.filter_eq_self.2 fun p hp => decide_eq_true fun he => ?_
      exact hn.2.2 p.1 (List.mem_map_of_mem (List.mem_reverse.1 hp)) e.1 (by simp) he
    have hput : (c.putAll (l ++ [e])).toList =
        ((e :: l.reverse) ++ rest.filter (fun p => p.1 ≠ e.1)).take c.capacity := by
      rw [putAll, List.foldl_append]
      show ((c.putAll l).put e.1 e.2).toList = _
      rw [put_toList, ← hrest, List.filter_append, hfresh, putAll_capacity]
      rfl
    rw [hput, List.take_append, List.take_of_length_le (by simpa using hl), List.reverse_append]
    exact List.prefix_append _ _

/-- Once a full cache of other keys has been put, a key is gone. -/
theorem not_mem_putAll (c : LruCache K V) {l : List (K × V)} (hn : (l.map Prod.fst).Nodup) (hl : l.length = c.capacity)
    {k : K} (hk : k ∉ l.map Prod.fst) (hne : l ≠ []) (v : V) : (k, v) ∉ (c.putAll l).toList := by
  have hstart := c.putAll_isPrefix hn (Nat.le_of_eq hl)
  have hlen : (c.putAll l).toList.length ≤ l.reverse.length := by
    rw [List.length_reverse, hl, ← List.dropLast_append_getLast hne, putAll, List.foldl_append]
    show ((c.putAll l.dropLast).put _ _).toList.length ≤ _
    rw [put_toList, putAll_capacity]
    exact List.length_take_le _ _
  rw [← hstart.eq_of_length_le hlen, List.mem_reverse]
  exact fun h => hk (List.mem_map_of_mem h)

end LruCache

end Dstore
