import Mathlib.Algebra.Order.Ring.Int
import Mathlib.Data.Nat.Digits.Defs
import Dstore.Cluster.Quorum
import Dstore.Lib.Runs
/-!
# Placement agreement

The nodes of a cluster have all been told of the same members. Each plans with
the one it heard of last, so two nodes plan the same targets when the last of
their members is the same; and a read finds what was put anywhere when one
answer is enough (`placement_agreement_iff`). Else neither holds: nodes A and B,
each with the other in its list, plan for each other, and with two replicas and
a read quorum of two what A put is not found anywhere (`apart_plans_differ`).
-/
open Dstore.Lib

namespace Dstore

/-- The nodes of a cluster and the service each of them runs, every one of them
in reach. -/
structure Members where
  ids : List Str
  service : Str → DistributedChunkService
  runs : ∀ i ∈ ids, (service i).me = i
  reachable : ∀ i ∈ ids, (service i).Reachable

namespace Members

/-- Every node has been told of all members. -/
def Complete (m : Members) : Prop :=
  ∀ i ∈ m.ids, ∀ x, x ∈ m.ids ↔ ∃ n ∈ (m.service i).self :: (m.service i).seed_members, n.val.id = x

/-- The node that all plans of the cluster are. -/
def SameLatest (m : Members) : Prop := ∀ i ∈ m.ids, ∀ j ∈ m.ids, (m.service i).latest.id = (m.service j).latest.id

instance (m : Members) : Decidable m.SameLatest :=
  inferInstanceAs (Decidable (∀ i ∈ m.ids, ∀ j ∈ m.ids, (m.service i).latest.id = (m.service j).latest.id))

/-- A cluster of two nodes. -/
def two (a b : DistributedChunkService) (hne : b.me ≠ a.me) (ha : a.Reachable) (hb : b.Reachable) : Members where
  ids := [a.me, b.me]
  service i := if i = a.me then a else b
  runs i hi := by
    rcases List.mem_cons.1 hi with rfl | hi
    · rw [if_pos rfl]
    · rw [List.mem_singleton.1 hi, if_neg hne]
  reachable i hi := by
    split
    · exact ha
    · exact hb

theorem two_forall {a b : DistributedChunkService} {hne : b.me ≠ a.me} {ha : a.Reachable} {hb : b.Reachable}
    (P : Str → DistributedChunkService → Prop) :
    (∀ i ∈ (two a b hne ha hb).ids, P i ((two a b hne ha hb).service i)) ↔ P a.me a ∧ P b.me b := by
  have hfirst : (two a b hne ha hb).service a.me = a := if_pos rfl
  have hsecond : (two a b hne ha hb).service b.me = b := if_neg hne
  rw [show (two a b hne ha hb).ids = [a.me, b.me] from rfl, List.forall_mem_cons, List.forall_mem_singleton, hfirst, hsecond]

end Members

namespace Placement

/-- A cluster and the byte strings put so far. -/
structure World where
  net : Net
  stored : List Bytes := []

inductive Call where
  | put (node : Str) (bytes : Bytes)
  | get (node checksum : Str)

section Cluster
variable (H : HexHash) (hash64 : Str → Nat) (m : Members)

/-- The calls, with every node in reach. -/
def exec (w : World) : Call → World
  | .put i bytes => ⟨((m.service i).put H hash64 {} w.net bytes).2, bytes :: w.stored⟩
  | .get i checksum => ⟨((m.service i).get H hash64 (fun _ => .fine) (fun _ => .fine) w.net checksum).2, w.stored⟩

/-- The write quorum of the node is one that the targets of its plan can make. -/
def CanPut (net : Net) (i c : Str) : Prop :=
  (m.service i).write_quorum ≤
    1 + (((m.service i).targets hash64 net c).countP (fun t => !(m.service i).is_self t) : Nat)

/-- Calls of members; the contents are from `S`. -/
def Legal (S : Set Bytes) (w : World) : Call → Prop
  | .put i bytes => i ∈ m.ids ∧ bytes ∈ S ∧ CanPut hash64 m w.net i (H.hex bytes)
  | .get i checksum => i ∈ m.ids ∧ Digest checksum

/-- What a cluster owes its callers at a moment: any two members plan the same
targets, every put that can make its quorum succeeds, and every member finds
what was put so far. -/
structure Agreed (S : Set Bytes) (w : World) : Prop where
  plans : ∀ i ∈ m.ids, ∀ j ∈ m.ids, ∀ c,
    ((m.service i).targets hash64 w.net c).map (·.id) = ((m.service j).targets hash64 w.net c).map (·.id)
  puts : ∀ i ∈ m.ids, ∀ b ∈ S, CanPut hash64 m w.net i (H.hex b) →
    ((m.service i).put H hash64 {} w.net b).1 = .ok ⟨H.hex b, b.length % 2 ^ 64⟩
  gets : ∀ i ∈ m.ids, ∀ b ∈ w.stored,
    ((m.service i).get H hash64 (fun _ => .fine) (fun _ => .fine) w.net (H.hex b)).1 = .ok b

/-- What was put is on the node that all plans are. -/
structure Inv (S : Set Bytes) (w : World) : Prop where
  sound : w.net.Sound H S
  placed : ∀ b ∈ w.stored, b ∈ S ∧ ∀ i ∈ m.ids, (w.net.stores (m.service i).latest.id).Holds H (H.hex b)

variable {H hash64 m} {S : Set Bytes}

theorem canPut_iff {net : Net} {i c : Str} : CanPut hash64 m net i c ↔
    (m.service i).write_quorum ≤ 1 + ((m.service i).peer.isSome.toNat : Int) := by
  have hcount : ((m.service i).targets hash64 net c).countP (fun t => !(m.service i).is_self t) =
      (m.service i).peer.isSome.toNat := by
    rw [List.countP_eq_length_filter, DistributedChunkService.filter_targets]
    cases (m.service i).peer <;> rfl
  rw [CanPut, hcount]

/-- A put by a member that can make its quorum succeeds. -/
theorem put_ok {net : Net} {i : Str} (hi : i ∈ m.ids) {b : Bytes} (hq : CanPut hash64 m net i (H.hex b)) :
    ((m.service i).put H hash64 {} net b).1 = .ok ⟨H.hex b, b.length % 2 ^ 64⟩ := by
  rw [(m.service i).put_result hash64 (fun _ => rfl) (m.reachable i hi), (m.service i).acked_fine (m.reachable i hi),
    if_neg]
  have := canPut_iff.1 hq
  omega

/-- One call keeps the invariant. -/
theorem exec_inv (hrf : ∀ i ∈ m.ids, 1 ≤ (m.service i).replication_factor) (hsame : m.SameLatest) {w : World}
    (h : Inv H m S w) {c : Call} (hl : Legal H hash64 m S w c) : Inv H m S (exec H hash64 m w c) := by
  cases c with
  | put i b =>
    obtain ⟨hi, hb, -⟩ := hl
    have hadd := ((m.service i).put_adds (H := H) hash64 {} b w.net).1
    refine ⟨(m.service i).put_sound hash64 hb h.sound (Conditions.whole_fine b), fun x hx => ?_⟩
    rcases List.mem_cons.1 hx with rfl | hx
    · refine ⟨hb, fun j hj => ?_⟩
      rw [hsame j hj i hi]
      refine ((m.service i).put_places hash64 x (m.reachable i hi) h.sound).2 _ ?_
      rw [DistributedChunkService.targets_eq, if_pos (hrf i hi)]
      exact List.mem_singleton_self _
    · obtain ⟨hxS, hplaced⟩ := h.placed x hx
      exact ⟨hxS, fun j hj => hadd.holds (H.digest x) (hplaced j hj)⟩
  | get i c =>
    have hframe := ((m.service i).get_frame (H := H) hash64 (fun _ => .fine) (fun _ => .fine) c w.net).2.2.2.2
    refine ⟨(m.service i).get_sound hash64 _ _ hl.2 h.sound, fun x hx => ?_⟩
    obtain ⟨hxS, hplaced⟩ := h.placed x hx
    refine ⟨hxS, fun j hj => ?_⟩
    obtain ⟨v, hv, hvx⟩ := hplaced j hj
    exact ⟨v, (hframe _ _).trans hv, hvx⟩

/-- A member finds what is on the node of its plan. -/
theorem Inv.get (hinj : Set.InjOn H.hex S) {w : World} (h : Inv H m S w) {b : Bytes} (hb : b ∈ w.stored) {i : Str}
    (hi : i ∈ m.ids) (hrf : 1 ≤ (m.service i).replication_factor) (hq : (m.service i).read_quorum ≤ 1) :
    ((m.service i).get H hash64 (fun _ => .fine) (fun _ => .fine) w.net (H.hex b)).1 = .ok b := by
  obtain ⟨hbS, hplaced⟩ := h.placed b hb
  have ht : (m.service i).latest ∈ (m.service i).targets hash64 w.net (H.hex b) := by
    rw [DistributedChunkService.targets_eq, if_pos hrf]
    exact List.mem_singleton_self _
  have hans : (m.service i).answers H (fun _ => .fine) (H.hex b) w.net (m.service i).latest = true := by
    rw [(m.service i).answers_fine hash64 (m.reachable i hi) ht]
    exact (h.sound _).get_isOk (H.digest b) (hplaced i hi)
  obtain ⟨b', hb', hx, hres⟩ := (m.service i).get_found hash64 (fun _ => .fine) (fun _ => .fine) h.sound
    (H.digest b) hq (m.reachable i hi) (.inl ⟨_, ht, hans⟩)
  rw [hres, hinj hb' hbS hx]

end Cluster

/-- In every run of calls on the members of a cluster, at every moment: any two
members plan the same targets, every put that can make its quorum succeeds, and
every member finds what was put. That is so exactly when the last member that
each node has been told of is the same, and one answer is enough for every read
or no node can put anything. -/
theorem placement_agreement_iff (H : HexHash) (hash64 : Str → Nat) (m : Members) (S : Set Bytes) (hinj : Set.InjOn H.hex S)
    (hS : S.Nonempty) (net : Net) (hsound : net.Sound H S)
    (hquorums : ∀ i ∈ m.ids, 1 ≤ (m.service i).read_quorum ∧
      (m.service i).read_quorum ≤ min (m.service i).replication_factor m.ids.length) :
    (∀ (r : Run (Guarded (Legal H hash64 m S) fun w c w' => w' = exec H hash64 m w c) ⟨net, []⟩) (t : Nat),
      Agreed H hash64 m S (r.state t)) ↔
    m.SameLatest ∧ ((∀ i ∈ m.ids, (m.service i).read_quorum = 1) ∨
      ∀ i ∈ m.ids, 1 + ((m.service i).peer.isSome.toNat : Int) < (m.service i).write_quorum) := by
  have hrf : ∀ i ∈ m.ids, 1 ≤ (m.service i).replication_factor := fun i hi => by
    have := hquorums i hi
    omega
  have htargets : ∀ i ∈ m.ids, ∀ (n : Net) c, (m.service i).targets hash64 n c = [(m.service i).latest] := fun i hi n c => by
    rw [DistributedChunkService.targets_eq, if_pos (hrf i hi)]
  constructor
  · intro hall
    refine ⟨fun i hi j hj => ?_, ?_⟩
    · have hplans := (hall (Run.ofEvents _ _ [] trivial) 0).plans i hi j hj []
      rw [htargets i hi, htargets j hj] at hplans
      exact List.singleton_inj.1 hplans
    · by_contra hcon
      rw [not_or] at hcon
      obtain ⟨hreads, hwrites⟩ := hcon
      push Not at hreads hwrites
      obtain ⟨j, hj, hne⟩ := hreads
      obtain ⟨i, hi, hle⟩ := hwrites
      obtain ⟨b, hb⟩ := hS
      -- node `i` puts a chunk, and node `j` cannot have its two answers
      have hget :=
        (hall (Run.ofEvents _ _ [.put i b] ⟨⟨hi, hb, canPut_iff.2 hle⟩, trivial⟩) 1).gets j hj b List.mem_cons_self
      have hone := (((m.service j).get_ok_iff hash64 _ _ _ b).1 hget).1
      have := (hquorums j hj).1
      omega
  · rintro ⟨hsame, hor⟩ r t
    have hinv : Inv H m S (r.state t) := by
      refine r.inv (Inv H m S) ⟨hsound, by simp⟩ ?_ t
      rintro w c w' hw ⟨hl, rfl⟩
      exact exec_inv hrf hsame hw hl
    refine ⟨fun i hi j hj c => ?_, fun i hi b _ hput => put_ok hi hput, fun i hi b hb => ?_⟩
    · rw [htargets i hi, htargets j hj, List.map_singleton, List.map_singleton, hsame i hi j hj]
    · rcases hor with hreads | hno
      · exact hinv.get hinj hb hi (hrf i hi) (hreads i hi).le
      · -- nothing has been put
        have hnone : (r.state t).stored = [] := by
          refine r.inv (fun w => w.stored = []) rfl ?_ t
          rintro w (⟨j, x⟩ | ⟨j, c⟩) w' hw ⟨hl, rfl⟩
          · exact absurd (canPut_iff.1 hl.2.2) (not_le.2 (hno j hl.1))
          · exact hw
        rw [hnone] at hb
        cases hb

/-! ## Two nodes -/

/-- A `std::hash` without collisions: the bytes as digits. -/
def numeral (s : Str) : Nat := Nat.ofDigits 257 (s.map fun c => c.toNat + 1)

theorem numeral_injective : Function.Injective numeral := by
  have h : ∀ s : Str, Nat.digits 257 (numeral s) = s.map fun c => c.toNat + 1 := by
    intro s
    refine Nat.digits_ofDigits 257 (by decide) _ (fun d hd => ?_) (fun hne => ?_)
    · obtain ⟨c, -, rfl⟩ := List.mem_map.1 hd
      have := c.toNat_lt
      omega
    · obtain ⟨c, -, hc⟩ := List.mem_map.1 (List.getLast_mem hne)
      omega
  intro s s' he
  have := congrArg (Nat.digits 257) he
  rw [h, h] at this
  exact List.map_injective_iff.2 (fun a b hab => UInt8.toNat_inj.1 (Nat.succ.inj hab)) this

/-- Node A, told of node B, with two replicas of each chunk. -/
def toldA : DistributedChunkService where
  self := nodeA
  replication_factor := 2
  write_quorum := 1
  read_quorum := 2
  seed_members := [nodeB]

def toldB : DistributedChunkService := { toldA with self := nodeB, seed_members := [nodeA] }

/-- Each of two nodes has been told of the other. -/
def apart : Members := .two toldA toldB (by decide) (by decide) (by decide)

theorem apart_complete : apart.Complete := by
  refine (Members.two_forall fun i svc => ∀ x, x ∈ apart.ids ↔ ∃ n ∈ svc.self :: svc.seed_members, n.val.id = x).2 ⟨?_, ?_⟩
  · exact fun x => List.mem_map (f := fun n : LiveNode => n.val.id) (l := [nodeA, nodeB])
  · exact fun x => (List.Perm.swap nodeB.val.id nodeA.val.id []).mem_iff.trans
      (List.mem_map (f := fun n : LiveNode => n.val.id) (l := [nodeB, nodeA]))

theorem apart_legal : Run.Legal (Legal Sha256.hexHash numeral apart { lit "abc" }) (exec Sha256.hexHash numeral apart)
    ⟨freshNet, []⟩ [.put (lit "node-a") (lit "abc")] :=
  ⟨⟨List.mem_cons_self, Set.mem_singleton _, canPut_iff.2 (by decide)⟩, trivial⟩

/-- Nodes A and B plan for each other, and a read that wants two answers finds
nothing of what A has put. -/
theorem apart_plans_differ :
    ConsistentHashRing.NoCollision numeral apart.ids ∧ apart.Complete ∧
    Run.Legal (Legal Sha256.hexHash numeral apart { lit "abc" }) (exec Sha256.hexHash numeral apart)
      ⟨freshNet, []⟩ [.put (lit "node-a") (lit "abc")] ∧
    toldA.replication_factor = apart.ids.length ∧ toldA.read_quorum = apart.ids.length ∧
    (toldA.targets numeral freshNet (Sha256.hex (lit "abc"))).map (·.id) = [lit "node-b"] ∧
    (toldB.targets numeral freshNet (Sha256.hex (lit "abc"))).map (·.id) = [lit "node-a"] ∧
    ¬ Agreed Sha256.hexHash numeral apart { lit "abc" } ⟨freshNet, []⟩ ∧
    (toldA.get Sha256.hexHash numeral (fun _ => .fine) (fun _ => .fine)
      (exec Sha256.hexHash numeral apart ⟨freshNet, []⟩ (.put (lit "node-a") (lit "abc"))).net
        (Sha256.hex (lit "abc"))).1.isOk = false := by
  have hA : (toldA.targets numeral freshNet (Sha256.hex (lit "abc"))).map (·.id) = [lit "node-b"] := by
    rw [DistributedChunkService.targets_eq]
    rfl
  have hB : (toldB.targets numeral freshNet (Sha256.hex (lit "abc"))).map (·.id) = [lit "node-a"] := by
    rw [DistributedChunkService.targets_eq]
    rfl
  refine ⟨numeral_injective.injOn, apart_complete, apart_legal, rfl, rfl, hA, hB, fun h => ?_, ?_⟩
  · have hplans : (toldA.targets numeral freshNet (Sha256.hex (lit "abc"))).map (·.id) =
        (toldB.targets numeral freshNet (Sha256.hex (lit "abc"))).map (·.id) :=
      h.plans (lit "node-a") (by decide) (lit "node-b") (by decide) (Sha256.hex (lit "abc"))
    rw [hA, hB] at hplans
    cases hplans
  · refine Bool.eq_false_iff.2 fun hok => ?_
    obtain ⟨b, hb⟩ := Outcome.isOk_iff.1 hok
    exact absurd ((toldA.get_ok_iff numeral _ _ _ b).1 hb).1 (by decide)

/-- The list of node A ends in node A itself, and one answer is enough. -/
def together : Members :=
  .two { toldA with read_quorum := 1, seed_members := [nodeB, nodeA] } { toldB with read_quorum := 1 }
    (by decide) (by decide) (by decide)

theorem together_legal : Run.Legal (Legal Sha256.hexHash numeral together { lit "abc" })
    (exec Sha256.hexHash numeral together) ⟨freshNet, []⟩ [.put (lit "node-a") (lit "abc")] :=
  ⟨⟨List.mem_cons_self, Set.mem_singleton _, canPut_iff.2 (by decide)⟩, trivial⟩

/-- Node B then reads what node A put. -/
theorem together_agrees :
    ∃ r : Run (Guarded (Legal Sha256.hexHash numeral together { lit "abc" })
        fun w c w' => w' = exec Sha256.hexHash numeral together w c) ⟨freshNet, []⟩,
      lit "abc" ∈ (r.state 1).stored ∧
      ((together.service (lit "node-b")).get Sha256.hexHash numeral (fun _ => .fine) (fun _ => .fine)
        (r.state 1).net (Sha256.hex (lit "abc"))).1 = .ok (lit "abc") :=
  ⟨Run.ofEvents _ _ _ together_legal, List.mem_cons_self,
    ((placement_agreement_iff Sha256.hexHash numeral together { lit "abc" } (Set.injOn_singleton _ _)
      (Set.singleton_nonempty _) freshNet (freshNet_sound _ _) (by decide)).2
        ⟨by decide, .inl (by decide)⟩ (Run.ofEvents _ _ _ together_legal) 1).gets (lit "node-b") (by decide) (lit "abc")
          List.mem_cons_self⟩

end Placement

end Dstore
