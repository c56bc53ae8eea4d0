import Dstore.Cluster.ServiceSpec
import Dstore.Storage.ChunkCache
/-!
# The calls of a read

`DistributedChunkService::get` against a local store and a client that answer
anything: what it returns and the calls it makes, in order. `readCalls_spec`
says for every plan and every pattern of answers when the read succeeds, with
whose value, and which replicas are sent it, and that the calls are those of
the service in a cluster: making them there gives its net.
-/

namespace Dstore

/-- A call of a read on the local store or on the client. -/
inductive ReadCall where
  | local_get (checksum : Str)
  | local_put (bytes : Bytes)
  | get_chunk (node : StorageNode) (checksum : Str)
  | put_chunk (node : StorageNode) (ref : ChunkRef) (bytes : Bytes)
  deriving DecidableEq

/-- The bytes that a call sends. -/
def ReadCall.sends : ReadCall → Option Bytes
  | .local_put bytes | .put_chunk _ _ bytes => some bytes
  | .local_get _ | .get_chunk .. => none

def ReadCall.isPut (call : ReadCall) : Bool := call.sends.isSome

/-- What the local store and each node answer when asked for the chunk. -/
structure ReadAnswers where
  own : Result Bytes
  peer : StorageNode → Outcome Bytes

/-- Answers that are ok or an error. -/
def ReadAnswers.of (own : Result Bytes) (peer : StorageNode → Result Bytes) : ReadAnswers := ⟨own, fun t => (peer t).lift⟩

namespace DistributedChunkService

section Calls
variable (svc : DistributedChunkService) (a : ReadAnswers) (checksum : Str)

def answerOf (node : StorageNode) : Outcome Bytes := if svc.is_self node then a.own.lift else a.peer node

def askCall (node : StorageNode) : ReadCall := if svc.is_self node then .local_get checksum else .get_chunk node checksum

/-- What a replica that failed is sent. -/
def repairCall (value : Bytes) (failed : StorageNode) : ReadCall :=
  if svc.is_self failed then .local_put value else .put_chunk failed ⟨checksum, value.length % 2 ^ 64⟩ value

/-- The loop of `get` over the plan's targets, and what follows it. -/
def readCalls : List StorageNode → Int → Status → List StorageNode → Outcome Bytes × List ReadCall
  | [], _, last_error, _ =>
    let failure := if last_error.code = .kNotFound then .Unavailable (lit "quorum read failed") else last_error
    match a.own with
    | .ok value => (if svc.read_quorum ≤ 1 then .ok value else .error (.status failure), [.local_get checksum])
    | .error _ => (.error (.status failure), [.local_get checksum])
  | node :: rest, responses, last_error, failed =>
    match svc.answerOf a node with
    | .ok value =>
      if responses + 1 ≥ svc.read_quorum then
        (.ok value, svc.askCall checksum node :: failed.map (svc.repairCall checksum value))
      else
        let (result, calls) := readCalls rest (responses + 1) last_error failed
        (result, svc.askCall checksum node :: calls)
    | .error .exception => (.error .exception, [svc.askCall checksum node])
    | .error (.status status) =>
      let (result, calls) := readCalls rest responses status (failed ++ [node])
      (result, svc.askCall checksum node :: calls)

/-- `get` with this plan and these answers. -/
def getCalls (targets : List StorageNode) : Outcome Bytes × List ReadCall :=
  svc.readCalls a checksum targets 0 (.NotFound (lit "chunk not found")) []

/-- Asking is not sending. -/
theorem filter_asked (node : StorageNode) (calls : List ReadCall) :
    (svc.askCall checksum node :: calls).filter ReadCall.isPut = calls.filter ReadCall.isPut := by
  refine List.filter_cons_of_neg ?_
  unfold askCall
  split <;> exact Bool.false_ne_true

theorem repairCall_isPut (value : Bytes) (failed : StorageNode) : (svc.repairCall checksum value failed).isPut = true := by
  unfold repairCall
  split <;> rfl

theorem filter_repairCalls (value : Bytes) (failed : List StorageNode) :
    (failed.map (svc.repairCall checksum value)).filter ReadCall.isPut = failed.map (svc.repairCall checksum value) := by
  refine List.filter_eq_self.2 fun x hx => ?_
  obtain ⟨f, -, rfl⟩ := List.mem_map.1 hx
  exact svc.repairCall_isPut checksum value f

/-! ## The loop -/

/-- The targets that answer. -/
def answering (targets : List StorageNode) : List StorageNode := targets.filter fun n => (svc.answerOf a n).isOk

section Answering
variable {svc a} {t : StorageNode} (targets : List StorageNode)

theorem answering_of_ok {v : Bytes} (h : svc.answerOf a t = .ok v) :
    svc.answering a (t :: targets) = t :: svc.answering a targets := List.filter_cons_of_pos (by rw [h]; rfl)

theorem answering_of_error {e : Failure} (h : svc.answerOf a t = .error e) :
    svc.answering a (t :: targets) = svc.answering a targets := List.filter_cons_of_neg (by rw [h]; exact Bool.false_ne_true)

theorem answering_append (before : List StorageNode) :
    svc.answering a (before ++ targets) = svc.answering a before ++ svc.answering a targets := List.filter_append _ _

end Answering

/-- What is left of the loop when `responses` targets have answered: the target
that completes the quorum decides, and the targets that failed before it are
sent its value; or there is none, and nothing is sent. -/
theorem readCalls_cases (targets : List StorageNode) (hans : ∀ t ∈ targets, svc.answerOf a t ≠ .error .exception)
    (responses : Int) (h0 : 0 ≤ responses)
    (hr : responses + 1 ≤ max svc.read_quorum 1) (last_error : Status) (failed : List StorageNode) :
    (∃ before t after v, targets = before ++ t :: after ∧
        responses + (svc.answering a before).length + 1 = max svc.read_quorum 1 ∧
        svc.answerOf a t = .ok v ∧ (svc.readCalls a checksum targets responses last_error failed).1 = .ok v ∧
        (svc.readCalls a checksum targets responses last_error failed).2.filter ReadCall.isPut =
          (failed ++ before.filter fun n => !(svc.answerOf a n).isOk).map (svc.repairCall checksum v)) ∨
      (responses + (svc.answering a targets).length < max svc.read_quorum 1 ∧
        (∀ v, (svc.readCalls a checksum targets responses last_error failed).1 = .ok v ↔
          svc.read_quorum ≤ 1 ∧ a.own = .ok v) ∧
        (svc.readCalls a checksum targets responses last_error failed).2.filter ReadCall.isPut = []) := by
  induction targets generalizing responses last_error failed with
  | nil =>
    refine .inr ⟨by rw [answering, List.filter_nil, List.length_nil]; omega, ?_, ?_⟩
    · intro v
      rw [readCalls]
      cases a.own with
      | error e => simp
      | ok value =>
        simp only
        split
        · rename_i hq
          simp [hq]
        · rename_i hq
          simp [hq]
    · rw [readCalls]
      cases a.own <;> rfl
  | cons t targets ih =>
    rw [readCalls]
    have ih := ih fun x hx => hans x (List.mem_cons_of_mem _ hx)
    rcases ht : svc.answerOf a t with (e | -) | v
    · -- a target that fails joins the failed ones
      have hno : (svc.answerOf a t).isOk = false := by rw [ht]; rfl
      rw [answering_of_error targets ht]
      simp only
      rw [filter_asked]
      rcases ih responses h0 hr e (failed ++ [t]) with ⟨before, t', after, v, rfl, hcount, hv, hres, hputs⟩ | hnone
      · refine .inl ⟨t :: before, t', after, v, rfl, ?_, hv, hres, ?_⟩
        · rwa [answering_of_error before ht]
        · rw [hputs, List.append_assoc, List.filter_cons_of_pos (by simp [hno])]
          rfl
      · exact .inr hnone
    · exact absurd ht (hans t List.mem_cons_self)
    · have hyes : (svc.answerOf a t).isOk = true := by rw [ht]; rfl
      rw [answering_of_ok targets ht]
      simp only
      by_cases hge : responses + 1 ≥ svc.read_quorum
      · rw [if_pos hge]
        refine .inl ⟨[], t, targets, v, rfl, ?_, ht, rfl, ?_⟩
        · rw [answering, List.filter_nil, List.length_nil]
          omega
        · rw [filter_asked, filter_repairCalls, List.filter_nil, List.append_nil]
      · rw [if_neg hge]
        simp only
        rw [filter_asked]
        rcases ih (responses + 1) (by omega) (by omega) last_error failed with
          ⟨before, t', after, v', rfl, hcount, hv, hres, hputs⟩ | ⟨hlt, hnone⟩
        · refine .inl ⟨t :: before, t', after, v', rfl, ?_, hv, hres, ?_⟩
          · rw [answering_of_ok before ht, List.length_cons]
            omega
          · rw [hputs, List.filter_cons_of_neg (by simp [hyes])]
        · refine .inr ⟨?_, hnone⟩
          rw [List.length_cons]
          omega

section Spec
variable {targets : List StorageNode} (hans : ∀ t ∈ targets, svc.answerOf a t ≠ .error .exception)
include hans

theorem getCalls_of_enough (h : max svc.read_quorum 1 ≤ (svc.answering a targets).length) :
    ∃ before t after v, targets = before ++ t :: after ∧
      (svc.answering a (before ++ [t])).length = max svc.read_quorum 1 ∧ svc.answerOf a t = .ok v ∧
      (svc.getCalls a checksum targets).1 = .ok v ∧
      (svc.getCalls a checksum targets).2.filter ReadCall.isPut =
        (before.filter fun n => !(svc.answerOf a n).isOk).map (svc.repairCall checksum v) := by
  rcases svc.readCalls_cases a checksum targets hans 0 (Int.le_refl 0) (by omega) (.NotFound (lit "chunk not found")) [] with
    ⟨before, t, after, v, htargets, hcount, hv, hres, hputs⟩ | ⟨hlt, -⟩
  · refine ⟨before, t, after, v, htargets, ?_, hv, hres, hputs⟩
    rw [answering_append, answering_of_ok [] hv, List.length_append, List.length_cons, ← hcount]
    simp [answering]
  · omega

theorem getCalls_of_few (h : ¬ max svc.read_quorum 1 ≤ (svc.answering a targets).length) :
    (∀ v, (svc.getCalls a checksum targets).1 = .ok v ↔ svc.read_quorum ≤ 1 ∧ a.own = .ok v) ∧
      (svc.getCalls a checksum targets).2.filter ReadCall.isPut = [] := by
  rcases svc.readCalls_cases a checksum targets hans 0 (Int.le_refl 0) (by omega) (.NotFound (lit "chunk not found")) [] with
    ⟨before, t, after, v, rfl, hcount, hv, -⟩ | ⟨-, hres, hputs⟩
  · -- the targets up to this one would have been enough
    rw [answering_append, answering_of_ok after hv, List.length_append, List.length_cons] at h
    omega
  · exact ⟨hres, hputs⟩

theorem getCalls_isOk_iff : (svc.getCalls a checksum targets).1.isOk = true ↔
    max svc.read_quorum 1 ≤ (svc.answering a targets).length ∨ svc.read_quorum ≤ 1 ∧ a.own.isOk = true := by
  by_cases h : max svc.read_quorum 1 ≤ (svc.answering a targets).length
  · obtain ⟨before, t, after, v, -, -, -, hres, -⟩ := svc.getCalls_of_enough a checksum hans h
    rw [hres]
    exact ⟨fun _ => .inl h, fun _ => rfl⟩
  · obtain ⟨hres, -⟩ := svc.getCalls_of_few a checksum hans h
    rw [or_iff_right h, Outcome.isOk_iff, Result.isOk_iff]
    simp only [hres, exists_and_left]

end Spec

/-- The calls depend on the answers of the targets and of the local store. -/
theorem readCalls_congr {a a' : ReadAnswers} (hown : a'.own = a.own) {targets : List StorageNode}
    (h : ∀ t ∈ targets, svc.answerOf a' t = svc.answerOf a t) (responses : Int) (last_error : Status)
    (failed : List StorageNode) : svc.readCalls a' checksum targets responses last_error failed =
      svc.readCalls a checksum targets responses last_error failed := by
  induction targets generalizing responses last_error failed with
  | nil => rw [readCalls, readCalls, hown]
  | cons t targets ih =>
    rw [readCalls, readCalls, h t List.mem_cons_self]
    simp only [ih fun x hx => h x (List.mem_cons_of_mem _ hx)]

end Calls

/-! ## In a cluster -/

section Cluster
variable (H : HexHash) (svc : DistributedChunkService) (reads repairs : StorageNode → Delivery)

/-- Make a call in a cluster. -/
def makeCall (net : Net) : ReadCall → Net
  | .local_get checksum => net.setStore svc.me ((net.stores svc.me).get H checksum).2
  | .local_put bytes => net.setStore svc.me ((net.stores svc.me).put H none bytes).2
  | .get_chunk node checksum => (NodeClient.get_chunk H (reads node) net node checksum).2
  | .put_chunk node ref bytes => (NodeClient.put_chunk H (repairs node) net node ref bytes).2

/-- What the local store and the nodes of a cluster answer. -/
def answersIn (net : Net) (checksum : Str) : ReadAnswers where
  own := ((net.stores svc.me).get H checksum).1
  peer node := (NodeClient.get_chunk H (reads node) net node checksum).1

/-- The replicas that failed could be called, so sending to them does not throw. -/
theorem repair_eq_calls (checksum : Str) (value : Bytes) {failed : List StorageNode}
    (hfailed : ∀ f ∈ failed, svc.is_self f = false → NodeClient.callable f = true) (net : Net) :
    svc.repair H repairs checksum value failed net =
      (.ok (), (failed.map (svc.repairCall checksum value)).foldl (svc.makeCall H reads repairs) net) := by
  induction failed generalizing net with
  | nil => rfl
  | cons f failed ih =>
    have ih := ih fun x hx => hfailed x (List.mem_cons_of_mem _ hx)
    rw [repair, List.map_cons, List.foldl_cons, repairCall]
    cases hself : svc.is_self f with
    | true => exact ih _
    | false =>
      have hreturns := NodeClient.put_chunk_returns (H := H) (repairs f) net
        (hfailed f List.mem_cons_self hself) ⟨checksum, value.length % 2 ^ 64⟩ value
      rw [if_neg (by simp), if_neg (by simp), makeCall]
      generalize NodeClient.put_chunk H (repairs f) net f ⟨checksum, value.length % 2 ^ 64⟩ value = call at hreturns ⊢
      rcases call with ⟨(status | -) | u, net'⟩
      · exact ih _
      · exact absurd rfl hreturns
      · exact ih _

theorem ask_eq_call (checksum : Str) (net : Net) (t : StorageNode) :
    (svc.ask H reads checksum net t).2 = svc.makeCall H reads repairs net (svc.askCall checksum t) := by
  unfold ask askCall
  split <;> rfl

theorem answerOf_answersIn (net : Net) (checksum : Str) (t : StorageNode) :
    svc.answerOf (svc.answersIn H reads net checksum) t = (svc.ask H reads checksum net t).1 := by
  unfold answerOf ask
  split <;> rfl

/-- The loop in a cluster makes the calls of the loop against its answers. -/
theorem readLoop_eq_calls {checksum : Str} {net₀ : Net} {targets : List StorageNode} (hn : (targets.map (·.id)).Nodup)
    (responses : Int) (last_error : Status) {failed : List StorageNode}
    (hfailed : ∀ f ∈ failed, svc.is_self f = false → NodeClient.callable f = true) {net : Net}
    (hs : ∀ t ∈ targets, net.stores t.id = net₀.stores t.id)
    (hown : ((net.stores svc.me).get H checksum).1 = ((net₀.stores svc.me).get H checksum).1) :
    svc.readLoop H reads repairs checksum targets responses last_error failed net =
      ((svc.readCalls (svc.answersIn H reads net₀ checksum) checksum targets responses last_error failed).1,
        (svc.readCalls (svc.answersIn H reads net₀ checksum) checksum targets responses last_error failed).2.foldl
          (svc.makeCall H reads repairs) net) := by
  induction targets generalizing responses last_error failed net with
  | nil =>
    rw [readLoop, readCalls]
    have hans : (svc.answersIn H reads net₀ checksum).own = ((net.stores svc.me).get H checksum).1 := hown.symm
    rw [hans]
    have hcall : svc.makeCall H reads repairs net (.local_get checksum) =
      net.setStore svc.me ((net.stores svc.me).get H checksum).2 := rfl
    generalize (net.stores svc.me).get H checksum = found at hcall ⊢
    obtain ⟨_ | v, store⟩ := found
    · simp only [List.foldl_cons, List.foldl_nil, hcall]
    · simp only [List.foldl_cons, List.foldl_nil, hcall]
  | cons t targets ih =>
    rw [List.map_cons, List.nodup_cons] at hn
    obtain ⟨hnt, hn⟩ := hn
    have hframe := (svc.ask_frame (H := H) reads checksum t net).2.2.2.2.1
    have hs' : ∀ x ∈ targets, (svc.ask H reads checksum net t).2.stores x.id = net₀.stores x.id := by
      intro x hx
      rw [hframe x.id fun he => hnt (he ▸ List.mem_map_of_mem hx)]
      exact hs x (List.mem_cons_of_mem _ hx)
    have hown' : (((svc.ask H reads checksum net t).2.stores svc.me).get H checksum).1 =
        ((net₀.stores svc.me).get H checksum).1 := by
      rw [← hown]
      cases hself : svc.is_self t with
      | true =>
        unfold ask
        rw [hself, if_pos rfl, Net.setStore_self]
        exact ChunkStore.get_again _ checksum
      | false => rw [hframe svc.me (svc.ne_me_of_not_self hself).symm]
    have hanswer : (svc.ask H reads checksum net t).1 = svc.answerOf (svc.answersIn H reads net₀ checksum) t := by
      rw [answerOf_answersIn]
      exact svc.ask_congr reads checksum t _ _ (hs t List.mem_cons_self)
    have hcall := svc.ask_eq_call H reads repairs checksum net t
    have hthrows := svc.ask_exception_iff (H := H) reads checksum t net
    rw [readLoop, readCalls, ← hanswer]
    generalize svc.ask H reads checksum net t = asked at hs' hown' hcall hthrows
    rcases asked with ⟨(e | -) | v, net'⟩
    · have hfailed' : ∀ f ∈ failed ++ [t], svc.is_self f = false → NodeClient.callable f = true := by
        intro f hf hself
        rcases List.mem_append.1 hf with hf | hf
        · exact hfailed f hf hself
        · obtain rfl := List.mem_singleton.1 hf
          by_contra hno
          cases hthrows.2 ⟨hself, by simpa using hno⟩
      dsimp only at hcall ⊢
      rw [ih hn _ _ hfailed' hs' hown', List.foldl_cons, ← hcall]
    · dsimp only at hcall ⊢
      rw [List.foldl_cons, ← hcall, List.foldl_nil]
    · dsimp only at hcall ⊢
      split
      · rw [List.foldl_cons, ← hcall, svc.repair_eq_calls H reads repairs checksum v hfailed]
        rfl
      · rw [ih hn _ _ hfailed hs' hown', List.foldl_cons, ← hcall]

/-- `get` of a cluster returns what its answers give, and its calls make the
net it leaves. -/
theorem get_eq_calls (hash64 : Str → Nat) (net : Net) (checksum : Str) :
    svc.get H hash64 reads repairs net checksum =
      ((svc.getCalls (svc.answersIn H reads net checksum) checksum (svc.targets hash64 net checksum)).1,
        (svc.getCalls (svc.answersIn H reads net checksum) checksum (svc.targets hash64 net checksum)).2.foldl
          (svc.makeCall H reads repairs) (svc.refresh_seed_members net)) :=
  svc.readLoop_eq_calls H reads repairs (svc.nodup_targets hash64 net checksum) 0 _
    (fun _ hf => absurd hf List.not_mem_nil) (fun _ _ => rfl) rfl

end Cluster

/-- A read succeeds when enough targets answer, or, for a quorum of one, when
the local store does. Through the targets it returns what the last one that
the quorum needs gave, and sends it to the targets that failed before that one;
else it sends nothing. In a cluster with this plan and these answers `get`
returns that and makes these calls. -/
theorem readCalls_spec (svc : DistributedChunkService) (own : Result Bytes) (peer : StorageNode → Result Bytes)
    (checksum : Str) (targets : List StorageNode) :
    ((svc.getCalls (.of own peer) checksum targets).1.isOk = true ↔
      max svc.read_quorum 1 ≤ (svc.answering (.of own peer) targets).length ∨ svc.read_quorum ≤ 1 ∧ own.isOk = true) ∧
    (max svc.read_quorum 1 ≤ (svc.answering (.of own peer) targets).length →
      ∃ before t after v, targets = before ++ t :: after ∧
        (svc.answering (.of own peer) (before ++ [t])).length = max svc.read_quorum 1 ∧
        svc.answerOf (.of own peer) t = .ok v ∧ (svc.getCalls (.of own peer) checksum targets).1 = .ok v ∧
        (svc.getCalls (.of own peer) checksum targets).2.filter ReadCall.isPut =
          (before.filter fun n => !(svc.answerOf (.of own peer) n).isOk).map (svc.repairCall checksum v)) ∧
    (¬ max svc.read_quorum 1 ≤ (svc.answering (.of own peer) targets).length →
      (∀ v, (svc.getCalls (.of own peer) checksum targets).1 = .ok v ↔ svc.read_quorum ≤ 1 ∧ own = .ok v) ∧
        (svc.getCalls (.of own peer) checksum targets).2.filter ReadCall.isPut = []) ∧
    ∀ (H : HexHash) (hash64 : Str → Nat) (reads repairs : StorageNode → Delivery) (net : Net),
      svc.targets hash64 net checksum = targets → ((net.stores svc.me).get H checksum).1 = own →
      (∀ t ∈ targets, svc.is_self t = false → (NodeClient.get_chunk H (reads t) net t checksum).1 = (peer t).lift) →
      svc.get H hash64 reads repairs net checksum =
        ((svc.getCalls (.of own peer) checksum targets).1,
          (svc.getCalls (.of own peer) checksum targets).2.foldl (svc.makeCall H reads repairs)
            (svc.refresh_seed_members net)) := by
  have hans : ∀ t ∈ targets, svc.answerOf (.of own peer) t ≠ .error .exception := by
    intro t _
    unfold answerOf ReadAnswers.of
    split
    · cases own <;> simp [Result.lift]
    · dsimp only
      cases peer t <;> simp [Result.lift]
  refine ⟨svc.getCalls_isOk_iff _ checksum hans, svc.getCalls_of_enough _ checksum hans,
    svc.getCalls_of_few _ checksum hans, ?_⟩
  rintro H hash64 reads repairs net rfl hown hpeer
  have hsame : ∀ t ∈ svc.targets hash64 net checksum,
      svc.answerOf (svc.answersIn H reads net checksum) t = svc.answerOf (.of own peer) t := by
    intro t ht
    unfold answerOf
    cases hself : svc.is_self t with
    | true => exact congrArg Result.lift hown
    | false => exact hpeer t ht hself
  rw [svc.get_eq_calls H reads repairs hash64 net checksum, getCalls, svc.readCalls_congr checksum hown hsame]
  rfl

end DistributedChunkService

end Dstore
