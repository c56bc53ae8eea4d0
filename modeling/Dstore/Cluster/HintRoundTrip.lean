import Dstore.Server.Routes
/-!
# What comes back from the handoff file

The writer separates fields by tabs and rows by newlines and escapes nothing,
while the reader splits at any white space. Whatever is in the file, a hint that
is loaded has an id and an address that are words (`load_plain`); so the hints
that were written come back exactly when theirs are (`hints_survive_iff`). Ids
come in over the network, from the body of a heartbeat, and any bytes go into
the view of the node.
-/

namespace Dstore

namespace HintedHandoffQueue

/-- A call that writes the queue. -/
inductive QueueCall where
  | enqueue (target : StorageNode) (chunk : ChunkRef)
  | replace (hints : List HandoffHint)
  deriving DecidableEq, Repr

/-- The hint that `enqueue` writes. -/
def hintOf (target : StorageNode) (chunk : ChunkRef) : HandoffHint := ⟨target.id, target.address, chunk.checksum, chunk.size⟩

/-- The file after a call that meets no fault. -/
def call (file : Option Str) : QueueCall → Option Str
  | .enqueue target chunk => (enqueue file none target chunk).2
  | .replace hints => (replace file none hints).2

/-- The hints after a call. -/
def pendingAfter (hints : List HandoffHint) : QueueCall → List HandoffHint
  | .enqueue target chunk => hints ++ [hintOf target chunk]
  | .replace hints => hints

/-- The hints of the last `replace`, and those enqueued since. -/
def pending (calls : List QueueCall) : List HandoffHint := calls.foldl pendingAfter []

/-- The file of a new queue after some calls. -/
def fileAfter (calls : List QueueCall) : Option Str := calls.foldl call none

theorem Contains.call {file : Option Str} {hints : List HandoffHint} (h : Contains file hints) (c : QueueCall) :
    Contains (HintedHandoffQueue.call file c) (pendingAfter hints c) := by
  cases c with
  | enqueue target chunk => exact h.enqueue target chunk
  | replace hints => rfl

/-- The file always holds the rows of the pending hints. -/
theorem contains_fileAfter (calls : List QueueCall) : Contains (fileAfter calls) (pending calls) := by
  have hrun : ∀ {file : Option Str} {hints : List HandoffHint}, Contains file hints →
      Contains (calls.foldl HintedHandoffQueue.call file) (calls.foldl pendingAfter hints) := by
    induction calls with
    | nil => exact id
    | cons c calls ih => exact fun h => ih (h.call c)
  exact hrun rfl

/-! ## What is loaded -/

theorem isspace_readWord {text : Str} {c : UInt8} (h : c ∈ (readWord text).1) : isspace c = false := by
  simpa using List.mem_takeWhile_imp h

/-- No word is left after an empty one. -/
theorem readWord_after_nil {text : Str} (h : (readWord text).1 = []) : (readWord (readWord text).2).1 = [] := by
  have hdrop : (text.dropWhile isspace).takeWhile (fun c => !isspace c) = [] := h
  rcases hrest : text.dropWhile isspace with _ | ⟨c, rest⟩
  · have hsnd : (readWord text).2 = [] := by
      rw [readWord, hrest]
      rfl
    rw [hsnd]
    rfl
  · -- what is left starts with no white space, so the word is not empty
    have hc : isspace c = false := by
      have hhead := List.head_dropWhile_not (p := isspace) (l := text) (by rw [hrest]; simp)
      simpa [hrest] using hhead
    rw [hrest, List.takeWhile_cons_of_pos (by simp [hc])] at hdrop
    cases hdrop

/-- A hint that is loaded has words for an id and an address. -/
theorem load_plain {file : Option Str} {hints : List HandoffHint} (h : load file = .ok hints) :
    ∀ hint ∈ hints, Plain hint.target_node_id ∧ Plain hint.target_address := by
  intro hint hmem
  cases file with
  | none =>
    obtain rfl : [] = hints := Except.ok.inj h
    cases hmem
  | some text =>
    rw [← Except.ok.inj h, List.mem_filter] at hmem
    obtain ⟨hline, hkept⟩ := hmem
    obtain ⟨line, -, rfl⟩ := List.mem_map.1 hline
    simp only [Bool.and_eq_true, decide_eq_true_eq] at hkept
    refine ⟨⟨hkept.1, fun c hc => isspace_readWord hc⟩, fun hnil => ?_, fun c hc => isspace_readWord hc⟩
    exact hkept.2 (readWord_after_nil hnil)

/-- The hints that were written come back as they are exactly when their ids and
addresses are words, their chunk references being those of the chunk store. -/
theorem hints_survive_iff (calls : List QueueCall)
    (hchunks : ∀ hint ∈ pending calls, Digest hint.checksum ∧ hint.size < 2 ^ 64) :
    load (fileAfter calls) = .ok (pending calls) ↔
      ∀ hint ∈ pending calls, Plain hint.target_node_id ∧ Plain hint.target_address := by
  constructor
  · exact load_plain
  · intro hplain
    refine (contains_fileAfter calls).load fun hint hmem => ?_
    exact ⟨(hplain hint hmem).1, (hplain hint hmem).2, .of_digest (hchunks hint hmem).1, (hchunks hint hmem).2⟩

/-- The reference of a chunk of two bytes. -/
def twoBytes : ChunkRef := ⟨Sha256.hexHash.hex (lit "ab"), 2⟩

/-- A rewritten queue and one more hint. -/
def rewritten : List QueueCall :=
  [.enqueue ⟨lit "b", lit "b:1", true⟩ twoBytes, .replace [⟨lit "c", lit "c:1", twoBytes.checksum, 2⟩],
    .enqueue ⟨lit "b", lit "remote", true⟩ twoBytes]

theorem rewritten_survives : (∀ hint ∈ pending rewritten, Digest hint.checksum ∧ hint.size < 2 ^ 64) ∧
    load (fileAfter rewritten) = .ok (pending rewritten) := by
  have hpending : pending rewritten = [⟨lit "c", lit "c:1", twoBytes.checksum, 2⟩,
    ⟨lit "b", lit "remote", twoBytes.checksum, 2⟩] :=
    rfl
  have hchunks : ∀ hint ∈ pending rewritten, Digest hint.checksum ∧ hint.size < 2 ^ 64 := by
    rw [hpending]
    intro hint hmem
    have hdigest := Sha256.hexHash.digest (lit "ab")
    rcases List.mem_cons.1 hmem with rfl | hmem
    · exact ⟨hdigest, by decide⟩
    · rw [List.mem_singleton.1 hmem]
      exact ⟨hdigest, by decide⟩
  refine ⟨hchunks, (hints_survive_iff rewritten hchunks).2 ?_⟩
  rw [hpending]
  intro hint hmem
  rcases List.mem_cons.1 hmem with rfl | hmem
  · decide +kernel
  · rw [List.mem_singleton.1 hmem]
    decide +kernel

/-- A node on its own. -/
def hermit : Server :=
  ⟨0, { self := .of (lit "a") (lit "a:1"), replication_factor := 1, write_quorum := 1, read_quorum := 1 }⟩

def spacedNode : StorageNode := ⟨lit "node b", lit "remote", true⟩

/-- The heartbeat of a node with a space in its id. -/
def spacedHeartbeat : HttpRequest where
  method := lit "POST"
  path := lit "/v1/heartbeat"
  headers := (∅ : AList fun _ : Str => Str).insert (lit "authorization") (lit "Bearer " ++ freshNet.token)
  body := lit "node b"

/-- It puts the node into the view, and a hint for that node does not come back. -/
theorem spaced_id_lost :
    spacedNode ∈ ((hermit.postHeartbeat spacedHeartbeat (World.start [])).2.net.views hermit.me).known_nodes ∧
      load (fileAfter [.enqueue spacedNode twoBytes]) ≠ .ok (pending [.enqueue spacedNode twoBytes]) := by
  constructor
  · have hauth : Server.authorized (World.start []).net.token spacedHeartbeat .kAdmin = .ok () :=
      Server.authorized_of_header _ (AList.lookup_insert _)
    simp only [Server.postHeartbeat, hauth, World.setNet_net, Net.setView_self]
    rw [ClusterState.known_heartbeat]
    decide +kernel
  · intro h
    have hid := (load_plain h (hintOf spacedNode twoBytes) (List.mem_singleton_self _)).1
    exact absurd hid (by decide +kernel)

end HintedHandoffQueue

end Dstore
