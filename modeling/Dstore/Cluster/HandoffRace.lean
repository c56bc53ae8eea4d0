import Dstore.Cluster.HandoffThreads
/-!
# No hint is lost

The rewrite of a replay puts back what it has loaded and not delivered, so a
hint that was noted after the load is gone (`noted_hint_overwritten`).
`no_hint_lost`: in every run in which a replay writes back only over hints that
it has loaded itself, or that are delivered, or that another replay still
holds, every accepted hint is in the file, delivered, or held by a replay.
-/
open Dstore.Lib

namespace Dstore.HandoffRace

/-! ## Files of whole rows -/

open HintedHandoffQueue (Contains Plainly)

section Invariant
variable {H : HexHash} {hash64 : Str → Nat} {svc : DistributedChunkService}

theorem inFile_iff {net : Net} {hints : List HandoffHint} (hc : Contains (net.queues svc.me) hints)
    (hp : ∀ h ∈ hints, Plainly h) (h : HandoffHint) : InFile svc net h ↔ h ∈ hints := by
  unfold InFile
  rw [hc.load hp]
  constructor
  · rintro ⟨hints', heq, hh⟩
    cases heq
    exact hh
  · intro hh
    exact ⟨hints, rfl, hh⟩

/-- A note that is not cut short adds its row or nothing, and its row when it
returns ok. -/
theorem enqueue_whole {file : Option Str} {hints : List HandoffHint} (hc : Contains file hints) {node : StorageNode}
    {ref : ChunkRef} {fault : Option HintedHandoffQueue.Fault}
    (hf : WholeRow (HintedHandoffQueue.row (Handoff.hintFor node ref)) fault) :
    ∃ more, Contains (HintedHandoffQueue.enqueue file fault node ref).2 (hints ++ more) ∧
      (∀ h ∈ more, h = Handoff.hintFor node ref) ∧
      (Result.isOk (HintedHandoffQueue.enqueue file fault node ref).1 = true → Handoff.hintFor node ref ∈ more) := by
  have hnothing : ∀ text, text = file.getD [] → Contains (some text) (hints ++ []) := by
    intro text ht
    rw [List.append_nil, ht]
    exact hc
  have hall : Contains (some (file.getD [] ++ HintedHandoffQueue.row (Handoff.hintFor node ref)))
      (hints ++ [Handoff.hintFor node ref]) := hc.enqueue node ref
  cases fault with
  | none => exact ⟨_, hall, by simp, by simp⟩
  | some fault =>
    cases fault with
    | cannotOpen => exact ⟨[], by rw [List.append_nil]; exact hc, by simp, by simp [HintedHandoffQueue.enqueue, Result.isOk]⟩
    | cannotAppend n =>
      rcases hf with rfl | hlen
      · refine ⟨[], hnothing _ (by simp), by simp, by simp [HintedHandoffQueue.enqueue, Result.isOk]⟩
      · refine ⟨[Handoff.hintFor node ref], ?_, by simp, by simp⟩
        rw [← List.take_of_length_le hlen] at hall
        exact hall
    | cannotFlush n =>
      refine ⟨[Handoff.hintFor node ref], ?_, by simp, by simp⟩
      rw [← List.take_of_length_le hf] at hall
      exact hall

/-- A safe rewrite leaves the file as it was, or writes all that remains. -/
theorem replace_whole {w : World} {i : Nat} {loaded remaining : List HandoffHint} {fault : Option HintedHandoffQueue.Fault}
    (hs : SafeRewrite svc w i loaded remaining fault) (file : Option Str) :
    (fault = some .cannotOpen ∧ (HintedHandoffQueue.replace file fault remaining).2 = file) ∨
      (Covers svc w i loaded ∧
        (HintedHandoffQueue.replace file fault remaining).2 = some (remaining.flatMap HintedHandoffQueue.row)) := by
  cases fault with
  | none => exact .inr ⟨hs, rfl⟩
  | some fault =>
    cases fault with
    | cannotOpen => exact .inl ⟨rfl, rfl⟩
    | cannotAppend n => exact .inr ⟨hs.2, congrArg some (List.take_of_length_le hs.1)⟩
    | cannotFlush n => exact .inr ⟨hs.2, congrArg some (List.take_of_length_le hs.1)⟩

/-! ## The hints a replay holds -/

/-- Of the hints a replay has loaded, each is still to be read, or remains, or
is delivered. -/
structure Accounts (delivered loaded rest remaining : List HandoffHint) : Prop where
  plain : ∀ h ∈ loaded, Plainly h
  covers : ∀ h ∈ loaded, h ∈ rest ∨ h ∈ remaining ∨ h ∈ delivered
  rest_loaded : ∀ h ∈ rest, h ∈ loaded
  remaining_loaded : ∀ h ∈ remaining, h ∈ loaded

section Accounts
variable {delivered loaded rest remaining : List HandoffHint} {hint : HandoffHint}

theorem Accounts.mono (h : Accounts delivered loaded rest remaining) (more : List HandoffHint) :
    Accounts (delivered ++ more) loaded rest remaining where
  plain := h.plain
  covers x hx := by
    rcases h.covers x hx with hr | hr | hd
    · exact .inl hr
    · exact .inr (.inl hr)
    · exact .inr (.inr (List.mem_append_left _ hd))
  rest_loaded := h.rest_loaded
  remaining_loaded := h.remaining_loaded

theorem Accounts.remains (h : Accounts delivered loaded (hint :: rest) remaining) :
    Accounts delivered loaded rest (remaining ++ [hint]) where
  plain := h.plain
  covers x hx := by
    rcases h.covers x hx with hr | hr | hd
    · rcases List.mem_cons.1 hr with rfl | hr
      · exact .inr (.inl (by simp))
      · exact .inl hr
    · exact .inr (.inl (List.mem_append_left _ hr))
    · exact .inr (.inr hd)
  rest_loaded x hx := h.rest_loaded x (List.mem_cons_of_mem _ hx)
  remaining_loaded x hx := by
    rcases List.mem_append.1 hx with hx | hx
    · exact h.remaining_loaded x hx
    · rw [List.mem_singleton.1 hx]
      exact h.rest_loaded hint List.mem_cons_self

theorem Accounts.sent (h : Accounts delivered loaded (hint :: rest) remaining) :
    Accounts (delivered ++ [hint]) loaded rest remaining where
  plain := h.plain
  covers x hx := by
    rcases h.covers x hx with hr | hr | hd
    · rcases List.mem_cons.1 hr with rfl | hr
      · exact .inr (.inr (by simp))
      · exact .inl hr
    · exact .inr (.inl hr)
    · exact .inr (.inr (List.mem_append_left _ hd))
  rest_loaded x hx := h.rest_loaded x (List.mem_cons_of_mem _ hx)
  remaining_loaded := h.remaining_loaded

end Accounts

/-- What a thread knows: a put has the checksum of its chunk, a replay accounts
for its hints. -/
def Thread.Good (delivered : List HandoffHint) : Thread → Prop
  | .putPlan ref _ | .putSend ref _ _ _ | .putNote _ ref _ _ _ => Digest ref.checksum ∧ ref.size < 2 ^ 64
  | .replayRead loaded rest _ remaining => Accounts delivered loaded rest remaining
  | .replaySend hint _ loaded rest _ remaining => Accounts delivered loaded (hint :: rest) remaining
  | _ => True

theorem Thread.Good.mono {delivered : List HandoffHint} {th : Thread} (h : th.Good delivered) (more : List HandoffHint) :
    th.Good (delivered ++ more) := by
  cases th with
  | replayRead loaded rest n remaining => exact Accounts.mono h more
  | replaySend hint bytes loaded rest n remaining => exact Accounts.mono h more
  | _ => exact h

/-- Every step leaves a good thread. -/
theorem Thread.Good.step {delivered : List HandoffHint} {th : Thread} (h : th.Good delivered) (fate : Fate) {net : Net}
    {hints : List HandoffHint} (hc : Contains (net.queues svc.me) hints) (hp : ∀ x ∈ hints, Plainly x) :
    (th.step H hash64 svc fate net).1.Good (delivered ++ th.delivers H fate net) := by
  cases th with
  | putStart bytes => trivial
  | putLocal bytes =>
    simp only [Thread.step]
    rcases (net.stores svc.me).put_cases H fate.disk bytes with ⟨-, s', heq, -⟩ | ⟨-, -, e, s', heq, -⟩
    · rw [heq]
      exact ⟨H.digest bytes, Nat.mod_lt _ (by decide)⟩
    · rw [heq]
      trivial
  | putPlan ref bytes => exact h
  | putSend ref bytes targets acks =>
    cases targets with
    | nil => trivial
    | cons node rest =>
      simp only [Thread.step]
      split
      · exact h
      · split
        · exact h
        · trivial
        · split <;> exact h
  | putNote node ref bytes rest acks => exact h
  | putDone result => trivial
  | replayStart =>
    simp only [Thread.step, hc.load hp]
    split
    · exact ⟨hp, fun x hx => .inl hx, fun x hx => hx, by simp⟩
    · trivial
  | replayRead loaded rest n remaining =>
    cases rest with
    | nil =>
      simp only [Thread.step]
      split <;> trivial
    | cons hint rest =>
      have h : Accounts delivered loaded (hint :: rest) remaining := h
      simp only [Thread.step, Thread.delivers, List.append_nil]
      split
      · exact h.remains
      · exact h
  | replaySend hint bytes loaded rest n remaining =>
    have h : Accounts delivered loaded (hint :: rest) remaining := h
    simp only [Thread.step, Thread.delivers]
    rcases NodeClient.put_chunk H fate.delivery net (targetOf hint) ⟨hint.checksum, hint.size⟩ bytes with ⟨(status | -) | u, net'⟩
    · rw [if_neg (by simp [Outcome.isOk]), List.append_nil]
      exact h.remains
    · trivial
    · exact h.sent
  | replayDone result => trivial

/-- The thread is about to write the queue file. -/
def Thread.writes : Thread → Bool
  | .putNote _ _ _ _ _ => true
  | .replayRead _ [] _ _ => true
  | _ => false

/-- The thread is about to call a node whose address throws, in a replay. -/
def Thread.throws : Thread → Bool
  | .replaySend hint _ _ _ _ _ => !NodeClient.callable (targetOf hint)
  | _ => false

/-- Any other step leaves the file, accepts nothing and lets go of nothing. -/
theorem Thread.step_quiet {th : Thread} (h : th.writes = false) (ht : th.throws = false) (fate : Fate) (net : Net) :
    (th.step H hash64 svc fate net).2.queues = net.queues ∧ th.accepts svc fate net = [] ∧
      ∀ x ∈ th.loaded, x ∈ (th.step H hash64 svc fate net).1.loaded := by
  cases th with
  | putStart bytes => exact ⟨rfl, rfl, fun x hx => hx⟩
  | putLocal bytes =>
    simp only [Thread.step]
    split <;> exact ⟨rfl, rfl, fun x hx => hx⟩
  | putPlan ref bytes => exact ⟨rfl, rfl, fun x hx => hx⟩
  | putSend ref bytes targets acks =>
    cases targets with
    | nil => exact ⟨rfl, rfl, fun x hx => hx⟩
    | cons node rest =>
      have hq := (NodeClient.put_chunk_frame (H := H) fate.delivery net node ref bytes).2.1
      simp only [Thread.step]
      split
      · exact ⟨rfl, rfl, fun x hx => hx⟩
      · generalize NodeClient.put_chunk H fate.delivery net node ref bytes = call at hq
        rcases call with ⟨(status | -) | u, net'⟩ <;> exact ⟨hq, rfl, fun x hx => by cases hx⟩
  | putNote node ref bytes rest acks => cases h
  | putDone result => exact ⟨rfl, rfl, fun x hx => hx⟩
  | replayStart =>
    simp only [Thread.step]
    split
    · split <;> exact ⟨rfl, rfl, fun x hx => by cases hx⟩
    · exact ⟨rfl, rfl, fun x hx => by cases hx⟩
  | replayRead loaded rest n remaining =>
    cases rest with
    | nil => cases h
    | cons hint rest =>
      simp only [Thread.step]
      split <;> exact ⟨rfl, rfl, fun x hx => hx⟩
  | replaySend hint bytes loaded rest n remaining =>
    have hq := (NodeClient.put_chunk_frame (H := H) fate.delivery net (targetOf hint)
      ⟨hint.checksum, hint.size⟩ bytes).2.1
    have hcall : NodeClient.callable (targetOf hint) = true := by simpa [Thread.throws] using ht
    have hreturns : (NodeClient.put_chunk H fate.delivery net (targetOf hint) ⟨hint.checksum, hint.size⟩ bytes).1 ≠
        .error .exception := NodeClient.put_chunk_returns _ _ hcall _ _
    simp only [Thread.step]
    generalize NodeClient.put_chunk H fate.delivery net (targetOf hint) ⟨hint.checksum, hint.size⟩ bytes = call at hq hreturns
    rcases call with ⟨(status | -) | u, net'⟩
    · exact ⟨hq, rfl, fun x hx => hx⟩
    · exact absurd rfl hreturns
    · exact ⟨hq, rfl, fun x hx => hx⟩
  | replayDone result => exact ⟨rfl, rfl, fun x hx => hx⟩

/-! ## Steps among others -/

structure Inv (svc : DistributedChunkService) (w : World) : Prop where
  queue : ∃ hints, Contains (w.net.queues svc.me) hints ∧ ∀ h ∈ hints, Plainly h
  threads : ∀ th ∈ w.threads, th.Good w.delivered
  kept : Kept svc w

/-- A hint that a thread holds is held by thread `i` or beside it. -/
theorem held_cases {w : World} {i : Nat} {th : Thread} (hi : w.threads[i]? = some th) {h : HandoffHint}
    (hh : ∃ x ∈ w.threads, h ∈ x.loaded) : h ∈ th.loaded ∨ HeldBeside w i h := by
  obtain ⟨x, hx, hh⟩ := hh
  obtain ⟨j, hj⟩ := List.mem_iff_getElem?.1 hx
  by_cases hij : j = i
  · rw [hij, hi] at hj
    cases hj
    exact .inl hh
  · exact .inr ⟨j, x, hij, hj, hh⟩

/-- What is held beside thread `i` stays held when it moves on. -/
theorem HeldBeside.set {w : World} {i : Nat} {h : HandoffHint} (hh : HeldBeside w i h) (th' : Thread) :
    ∃ x ∈ w.threads.set i th', h ∈ x.loaded := by
  obtain ⟨j, x, hij, hj, hh⟩ := hh
  refine ⟨x, List.mem_of_getElem? (i := j) ?_, hh⟩
  rw [List.getElem?_set_ne (Ne.symm hij)]
  exact hj

theorem mem_set_self {w : World} {i : Nat} {th : Thread} (hi : w.threads[i]? = some th) (th' : Thread) :
    th' ∈ w.threads.set i th' :=
  List.mem_set (List.getElem?_eq_some_iff.1 hi).1 th'

theorem threads_set {w : World} (hw : Inv svc w) (i : Nat) {th' : Thread} {more : List HandoffHint}
    (hg : th'.Good (w.delivered ++ more)) : ∀ x ∈ w.threads.set i th', x.Good (w.delivered ++ more) := by
  intro x hx
  rcases List.mem_or_eq_of_mem_set hx with hx | rfl
  · exact (hw.threads x hx).mono more
  · exact hg

/-- Where an accepted hint is, seen from thread `i`. -/
theorem Inv.located {w : World} (hw : Inv svc w) {i : Nat} {th : Thread} (hi : w.threads[i]? = some th) {h : HandoffHint}
    (hh : h ∈ w.accepted) : InFile svc w.net h ∨ h ∈ w.delivered ∨ h ∈ th.loaded ∨ HeldBeside w i h := by
  rcases hw.kept h hh with hf | hd | hheld
  · exact .inl hf
  · exact .inr (.inl hd)
  · exact .inr (.inr (held_cases hi hheld))

theorem InFile.congr {net net' : Net} {h : HandoffHint} (hf : InFile svc net h)
    (hq : net'.queues svc.me = net.queues svc.me) : InFile svc net' h := by
  unfold InFile at hf ⊢
  rw [hq]
  exact hf

/-- A step that lets go of nothing keeps every hint. -/
theorem Inv.quiet {w : World} (hw : Inv svc w) {i : Nat} {th th' : Thread} (hi : w.threads[i]? = some th) {net : Net}
    {more : List HandoffHint} (hq : net.queues = w.net.queues) (hl : ∀ h ∈ th.loaded, h ∈ th'.loaded)
    (hg : th'.Good (w.delivered ++ more)) : Inv svc ⟨net, w.threads.set i th', w.accepted ++ [], w.delivered ++ more⟩ where
  queue := by
    rw [hq]
    exact hw.queue
  threads := threads_set hw i hg
  kept := by
    intro h hh
    rw [List.append_nil] at hh
    rcases hw.located hi hh with hf | hd | hown | hbeside
    · exact .inl (hf.congr (by rw [hq]))
    · exact .inr (.inl (List.mem_append_left _ hd))
    · exact .inr (.inr ⟨th', mem_set_self hi th', hl h hown⟩)
    · exact .inr (.inr (hbeside.set th'))

/-- A note adds its hint to the file. -/
theorem Inv.note {w : World} (hw : Inv svc w) {i : Nat} {node : StorageNode} {ref : ChunkRef} {bytes : Bytes}
    {rest : List StorageNode} {acks : Int} (hi : w.threads[i]? = some (.putNote node ref bytes rest acks)) {fate : Fate}
    (hnode : Handoff.PlainNode node) (hrow : WholeRow (HintedHandoffQueue.row (Handoff.hintFor node ref)) fate.queue) :
    Inv svc ⟨w.net.setQueue svc.me (HintedHandoffQueue.enqueue (w.net.queues svc.me) fate.queue node ref).2,
      w.threads.set i (.putSend ref bytes rest acks),
        w.accepted ++ (Thread.putNote node ref bytes rest acks).accepts svc fate w.net,
      w.delivered ++ []⟩ := by
  have hgood : Digest ref.checksum ∧ ref.size < 2 ^ 64 := hw.threads _ (List.mem_of_getElem? hi)
  obtain ⟨hints, hc, hp⟩ := hw.queue
  obtain ⟨more, hc', hmore, hok⟩ := enqueue_whole hc hrow
  have hp' : ∀ h ∈ hints ++ more, Plainly h := by
    intro h hh
    rcases List.mem_append.1 hh with hh | hh
    · exact hp h hh
    · rw [hmore h hh]
      exact ⟨hnode.1, hnode.2, .of_digest hgood.1, hgood.2⟩
  rw [← w.net.setQueue_self svc.me (HintedHandoffQueue.enqueue (w.net.queues svc.me) fate.queue node ref).2] at hc'
  refine ⟨⟨_, hc', hp'⟩, threads_set hw i hgood, ?_⟩
  intro h hh
  rcases List.mem_append.1 hh with hh | hh
  · rcases hw.located hi hh with hf | hd | hown | hbeside
    · exact .inl ((inFile_iff hc' hp' h).2 (List.mem_append_left _ ((inFile_iff hc hp h).1 hf)))
    · exact .inr (.inl (List.mem_append_left _ hd))
    · cases hown
    · exact .inr (.inr (hbeside.set _))
  · simp only [Thread.accepts] at hh
    split at hh
    · rename_i hisok
      rw [List.mem_singleton.1 hh]
      exact .inl ((inFile_iff hc' hp' _).2 (List.mem_append_right _ (hok hisok)))
    · cases hh

/-- A step that leaves the file, by a replay whose hints are all known
elsewhere. -/
theorem Inv.lets_go {w : World} (hw : Inv svc w) {i : Nat} {th th' : Thread} (hi : w.threads[i]? = some th)
    (hs : LetsGo svc w i th.loaded) {net : Net} (hsame : net.queues svc.me = w.net.queues svc.me)
    (hth' : th'.Good (w.delivered ++ [])) : Inv svc ⟨net, w.threads.set i th', w.accepted ++ [], w.delivered ++ []⟩ := by
  refine ⟨?_, threads_set hw i hth', ?_⟩
  · rw [hsame]
    exact hw.queue
  · intro h hh
    rw [List.append_nil] at hh
    have hknown : InFile svc w.net h ∨ h ∈ w.delivered ∨ HeldBeside w i h := by
      rcases hw.located hi hh with hf | hd | hown | hbeside
      · exact .inl hf
      · exact .inr (.inl hd)
      · exact hs h hh hown
      · exact .inr (.inr hbeside)
    rcases hknown with hf | hd | hbeside
    · exact .inl (hf.congr hsame)
    · exact .inr (.inl (List.mem_append_left _ hd))
    · exact .inr (.inr (hbeside.set th'))

/-- A rewrite over hints that are all covered. -/
theorem Inv.rewrite_done {w : World} (hw : Inv svc w) {i : Nat} {loaded remaining : List HandoffHint} {n : Int}
    {th' : Thread}
    (hi : w.threads[i]? = some (.replayRead loaded [] n remaining)) (hcovers : Covers svc w i loaded)
    (hth' : th'.Good (w.delivered ++ [])) :
    Inv svc ⟨w.net.setQueue svc.me (some (remaining.flatMap HintedHandoffQueue.row)), w.threads.set i th', w.accepted ++ [],
      w.delivered ++ []⟩ := by
  have hacc : Accounts w.delivered loaded [] remaining := hw.threads _ (List.mem_of_getElem? hi)
  have hp' : ∀ h ∈ remaining, Plainly h := fun h hh => hacc.plain h (hacc.remaining_loaded h hh)
  have hc' : Contains ((w.net.setQueue svc.me (some (remaining.flatMap HintedHandoffQueue.row))).queues svc.me) remaining := by
    rw [Net.setQueue_self]
    rfl
  refine ⟨⟨remaining, hc', hp'⟩, threads_set hw i hth', ?_⟩
  intro h hh
  rw [List.append_nil] at hh
  have hknown : h ∈ loaded ∨ h ∈ w.delivered ∨ HeldBeside w i h := by
    rcases hw.located hi hh with hf | hd | hown | hbeside
    · exact hcovers h hh hf
    · exact .inr (.inl hd)
    · exact .inl hown
    · exact .inr (.inr hbeside)
  rcases hknown with hload | hd | hbeside
  · -- what the replay has loaded is delivered or goes back
    rcases hacc.covers h hload with hnil | hrem | hd
    · cases hnil
    · exact .inl ((inFile_iff hc' hp' h).2 hrem)
    · exact .inr (.inl (List.mem_append_left _ hd))
  · exact .inr (.inl (List.mem_append_left _ hd))
  · exact .inr (.inr (hbeside.set th'))

/-- A safe rewrite keeps every hint. -/
theorem Inv.rewrite {w : World} (hw : Inv svc w) {i : Nat} {loaded remaining : List HandoffHint} {n : Int}
    (hi : w.threads[i]? = some (.replayRead loaded [] n remaining)) {fault : Option HintedHandoffQueue.Fault}
    (hs : SafeRewrite svc w i loaded remaining fault) (th' : Thread) (hth' : th'.Good (w.delivered ++ [])) :
    Inv svc ⟨w.net.setQueue svc.me (HintedHandoffQueue.replace (w.net.queues svc.me) fault remaining).2, w.threads.set i th',
      w.accepted ++ [], w.delivered ++ []⟩ := by
  rcases replace_whole hs (w.net.queues svc.me) with ⟨rfl, hfile⟩ | ⟨hcovers, hfile⟩
  · exact hw.lets_go hi hs (Net.setQueue_self _ _ _) hth'
  · rw [hfile]
    exact hw.rewrite_done hi hcovers hth'

/-- A new call holds nothing yet. -/
theorem Inv.started {w : World} (hw : Inv svc w) {th : Thread} (hg : th.Good w.delivered) :
    Inv svc { w with threads := w.threads ++ [th] } where
  queue := hw.queue
  threads x hx := by
    rcases List.mem_append.1 hx with hx | hx
    · exact hw.threads x hx
    · rw [List.mem_singleton.1 hx]
      exact hg
  kept h hh := by
    rcases hw.kept h hh with hf | hd | ⟨x, hx, hl⟩
    · exact .inl hf
    · exact .inr (.inl hd)
    · exact .inr (.inr ⟨x, List.mem_append_left _ hx, hl⟩)

theorem exec_step {w : World} {i : Nat} {th : Thread} (hi : w.threads[i]? = some th) (fate : Fate) :
    exec H hash64 svc w (.step i fate) = ⟨(th.step H hash64 svc fate w.net).2,
      w.threads.set i (th.step H hash64 svc fate w.net).1, w.accepted ++ th.accepts svc fate w.net,
      w.delivered ++ th.delivers H fate w.net⟩ := by
  simp only [exec, hi]

theorem Inv.step {w : World} (hw : Inv svc w) {i : Nat} {fate : Fate} (hs : Safe svc w (.step i fate)) {th : Thread}
    (hi : w.threads[i]? = some th) : Inv svc (exec H hash64 svc w (.step i fate)) := by
  obtain ⟨hints, hc, hp⟩ := hw.queue
  have hgood : (th.step H hash64 svc fate w.net).1.Good (w.delivered ++ th.delivers H fate w.net) :=
    (hw.threads th (List.mem_of_getElem? hi)).step fate hc hp
  have hquiet : th.writes = false → th.throws = false → Inv svc (exec H hash64 svc w (.step i fate)) := by
    intro hwrites hthrows
    obtain ⟨hq, hacc, hl⟩ : (th.step H hash64 svc fate w.net).2.queues = w.net.queues ∧ _ ∧ _ :=
      Thread.step_quiet hwrites hthrows fate w.net
    rw [exec_step hi, hacc]
    exact hw.quiet hi hq hl hgood
  cases th with
  | putNote node ref bytes rest acks =>
    obtain ⟨hnode, hrow⟩ := hs _ hi
    rw [exec_step hi]
    exact hw.note hi hnode hrow
  | replayRead loaded rest n remaining =>
    cases rest with
    | cons hint rest => exact hquiet rfl rfl
    | nil =>
      rw [exec_step hi]
      have hnet : (Thread.step H hash64 svc fate (.replayRead loaded [] n remaining) w.net).2 =
          w.net.setQueue svc.me (HintedHandoffQueue.replace (w.net.queues svc.me) fate.queue remaining).2 := by
        simp only [Thread.step]
        rcases HintedHandoffQueue.replace (w.net.queues svc.me) fate.queue remaining with ⟨r, file⟩
        cases r with
        | error status => rfl
        | ok u => rfl
      rw [hnet]
      exact hw.rewrite hi (hs _ hi) _ hgood
  | replaySend hint bytes loaded rest n remaining =>
    cases hcall : NodeClient.callable (Thread.targetOf hint) with
    | true => exact hquiet rfl (by simp [Thread.throws, hcall])
    | false =>
      have hthrown := NodeClient.put_chunk_exception (H := H) fate.delivery w.net hcall
        ⟨hint.checksum, hint.size⟩ bytes
      have hletsgo : LetsGo svc w i loaded := (hs _ hi).resolve_left (by simp [hcall])
      rw [exec_step hi]
      simp only [Thread.step, Thread.delivers, hthrown]
      exact hw.lets_go hi hletsgo rfl trivial
  | _ => exact hquiet rfl rfl

theorem Inv.exec {w : World} (hw : Inv svc w) {e : Event} (hs : Safe svc w e) : Inv svc (exec H hash64 svc w e) := by
  cases e with
  | put bytes => exact hw.started trivial
  | replay => exact hw.started trivial
  | tick now => exact ⟨hw.queue, hw.threads, hw.kept⟩
  | step i fate =>
    cases hi : w.threads[i]? with
    | none =>
      have hsame : HandoffRace.exec H hash64 svc w (.step i fate) = w := by simp only [HandoffRace.exec, hi]
      rw [hsame]
      exact hw
    | some th => exact hw.step hs hi

end Invariant

/-- In every run of puts and replays whose steps are safe, from a queue file of
plain hints, every accepted hint is in the file, delivered, or loaded by a
replay in progress. -/
theorem no_hint_lost (H : HexHash) (hash64 : Str → Nat) (svc : DistributedChunkService) (net : Net)
    (hints : List HandoffHint)
    (hfile : Contains (net.queues svc.me) hints) (hplain : ∀ h ∈ hints, Plainly h)
    (r : Run (Guarded (Safe svc) fun w e w' => w' = exec H hash64 svc w e) ⟨net, [], hints, []⟩) (t : Nat) :
    Kept svc (r.state t) := by
  have hinit : Inv svc ⟨net, [], hints, []⟩ :=
    ⟨⟨hints, hfile, hplain⟩, by simp, fun h hh => .inl ((inFile_iff hfile hplain h).2 hh)⟩
  refine (r.inv (Inv svc) hinit ?_ t).kept
  rintro w e w' hw ⟨hs, rfl⟩
  exact hw.exec hs

/-- Node A of three puts a chunk while node C is down, up to the note. -/
def missedByC : List Event :=
  [.put (lit "abc"), .step 0 {}, .step 0 {}, .step 0 {}, .step 0 { delivery := .refused }]

/-- The hint is noted, and then a replay delivers it. -/
def notedThenReplayed : List Event :=
  missedByC ++ [.step 0 {}, .replay, .step 1 {}, .step 1 {}, .step 1 {}, .step 1 {}]

/-- The hint is noted after a replay has loaded the file and before it writes
back. -/
def notedDuringReplay : List Event := missedByC ++ [.replay, .step 1 {}, .step 0 {}, .step 1 {}]

theorem notedThenReplayed_safe : Run.Legal (Safe DistributedChunkService.trioA)
    (exec Sha256.hexHash sixthByte DistributedChunkService.trioA) ⟨freshNet, [], [], []⟩ notedThenReplayed := by
  rw [Sha256.hexHash_eq]
  decide +kernel

/-- The state after `t` events of `notedThenReplayed`. -/
def replayed (t : Nat) : World :=
  Run.stateAfter (exec Sha256.hexHash sixthByte DistributedChunkService.trioA) ⟨freshNet, [], [], []⟩ notedThenReplayed t

theorem notedThenReplayed_eq : (replayed 6).accepted.map (·.target_node_id) = [lit "node-c"] ∧ (replayed 6).delivered = [] ∧
    (replayed 11).delivered = (replayed 6).accepted := by
  rw [replayed, replayed, Sha256.hexHash_eq]
  decide +kernel

/-- The hint for node C is accepted, and delivered when the replay is done. -/
theorem noted_then_replayed :
    ∃ r : Run (Guarded (Safe DistributedChunkService.trioA) fun w e w' =>
        w' = exec Sha256.hexHash sixthByte DistributedChunkService.trioA w e) ⟨freshNet, [], [], []⟩,
      (r.state 6).accepted.map (·.target_node_id) = [lit "node-c"] ∧ (r.state 6).delivered = [] ∧
      (r.state 11).delivered = (r.state 6).accepted ∧ Kept DistributedChunkService.trioA (r.state 6) ∧
      Kept DistributedChunkService.trioA (r.state 11) := by
  obtain ⟨haccepted, hnone, hdelivered⟩ := notedThenReplayed_eq
  refine ⟨Run.ofEvents _ _ _ notedThenReplayed_safe, haccepted, hnone, hdelivered, ?_, ?_⟩
  · exact no_hint_lost Sha256.hexHash sixthByte DistributedChunkService.trioA freshNet [] rfl (by simp) _ 6
  · exact no_hint_lost Sha256.hexHash sixthByte DistributedChunkService.trioA freshNet [] rfl (by simp) _ 11

/-- The state after `notedDuringReplay`. -/
def overwritten : World :=
  Run.stateAfter (exec Sha256.hexHash sixthByte DistributedChunkService.trioA) ⟨freshNet, [], [], []⟩ notedDuringReplay 9

theorem overwritten_eq : overwritten.accepted.map (·.target_node_id) = [lit "node-c"] ∧
    overwritten.net.queues DistributedChunkService.trioA.me = some [] ∧ overwritten.delivered = [] ∧
    ∀ th ∈ overwritten.threads, th.loaded = [] := by
  rw [overwritten, Sha256.hexHash_eq]
  decide +kernel

/-- The rewrite takes the hint for node C out of the file. -/
theorem noted_hint_overwritten :
    ∃ r : Run (fun w e w' => w' = exec Sha256.hexHash sixthByte DistributedChunkService.trioA w e) ⟨freshNet, [], [], []⟩,
      ¬ Kept DistributedChunkService.trioA (r.state 9) := by
  refine ⟨Run.ofList _ _ notedDuringReplay, ?_⟩
  obtain ⟨hacc, hfile, hdel, hheld⟩ := overwritten_eq
  have hstate : Run.stateAfter (exec Sha256.hexHash sixthByte DistributedChunkService.trioA) ⟨freshNet, [], [], []⟩
      notedDuringReplay 9 = overwritten := by
    unfold overwritten
    rfl
  rw [Run.ofList_state, hstate]
  obtain ⟨h, hh, -⟩ : ∃ h ∈ overwritten.accepted, h.target_node_id = lit "node-c" :=
    List.mem_map.1 (by rw [hacc]; exact List.mem_singleton.2 rfl)
  intro hkept
  rcases hkept h hh with ⟨hints, hload, hin⟩ | hd | ⟨th, hth, hl⟩
  · rw [hfile] at hload
    cases hload
    cases hin
  · rw [hdel] at hd
    cases hd
  · rw [hheld th hth] at hl
    cases hl

end Dstore.HandoffRace
