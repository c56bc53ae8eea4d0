import Dstore.Durability.Replay
import Dstore.Lib.Runs
import Dstore.Server.Config
/-!
# Starting a node again

`main` of `server/main.cpp` up to the socket that it listens on, and the lives
of a node: a process that is started, appends to the log, and may go down in the
middle of a record.

`replay` refuses a record that is cut short, and `append` writes on behind a
record that lacks its newline. Nothing repairs a log, so there is an exact
account of the nodes that start, and one that does not start never will
(`node_starts_iff`).
-/
open Dstore.Lib

namespace Dstore

open WriteAheadLog (entry text replay open_log Clean)

namespace Startup

/-- The option loop, over the arguments after the name of the program. -/
def cfg_path : List Str → Str → Str
  | arg :: value :: rest, path => cfg_path (value :: rest) (if arg = lit "--config" then value else path)
  | _, path => path

/-- What `main` finds outside the process. -/
structure Environment where
  /-- What can be read of a configuration file. -/
  file : Str → Option Str
  /-- `MetadataStore::open`. -/
  metadata : Result Unit := .ok ()
  /-- The log cannot be opened. -/
  wal_fault : Bool := false
  /-- The socket of `HttpServer::run`. -/
  listening : Result Unit := .ok ()

inductive Outcome where
  /-- The message is logged, and the exit code is 1. -/
  | exits (component message : Str)
  | serves (server : Server) (wal : WriteAheadLog) (replayed : List WalRecord)

section Defs
variable (H : LineHash) (args : List Str)

/-- The outcome `none` is an exception. -/
def main (env : Environment) (wal_file : Option Str) : Option Outcome :=
  let path := cfg_path args (lit "config/dev.toml")
  match Config.load_config path (env.file path) with
  | none => none
  | some (.error status) => some (.exits (lit "server") status.message)
  | some (.ok cfg) =>
    match env.metadata with
    | .error status => some (.exits (lit "metadata") status.message)
    | .ok () =>
      match open_log wal_file env.wal_fault with
      | (.error status, _) => some (.exits (lit "wal") status.message)
      | (.ok (), wal) =>
        match replay H (some wal.file) with
        | none => none
        | some (.error status) => some (.exits (lit "wal") status.message)
        | some (.ok replayed) =>
          match env.listening with
          | .error status => some (.exits (lit "server") status.message)
          | .ok () => some (.serves (.ofConfig cfg) wal replayed)

/-- Nothing but the log can keep `main` from serving. -/
structure Ready (env : Environment) (cfg : Config) : Prop where
  config : Config.load_config (cfg_path args (lit "config/dev.toml")) (env.file (cfg_path args (lit "config/dev.toml"))) =
    some (.ok cfg)
  metadata : env.metadata = .ok ()
  wal : env.wal_fault = false
  listening : env.listening = .ok ()

/-- What an append has left in the log: so many bytes of its line. -/
structure Trace where
  record : WalRecord
  bytes : Nat
  deriving DecidableEq

/-- A node, whether its process runs or not. -/
structure Node where
  log : WriteAheadLog := {}
  running : Bool := false
  /-- The appends that have left anything. -/
  written : List Trace := []
  /-- The records of the appends that succeeded. -/
  acknowledged : List WalRecord := []

inductive Event where
  | start (env : Environment)
  /-- A handler appends to the log; what it logs has no separators in it. -/
  | append (fault : Option Nat) (record : WalRecord) (clean : Clean record)
  | crash

namespace Node

def exec (s : Node) : Event → Option Node
  | .start env =>
    if s.running then none
    else
      match main H args env (some s.log.file) with
      | some (.serves _ wal _) => some { s with log := wal, running := true }
      | _ => some s
  | .append fault record _ =>
    if s.running then
      let (result, log) := s.log.append H fault record
      let bytes := log.file.length - s.log.file.length
      some { s with
        log
        written := if bytes = 0 then s.written else s.written ++ [⟨record, bytes⟩]
        acknowledged := if result.isOk then s.acknowledged ++ [record] else s.acknowledged }
    else none
  | .crash => if s.running then some { s with running := false } else none

abbrev Execution := Run (fun s e s' => exec H args s e = some s') {}

end Node

/-- The line is there with its newline. -/
def Trace.Whole (x : Trace) : Prop := x.bytes = (entry H x.record).length + 1

/-- Every record is whole, but the last one may lack its newline. -/
def Unbroken (l : List Trace) : Prop := (∀ x ∈ l.dropLast, x.Whole H) ∧ ∀ x ∈ l.getLast?, (entry H x.record).length ≤ x.bytes

/-- What the appends have left. -/
def fileOf (l : List Trace) : Str := l.flatMap fun x => (entry H x.record ++ [newline]).take x.bytes

/-- No start accepts the log. -/
def Refused (file : Str) : Prop := ∀ out, replay H (some file) ≠ some (.ok out)

/-- Nor does one after more has been written. -/
def Doomed (file : Str) : Prop := ∀ more, Refused H (file ++ more)

end Defs

variable {H : LineHash} {args : List Str}

theorem main_serves_iff {env : Environment} {wal_file : Option Str} {srv : Server} {wal : WriteAheadLog}
    {replayed : List WalRecord} :
    main H args env wal_file = some (.serves srv wal replayed) ↔
      ∃ cfg, Ready args env cfg ∧ srv = .ofConfig cfg ∧ wal = ⟨wal_file.getD [], true⟩ ∧
        replay H (some (wal_file.getD [])) = some (.ok replayed) := by
  constructor
  · intro h
    simp only [main] at h
    rcases hconfig : Config.load_config (cfg_path args (lit "config/dev.toml"))
      (env.file (cfg_path args (lit "config/dev.toml")))
      with - | (status | cfg)
    · simp [hconfig] at h
    · simp [hconfig] at h
    rcases hmetadata : env.metadata with status | u
    · simp [hconfig, hmetadata] at h
    rcases hwal : env.wal_fault with _ | _
    swap
    · simp [hconfig, hmetadata, hwal, open_log] at h
    rcases hreplay : replay H (some (wal_file.getD [])) with - | (status | records)
    · simp [hconfig, hmetadata, hwal, open_log, hreplay] at h
    · simp [hconfig, hmetadata, hwal, open_log, hreplay] at h
    rcases hlistening : env.listening with status | u
    · simp [hconfig, hmetadata, hwal, open_log, hreplay, hlistening] at h
    simp only [hconfig, hmetadata, hwal, open_log, hreplay, hlistening, Bool.false_eq_true, if_false] at h
    cases h
    exact ⟨cfg, ⟨hconfig, hmetadata, hwal, hlistening⟩, rfl, rfl, rfl⟩
  · rintro ⟨cfg, ⟨hconfig, hmetadata, hwal, hlistening⟩, rfl, rfl, hreplay⟩
    simp [main, hconfig, hmetadata, hwal, hlistening, open_log, hreplay]

/-! ## What cut records do to a log -/

theorem fileOf_append (l m : List Trace) : fileOf H (l ++ m) = fileOf H l ++ fileOf H m := List.flatMap_append

theorem fileOf_whole {l : List Trace} (h : ∀ x ∈ l, x.Whole H) : fileOf H l = text H (l.map Trace.record) := by
  unfold fileOf text
  rw [List.flatMap_map]
  refine List.flatMap_congr fun x hx => ?_
  rw [h x hx]
  exact List.take_of_length_le (by simp)

/-- Everything but the last record is whole, if there is any. -/
theorem unbroken_concat {l : List Trace} {x : Trace} :
    Unbroken H (l ++ [x]) ↔ (∀ y ∈ l, y.Whole H) ∧ (entry H x.record).length ≤ x.bytes := by
  simp [Unbroken]

theorem Unbroken.of_append {l m : List Trace} (h : Unbroken H (l ++ m)) : Unbroken H l := by
  rcases List.eq_nil_or_concat m with rfl | ⟨m, x, rfl⟩
  · rwa [List.append_nil] at h
  · rw [List.concat_eq_append, ← List.append_assoc, unbroken_concat] at h
    have hall : ∀ y ∈ l, y.Whole H := fun y hy => h.1 y (List.mem_append_left m hy)
    exact ⟨fun y hy => hall y (List.mem_of_mem_dropLast hy), fun y hy =>
      (hall y (List.mem_of_mem_getLast? hy)).ge.trans' (Nat.le_succ _)⟩

/-- What is left when the last record is written up to its newline or further. -/
theorem take_line {x : Trace} (h : (entry H x.record).length ≤ x.bytes) :
    (entry H x.record ++ [newline]).take x.bytes = entry H x.record ∨
      (entry H x.record ++ [newline]).take x.bytes = entry H x.record ++ [newline] := by
  rcases Nat.eq_or_lt_of_le h with heq | hlt
  · rw [← heq]
    exact .inl List.take_left
  · exact .inr (List.take_of_length_le (by rw [List.length_append]; exact hlt))

/-- An unbroken log replays. -/
theorem Unbroken.replay {l : List Trace} (h : Unbroken H l) (hclean : ∀ x ∈ l, Clean x.record) :
    replay H (some (fileOf H l)) = some (.ok (l.map Trace.record)) := by
  have hrecords : ∀ r ∈ l.map Trace.record, Clean r := by simpa using hclean
  rcases List.eq_nil_or_concat l with rfl | ⟨l, x, rfl⟩
  · rfl
  · rw [List.concat_eq_append] at h hrecords ⊢
    obtain ⟨hwhole, hlast⟩ := unbroken_concat.1 h
    have htext : text H ((l ++ [x]).map Trace.record) = fileOf H l ++ (entry H x.record ++ [newline]) := by
      rw [List.map_append, fileOf_whole hwhole]
      exact WriteAheadLog.text_append_singleton _ _
    have hfile : fileOf H (l ++ [x]) = fileOf H l ++ (entry H x.record ++ [newline]).take x.bytes := by
      simp [fileOf]
    rcases take_line hlast with htake | htake
    · refine WriteAheadLog.replay_unfinished hrecords ?_
      rw [hfile, htake, htext, List.append_assoc]
    · rw [hfile, htake, ← htext]
      exact WriteAheadLog.replay_text hrecords

/-- A record that is cut short is refused. -/
theorem refused_torn {l : List Trace} (hl : ∀ x ∈ l, x.Whole H) (hclean : ∀ x ∈ l, Clean x.record) {x : Trace}
    (hx : Clean x.record)
    (hpos : 0 < x.bytes) (hcut : x.bytes < (entry H x.record).length) : Refused H (fileOf H (l ++ [x])) := by
  intro out hout
  have hfile : fileOf H (l ++ [x]) = text H (l.map Trace.record) ++ (entry H x.record).take x.bytes := by
    rw [fileOf_append, fileOf_whole hl]
    simp [fileOf, List.take_append_of_le_length hcut.le]
  have hfront : (entry H x.record).take x.bytes <+: entry H x.record := List.take_prefix _ _
  have hne : (entry H x.record).take x.bytes ≠ entry H x.record := by
    intro heq
    have := congrArg List.length heq
    rw [List.length_take] at this
    omega
  have hnil : (entry H x.record).take x.bytes ≠ [] := by
    rw [Ne, List.take_eq_nil_iff]
    rintro (h0 | h0)
    · omega
    · exact WriteAheadLog.entry_ne_nil _ h0
  obtain ⟨e, he⟩ := WriteAheadLog.parseLine_torn hx hfront hne
  have hnl : newline ∉ (entry H x.record).take x.bytes := fun hm => hx.newline_entry (hfront.subset hm)
  rw [hfile, WriteAheadLog.replay_text_append (by simpa using hclean), getlines_unfinished hnl] at hout
  simp [hnil, WriteAheadLog.replayLines, he] at hout

/-- A line that goes on after a record is refused. -/
theorem parseLine_joined {r : WalRecord} (hr : Clean r) {more : Str} (hne : more ≠ []) :
    ∃ e, WriteAheadLog.parseLine H (entry H r ++ more) = some (.error e) := by
  by_cases htab : tab ∈ more
  · refine ⟨_, WriteAheadLog.parseLine_of_count ?_⟩
    have hcount := WriteAheadLog.count_of_parseLine (WriteAheadLog.parseLine_entry (H := H) hr)
    have hmore := List.count_pos_iff.2 htab
    rw [List.count_append, hcount]
    omega
  · refine ⟨.Internal (lit "wal checksum mismatch"), ?_⟩
    have hlong : H.hex (WriteAheadLog.line r) ≠ H.hex (WriteAheadLog.line r) ++ more := by
      intro heq
      exact hne (by simpa using heq)
    have hrest : tab ∉ H.hex (WriteAheadLog.line r) ++ more := by
      rw [List.mem_append, not_or]
      exact ⟨H.no_tab _, htab⟩
    unfold WriteAheadLog.parseLine entry
    rw [List.append_assoc, List.cons_append, hr.fields hrest]
    exact if_pos hlong

/-- A record without its newline that something is written behind. -/
theorem doomed_joined {l : List Trace} (hl : ∀ x ∈ l, x.Whole H) (hclean : ∀ x ∈ l, Clean x.record) {x : Trace}
    (hx : Clean x.record)
    (hlast : x.bytes = (entry H x.record).length) {c : UInt8} (hc : c ≠ newline) (rest : Str) :
    Doomed H (fileOf H (l ++ [x]) ++ c :: rest) := by
  intro more out hout
  have hfile : fileOf H (l ++ [x]) = text H (l.map Trace.record) ++ entry H x.record := by
    rw [fileOf_append, fileOf_whole hl]
    simp [fileOf, hlast]
  -- the line goes on to the next newline, or to the end of the file
  obtain ⟨line, tail, heq, hline, htail⟩ := exists_first newline (c :: rest ++ more)
  have hne : line ≠ [] := by
    rintro rfl
    rcases htail with rfl | ⟨tail, rfl⟩
    · cases heq
    · exact hc (List.cons.inj heq).1
  obtain ⟨e, he⟩ := parseLine_joined (H := H) hx hne
  have hnl : newline ∉ entry H x.record ++ line := by
    rw [List.mem_append, not_or]
    exact ⟨hx.newline_entry, hline⟩
  rw [hfile, List.append_assoc, List.append_assoc, heq, WriteAheadLog.replay_text_append (by simpa using hclean),
    ← List.append_assoc] at hout
  rcases htail with rfl | ⟨tail, rfl⟩
  · rw [List.append_nil, getlines_unfinished hnl] at hout
    simp [hne, WriteAheadLog.replayLines, he] at hout
  · rw [getlines_append hnl, WriteAheadLog.replayLines, List.nil_append, he] at hout
    cases hout

/-! ## The lives of a node -/

/-- What an append does to the log: some of the line is there, all of it when
the append succeeds, and after less than all of it the stream is bad. -/
theorem append_cases (log : WriteAheadLog) (fault : Option Nat) (r : WalRecord) :
    ∃ n ≤ (entry H r).length + 1, (log.append H fault r).2.file = log.file ++ (entry H r ++ [newline]).take n ∧
      ((log.append H fault r).1.isOk = true → n = (entry H r).length + 1) ∧ (log.good = false → n = 0) ∧
      (n ≤ (entry H r).length → (log.append H fault r).2.good = false) := by
  obtain ⟨file, good⟩ := log
  cases good with
  | false => exact ⟨0, Nat.zero_le _, by simp [WriteAheadLog.append], nofun, fun _ => rfl, fun _ => rfl⟩
  | true =>
    cases fault with
    | none =>
      refine ⟨(entry H r).length + 1, Nat.le_refl _, ?_, fun _ => rfl, nofun, fun hle => absurd hle (Nat.not_succ_le_self _)⟩
      rw [List.take_of_length_le (by simp)]
      rfl
    | some written =>
      refine ⟨min written ((entry H r).length + 1), Nat.min_le_right _ _, ?_, nofun, nofun, fun _ => rfl⟩
      show file ++ (entry H r ++ [newline]).take written = _
      rw [List.take_eq_take_min, List.length_append]
      rfl

namespace Node

variable (H) in
/-- An unbroken log, one that is refused and not written to, or one that is
refused whatever is written. -/
structure Inv (s : Node) : Prop where
  file : s.log.file = fileOf H s.written
  clean : ∀ x ∈ s.written, Clean x.record
  fits : ∀ x ∈ s.written, x.bytes ≤ (entry H x.record).length + 1
  kept : s.acknowledged.Sublist (s.written.map Trace.record)
  state : Unbroken H s.written ∨ ¬ Unbroken H s.written ∧
    (Doomed H s.log.file ∨ Refused H s.log.file ∧ (s.running = true → s.log.good = false))

theorem Inv.refused {s : Node} (h : s.Inv H) (hbroken : ¬ Unbroken H s.written) : Refused H s.log.file := by
  rcases h.state with hunbroken | ⟨-, hdoomed | ⟨hrefused, -⟩⟩
  · exact absurd hunbroken hbroken
  · have := hdoomed []
    rwa [List.append_nil] at this
  · exact hrefused

/-- What `n` bytes of one more record make of an unbroken log. -/
theorem unbroken_append {l : List Trace} (h : Unbroken H l) (hclean : ∀ x ∈ l, Clean x.record)
    (hfits : ∀ x ∈ l, x.bytes ≤ (entry H x.record).length + 1) {x : Trace} (hx : Clean x.record) (hpos : 0 < x.bytes) :
    Unbroken H (l ++ [x]) ∨ ¬ Unbroken H (l ++ [x]) ∧
      (Doomed H (fileOf H (l ++ [x])) ∨ Refused H (fileOf H (l ++ [x])) ∧ x.bytes ≤ (entry H x.record).length) := by
  by_cases hwhole : ∀ y ∈ l, y.Whole H
  · rcases Nat.lt_or_ge x.bytes (entry H x.record).length with hcut | hall
    · exact .inr ⟨fun hl => absurd (unbroken_concat.1 hl).2 (Nat.not_le.2 hcut),
        .inr ⟨refused_torn hwhole hclean hx hpos hcut, hcut.le⟩⟩
    · exact .inl (unbroken_concat.2 ⟨hwhole, hall⟩)
  · refine .inr ⟨fun hl => hwhole (unbroken_concat.1 hl).1, .inl ?_⟩
    -- the last record before lacks its newline
    rcases List.eq_nil_or_concat l with rfl | ⟨front, last, rfl⟩
    · exact absurd (fun y hy => absurd hy List.not_mem_nil) hwhole
    · rw [List.concat_eq_append] at h hclean hfits hwhole ⊢
      obtain ⟨hfront, hlast⟩ := unbroken_concat.1 h
      have hmem : last ∈ front ++ [last] := List.mem_append_right _ List.mem_cons_self
      have hbytes : last.bytes = (entry H last.record).length := by
        rcases Nat.eq_or_lt_of_le hlast with heq | hlt
        · exact heq.symm
        · refine absurd (fun y hy => ?_) hwhole
          rcases List.mem_append.1 hy with hy | hy
          · exact hfront y hy
          · rw [List.mem_singleton.1 hy]
            exact Nat.le_antisymm (hfits last hmem) hlt
      obtain ⟨c, line, hentry⟩ := List.exists_cons_of_ne_nil (WriteAheadLog.entry_ne_nil (H := H) x.record)
      have hc : c ≠ newline := by
        rintro rfl
        exact hx.newline_entry (H := H) (by rw [hentry]; exact List.mem_cons_self)
      obtain ⟨n, hn⟩ := Nat.exists_eq_succ_of_ne_zero hpos.ne'
      have hnew : fileOf H [x] = c :: (line ++ [newline]).take n := by
        simp [fileOf, hentry, hn]
      rw [fileOf_append _ [x], hnew]
      exact doomed_joined hfront (fun y hy => hclean y (List.mem_append_left _ hy)) (hclean last hmem) hbytes hc _

theorem Inv.exec {s s' : Node} {e : Event} (h : s.Inv H) (hexec : s.exec H args e = some s') : s'.Inv H := by
  cases e with
  | start env =>
    simp only [Node.exec] at hexec
    split at hexec
    · cases hexec
    · split at hexec
      · rename_i srv wal replayed hmain
        cases hexec
        obtain ⟨cfg, -, -, rfl, hreplay⟩ := main_serves_iff.1 hmain
        have hunbroken : Unbroken H s.written := by
          by_contra hbroken
          exact h.refused hbroken _ hreplay
        exact ⟨h.file, h.clean, h.fits, h.kept, .inl hunbroken⟩
      · cases hexec
        exact h
  | crash =>
    simp only [Node.exec] at hexec
    split at hexec <;> cases hexec
    exact ⟨h.file, h.clean, h.fits, h.kept, h.state.imp_right (And.imp_right (Or.imp_right (And.imp_right fun _ => nofun)))⟩
  | append fault record hclean =>
    simp only [Node.exec] at hexec
    split at hexec <;> cases hexec
    rename_i hrunning
    obtain ⟨n, hn, hfile, hok, hbad, hgood⟩ := append_cases (H := H) s.log fault record
    have hbytes : (s.log.append H fault record).2.file.length - s.log.file.length = n := by
      rw [hfile, List.length_append, List.length_take_of_le (by rw [List.length_append]; exact hn), Nat.add_sub_cancel_left]
    rw [hbytes]
    rcases Nat.eq_zero_or_pos n with rfl | hpos
    · -- nothing is written
      rw [List.take_zero, List.append_nil] at hfile
      have hfailed : (s.log.append H fault record).1.isOk = false := by
        by_contra hnot
        exact absurd (hok (Bool.not_eq_false _ ▸ hnot)) (Nat.succ_ne_zero _).symm
      simp only [if_true, hfailed]
      refine ⟨hfile.trans h.file, h.clean, h.fits, h.kept, ?_⟩
      refine h.state.imp_right (And.imp_right ?_)
      rw [hfile]
      exact Or.imp_right (And.imp_right fun _ _ => hgood (Nat.zero_le _))
    · have hworks : s.log.good = true := by
        by_contra hnot
        exact absurd (hbad (Bool.not_eq_true _ ▸ hnot)) hpos.ne'
      have hwritten : (s.log.append H fault record).2.file = fileOf H (s.written ++ [⟨record, n⟩]) := by
        rw [hfile, h.file, fileOf_append]
        simp [fileOf]
      simp only [if_neg hpos.ne']
      refine ⟨hwritten, ?_, ?_, ?_, ?_⟩
      · exact List.forall_mem_append.2 ⟨h.clean, List.forall_mem_singleton.2 hclean⟩
      · exact List.forall_mem_append.2 ⟨h.fits, List.forall_mem_singleton.2 hn⟩
      · rw [List.map_append]
        split
        · exact h.kept.append (List.Sublist.refl _)
        · exact h.kept.trans (List.sublist_append_left _ _)
      · rcases h.state with hunbroken | ⟨hbroken, hdoomed | ⟨-, hdead⟩⟩
        · rw [hwritten]
          refine (unbroken_append (x := ⟨record, n⟩) hunbroken h.clean h.fits hclean hpos).imp_right
            (And.imp_right (Or.imp_right ?_))
          exact And.imp_right fun hle _ => hgood hle
        · refine .inr ⟨fun hl => hbroken hl.of_append, .inl fun more => ?_⟩
          rw [hfile, List.append_assoc]
          exact hdoomed _
        · rw [hworks] at hdead
          cases hdead hrunning

theorem inv_run (r : Execution H args) (t : Nat) : (r.state t).Inv H :=
  r.inv (Inv H) ⟨rfl, nofun, nofun, List.Sublist.refl _, .inl ⟨nofun, nofun⟩⟩ (fun _ _ _ h he => h.exec he) t

/-- Nothing that has been written goes away. -/
theorem written_exec {s s' : Node} {e : Event} (hexec : s.exec H args e = some s') : s.written <+: s'.written := by
  cases e with
  | start env =>
    simp only [Node.exec] at hexec
    split at hexec
    · cases hexec
    · split at hexec <;> cases hexec <;> exact List.prefix_rfl
  | crash =>
    simp only [Node.exec] at hexec
    split at hexec <;> cases hexec
    exact List.prefix_rfl
  | append fault record hclean =>
    simp only [Node.exec] at hexec
    split at hexec <;> cases hexec
    dsimp only
    split
    · exact List.prefix_rfl
    · exact List.prefix_append _ _

end Node

/-- A node starts as long as every append has left its whole record or nothing,
but for the last one, which may lack its newline; it then has in its log the
records that were acknowledged, in their order. Once an append has left less, or
has left anything behind a record without its newline, no start ever succeeds
again, whatever happens to the node. -/
theorem node_starts_iff (H : LineHash) (args : List Str) (r : Node.Execution H args) (t : Nat) :
    (Unbroken H (r.state t).written →
      (r.state t).acknowledged.Sublist ((r.state t).written.map Trace.record) ∧
        ∀ env cfg, Ready args env cfg → main H args env (some (r.state t).log.file) =
          some (.serves (.ofConfig cfg) ⟨(r.state t).log.file, true⟩ ((r.state t).written.map Trace.record))) ∧
      (¬ Unbroken H (r.state t).written → ∀ t', t ≤ t' → ∀ env srv wal replayed,
        main H args env (some (r.state t').log.file) ≠ some (.serves srv wal replayed)) := by
  have hinv := Node.inv_run r
  refine ⟨fun hunbroken => ⟨(hinv t).kept, fun env cfg hready => ?_⟩, fun hbroken t' hle env srv wal replayed hmain => ?_⟩
  · refine main_serves_iff.2 ⟨cfg, hready, rfl, rfl, ?_⟩
    have hreplay := hunbroken.replay (hinv t).clean
    rwa [← (hinv t).file] at hreplay
  · obtain ⟨cfg, -, -, -, hreplay⟩ := main_serves_iff.1 hmain
    obtain ⟨more, hmore⟩ := r.mono (fun s s' => s.written <+: s'.written) (fun _ => List.prefix_rfl) (fun _ _ _ =>
      List.IsPrefix.trans)
      (fun _ _ he => Node.written_exec he) t t' hle
    exact (hinv t').refused (fun hl => hbroken (Unbroken.of_append (hmore.symm ▸ hl))) _ hreplay

/-- All is as in an empty configuration file. -/
def defaults : Environment := { file := fun _ => some [] }

/-- A node that goes down when it has logged one byte of an upload. -/
def cutUpload : Node.Execution Sha256.hexHash [] :=
  Run.ofPartial (Node.exec Sha256.hexHash []) {}
    [.start defaults, .append (some 1) WriteAheadLog.putX WriteAheadLog.clean_putX, .crash]

theorem cutUpload_stops :
    (cutUpload.state 3).running = false ∧ ¬ Unbroken Sha256.hexHash (cutUpload.state 3).written ∧
      ∀ t', 3 ≤ t' → ∀ env srv wal replayed,
        main Sha256.hexHash [] env (some (cutUpload.state t').log.file) ≠ some (.serves srv wal replayed) := by
  have hstate : (cutUpload.state 3).running = false ∧ (cutUpload.state 3).written = [⟨WriteAheadLog.putX, 1⟩] := by
    decide +kernel
  have hbroken : ¬ Unbroken Sha256.hexHash (cutUpload.state 3).written := by
    rw [hstate.2]
    rintro ⟨-, h⟩
    exact absurd (h _ rfl) (by decide +kernel)
  exact ⟨hstate.1, hbroken, (node_starts_iff Sha256.hexHash [] cutUpload 3).2 hbroken⟩

end Startup

end Dstore
