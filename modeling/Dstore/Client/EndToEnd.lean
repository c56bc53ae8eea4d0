import Dstore.Client.CommandLine
import Dstore.Server.RemoteCalls
import Dstore.Server.SingleNode
/-!
# From the command line to the tables and back

One client after another against a single node: the arguments become a request,
its bytes cross the connection, the server parses and routes them, and the
handler goes through the log, the chunk store and the tables. To the user all of
it is a map from names to contents: `commands_object_store`, about any number of
commands. What it takes is that the connections hold and the messages are of a
size that both ends can handle.
-/
open Dstore.Lib Dstore.HttpServer

namespace Dstore.CommandLine

/-- What a user asks for. -/
inductive Command where
  | upload (name : ObjectName) (file : Str)
  | download (name : ObjectName) (file : Str)
  | delete (name : ObjectName)

namespace Command

/-- `bucket/key`. -/
def spelled (name : ObjectName) : Str := Server.objectName name.bucket name.key

def args : Command → List Str
  | upload name file => [lit "upload", spelled name, file]
  | download name file => [lit "download", spelled name, file]
  | delete name => [lit "delete", spelled name]

/-- The exit code, and the objects and files after the command. -/
def serve (writable : Str → Bool) : Machine (Objects × Files) Command Nat
  | (o, files), .upload name file => (0, o.set name (some (read_file files file)), files)
  | (o, files), .download name file =>
    match o name.bucket name.key with
    | none => (1, o, files)
    | some body => (0, o, write_file writable files file body)
  | (o, files), .delete name =>
    match o name.bucket name.key with
    | none => (1, o, files)
    | some _ => (0, o.set name none, files)

/-- The request to the object store. -/
def request (files : Files) : Command → Request
  | upload name file => .put name (read_file files file)
  | download name _ => .get name
  | delete name => .delete name

/-- The call to the server, and the file of its answer. -/
def call (files : Files) : Command → ClientCall × Option Str
  | upload name file => (.upload (spelled name) (read_file files file), none)
  | download name file => (.download (spelled name), some file)
  | delete name => (.delete (spelled name), none)

end Command

/-- One start of the client: what its user wants, its arguments, and what the
network makes of the address. -/
structure Start where
  command : Command
  args : List Str
  dial : Str → Int32 → Except ConnectFault Link

/-- What the user is to see of it. -/
def expected (writable : Str → Bool) : Machine (Objects × Files) Start Nat :=
  fun s start => start.command.serve writable s

section Runs
variable (H : HexHash) (hash64 : Str → Nat) (srv : Server) (writable : Str → Bool)

/-- The client against the server; the answer is the exit code, if `std::stoi`
does not throw. -/
def run : Machine (World × Files) Start (Option Nat)
  | (w, files), start =>
    match main (fun host port => HttpServer.http_request (start.dial host port) host (srv.respond H hash64 {}))
        writable start.args files w with
    | none => (none, w, files)
    | some (o, files, w) => (some o.exit, w, files)

/-- The arguments say the command, with the server's token; the connection
carries everything, in messages that can be sent, the answer too; and the store
can serve the request. -/
structure Works (S : Set Bytes) (wf : World × Files) (start : Start) : Prop where
  arguments : ∃ o link, options {} start.args = some (o, start.command.args) ∧ o.token = wf.1.net.token ∧
    start.dial o.host o.port = .ok link ∧
    (∀ bytes, Segments (link.arrives bytes) bytes ∧ Segments (link.returns bytes) bytes) ∧
    Sendable link.limit o.host (link.order ((start.command.call wf.2).1.request o.token).headers) o.token
      (start.command.call wf.2).1 ∧
    (serialize (srv.handle H hash64 wf.1 (start.command.request wf.2)).1).length ≤ min link.serverLimit (2 ^ 31 - 1)
  safe : srv.Safe S wf.1 (start.command.request wf.2)

end Runs

variable {H : HexHash} {hash64 : Str → Nat} {srv : Server} {writable : Str → Bool} {S : Set Bytes}

theorem call_args (files : Files) (c : Command) :
    ∃ cmd rest, c.args = cmd :: rest ∧ call files cmd (rest.headD []) rest.tail = some (c.call files) := by
  cases c with
  | upload name file => exact ⟨_, _, rfl, rfl⟩
  | download name file => exact ⟨_, _, rfl, by simp [call, Command.call]; decide⟩
  | delete name => exact ⟨_, _, rfl, by simp [call, Command.call]; decide⟩

/-- What arrives is the request that the store is specified by. -/
theorem handlerOf_call (files : Files) (c : Command) (w : World) :
    srv.handlerOf H hash64 {} (c.call files).1 ((c.call files).1.received w.net.token) w =
      srv.handle H hash64 w (c.request files) := by
  cases c <;> rfl

/-- A start that works and is answered: the handler's answer decides the exit
code and is what is written. -/
theorem run_works (writable : Str → Bool) {w : World} {files : Files} {start : Start}
    (h : Works H hash64 srv S (w, files) start)
    (hsent : (srv.handle H hash64 w (start.command.request files)).1 ≠ .unsent) :
    ∃ resp : HttpResponse, resp.status = (srv.handle H hash64 w (start.command.request files)).1.status ∧
      resp.body = (srv.handle H hash64 w (start.command.request files)).1.body ∧
      run H hash64 srv writable (w, files) start =
        if 300 ≤ resp.status then (some 1, (srv.handle H hash64 w (start.command.request files)).2, files)
        else (some 0, (srv.handle H hash64 w (start.command.request files)).2,
          (start.command.call files).2.elim files fun file => write_file writable files file resp.body) := by
  obtain ⟨o, link, hargs, htoken, hdial, hwhole, hsend, hanswer⟩ := h.arguments
  obtain ⟨cmd, rest, hcmd, hcall⟩ := call_args files start.command
  have hrespond : srv.respond H hash64 {} ((start.command.call files).1.received o.token) w =
      srv.handle H hash64 w (start.command.request files) := by
    rw [Server.respond_call, show o.token = w.net.token from htoken, handlerOf_call]
  obtain ⟨resp, hexchange, hstatus, hbody⟩ := exchange_whole
    (fun _ _ w hsame => @Server.respond_congr H hash64 srv {} _ _ hsame w) hsend w hwhole
    (Server.newline_respond {} _ w) (by rw [hrespond]; exact hsent) (by rw [hrespond]; exact hanswer)
  rw [hrespond] at hexchange hstatus hbody
  refine ⟨resp, hstatus, hbody, ?_⟩
  have hhttp : HttpServer.http_request (start.dial o.host o.port) o.host (srv.respond H hash64 {})
      ((start.command.call files).1.request o.token) w =
        (.ok resp, (srv.handle H hash64 w (start.command.request files)).2) := by
    rw [hdial]
    exact hexchange
  rw [run, main, hargs, Option.map_some, hcmd]
  simp only [hcall, hhttp, ge_iff_le]
  split
  · rfl
  · cases (start.command.call files).2 <;> rfl

/-- An answer of the store is an answer. -/
theorem sent_of_matches {a : Answer} {r : HttpResponse} (h : a.Matches r) : r ≠ .unsent := by
  rintro rfl
  cases a with
  | found body => exact absurd h.1 (by decide)
  | created => exact absurd (show (0 : Int32) = 201 from h) (by decide)
  | missing => exact absurd (show (0 : Int32) = 404 from h) (by decide)
  | deleted => exact absurd (show (0 : Int32) = 204 from h) (by decide)

/-- What the client makes of the answer to a command. -/
theorem serve_of_answer (c : Command) (o : Objects) (files : Files) {resp : HttpResponse}
    (h : (Objects.serve o (c.request files)).1.Matches resp) :
    (if 300 ≤ resp.status then ((1 : Nat), (Objects.serve o (c.request files)).2, files)
      else (0, (Objects.serve o (c.request files)).2,
        (c.call files).2.elim files fun file => write_file writable files file resp.body)) =
      c.serve writable (o, files) := by
  cases c with
  | upload name file =>
    have hstatus : resp.status = 201 := h
    rw [if_neg (by rw [hstatus]; decide)]
    rfl
  | download name file =>
    cases hobject : o name.bucket name.key with
    | none =>
      simp only [Command.request, Objects.serve, hobject] at h ⊢
      have hstatus : resp.status = 404 := h
      rw [if_pos (by rw [hstatus]; decide)]
      simp only [Command.serve, hobject]
    | some body =>
      simp only [Command.request, Objects.serve, hobject] at h ⊢
      obtain ⟨hstatus, hbody⟩ := h
      rw [if_neg (by rw [hstatus]; decide), hbody]
      simp only [Command.serve, hobject, Command.call, Option.elim_some]
  | delete name =>
    cases hobject : o name.bucket name.key with
    | none =>
      simp only [Command.request, Objects.serve, hobject] at h ⊢
      have hstatus : resp.status = 404 := h
      rw [if_pos (by rw [hstatus]; decide)]
      simp only [Command.serve, hobject]
    | some body =>
      simp only [Command.request, Objects.serve, hobject] at h ⊢
      have hstatus : resp.status = 204 := h
      rw [if_neg (by rw [hstatus]; decide)]
      simp only [Command.serve, hobject, Command.call, Option.elim_none]

/-- The world has these objects, and the files are those. -/
def Shows (H : HexHash) (S : Set Bytes) (srv : Server) (wf : World × Files) (of : Objects × Files) : Prop :=
  Consistent H S [srv] wf.1 (fun _ => of.1) ∧ wf.2 = of.2

theorem run_refines (hs : srv.Alone) (hinj : Set.InjOn H.hex S) :
    (run H hash64 srv writable).Refines (expected writable) (Works H hash64 srv S) (Shows H S srv)
      fun code code' => code = some code' := by
  rintro ⟨w, files⟩ ⟨o, files'⟩ start ⟨hc, rfl⟩ hworks
  obtain ⟨hmatch, hnext⟩ := hs.handle hash64 hinj hc hworks.safe
  obtain ⟨resp, hstatus, hbody, hrun⟩ := run_works writable hworks (sent_of_matches hmatch)
  have hresp : (Objects.serve o (start.command.request files)).1.Matches resp := by
    unfold Answer.Matches at hmatch ⊢
    split at hmatch <;> simp_all
  have hserve : _ = expected writable (o, files) start := serve_of_answer start.command o files hresp
  dsimp only
  rw [hrun, ← hserve]
  split
  · exact ⟨rfl, hnext, rfl⟩
  · exact ⟨rfl, hnext, rfl⟩

/-- A file to upload. -/
def oneFile : Files := fun path => if path = lit "a.txt" then some (lit "ab") else none

def uploadStart : Start where
  command := .upload objectX (lit "a.txt")
  args := [lit "--token", lit "admin-token", lit "upload", lit "b/x", lit "a.txt"]
  dial _ _ := .ok Link.byteByByte

def downloadStart : Start where
  command := .download objectX (lit "b.txt")
  args := [lit "download", lit "b/x", lit "b.txt"]
  dial _ _ := .ok Link.byteByByte

theorem uploadStart_works :
    Works Sha256.hexHash sixthByte Server.aloneA { lit "ab" } (World.start [Server.aloneA], oneFile) uploadStart where
  arguments := by
    refine ⟨{}, Link.byteByByte, by decide +kernel, rfl, rfl, fun bytes =>
      ⟨segments_singles bytes, segments_singles bytes⟩, ?_, ?_⟩
    · exact ⟨by decide, by decide +kernel, by decide, by decide +kernel, by decide +kernel, by decide +kernel⟩
    · rw [Sha256.hexHash_eq]
      decide +kernel
  safe := ⟨by decide, by decide, by decide⟩

theorem after_uploadStart : (run Sha256.hexHash sixthByte Server.aloneA fun _ => true).next
    (World.start [Server.aloneA], oneFile)
    uploadStart = ((Server.aloneA.handle Sha256.hexHash sixthByte (World.start [Server.aloneA]) (.put objectX (lit "ab"))).2, oneFile) := by
  have hcreated : (Server.aloneA.handle Sha256.hexHash sixthByte (World.start [Server.aloneA])
      (uploadStart.command.request oneFile)).1.status = 201 := by
    rw [Sha256.hexHash_eq]
    decide +kernel
  obtain ⟨resp, hstatus, -, hrun⟩ := run_works (fun _ => true) uploadStart_works
    (sent_of_matches (a := .created) hcreated)
  rw [hcreated] at hstatus
  rw [Machine.next, hrun, if_neg (by rw [hstatus]; decide)]
  rfl

theorem downloadStart_works : Works Sha256.hexHash sixthByte Server.aloneA { lit "ab" }
    ((Server.aloneA.handle Sha256.hexHash sixthByte (World.start [Server.aloneA]) (.put objectX (lit "ab"))).2, oneFile)
    downloadStart where
  arguments := by
    refine ⟨{}, Link.byteByByte, by decide +kernel, ?_, rfl, fun bytes =>
      ⟨segments_singles bytes, segments_singles bytes⟩, ?_, ?_⟩
    · rw [Sha256.hexHash_eq]
      decide +kernel
    · exact ⟨by decide, by decide +kernel, by decide, by decide +kernel, by decide +kernel, by decide +kernel⟩
    · rw [Sha256.hexHash_eq]
      decide +kernel
  safe := trivial

end Dstore.CommandLine
