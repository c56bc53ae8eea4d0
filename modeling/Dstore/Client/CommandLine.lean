import Dstore.Network.Exchange
/-!
# The command line client

`main` of the client: options, a command, the object it is about and maybe a
file. Every command is one call to the server. What it leaves behind is its exit
code, its output, and the file of a download; a file that cannot be read counts
as an empty one, and one that cannot be written is not noticed.
-/
open Dstore.HttpServer

namespace Dstore.CommandLine

/-- The files of the client's machine. -/
abbrev Files := Str → Option Bytes

def read_file (files : Files) (path : Str) : Bytes := (files path).getD []

/-- A file that can be opened takes all the bytes. -/
def write_file (writable : Str → Bool) (files : Files) (path : Str) (bytes : Bytes) : Files :=
  if writable path then fun x => if x = path then some bytes else files x else files

structure Options where
  host : Str := lit "127.0.0.1"
  port : Int32 := 8080
  token : Str := lit "admin-token"
  deriving DecidableEq, Repr

/-- The loop over the options, and the arguments from where it stops. The
outcome `none` is the exception of `std::stoi`. -/
def options : Options → List Str → Option (Options × List Str)
  | o, arg :: value :: rest =>
    if arg = lit "--host" then options { o with host := value } rest
    else if arg = lit "--port" then (stoi value).bind fun port => options { o with port := port } rest
    else if arg = lit "--token" then options { o with token := value } rest
    else some (o, arg :: value :: rest)
  | o, args => some (o, args)

/-- The call of a command, and where its answer is written if not to the output. -/
def call (files : Files) (cmd object : Str) (rest : List Str) : Option (ClientCall × Option Str) :=
  if cmd = lit "upload" then rest.head?.map fun file => (.upload object (read_file files file), none)
  else if cmd = lit "download" then rest.head?.map fun file => (.download object, some file)
  else if cmd = lit "delete" then some (.delete object, none)
  else if cmd = lit "metadata" then some (.metadata object, none)
  else none

structure Outcome where
  exit : Nat
  output : Bytes := []
  errors : Bytes := []
  deriving DecidableEq, Repr

def usage : Str :=
  lit "usage: dstore-cli [--host 127.0.0.1] [--port 8080] [--token token] upload|download|delete|metadata bucket/key [file]\n"

/-- `main`, with the arguments after the name of the program. -/
def main {σ : Type} (http : Str → Int32 → HttpRequest → σ → Result HttpResponse × σ) (writable : Str → Bool)
    (args : List Str)
    (files : Files) (s : σ) : Option (Outcome × Files × σ) :=
  (options {} args).map fun (o, args) =>
    match args with
    | [] => ({ exit := 2, errors := usage }, files, s)
    | cmd :: args =>
      match call files cmd (args.headD []) args.tail with
      | none => ({ exit := 2 }, files, s)
      | some (call, file) =>
        match http o.host o.port (call.request o.token) s with
        | (.error status, s) => ({ exit := 1, errors := status.message ++ lit "\n" }, files, s)
        | (.ok resp, s) =>
          if resp.status ≥ 300 then ({ exit := 1, errors := resp.body }, files, s)
          else
            match file with
            | some file => ({ exit := 0 }, write_file writable files file resp.body, s)
            | none => ({ exit := 0, output := resp.body }, files, s)

end Dstore.CommandLine
