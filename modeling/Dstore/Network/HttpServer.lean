import Dstore.Common.Text
import Dstore.Lib.Lists
import Dstore.Network.Http
/-!
# Messages as bytes

The two codecs of `http_server.cpp`: `http_request` writes a request and reads
the response, `parse_request` reads the request, `serialize` writes the
response. A socket gives the bytes of a message in segments of at most 8192,
and then nothing more.

A message starts with lines that end with CR LF, the last of them followed by
an empty one. `find_blank_line` finds the end of such a head when its lines
have no newline of their own.
-/
open Dstore.Lib

namespace Dstore.HttpServer

def crlf : Str := lit "\r\n"

def blank_line : Str := lit "\r\n\r\n"

/-- What the calls of `recv` return, one after the other. -/
def Segments (segments : List Bytes) (bytes : Bytes) : Prop :=
  (∀ s ∈ segments, 0 < s.length ∧ s.length ≤ 8192) ∧ segments.flatten = bytes

/-! ## Responses -/

def reason (status : Int32) : Str :=
  if status = 200 then lit "OK"
  else if status = 201 then lit "Created"
  else if status = 204 then lit "No Content"
  else if status = 400 then lit "Bad Request"
  else if status = 401 then lit "Unauthorized"
  else if status = 403 then lit "Forbidden"
  else if status = 404 then lit "Not Found"
  else if status = 409 then lit "Conflict"
  else lit "Internal Server Error"

/-- `head.str()` in `serialize`. -/
def responseHead (r : HttpResponse) : Str :=
  lit "HTTP/1.1 " ++ to_string_int r.status.toInt ++ lit " " ++ reason r.status ++ lit "\r\n" ++
    (lit "Content-Type: " ++ r.content_type ++ lit "\r\n") ++
    (lit "Content-Length: " ++ to_string r.body.length ++ lit "\r\n") ++ lit "Connection: close\r\n\r\n"

def serialize (r : HttpResponse) : Bytes := responseHead r ++ r.body

/-- `in >> status` for an `int` that is 200 before: a text that is used up
leaves it, one without a number makes it 0. -/
def readStatus (text : Str) : Int32 :=
  let text := text.dropWhile isspace
  let (negative, rest) := readSign text
  let digits := rest.takeWhile isDigit
  let value : Int := if negative then -decimal digits else decimal digits
  if text = [] then 200 else if digits = [] then 0 else Int32.ofInt (max (-2 ^ 31) (min value (2 ^ 31 - 1)))

/-- The end of `http_request`, from the loop over `recv`. -/
def read_response (received : List Bytes) : Result HttpResponse :=
  let raw := received.flatten
  match find blank_line raw with
  | none => .error (.Internal (lit "invalid response"))
  | some split =>
    let (_, rest) := readWord (raw.take ((find crlf raw).getD raw.length))
    .ok { status := readStatus rest, body := raw.drop (split + 4) }

/-! ## Requests -/

/-- `head.str()` in `http_request`; `order` is the order in which the map of
headers gives its entries. -/
def requestHead (host : Str) (order : List (Sigma fun _ : Str => Str)) (request : HttpRequest) : Str :=
  (request.method ++ lit " " ++ request.path ++ lit " HTTP/1.1\r\n") ++ (lit "Host: " ++ host ++ lit "\r\n") ++
    (order.flatMap fun header => header.1 ++ lit ": " ++ header.2 ++ lit "\r\n") ++
    (lit "Content-Length: " ++ to_string request.body.length ++ lit "\r\nConnection: close\r\n\r\n")

/-- How much of a buffer one `send` takes: at most `limit` bytes, which is the
system's own bound. The size is cast to an `int`, and a negative one is a huge
`size_t` again. -/
def sendSize (limit size : Nat) : Nat := min limit (if size % 2 ^ 32 < 2 ^ 31 then size % 2 ^ 32 else 2 ^ 31 - 1)

/-- The bound of Linux, in whole pages. -/
def linuxLimit : Nat := 2147479552

/-- The bytes that `http_request` sends. -/
def sent (limit : Nat) (host : Str) (order : List (Sigma fun _ : Str => Str)) (request : HttpRequest) : Bytes :=
  (requestHead host order request).take (sendSize limit (requestHead host order request).length) ++
    request.body.take (sendSize limit request.body.length)

/-- The loop of `parse_request` that reads the head: the buffer, and what the
socket still holds. -/
def readHead (buffer : Str) : List Bytes → Result (Str × List Bytes)
  | [] => if find blank_line buffer = none then .error (.Invalid (lit "failed to read request")) else .ok (buffer, [])
  | s :: rest =>
    if find blank_line buffer = none then
      if (buffer ++ s).length > 1024 * 1024 then .error (.Invalid (lit "headers too large")) else readHead (buffer ++ s) rest
    else .ok (buffer, s :: rest)

/-- The loop that reads the body, and the `resize` after it. -/
def readBody (content_length : Nat) (body : Bytes) : List Bytes → Result Bytes
  | [] =>
    if body.length < content_length then .error (.Invalid (lit "failed to read body")) else .ok (body.take content_length)
  | s :: rest =>
    if body.length < content_length then readBody content_length (body ++ s) rest else .ok (body.take content_length)

/-- `std::tolower`. -/
def tolower (c : UInt8) : UInt8 := if 65 ≤ c && c ≤ 90 then c + 32 else c

def lower (s : Str) : Str := s.map tolower

/-- The body of the loop over the header lines. -/
def parseHeader (headers : AList fun _ : Str => Str) (line : Str) : AList fun _ : Str => Str :=
  let line := if line.getLast? = some 13 then line.dropLast else line
  match find (lit ":") line with
  | none => headers
  | some colon => headers.insert (lower (line.take colon)) ((line.drop (colon + 1)).dropWhile (· == 32))

/-- `std::stoull`; it throws when there is no number or it has more than 64
bits. -/
def stoull (text : Str) : Option Nat :=
  let (negative, rest) := readSign (text.dropWhile isspace)
  let digits := rest.takeWhile isDigit
  let value := decimal digits
  if digits = [] ∨ 2 ^ 64 ≤ value then none else some (if negative then (2 ^ 64 - value) % 2 ^ 64 else value)

/-- The request line and the headers; the body is empty still. -/
def parseHead (text : Str) : HttpRequest :=
  let (method, rest) := readWord text
  let (path, rest) := readWord rest
  { method := method, path := path, headers := (getlines [] rest).tail.foldl parseHeader ∅ }

/-- The outcome `none` is the exception of `std::stoull`. -/
def parse_request (received : List Bytes) : Option (Result HttpRequest) :=
  match readHead [] received with
  | .error status => some (.error status)
  | .ok (buffer, rest) =>
    let split := (find blank_line buffer).getD buffer.length
    let req := parseHead (buffer.take split)
    let content_length := match req.headers.lookup (lit "content-length") with
      | none => some 0
      | some value => stoull value
    content_length.map fun content_length =>
      (readBody content_length (buffer.drop (split + 4)) rest).map fun body => { req with body := body }

/-! ## The end of a head -/

/-- Lines and an empty line. -/
def headText (lines : List Str) : Str := (lines.flatMap fun l => l ++ crlf) ++ crlf

/-- A line that is not empty and has no newline in it. -/
structure IsLine (l : Str) : Prop where
  ne_nil : l ≠ []
  no_newline : newline ∉ l

theorem headText_cons (l : Str) (lines : List Str) : headText (l :: lines) = l ++ 13 :: 10 :: headText lines := by
  simp [headText, crlf, lit]

theorem blank_line_eq : blank_line = [13, 10, 13, 10] := rfl

theorem not_prefix_of_second {c d : UInt8} {s : Str} (h : d ≠ 10) : ¬ blank_line <+: c :: d :: s := by
  rw [blank_line_eq]
  intro hp
  have h1 := (List.cons_prefix_cons.1 hp).2
  exact h (List.cons_prefix_cons.1 h1).1.symm

theorem not_prefix_of_first {c : UInt8} {s : Str} (h : c ≠ 13) : ¬ blank_line <+: c :: s := by
  rw [blank_line_eq]
  intro hp
  exact h (List.cons_prefix_cons.1 hp).1.symm

/-- Inside a line there is no blank line. -/
theorem find_blank_line_skip {l : Str} (hl : newline ∉ l) (s : Str) :
    find blank_line (l ++ 13 :: s) = (find blank_line (13 :: s)).map (· + l.length) := by
  induction l with
  | nil => simp
  | cons c l ih =>
    rw [List.mem_cons, not_or] at hl
    have hnot : ¬ blank_line <+: c :: (l ++ 13 :: s) := by
      cases l with
      | nil => exact not_prefix_of_second (by decide)
      | cons d l =>
        refine not_prefix_of_second fun hd => hl.2 ?_
        rw [hd]
        exact List.mem_cons_self
    rw [List.cons_append, find_cons_skip hnot, ih hl.2, Option.map_map]
    rfl

/-- The first blank line ends the head. -/
theorem find_blank_line {lines : List Str} (hne : lines ≠ []) (hl : ∀ l ∈ lines, IsLine l) (rest : Str) :
    find blank_line (headText lines ++ rest) = some ((headText lines).length - 4) := by
  induction lines with
  | nil => exact absurd rfl hne
  | cons l lines ih =>
    obtain ⟨hline, hl⟩ := List.forall_mem_cons.1 hl
    rw [headText_cons, List.append_assoc, List.cons_append, List.cons_append, find_blank_line_skip hline.no_newline]
    cases lines with
    | nil =>
      have hp : blank_line <+: 13 :: 10 :: (headText [] ++ rest) := by
        rw [blank_line_eq]
        exact ⟨rest, rfl⟩
      rw [find_at_start hp]
      simp [headText, crlf, lit]
    | cons l' lines =>
      obtain ⟨hline', -⟩ := List.forall_mem_cons.1 hl
      -- the next line is not empty, so no blank line starts here
      have hhere : ¬ blank_line <+: 13 :: 10 :: (headText (l' :: lines) ++ rest) := by
        rw [blank_line_eq, List.cons_prefix_cons, List.cons_prefix_cons, headText_cons]
        rintro ⟨-, -, hp⟩
        obtain ⟨c, l', rfl⟩ := List.exists_cons_of_ne_nil hline'.ne_nil
        have hp' := (List.cons_prefix_cons.1 hp).2
        cases l' with
        | nil => exact absurd (List.cons_prefix_cons.1 hp').1 (by decide)
        | cons d l' => exact hline'.no_newline (by simp [newline, ← (List.cons_prefix_cons.1 hp').1])
      have hlf : ¬ blank_line <+: 10 :: (headText (l' :: lines) ++ rest) := not_prefix_of_first (by decide)
      have hlen : 4 ≤ (headText (l' :: lines)).length := by
        simp [headText, crlf, lit]
        omega
      rw [find_cons_skip hhere, find_cons_skip hlf, ih (by simp) hl]
      simp only [Option.map_some, List.length_append, List.length_cons, Option.some.injEq]
      omega

end Dstore.HttpServer
