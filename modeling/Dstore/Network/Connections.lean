import Dstore.Network.Requests
/-!
# Connections

The job that `HttpServer::run` starts for a connection: it reads the request
with `parse_request`, looks for a route and sends what the handler returns
(the loop over the routes is in `Server.Routes`).

The bytes of a request are the same however they come in, as long as the head
fits the buffer whatever comes with its end (`parse_request_of_whole`). And
every connection is answered, but for those whose `Content-Length` is no
number: the exception of `std::stoull` ends up in the future that no one looks
at, with the socket left open (`answered_iff`).
-/
open Dstore.Lib

namespace Dstore.HttpServer

/-! ## The request in a stream -/

/-- `content_length`, if `std::stoull` does not throw. -/
def contentLength (req : HttpRequest) : Option Nat :=
  match req.headers.lookup (lit "content-length") with
  | none => some 0
  | some value => stoull value

/-- The request of a stream whose blank line is at `split`. -/
def wholeRequest (bytes : Bytes) (split : Nat) : Option (Result HttpRequest) :=
  let req := parseHead (bytes.take split)
  let after := bytes.drop (split + 4)
  (contentLength req).map fun n =>
    if after.length < n then .error (.Invalid (lit "failed to read body")) else .ok { req with body := after.take n }

theorem parse_request_of_readHead {segments rest : List Bytes} {buffer : Str} {split : Nat}
    (hread : readHead [] segments = .ok (buffer, rest)) (hfind : find blank_line buffer = some split) :
    parse_request segments = (contentLength (parseHead (buffer.take split))).map fun n =>
      (readBody n (buffer.drop (split + 4)) rest).map fun body => { parseHead (buffer.take split) with body := body } := by
  unfold parse_request
  simp only [hread, hfind, Option.getD_some]
  rfl

/-- The body is read until it is long enough, or to the end. -/
theorem readBody_eq (n : Nat) (body : Bytes) (segments : List Bytes) : readBody n body segments =
    if (body ++ segments.flatten).length < n then .error (.Invalid (lit "failed to read body"))
    else .ok ((body ++ segments.flatten).take n) := by
  split
  · rename_i hshort
    induction segments generalizing body with
    | nil =>
      rw [List.flatten_nil, List.append_nil] at hshort
      rw [readBody, if_pos hshort]
    | cons s segments ih =>
      rw [List.flatten_cons, ← List.append_assoc] at hshort
      have hbody : body.length < n := by
        rw [List.length_append, List.length_append] at hshort
        omega
      rw [readBody, if_pos hbody]
      exact ih _ hshort
  · rename_i hlong
    exact readBody_ok (Nat.not_lt.1 hlong)

/-- A head that is read gives the request of the stream. -/
theorem parse_request_of_head {segments rest : List Bytes} {buffer : Str} {split : Nat}
    (hread : readHead [] segments = .ok (buffer, rest)) (hfind : find blank_line segments.flatten = some split) :
    parse_request segments = wholeRequest segments.flatten split := by
  obtain ⟨hflat, split', hbuffer⟩ := readHead_spec hread
  rw [List.nil_append] at hflat
  rw [← hflat] at hfind ⊢
  obtain rfl : split' = split := by
    rw [find_append hbuffer, Option.some.injEq] at hfind
    exact hfind
  have hlen : split' + 4 ≤ buffer.length := find_le hbuffer
  rw [parse_request_of_readHead hread hbuffer, wholeRequest, List.take_append_of_le_length (by omega),
    List.drop_append_of_le_length hlen]
  congr 1
  funext n
  rw [readBody_eq]
  split <;> rfl

/-- A head of which no segment that ends it makes the buffer too long is read. -/
theorem readHead_of_small {segments : List Bytes} {split : Nat} (hs : ∀ s ∈ segments, s.length ≤ 8192)
    (hfind : find blank_line segments.flatten = some split) (hsmall : split + 4 ≤ 1024 * 1024 - 8191) :
    ∃ buffer rest, readHead [] segments = .ok (buffer, rest) := by
  have hlen : split + 4 ≤ segments.flatten.length := find_le hfind
  have hcut := List.take_append_drop (split + 4) segments.flatten
  have hhead : (segments.flatten.take (split + 4)).length = split + 4 := by
    rw [List.length_take]
    omega
  have hfront : find blank_line (segments.flatten.take (split + 4)) = some split :=
    find_in_front hfind (List.take_prefix _ _) (by rw [hhead]; exact Nat.le_refl _)
  have hread : ∃ buffer rest, readHead [] segments = .ok (buffer, rest) ∧
      buffer ++ rest.flatten = segments.flatten.take (split + 4) ++ segments.flatten.drop (split + 4) ∧
      (segments.flatten.take (split + 4)).length ≤ buffer.length :=
    readHead_ok (fun more => by rw [hhead]; exact find_append hfront more) (by omega) (by omega) hs
      (by rw [hcut, List.nil_append])
  obtain ⟨buffer, rest, hread, -⟩ := hread
  exact ⟨buffer, rest, hread⟩

/-- However a stream with a small enough head is cut into receives, the request
in it is the same: its head up to the blank line, and as much of what follows as
it asks for. -/
theorem parse_request_of_whole (bytes : Bytes) (split : Nat) (hfind : find blank_line bytes = some split)
    (hsmall : split + 4 ≤ 1024 * 1024 - 8191) (segments segments' : List Bytes) (h : Segments segments bytes)
    (h' : Segments segments' bytes) :
    parse_request segments = wholeRequest bytes split ∧ parse_request segments' = parse_request segments := by
  have hwhole : ∀ s, Segments s bytes → parse_request s = wholeRequest bytes split := by
    rintro s ⟨hs, rfl⟩
    obtain ⟨buffer, rest, hread⟩ := readHead_of_small (fun x hx => (hs x hx).2) hfind hsmall
    exact parse_request_of_head hread hfind
  exact ⟨hwhole segments h, (hwhole segments' h').trans (hwhole segments h).symm⟩

/-- A small request with a body that comes in two pieces. -/
def smallStream : Bytes := lit "PUT /a HTTP/1.1\r\nContent-Length: 2\r\n\r\nabc"

theorem smallStream_pieces : find blank_line smallStream = some 34 ∧
    parse_request [smallStream.take 36, smallStream.drop 36] = wholeRequest smallStream 34 ∧
    parse_request [smallStream] = parse_request [smallStream.take 36, smallStream.drop 36] := by
  have hfind : find blank_line smallStream = some 34 := by decide +kernel
  have hseg : Segments [smallStream] smallStream := ⟨by decide +kernel, List.append_nil _⟩
  have hseg' : Segments [smallStream.take 36, smallStream.drop 36] smallStream := ⟨by decide +kernel, by decide +kernel⟩
  exact ⟨hfind, parse_request_of_whole smallStream 34 hfind (by decide) _ _ hseg' hseg⟩

/-! ## The job of a connection -/

inductive SocketAction where
  | send (bytes : Bytes)
  | close
  deriving DecidableEq, Repr

/-- `response` in `run`; `serve` is the loop over the routes, which ends in the
handler of the first one that matches, or with a 404 (`Server.respond`). -/
def answer (serve : HttpRequest → HttpResponse) : Result HttpRequest → HttpResponse
  | .error _ => ⟨400, lit "application/json", lit "\x7b\x7d\n"⟩
  | .ok req => serve req

/-- What the job does with the socket after the reading. An exception ends it. -/
def job (limit : Nat) (serve : HttpRequest → HttpResponse) (segments : List Bytes) : List SocketAction :=
  match parse_request segments with
  | none => []
  | some parsed =>
    let bytes := serialize (answer serve parsed)
    [.send (bytes.take (sendSize limit bytes.length)), .close]

/-- The whole response is sent, once, and the socket is closed. -/
def Answered (limit : Nat) (serve : HttpRequest → HttpResponse) (segments : List Bytes) : Prop :=
  ∃ parsed, parse_request segments = some parsed ∧
    job limit serve segments = [.send (serialize (answer serve parsed)), .close]

/-- The text starts, after white space and a sign, with a number of 64 bits. -/
def StartsWithNumber (text : Str) : Prop :=
  (readSign (text.dropWhile isspace)).2.takeWhile isDigit ≠ [] ∧
    decimal ((readSign (text.dropWhile isspace)).2.takeWhile isDigit) < 2 ^ 64

/-- The receives up to the one with the end of the head, which is `split + 4`
bytes long, fit the limit. -/
def HeadInTime (segments : List Bytes) (split : Nat) : Prop :=
  ∃ front s rest, segments = front ++ s :: rest ∧ front.flatten.length < split + 4 ∧
    split + 4 ≤ (front.flatten ++ s).length ∧ (front.flatten ++ s).length ≤ 1024 * 1024

/-- If the head is read and has a content length, that is a number. -/
def LengthReadable (segments : List Bytes) : Prop :=
  ∀ split value, find blank_line segments.flatten = some split → HeadInTime segments split →
    (parseHead (segments.flatten.take split)).headers.lookup (lit "content-length") = some value → StartsWithNumber value

theorem stoull_isSome_iff (text : Str) : (stoull text).isSome = true ↔ StartsWithNumber text := by
  unfold stoull StartsWithNumber
  rcases readSign (text.dropWhile isspace) with ⟨negative, rest⟩
  simp only
  split
  · rename_i h
    simp only [Option.isSome_none, Bool.false_eq_true, false_iff, not_and_or, ne_eq, not_not, not_lt]
    exact h
  · rename_i h
    rw [not_or, not_le] at h
    exact ⟨fun _ => h, fun _ => rfl⟩

/-- The head is read when the receives up to its end fit the limit. -/
theorem readHead_isOk_iff {buffer : Str} {segments : List Bytes} {split : Nat}
    (hfind : find blank_line (buffer ++ segments.flatten) = some split) :
    (∃ b rest, readHead buffer segments = .ok (b, rest)) ↔ split + 4 ≤ buffer.length ∨
      ∃ front s rest, segments = front ++ s :: rest ∧ (buffer ++ front.flatten).length < split + 4 ∧
        split + 4 ≤ (buffer ++ front.flatten ++ s).length ∧ (buffer ++ front.flatten ++ s).length ≤ 1024 * 1024 := by
  have hpat : blank_line.length = 4 := rfl
  induction segments generalizing buffer with
  | nil =>
    rw [List.flatten_nil, List.append_nil] at hfind
    have hlen : split + 4 ≤ buffer.length := find_le hfind
    refine ⟨fun _ => .inl hlen, fun _ => ⟨buffer, [], ?_⟩⟩
    rw [readHead, if_neg (by rw [hfind]; simp)]
  | cons s segments ih =>
    rw [readHead]
    by_cases hlen : split + 4 ≤ buffer.length
    · have hsome : find blank_line buffer = some split := find_in_front hfind (List.prefix_append _ _) (by omega)
      rw [if_neg (by rw [hsome]; simp)]
      exact ⟨fun _ => .inl hlen, fun _ => ⟨buffer, s :: segments, rfl⟩⟩
    · have hnone : find blank_line buffer = none :=
        find_eq_none_of_short hfind (List.prefix_append _ _) (by omega)
      rw [if_pos hnone, or_iff_right hlen]
      rw [List.flatten_cons, ← List.append_assoc] at hfind
      by_cases hbig : (buffer ++ s).length > 1024 * 1024
      · rw [if_pos hbig]
        constructor
        · rintro ⟨b, rest, h⟩
          cases h
        · -- the limit is passed before the end of the head or with it
          rintro ⟨front, t, rest, heq, hfront, hend, hfit⟩
          exfalso
          cases front with
          | nil =>
            obtain ⟨rfl, -⟩ := List.cons.inj heq
            rw [List.flatten_nil, List.append_nil] at hfit
            omega
          | cons x front =>
            obtain ⟨rfl, -⟩ := List.cons.inj heq
            rw [List.flatten_cons] at hfit
            simp only [List.length_append] at hfit hbig
            omega
      · rw [if_neg hbig]
        refine (ih hfind).trans ?_
        constructor
        · rintro (h | ⟨front, t, rest, rfl, hfront, hend, hfit⟩)
          · refine ⟨[], s, segments, rfl, ?_, ?_, ?_⟩
            · rw [List.flatten_nil, List.append_nil]
              omega
            · rwa [List.flatten_nil, List.append_nil]
            · rw [List.flatten_nil, List.append_nil]
              omega
          · exact ⟨s :: front, t, rest, rfl, by rwa [List.flatten_cons, ← List.append_assoc],
              by rwa [List.flatten_cons, ← List.append_assoc], by rwa [List.flatten_cons, ← List.append_assoc]⟩
        · rintro ⟨front, t, rest, heq, hfront, hend, hfit⟩
          cases front with
          | nil =>
            obtain ⟨rfl, -⟩ := List.cons.inj heq
            rw [List.flatten_nil, List.append_nil] at hend
            exact .inl hend
          | cons x front =>
            obtain ⟨rfl, rfl⟩ := List.cons.inj heq
            rw [List.flatten_cons, ← List.append_assoc] at hfront hend hfit
            exact .inr ⟨front, t, rest, rfl, hfront, hend, hfit⟩

theorem headInTime_iff {segments : List Bytes} {split : Nat} (hfind : find blank_line segments.flatten = some split) :
    (∃ b rest, readHead [] segments = .ok (b, rest)) ↔ HeadInTime segments split := by
  have hiff : (∃ b rest, readHead [] segments = .ok (b, rest)) ↔ split + 4 ≤ ([] : Str).length ∨ HeadInTime segments split :=
    readHead_isOk_iff hfind
  rw [hiff, or_iff_right (by simp)]

/-- Reading the request throws exactly when its content length is no number. -/
theorem parse_request_isSome_iff (segments : List Bytes) :
    (parse_request segments).isSome = true ↔ LengthReadable segments := by
  rcases hread : readHead [] segments with e | ⟨buffer, rest⟩
  · have hparse : parse_request segments = some (.error e) := by
      unfold parse_request
      rw [hread]
    rw [hparse]
    refine ⟨fun _ split value hfind hintime => ?_, fun _ => rfl⟩
    obtain ⟨b, rest, hok⟩ := (headInTime_iff hfind).2 hintime
    rw [hread] at hok
    cases hok
  · obtain ⟨hflat, split, hbuffer⟩ := readHead_spec hread
    rw [List.nil_append] at hflat
    have hfind : find blank_line segments.flatten = some split := by
      rw [← hflat]
      exact find_append hbuffer _
    have hintime : HeadInTime segments split := (headInTime_iff hfind).1 ⟨buffer, rest, hread⟩
    rw [parse_request_of_head hread hfind, wholeRequest, Option.isSome_map]
    have hlength : (contentLength (parseHead (segments.flatten.take split))).isSome = true ↔
        ∀ value, (parseHead (segments.flatten.take split)).headers.lookup (lit "content-length") = some value →
          StartsWithNumber value := by
      unfold contentLength
      cases (parseHead (segments.flatten.take split)).headers.lookup (lit "content-length") with
      | none => simp
      | some value => simp [stoull_isSome_iff]
    rw [hlength]
    constructor
    · intro h split' value hfind' _ hvalue
      obtain rfl : split = split' := by
        rw [hfind] at hfind'
        exact Option.some.inj hfind'
      exact h value hvalue
    · exact fun h value hvalue => h split value hfind hintime hvalue

/-- A connection is answered exactly when the content length of its request is a
number, and the response fits one `send`. -/
theorem answered_iff (limit : Nat) (serve : HttpRequest → HttpResponse) (segments : List Bytes) :
    Answered limit serve segments ↔ LengthReadable segments ∧
      ∀ parsed, parse_request segments = some parsed → (serialize (answer serve parsed)).length ≤ min limit
        (2 ^ 31 - 1) := by
  rw [← parse_request_isSome_iff]
  constructor
  · rintro ⟨parsed, hparsed, hjob⟩
    refine ⟨by rw [hparsed]; rfl, fun parsed' hparsed' => ?_⟩
    obtain rfl : parsed = parsed' := by
      rw [hparsed] at hparsed'
      exact Option.some.inj hparsed'
    rw [job, hparsed] at hjob
    have hbytes := SocketAction.send.inj (List.cons.inj hjob).1
    by_contra hbig
    have hlt : sendSize limit _ < _ := sendSize_lt (Nat.not_le.1 hbig)
    have hlen := congrArg List.length hbytes
    rw [List.length_take] at hlen
    omega
  · rintro ⟨hsome, hsmall⟩
    obtain ⟨parsed, hparsed⟩ := Option.isSome_iff_exists.1 hsome
    refine ⟨parsed, hparsed, ?_⟩
    rw [job, hparsed]
    simp only
    rw [sendSize_eq (hsmall parsed hparsed), List.take_length]

/-- A content length that is a word. The handler is that of `/healthz`. -/
theorem worded_length_unanswered :
    Segments [lit "GET /healthz HTTP/1.1\r\nContent-Length: abc\r\n\r\n"]
      (lit "GET /healthz HTTP/1.1\r\nContent-Length: abc\r\n\r\n") ∧
    ¬ Answered linuxLimit (fun _ => ⟨200, lit "application/json", lit "\x7b\"ok\":true,\"node\":\"a\"\x7d\n"⟩)
      [lit "GET /healthz HTTP/1.1\r\nContent-Length: abc\r\n\r\n"] ∧
    job linuxLimit (fun _ => ⟨200, lit "application/json", lit "\x7b\"ok\":true,\"node\":\"a\"\x7d\n"⟩)
      [lit "GET /healthz HTTP/1.1\r\nContent-Length: abc\r\n\r\n"] = [] := by
  have hnone : parse_request [lit "GET /healthz HTTP/1.1\r\nContent-Length: abc\r\n\r\n"] = none := by decide +kernel
  refine ⟨⟨by decide +kernel, List.append_nil _⟩, fun ⟨parsed, hparsed, _⟩ => ?_, ?_⟩
  · rw [hnone] at hparsed
    cases hparsed
  · rw [job, hnone]

end Dstore.HttpServer
