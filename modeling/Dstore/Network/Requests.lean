import Dstore.Network.HttpServer
/-!
# Requests on the wire

The requests of the command line client and of `NodeClient`, what
`http_request` makes of them and what `parse_request` reads back. Path and
header values are written raw, so a request survives exactly when no character
of it means something to the reader and its sizes fit the casts and limits of
both sides (`request_survives_iff`).
-/
open Dstore.Lib

namespace Dstore.HttpServer

/-! ## The requests -/

inductive ClientCall where
  | upload (object : Str) (file : Bytes)
  | download (object : Str)
  | delete (object : Str)
  | metadata (object : Str)
  | put_chunk (checksum : Str) (size : Nat) (bytes : Bytes)
  | get_chunk (checksum : Str)
  | delete_chunk (checksum : Str)
  | heartbeat (from_node_id : Str)
  deriving DecidableEq, Repr

/-- `headers["Authorization"]`, which every request has. -/
def authorization (token : Str) : AList fun _ : Str => Str :=
  (∅ : AList fun _ : Str => Str).insert (lit "Authorization") (lit "Bearer " ++ token)

/-- The request that `main` of the client or a method of `NodeClient` passes to
`http_request`. -/
def ClientCall.request (token : Str) : ClientCall → HttpRequest
  | upload object file => ⟨lit "PUT", lit "/v1/objects/" ++ object, authorization token, file⟩
  | download object => ⟨lit "GET", lit "/v1/objects/" ++ object, authorization token, []⟩
  | delete object => ⟨lit "DELETE", lit "/v1/objects/" ++ object, authorization token, []⟩
  | metadata object => ⟨lit "GET", lit "/v1/metadata/" ++ object, authorization token, []⟩
  | put_chunk checksum size bytes =>
    ⟨lit "PUT", lit "/v1/chunks/" ++ checksum, (authorization token).insert (lit "X-Chunk-Size") (to_string size), bytes⟩
  | get_chunk checksum => ⟨lit "GET", lit "/v1/chunks/" ++ checksum, authorization token, []⟩
  | delete_chunk checksum => ⟨lit "DELETE", lit "/v1/chunks/" ++ checksum, authorization token, []⟩
  | heartbeat from_node_id => ⟨lit "POST", lit "/v1/heartbeat", authorization token, from_node_id⟩

/-! ## The head as lines -/

abbrev Header := Sigma fun _ : Str => Str

def headerLine (header : Header) : Str := header.1 ++ 58 :: 32 :: header.2

def requestLine (request : HttpRequest) : Str := request.method ++ 32 :: (request.path ++ lit " HTTP/1.1")

/-- The headers that are written before the last one, in order. -/
def writtenHeaders (host : Str) (order : List Header) (request : HttpRequest) : List Header :=
  ⟨lit "Host", host⟩ :: order ++ [⟨lit "Content-Length", to_string request.body.length⟩]

def connection : Header := ⟨lit "Connection", lit "close"⟩

def requestLines (host : Str) (order : List Header) (request : HttpRequest) : List Str :=
  requestLine request :: (writtenHeaders host order request).map headerLine ++ [headerLine connection]

theorem flatMap_headerLine (order : List Header) :
    (order.flatMap fun header => header.1 ++ lit ": " ++ header.2 ++ lit "\r\n") =
      (order.map headerLine).flatMap fun l => l ++ crlf := by
  rw [List.flatMap_map]
  congr 1
  funext header
  simp [headerLine, lit, crlf]

theorem requestHead_eq (host : Str) (order : List Header) (request : HttpRequest) :
    requestHead host order request = headText (requestLines host order request) := by
  have h1 : lit " HTTP/1.1\r\n" = lit " HTTP/1.1" ++ crlf := rfl
  have h2 : lit "\r\nConnection: close\r\n\r\n" = crlf ++ (headerLine connection ++ (crlf ++ crlf)) := rfl
  have h3 : lit "Host: " = lit "Host" ++ [58, 32] := rfl
  have h4 : lit "Content-Length: " = lit "Content-Length" ++ [58, 32] := rfl
  have h5 : lit " " = [32] := rfl
  have h6 : lit "\r\n" = crlf := rfl
  unfold requestHead
  rw [flatMap_headerLine, h1, h2, h3, h4, h5, h6]
  unfold headText requestLines writtenHeaders requestLine
  simp only [List.flatMap_append, List.flatMap_cons, List.flatMap_nil, List.map_append, List.map_cons, List.map_nil,
    headerLine, List.append_assoc, List.cons_append, List.nil_append]

/-- The lines as the reader gets them, without the blank line. -/
def joined (lines : List Str) (last : Str) : Str := (lines.flatMap fun l => l ++ crlf) ++ last

theorem headText_joined (lines : List Str) (last : Str) :
    headText (lines ++ [last]) = joined lines last ++ blank_line := by
  unfold headText joined
  simp [crlf, blank_line, lit]

theorem getlines_joined {lines : List Str} {last : Str} (h : ∀ l ∈ lines, newline ∉ l) (hne : last ≠ [])
    (hlast : newline ∉ last) : getlines [] (joined lines last) = lines.map (· ++ [13]) ++ [last] := by
  induction lines with
  | nil =>
    unfold joined
    rw [List.flatMap_nil, List.nil_append, getlines_unfinished hlast, List.nil_append, if_neg hne]
    rfl
  | cons l lines ih =>
    obtain ⟨hl, h⟩ := List.forall_mem_cons.1 h
    have hl13 : newline ∉ l ++ [13] := by
      rw [List.mem_append, not_or]
      exact ⟨hl, by decide⟩
    have hcons : joined (l :: lines) last = (l ++ [13]) ++ newline :: joined lines last := by
      unfold joined
      simp [crlf, lit, newline]
    rw [hcons, getlines_append hl13, ih h]
    rfl

/-! ## Reading the head -/

/-- A header as the reader stores it. -/
def stored (header : Header) : Header := ⟨lower header.1, header.2.dropWhile (· == 32)⟩

theorem parseHeader_line {header : Header} (h : (58 : UInt8) ∉ header.1) (headers : AList fun _ : Str => Str) {line : Str}
    (hline : line = headerLine header ++ [13] ∨ line = headerLine header ∧ line.getLast? ≠ some 13) :
    parseHeader headers line = headers.insert (stored header).1 (stored header).2 := by
  have hpop : (if line.getLast? = some 13 then line.dropLast else line) = headerLine header := by
    rcases hline with rfl | ⟨rfl, hlast⟩
    · simp
    · exact if_neg hlast
  have hfind : find (lit ":") (headerLine header) = some header.1.length := by
    unfold headerLine
    rw [show lit ":" = [58] from rfl, find_skip h, find_at_start (by exact ⟨_, rfl⟩)]
    simp
  have htake : (headerLine header).take header.1.length = header.1 := List.take_left
  have hdrop : (headerLine header).drop (header.1.length + 1) = 32 :: header.2 := by
    unfold headerLine
    rw [← List.drop_drop, List.drop_left]
    rfl
  unfold parseHeader
  simp only [hpop, hfind, htake, hdrop]
  rfl

/-- What is stored after all lines. -/
def storedAll (headers : AList fun _ : Str => Str) (hs : List Header) : AList fun _ : Str => Str :=
  hs.foldl (fun headers h => headers.insert (stored h).1 (stored h).2) headers

theorem foldl_parseHeader {hs : List Header} (h : ∀ header ∈ hs, (58 : UInt8) ∉ header.1)
    (headers : AList fun _ : Str => Str) :
    ((hs.map headerLine).map (· ++ [13]) ++ [headerLine connection]).foldl parseHeader headers =
      storedAll headers (hs ++ [connection]) := by
  induction hs generalizing headers with
  | nil =>
    have hcolon : (58 : UInt8) ∉ connection.1 := by decide
    exact parseHeader_line hcolon headers (.inr ⟨rfl, by decide⟩)
  | cons header hs ih =>
    obtain ⟨hcolon, h⟩ := List.forall_mem_cons.1 h
    have hline := parseHeader_line hcolon headers (.inl rfl)
    rw [List.map_cons, List.map_cons, List.cons_append, List.foldl_cons, hline, ih h]
    rfl

theorem lookup_storedAll_of_not_mem {hs : List Header} {k : Str} (h : k ∉ hs.map fun x => (stored x).1)
    (headers : AList fun _ : Str => Str) : (storedAll headers hs).lookup k = headers.lookup k := by
  induction hs generalizing headers with
  | nil => rfl
  | cons x hs ih =>
    rw [List.map_cons, List.mem_cons, not_or] at h
    exact (ih h.2 _).trans (AList.lookup_insert_ne h.1)

/-- Names that stay different keep their values. -/
theorem lookup_storedAll {hs : List Header} (hn : (hs.map fun x => (stored x).1).Nodup) {x : Header} (hx : x ∈ hs)
    (headers : AList fun _ : Str => Str) : (storedAll headers hs).lookup (stored x).1 = some (stored x).2 := by
  induction hs generalizing headers with
  | nil => cases hx
  | cons y hs ih =>
    rw [List.map_cons, List.nodup_cons] at hn
    rcases List.mem_cons.1 hx with rfl | hx
    · exact (lookup_storedAll_of_not_mem hn.1 _).trans (AList.lookup_insert _)
    · exact ih hn.2 hx _

theorem dropWhile_space {s : Str} {c : UInt8} (h : c ≠ 32) : (c :: s).dropWhile (· == 32) = c :: s :=
  List.dropWhile_cons_of_neg (by simpa using h)

/-- A number does not start with a space. -/
theorem dropWhile_to_string_space (n : Nat) : (to_string n).dropWhile (· == 32) = to_string n := by
  obtain ⟨x, w, hw⟩ := List.exists_cons_of_ne_nil (to_string_ne_nil n)
  have hx := isDigit_of_mem_to_string (x := x) (n := n) (by rw [hw]; exact List.mem_cons_self)
  rw [hw]
  apply dropWhile_space
  rintro rfl
  exact absurd hx.2.1 (by decide)

theorem newline_headerLine {header : Header} (hname : newline ∉ header.1) (hvalue : newline ∉ header.2) :
    newline ∉ headerLine header := by
  have hcolon : newline ≠ 58 := by decide
  have hspace : newline ≠ 32 := by decide
  simp [headerLine, hname, hvalue, hcolon, hspace]

/-- Nothing in the request means anything to the reader. -/
structure Wellformed (host : Str) (order : List Header) (request : HttpRequest) : Prop where
  method_ne : request.method ≠ []
  method_space : ∀ c ∈ request.method, isspace c = false
  path_ne : request.path ≠ []
  path_space : ∀ c ∈ request.path, isspace c = false
  host_newline : newline ∉ host
  header_colon : ∀ h ∈ order, (58 : UInt8) ∉ h.1
  header_newline : ∀ h ∈ order, newline ∉ headerLine h
  header_value : ∀ h ∈ order, h.2.dropWhile (· == 32) = h.2
  names : ((writtenHeaders host order request ++ [connection]).map fun x => (stored x).1).Nodup

section Reading
variable {host : Str} {order : List Header} {request : HttpRequest}

theorem Wellformed.colon (h : Wellformed host order request) :
    ∀ header ∈ writtenHeaders host order request, (58 : UInt8) ∉ header.1 := by
  intro header hm
  simp only [writtenHeaders, List.mem_append, List.mem_cons, List.not_mem_nil, or_false] at hm
  have hhost : (58 : UInt8) ∉ lit "Host" := by decide
  have hlength : (58 : UInt8) ∉ lit "Content-Length" := by decide
  rcases hm with (rfl | hm) | rfl
  · exact hhost
  · exact h.header_colon header hm
  · exact hlength

theorem Wellformed.newline_headers (h : Wellformed host order request) :
    ∀ header ∈ writtenHeaders host order request, newline ∉ headerLine header := by
  intro header hm
  simp only [writtenHeaders, List.mem_append, List.mem_cons, List.not_mem_nil, or_false] at hm
  have hhost : newline ∉ lit "Host" := by decide
  have hlength : newline ∉ lit "Content-Length" := by decide
  have hnum : newline ∉ to_string request.body.length := newline_not_mem fun c hc => (isDigit_of_mem_to_string hc).2.1
  rcases hm with (rfl | hm) | rfl
  · exact newline_headerLine hhost h.host_newline
  · exact h.header_newline header hm
  · exact newline_headerLine hlength hnum

theorem Wellformed.newline_requestLine (h : Wellformed host order request) : newline ∉ requestLine request := by
  have hmethod := newline_not_mem h.method_space
  have hpath := newline_not_mem h.path_space
  have hversion : newline ∉ lit " HTTP/1.1" := by decide
  have hspace : newline ≠ 32 := by decide
  simp [requestLine, hmethod, hpath, hversion, hspace]

theorem Wellformed.isLine (h : Wellformed host order request) : ∀ l ∈ requestLines host order request, IsLine l := by
  intro l hl
  simp only [requestLines, List.mem_append, List.mem_cons, List.mem_map, List.not_mem_nil, or_false] at hl
  rcases hl with (rfl | ⟨header, hm, rfl⟩) | rfl
  · exact ⟨by simp [requestLine], h.newline_requestLine⟩
  · exact ⟨by simp [headerLine], h.newline_headers header hm⟩
  · exact ⟨by decide, by decide⟩

/-- The first blank line is the one that ends the head. -/
theorem Wellformed.find_head (h : Wellformed host order request) (rest : Str) :
    find blank_line (requestHead host order request ++ rest) = some ((requestHead host order request).length - 4) := by
  rw [requestHead_eq]
  exact find_blank_line (by simp [requestLines]) h.isLine rest

theorem four_le_requestHead (host : Str) (order : List Header) (request : HttpRequest) :
    4 ≤ (requestHead host order request).length := by
  rw [requestHead_eq]
  simp [headText, requestLines, crlf, lit]
  omega

/-- The head without its blank line. -/
def headers (host : Str) (order : List Header) (request : HttpRequest) : Str :=
  joined (requestLine request :: (writtenHeaders host order request).map headerLine) (headerLine connection)

theorem take_head (rest : Str) :
    (requestHead host order request ++ rest).take ((requestHead host order request).length - 4) =
      headers host order request := by
  have heq : requestHead host order request = headers host order request ++ blank_line := by
    rw [requestHead_eq]
    exact headText_joined _ _
  have hlen : (requestHead host order request).length - 4 = (headers host order request).length := by
    rw [heq, List.length_append]
    exact Nat.add_sub_cancel _ 4
  rw [hlen, heq, List.append_assoc, List.take_left]

/-- The reader gets the method, the path and the headers. -/
theorem Wellformed.parseHead_headers (h : Wellformed host order request) :
    parseHead (headers host order request) =
      ⟨request.method, request.path, storedAll ∅ (writtenHeaders host order request ++ [connection]), []⟩ := by
  have hspace : isspace 32 = true := by decide
  -- the text after the path starts with the rest of the request line
  have htext : headers host order request = request.method ++ 32 :: (request.path ++ 32 :: ((lit "HTTP/1.1" ++ [13]) ++
      newline :: joined ((writtenHeaders host order request).map headerLine) (headerLine connection))) := by
    unfold headers joined requestLine
    simp [crlf, lit, newline]
  have hfirst : getlines [] (32 :: ((lit "HTTP/1.1" ++ [13]) ++
      newline :: joined ((writtenHeaders host order request).map headerLine) (headerLine connection))) =
      (32 :: (lit "HTTP/1.1" ++ [13])) ::
        getlines [] (joined ((writtenHeaders host order request).map headerLine) (headerLine connection)) := by
    rw [← List.cons_append, getlines_append (by decide)]
    rfl
  have hlines : getlines [] (joined ((writtenHeaders host order request).map headerLine) (headerLine connection)) =
      ((writtenHeaders host order request).map headerLine).map (· ++ [13]) ++ [headerLine connection] := by
    apply getlines_joined _ (by decide) (by decide)
    intro l hl
    obtain ⟨header, hm, rfl⟩ := List.mem_map.1 hl
    exact h.newline_headers header hm
  unfold parseHead
  rw [htext, readWord_append h.method_ne h.method_space hspace]
  simp only
  rw [readWord_space hspace, readWord_append h.path_ne h.path_space hspace]
  simp only
  rw [hfirst, List.tail_cons, hlines, foldl_parseHeader h.colon]

end Reading

/-! ## The loops over `recv` -/

/-- What has been read and what is left are the bytes that were sent. -/
theorem readHead_spec {buffer : Str} {segments : List Bytes} {buffer' : Str} {rest : List Bytes}
    (h : readHead buffer segments = .ok (buffer', rest)) :
    buffer' ++ rest.flatten = buffer ++ segments.flatten ∧ ∃ split, find blank_line buffer' = some split := by
  induction segments generalizing buffer with
  | nil =>
    unfold readHead at h
    split at h
    · cases h
    · rename_i hfind
      cases h
      exact ⟨rfl, Option.ne_none_iff_exists'.1 hfind⟩
  | cons s segments ih =>
    unfold readHead at h
    split at h
    · split at h
      · cases h
      · obtain ⟨heq, hsplit⟩ := ih h
        exact ⟨by rw [heq, List.flatten_cons, List.append_assoc], hsplit⟩
    · rename_i hfind
      cases h
      exact ⟨rfl, Option.ne_none_iff_exists'.1 hfind⟩

/-- A head that is found in time: no segment that is read before it is found
makes the buffer too long. -/
theorem readHead_ok {head body : Str} (hfind : ∀ rest, find blank_line (head ++ rest) = some (head.length - 4))
    (h4 : 4 ≤ head.length) (hfit : min (head.length + 8191) (head.length + body.length) ≤ 1024 * 1024) {buffer : Str}
    {segments : List Bytes} (hs : ∀ s ∈ segments, s.length ≤ 8192) (h : buffer ++ segments.flatten = head ++ body) :
    ∃ buffer' rest, readHead buffer segments = .ok (buffer', rest) ∧ buffer' ++ rest.flatten = head ++ body ∧
      head.length ≤ buffer'.length := by
  have hpat : blank_line.length = 4 := rfl
  induction segments generalizing buffer with
  | nil =>
    rw [List.flatten_nil, List.append_nil] at h
    refine ⟨buffer, [], ?_, by rw [List.flatten_nil, List.append_nil, h], by rw [h, List.length_append]; omega⟩
    unfold readHead
    rw [if_neg (by rw [h, hfind]; simp)]
  | cons s segments ih =>
    obtain ⟨hs8192, hs⟩ := List.forall_mem_cons.1 hs
    have hstart : buffer <+: head ++ body := ⟨_, h⟩
    by_cases hshort : buffer.length < head.length
    · have hnone : find blank_line buffer = none :=
        find_eq_none_of_short (hfind body) hstart (by omega)
      have happend : (buffer ++ s) ++ segments.flatten = head ++ body := by
        rw [← h, List.flatten_cons, List.append_assoc]
      have hsmall : ¬ (buffer ++ s).length > 1024 * 1024 := by
        have hlen := congrArg List.length happend
        rw [List.length_append, List.length_append] at hlen
        rw [List.length_append] at hlen ⊢
        omega
      unfold readHead
      rw [if_pos hnone, if_neg hsmall]
      exact ih hs happend
    · have hsome : find blank_line buffer = some (head.length - 4) :=
        find_in_front (hfind body) hstart (by omega)
      refine ⟨buffer, s :: segments, ?_, h, by omega⟩
      unfold readHead
      rw [if_neg (by simp [hsome])]

theorem readBody_ok {n : Nat} {body : Bytes} {segments : List Bytes} (h : n ≤ (body ++ segments.flatten).length) :
    readBody n body segments = .ok ((body ++ segments.flatten).take n) := by
  induction segments generalizing body with
  | nil =>
    rw [List.flatten_nil, List.append_nil] at h ⊢
    unfold readBody
    rw [if_neg (by omega)]
  | cons s segments ih =>
    unfold readBody
    split
    · rw [List.flatten_cons, ← List.append_assoc] at h ⊢
      exact ih h
    · rw [List.take_append_of_le_length (by omega)]

theorem length_le_of_readBody {n : Nat} {body out : Bytes} {segments : List Bytes} (h : readBody n body segments = .ok out) :
    out.length ≤ (body ++ segments.flatten).length := by
  induction segments generalizing body with
  | nil =>
    unfold readBody at h
    split at h
    · cases h
    · cases h
      rw [List.length_take, List.flatten_nil, List.append_nil]
      omega
  | cons s segments ih =>
    unfold readBody at h
    split at h
    · rw [List.flatten_cons, ← List.append_assoc]
      exact ih h
    · cases h
      rw [List.length_take, List.length_append]
      omega

theorem stoull_to_string {n : Nat} (h : n < 2 ^ 64) : stoull (to_string n) = some n := by
  obtain ⟨hdrop, hsign⟩ := readSign_to_string n []
  rw [List.append_nil] at hdrop hsign
  unfold stoull
  rw [hdrop, hsign]
  simp only [takeWhile_to_string, decimal_to_string]
  rw [if_neg (by simp [to_string_ne_nil]; omega)]
  rfl

/-! ## A request that survives -/

/-- The request that the server parses is the one the client made. -/
def RequestSurvives (limit : Nat) (host : Str) (order : List Header) (request : HttpRequest) : Prop :=
  ∀ segments, Segments segments (sent limit host order request) →
    ∃ parsed, parse_request segments = some (.ok parsed) ∧ parsed.method = request.method ∧ parsed.path = request.path ∧
      parsed.body = request.body ∧
      ∀ k v, request.headers.lookup k = some v → parsed.headers.lookup (lower k) = some v

theorem sendSize_eq {limit size : Nat} (h : size ≤ min limit (2 ^ 31 - 1)) : sendSize limit size = size := by
  unfold sendSize
  rw [if_pos (by omega)]
  omega

theorem sendSize_lt {limit size : Nat} (h : min limit (2 ^ 31 - 1) < size) : sendSize limit size < size := by
  unfold sendSize
  split <;> omega

section Surviving
variable {limit : Nat} {host : Str} {order : List Header} {request : HttpRequest}

theorem sent_eq (hhead : (requestHead host order request).length ≤ min limit (2 ^ 31 - 1))
    (hbody : request.body.length ≤ min limit (2 ^ 31 - 1)) :
    sent limit host order request = requestHead host order request ++ request.body := by
  unfold sent
  rw [sendSize_eq hhead, sendSize_eq hbody, List.take_length, List.take_length]

/-- The headers of the request are found again. -/
theorem Wellformed.lookup (h : Wellformed host order request) (horder : order.Perm request.headers.entries) {k v : Str}
    (hk : request.headers.lookup k = some v) :
    (storedAll ∅ (writtenHeaders host order request ++ [connection])).lookup (lower k) = some v := by
  have hmem : (⟨k, v⟩ : Header) ∈ order := horder.mem_iff.2 (AList.mem_lookup_iff.1 hk)
  have hwritten : (⟨k, v⟩ : Header) ∈ writtenHeaders host order request ++ [connection] := by
    simp [writtenHeaders, hmem]
  have hfound := lookup_storedAll h.names hwritten ∅
  have hvalue : (stored ⟨k, v⟩).2 = v := h.header_value _ hmem
  rw [hvalue] at hfound
  exact hfound

theorem Wellformed.content_length (h : Wellformed host order request) :
    (storedAll ∅ (writtenHeaders host order request ++ [connection])).lookup (lit "content-length") =
      some (to_string request.body.length) := by
  have hwritten : (⟨lit "Content-Length", to_string request.body.length⟩ : Header) ∈
      writtenHeaders host order request ++ [connection] := by
    simp [writtenHeaders]
  have hfound := lookup_storedAll h.names hwritten ∅
  have hstored : stored ⟨lit "Content-Length", to_string request.body.length⟩ =
      ⟨lit "content-length", to_string request.body.length⟩ := by
    unfold stored
    rw [dropWhile_to_string_space]
    rfl
  rw [hstored] at hfound
  exact hfound

theorem Wellformed.survives (h : Wellformed host order request) (horder : order.Perm request.headers.entries)
    (hhead : (requestHead host order request).length ≤ limit) (hbody : request.body.length ≤ min limit (2 ^ 31 - 1))
    (hfit : min ((requestHead host order request).length + 8191)
      ((requestHead host order request).length + request.body.length) ≤
      1024 * 1024) : RequestSurvives limit host order request := by
  have h4 := four_le_requestHead host order request
  intro segments hs
  have hflat := hs.2
  rw [sent_eq (by omega) hbody] at hflat
  obtain ⟨buffer, rest, hread, hrest, hlen⟩ := readHead_ok h.find_head h4 hfit (fun s hm => (hs.1 s hm).2)
    (show ([] : Str) ++ segments.flatten = _ from hflat)
  -- the buffer is the head and a part of the body
  obtain ⟨part, rfl⟩ : requestHead host order request <+: buffer :=
    List.prefix_of_prefix_length_le (List.prefix_append _ _) ⟨_, hrest⟩ hlen
  rw [List.append_assoc, List.append_cancel_left_eq] at hrest
  refine ⟨⟨request.method, request.path, storedAll ∅ (writtenHeaders host order request ++ [connection]), request.body⟩, ?_,
    rfl, rfl, rfl, fun k v hk => h.lookup horder hk⟩
  unfold parse_request
  rw [hread]
  simp only [h.find_head, Option.getD_some, take_head, h.parseHead_headers, h.content_length,
    stoull_to_string (show request.body.length < 2 ^ 64 by omega), Option.map_some, Nat.sub_add_cancel h4, List.drop_left]
  rw [readBody_ok (by rw [hrest]), hrest, List.take_length]
  rfl

/-! ## What a request that survives is like -/

theorem parse_request_inv {segments : List Bytes} {parsed : HttpRequest} (h : parse_request segments = some (.ok parsed)) :
    ∃ buffer rest split n, readHead [] segments = .ok (buffer, rest) ∧ find blank_line buffer = some split ∧
      parsed.path = (parseHead (buffer.take split)).path ∧ parsed.headers = (parseHead (buffer.take split)).headers ∧
      readBody n (buffer.drop (split + 4)) rest = .ok parsed.body := by
  unfold parse_request at h
  rcases hread : readHead [] segments with e | ⟨buffer, rest⟩
  · simp [hread] at h
  · obtain ⟨-, split, hsplit⟩ := readHead_spec hread
    simp only [hread, hsplit, Option.getD_some] at h
    obtain ⟨n, -, hn⟩ := Option.map_eq_some_iff.1 h
    rcases hbody : readBody n (buffer.drop (split + 4)) rest with e | body
    · rw [hbody] at hn
      cases hn
    · rw [hbody] at hn
      cases hn
      exact ⟨buffer, rest, split, n, rfl, hsplit, rfl, rfl, hbody⟩

/-- A path that was read has no white space. -/
theorem isspace_parseHead {text : Str} {c : UInt8} (h : c ∈ (parseHead text).path) : isspace c = false := by
  have := List.mem_takeWhile_imp (show c ∈ ((readWord text).2.dropWhile isspace).takeWhile fun c => !isspace c from h)
  simpa using this

theorem newline_getlines {acc text : Str} (h : newline ∉ acc) : ∀ l ∈ getlines acc text, newline ∉ l := by
  induction text generalizing acc with
  | nil =>
    unfold getlines
    split
    · simp
    · simpa using h
  | cons c text ih =>
    unfold getlines
    split
    · exact List.forall_mem_cons.2 ⟨h, ih (by simp)⟩
    · rename_i hc
      apply ih
      rw [List.mem_append, not_or]
      exact ⟨h, by simpa using Ne.symm hc⟩

theorem newline_parseHeader {headers : AList fun _ : Str => Str} (h : ∀ k v, headers.lookup k = some v → newline ∉ v)
    {line : Str} (hl : newline ∉ line) : ∀ k v, (parseHeader headers line).lookup k = some v → newline ∉ v := by
  have hpop : newline ∉ (if line.getLast? = some 13 then line.dropLast else line) := by
    split
    · exact fun hm => hl (List.dropLast_subset _ hm)
    · exact hl
  intro k v hk
  unfold parseHeader at hk
  generalize (if line.getLast? = some 13 then line.dropLast else line) = l at hk hpop
  rcases hfind : find (lit ":") l with _ | colon
  · simp only [hfind] at hk
    exact h k v hk
  · simp only [hfind] at hk
    by_cases hkey : k = lower (l.take colon)
    · rw [hkey, AList.lookup_insert, Option.some.injEq] at hk
      subst hk
      exact fun hm => hpop (List.mem_of_mem_drop (List.dropWhile_subset _ hm))
    · rw [AList.lookup_insert_ne hkey] at hk
      exact h k v hk

/-- A header value that was read has no newline. -/
theorem newline_parseHead {text : Str} {k v : Str} (h : (parseHead text).headers.lookup k = some v) : newline ∉ v := by
  have hfold : ∀ (lines : List Str) (headers : AList fun _ : Str => Str), (∀ l ∈ lines, newline ∉ l) →
      (∀ k v, headers.lookup k = some v → newline ∉ v) →
      ∀ k v, (lines.foldl parseHeader headers).lookup k = some v → newline ∉ v := by
    intro lines
    induction lines with
    | nil => exact fun headers _ hh => hh
    | cons l lines ih =>
      intro headers hl hh
      obtain ⟨hline, hl⟩ := List.forall_mem_cons.1 hl
      exact ih _ hl (newline_parseHeader hh hline)
  refine hfold _ ∅ (fun l hl => ?_) (by simp) k v h
  exact newline_getlines (by simp) l (List.mem_of_mem_tail hl)

/-- A success means that all of the request was sent. -/
theorem Wellformed.whole_of_parse (h : Wellformed host order request) {segments : List Bytes} {parsed : HttpRequest}
    (hs : Segments segments (sent limit host order request)) (hp : parse_request segments = some (.ok parsed))
    (hbody : parsed.body = request.body) :
    (requestHead host order request).length ≤ min limit (2 ^ 31 - 1) ∧ request.body.length ≤ min limit (2 ^ 31 - 1) := by
  obtain ⟨buffer, rest, split, n, hread, hfind, -, -, hreadBody⟩ := parse_request_inv hp
  obtain ⟨hflat, -⟩ := readHead_spec hread
  rw [List.nil_append, hs.2] at hflat
  have hpat : blank_line.length = 4 := rfl
  have hsplit := find_le hfind
  -- the body came out of what follows the blank line
  have hlen := length_le_of_readBody hreadBody
  rw [hbody, List.length_append, List.length_drop] at hlen
  have htotal := congrArg List.length hflat
  unfold sent at htotal
  rw [List.length_append, List.length_append, List.length_take, List.length_take] at htotal
  have hsent : find blank_line (sent limit host order request) = some split := by
    rw [← hflat]
    exact find_append hfind _
  have hcut : (requestHead host order request).length ≤ sendSize limit (requestHead host order request).length := by
    by_contra hlt
    rw [not_le] at hlt
    have hpart : (requestHead host order request).take (sendSize limit (requestHead host order request).length) <+:
        requestHead host order request := List.take_prefix _ _
    have hnone : find blank_line ((requestHead host order request).take
        (sendSize limit (requestHead host order request).length)) = none := by
      have hhead := h.find_head []
      rw [List.append_nil] at hhead
      refine find_eq_none_of_short hhead hpart ?_
      rw [List.length_take]
      have h4 := four_le_requestHead host order request
      omega
    have hlong : sendSize limit (requestHead host order request).length < split + 4 := by
      by_contra hle
      rw [not_lt] at hle
      have hsome := find_in_front hsent (List.prefix_append _ _) (by rw [List.length_take, hpat]; omega)
      rw [hnone] at hsome
      cases hsome
    omega
  constructor
  · by_contra hge
    have hlt : sendSize limit _ < _ := sendSize_lt (not_le.1 hge)
    omega
  · by_contra hge
    have hlt : sendSize limit _ < _ := sendSize_lt (not_le.1 hge)
    have hhead := h.find_head (request.body.take (sendSize limit request.body.length))
    unfold sent at hsent
    rw [List.take_of_length_le hcut, hhead, Option.some.injEq] at hsent
    have h4 := four_le_requestHead host order request
    omega

/-- Byte by byte. -/
def singles (bytes : Bytes) : List Bytes := bytes.map fun b => [b]

theorem flatten_singles (bytes : Bytes) : (singles bytes).flatten = bytes := by
  induction bytes with
  | nil => rfl
  | cons b bytes ih => simpa [singles] using ih

theorem segments_singles (bytes : Bytes) : Segments (singles bytes) bytes := by
  refine ⟨fun s hs => ?_, flatten_singles bytes⟩
  obtain ⟨b, -, rfl⟩ := List.mem_map.1 hs
  simp

/-- Bytes without a blank line are read one by one, or are too many. -/
theorem readHead_singles {buffer bytes : Str} (segments : List Bytes) (h : find blank_line (buffer ++ bytes) = none) :
    (∃ e, readHead buffer (singles bytes ++ segments) = .error e) ∨
      readHead buffer (singles bytes ++ segments) = readHead (buffer ++ bytes) segments := by
  induction bytes generalizing buffer with
  | nil =>
    rw [List.append_nil]
    exact .inr rfl
  | cons b bytes ih =>
    have hsplit : buffer ++ b :: bytes = (buffer ++ [b]) ++ bytes := by simp
    have hnone : find blank_line buffer = none := by
      rcases hfind : find blank_line buffer with _ | i
      · rfl
      · rw [find_append hfind] at h
        cases h
    have hcons : singles (b :: bytes) ++ segments = [b] :: (singles bytes ++ segments) := rfl
    rw [hcons, readHead, if_pos hnone]
    split
    · exact .inl ⟨_, rfl⟩
    · rw [hsplit] at h ⊢
      exact ih h

/-- The bytes of the head but the last one, then as much as `recv` can take. -/
def lateSegments (head body : Bytes) : List Bytes :=
  singles head.dropLast ++ ((head.getLastD 0 :: body).take 8192) :: singles ((head.getLastD 0 :: body).drop 8192)

theorem segments_late {head : Bytes} (hne : head ≠ []) (body : Bytes) :
    Segments (lateSegments head body) (head ++ body) := by
  obtain ⟨front, x, rfl⟩ : ∃ front x, head = front ++ [x] := ⟨_, _, (List.dropLast_append_getLast hne).symm⟩
  unfold lateSegments
  rw [List.dropLast_concat, List.getLastD_concat]
  constructor
  · intro s hs
    rcases List.mem_append.1 hs with hs | hs
    · exact (segments_singles _).1 s hs
    · rcases List.mem_cons.1 hs with rfl | hs
      · simp
      · exact (segments_singles _).1 s hs
  · rw [List.flatten_append, List.flatten_cons, flatten_singles, flatten_singles, List.take_append_drop]
    simp

/-- A head of which the last byte comes together with too much. -/
theorem readHead_late {head body : Str} (hfind : ∀ rest, find blank_line (head ++ rest) = some (head.length - 4))
    (h4 : 4 ≤ head.length) (hbig : 1024 * 1024 < min (head.length + 8191) (head.length + body.length)) :
    ∃ e, readHead [] (lateSegments head body) = .error e := by
  have hne : head ≠ [] := by
    rintro rfl
    simp at h4
  have hhead := hfind []
  rw [List.append_nil] at hhead
  have hnone : find blank_line ([] ++ head.dropLast) = none := by
    rw [List.nil_append]
    refine find_eq_none_of_short hhead (List.dropLast_prefix head) ?_
    rw [show blank_line.length = 4 from rfl, List.length_dropLast]
    omega
  unfold lateSegments
  rcases readHead_singles (((head.getLastD 0 :: body).take 8192) :: singles ((head.getLastD 0 :: body).drop 8192)) hnone with
    herr | heq
  · exact herr
  · have hlong : ([] ++ head.dropLast ++ (head.getLastD 0 :: body).take 8192).length > 1024 * 1024 := by
      simp only [List.nil_append, List.length_append, List.length_dropLast, List.length_take, List.length_cons]
      omega
    rw [heq]
    unfold readHead
    rw [if_pos hnone, if_pos hlong]
    exact ⟨_, rfl⟩

end Surviving

/-! ## The calls -/

section Calls
variable (token : Str) (call : ClientCall)

theorem authorization_lookup :
    (call.request token).headers.lookup (lit "Authorization") = some (lit "Bearer " ++ token) := by
  cases call <;> rfl

theorem mem_methods : (call.request token).method ∈ [lit "PUT", lit "GET", lit "DELETE", lit "POST"] := by
  cases call <;> simp [ClientCall.request]

/-- The headers of a call. -/
theorem mem_headers {header : Header} (h : header ∈ (call.request token).headers.entries) :
    header = ⟨lit "Authorization", lit "Bearer " ++ token⟩ ∨ ∃ size, header = ⟨lit "X-Chunk-Size", to_string size⟩ := by
  cases call with
  | put_chunk checksum size bytes =>
    rcases List.mem_cons.1 h with rfl | h
    · exact .inr ⟨size, rfl⟩
    · exact .inl (List.mem_singleton.1 h)
  | _ => exact .inl (List.mem_singleton.1 h)

/-- The names of the headers stay different. -/
theorem nodup_stored (host : Str) {order : List Header} (horder : order.Perm (call.request token).headers.entries) :
    ((writtenHeaders host order (call.request token) ++ [connection]).map fun x => (stored x).1).Nodup := by
  have hperm : ((writtenHeaders host order (call.request token) ++ [connection]).map fun x => (stored x).1).Perm
      ((writtenHeaders host (call.request token).headers.entries (call.request token) ++ [connection]).map
        fun x => (stored x).1) := by
    apply List.Perm.map
    unfold writtenHeaders
    exact ((horder.cons _).append_right _).append_right _
  have hnames : [lit "host", lit "authorization", lit "content-length", lit "connection"].Nodup := by decide
  have hnames' : [lit "host", lit "x-chunk-size", lit "authorization", lit "content-length", lit "connection"].Nodup := by
    decide
  rw [hperm.nodup_iff]
  cases call with
  | put_chunk checksum size bytes => exact hnames'
  | _ => exact hnames

theorem wellformed_call {host : Str} (hhost : newline ∉ host) {order : List Header}
    (horder : order.Perm (call.request token).headers.entries)
    (hpath : ∀ c ∈ (call.request token).path, isspace c = false) (htoken : newline ∉ token) :
    Wellformed host order (call.request token) := by
  have hmem : ∀ h ∈ order, h = ⟨lit "Authorization", lit "Bearer " ++ token⟩ ∨
    ∃ size, h = ⟨lit "X-Chunk-Size", to_string size⟩ :=
    fun h hm => mem_headers token call (horder.mem_iff.1 hm)
  have hbearer : newline ∉ lit "Bearer " ++ token := by
    rw [List.mem_append, not_or]
    exact ⟨by decide, htoken⟩
  have hsize : ∀ size, newline ∉ to_string size := fun size => newline_not_mem fun c hc => (isDigit_of_mem_to_string hc).2.1
  have hmethods : ∀ m ∈ [lit "PUT", lit "GET", lit "DELETE", lit "POST"], m ≠ [] ∧ ∀ c ∈ m, isspace c = false := by decide +kernel
  have hname : newline ∉ lit "Authorization" ∧ (58 : UInt8) ∉ lit "Authorization" := by decide
  have hname' : newline ∉ lit "X-Chunk-Size" ∧ (58 : UInt8) ∉ lit "X-Chunk-Size" := by decide
  refine ⟨?_, ?_, ?_, hpath, hhost, fun h hm => ?_, fun h hm => ?_, fun h hm => ?_, nodup_stored token call host horder⟩
  · exact (hmethods _ (mem_methods token call)).1
  · exact (hmethods _ (mem_methods token call)).2
  · cases call <;> exact List.cons_ne_nil _ _
  · rcases hmem h hm with rfl | ⟨size, rfl⟩
    · exact hname.2
    · exact hname'.2
  · rcases hmem h hm with rfl | ⟨size, rfl⟩
    · exact newline_headerLine hname.1 hbearer
    · exact newline_headerLine hname'.1 (hsize size)
  · rcases hmem h hm with rfl | ⟨size, rfl⟩
    · exact dropWhile_space (by decide)
    · exact dropWhile_to_string_space size

end Calls

/-- A request survives when its path has no white space, its token no newline,
its head and its body fit one `send` each and its head comes within the limit
of the reader however late it is found. The name of the host is one that
resolves. -/
theorem request_survives_iff (getaddrinfo : Str → Bool) (hresolve : ∀ name, getaddrinfo name = true → newline ∉ name)
    (token : Str) (call : ClientCall) (limit : Nat) (host : Str) (hhost : getaddrinfo host = true) (order : List Header)
    (horder : order.Perm (call.request token).headers.entries) :
    RequestSurvives limit host order (call.request token) ↔
      (∀ c ∈ (call.request token).path, isspace c = false) ∧ newline ∉ token ∧
        (requestHead host order (call.request token)).length ≤ limit ∧
        (call.request token).body.length ≤ min limit (2 ^ 31 - 1) ∧
        min ((requestHead host order (call.request token)).length + 8191)
          ((requestHead host order (call.request token)).length + (call.request token).body.length) ≤ 1024 * 1024 := by
  constructor
  · intro h
    have hsingles := segments_singles (sent limit host order (call.request token))
    obtain ⟨parsed, hparsed, -, hpath, hbody, hheaders⟩ := h _ hsingles
    obtain ⟨buffer, rest, split, n, -, -, hpathEq, hheadersEq, -⟩ := parse_request_inv hparsed
    have hspace : ∀ c ∈ (call.request token).path, isspace c = false := by
      intro c hc
      rw [← hpath, hpathEq] at hc
      exact isspace_parseHead hc
    have htoken : newline ∉ token := by
      have hvalue := hheaders _ _ (authorization_lookup token call)
      rw [hheadersEq] at hvalue
      exact fun hm => newline_parseHead hvalue (List.mem_append_right _ hm)
    have hwf := wellformed_call token call (hresolve host hhost) horder hspace htoken
    obtain ⟨hhead, hlen⟩ := hwf.whole_of_parse hsingles hparsed hbody
    refine ⟨hspace, htoken, by omega, hlen, ?_⟩
    by_contra hbig
    have h4 := four_le_requestHead host order (call.request token)
    have hne : requestHead host order (call.request token) ≠ [] := by
      intro hnil
      rw [hnil] at h4
      simp at h4
    have hlate := segments_late hne (call.request token).body
    rw [← sent_eq hhead hlen] at hlate
    obtain ⟨parsed, hok, -⟩ := h _ hlate
    obtain ⟨buffer, rest, split, n, hread, -⟩ := parse_request_inv hok
    obtain ⟨e, he⟩ := readHead_late hwf.find_head h4 (not_le.1 hbig)
    rw [he] at hread
    cases hread
  · rintro ⟨hspace, htoken, hhead, hlen, hfit⟩
    exact (wellformed_call token call (hresolve host hhost) horder hspace htoken).survives horder hhead hlen hfit

/-- The handlers find the token of a request that survives. -/
theorem bearer_of_survives {token : Str} {call : ClientCall} {limit : Nat} {host : Str} {order : List Header}
    (h : RequestSurvives limit host order (call.request token)) {segments : List Bytes}
    (hs : Segments segments (sent limit host order (call.request token))) :
    ∃ parsed, parse_request segments = some (.ok parsed) ∧ parsed.body = (call.request token).body ∧
      Server.bearer parsed = token := by
  obtain ⟨parsed, hparsed, -, -, hbody, hheaders⟩ := h segments hs
  exact ⟨parsed, hparsed, hbody, Server.bearer_of_header (hheaders _ _ (authorization_lookup token call))⟩

/-- A resolver that knows one address. -/
def loopback (name : Str) : Bool := name == lit "127.0.0.1"

theorem loopback_newline : ∀ name, loopback name = true → newline ∉ name := by
  intro name h
  rw [eq_of_beq h]
  decide

theorem upload_survives :
    (∀ name, loopback name = true → newline ∉ name) ∧ loopback (lit "127.0.0.1") = true ∧
      RequestSurvives linuxLimit (lit "127.0.0.1") ((ClientCall.upload (lit "b/x") (lit "ab")).request
        (lit "t")).headers.entries
        ((ClientCall.upload (lit "b/x") (lit "ab")).request (lit "t")) := by
  refine ⟨loopback_newline, rfl, (request_survives_iff loopback loopback_newline (lit "t") (.upload (lit "b/x") (lit "ab"))
    linuxLimit (lit "127.0.0.1") rfl _ (List.Perm.refl _)).2 ?_⟩
  decide +kernel

/-- An object name with a space in it names another object at the server. -/
theorem spaced_name_lost :
    loopback (lit "127.0.0.1") = true ∧
      ¬ RequestSurvives linuxLimit (lit "127.0.0.1") ((ClientCall.download (lit "b/a b")).request (lit "t")).headers.entries
        ((ClientCall.download (lit "b/a b")).request (lit "t")) := by
  refine ⟨rfl, fun h => ?_⟩
  obtain ⟨parsed, hparsed, -, hpath, -⟩ := h _ (segments_singles _)
  obtain ⟨buffer, rest, split, n, -, -, hpathEq, -⟩ := parse_request_inv hparsed
  have hspace : (32 : UInt8) ∈ parsed.path := by
    rw [hpath]
    decide
  rw [hpathEq] at hspace
  exact absurd (isspace_parseHead hspace) (by decide)

end Dstore.HttpServer
