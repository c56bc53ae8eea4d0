import Dstore.Network.Connections
import Dstore.Network.Responses
/-!
# A request and its response

Both ends of one connection together: what `http_request` sends goes through the
job of the server, whose handlers act on a state, and what the job sends comes
back. A connection carries the bytes in receives of any size and may break, so
what arrives on either side is a beginning of what was sent.

`exchange_cases`: the request is handled as it was made, or not at all. And a
client that is told of a response has its status; of its body it may have only
the beginning, since `http_request` does not look at the content length.
-/
open Dstore.Lib

namespace Dstore.HttpServer

variable {σ : Type}

/-- The job of a connection, for handlers that act on a state. A handler that
throws ends it before anything is sent. -/
def jobOn (limit : Nat) (serve : HttpRequest → σ → HttpResponse × σ) (segments : List Bytes) (s : σ) :
    List SocketAction × σ :=
  let actions := job limit (fun req => (serve req s).1) segments
  match parse_request segments with
  | some (.ok req) => (if (serve req s).1 = .unsent then [] else actions, (serve req s).2)
  | _ => (actions, s)

/-- The bytes that the actions send. -/
def written : List SocketAction → Bytes
  | [] => []
  | .send bytes :: actions => bytes ++ written actions
  | .close :: actions => written actions

/-- Why there is no connection. -/
inductive ConnectFault where
  | resolution
  | socket
  | connect
  deriving DecidableEq

def ConnectFault.status : ConnectFault → Status
  | .resolution => .Unavailable (lit "host resolution failed")
  | .socket => .Internal (lit "socket creation failed")
  | .connect => .Unavailable (lit "connect failed")

/-- A connection, with the machines at its ends: what one `send` takes, the
order in which the map gives the headers, and the receives that the bytes sent
arrive in. They are those bytes, up to where the connection breaks. -/
structure Link where
  limit : Nat
  serverLimit : Nat
  order : (AList fun _ : Str => Str) → List Header
  arrives : Bytes → List Bytes
  returns : Bytes → List Bytes
  order_perm : ∀ headers, (order headers).Perm headers.entries
  arrives_part : ∀ bytes, ∃ p, p <+: bytes ∧ Segments (arrives bytes) p
  returns_part : ∀ bytes, ∃ p, p <+: bytes ∧ Segments (returns bytes) p

/-- A connection that carries everything, byte by byte. -/
def Link.byteByByte : Link where
  limit := linuxLimit
  serverLimit := linuxLimit
  order headers := headers.entries
  arrives := singles
  returns := singles
  order_perm _ := .refl _
  arrives_part bytes := ⟨bytes, List.prefix_rfl, segments_singles bytes⟩
  returns_part bytes := ⟨bytes, List.prefix_rfl, segments_singles bytes⟩

/-- What the server receives of a request. -/
def Link.received (link : Link) (host : Str) (request : HttpRequest) : List Bytes :=
  link.arrives (sent link.limit host (link.order request.headers) request)

/-- `http_request` after the connect, against a server with these handlers. -/
def Link.exchange (link : Link) (host : Str) (serve : HttpRequest → σ → HttpResponse × σ) (request : HttpRequest) (s : σ) :
    Result HttpResponse × σ :=
  let (actions, s) := jobOn link.serverLimit serve (link.received host request) s
  (read_response (link.returns (written actions)), s)

/-- `http_request`. -/
def http_request (attempt : Except ConnectFault Link) (host : Str) (serve : HttpRequest → σ → HttpResponse × σ)
    (request : HttpRequest) (s : σ) : Result HttpResponse × σ :=
  match attempt with
  | .error fault => (.error fault.status, s)
  | .ok link => link.exchange host serve request s

/-! ## The request arrives or it does not -/

/-- What the server is to make of a call: its token in the header that the
handlers look at. -/
def ClientCall.received (token : Str) (call : ClientCall) : HttpRequest where
  method := (call.request token).method
  path := (call.request token).path
  headers := (∅ : AList fun _ : Str => Str).insert (lit "authorization") (lit "Bearer " ++ token)
  body := (call.request token).body

theorem ClientCall.bearer_received (token : Str) (call : ClientCall) : Server.bearer (call.received token) = token :=
  Server.bearer_of_header (AList.lookup_insert _)

/-- The conditions of `request_survives_iff`. -/
structure Sendable (limit : Nat) (host : Str) (order : List Header) (token : Str) (call : ClientCall) : Prop where
  host_newline : newline ∉ host
  path_space : ∀ c ∈ (call.request token).path, isspace c = false
  token_newline : newline ∉ token
  head_limit : (requestHead host order (call.request token)).length ≤ limit
  body_size : (call.request token).body.length ≤ min limit (2 ^ 31 - 1)
  head_size : min ((requestHead host order (call.request token)).length + 8191)
    ((requestHead host order (call.request token)).length + (call.request token).body.length) ≤ 1024 * 1024

/-- The handlers cannot tell the requests apart. -/
structure SameRequest (req req' : HttpRequest) : Prop where
  method : req.method = req'.method
  path : req.path = req'.path
  body : req.body = req'.body
  bearer : Server.bearer req = Server.bearer req'

namespace Sendable

variable {limit : Nat} {host : Str} {order : List Header} {token : Str} {call : ClientCall}
  (horder : order.Perm (call.request token).headers.entries)

include horder in
theorem wellformed (h : Sendable limit host order token call) : Wellformed host order (call.request token) :=
  wellformed_call token call h.host_newline horder h.path_space h.token_newline

theorem head_le (h : Sendable limit host order token call) :
    (requestHead host order (call.request token)).length ≤ min limit (2 ^ 31 - 1) := by
  have := h.head_size
  have := h.head_limit
  omega

include horder in
/-- A request that arrives whole is read. -/
theorem parse (h : Sendable limit host order token call) {segments : List Bytes}
    (hs : Segments segments (sent limit host order (call.request token))) :
    ∃ parsed, parse_request segments = some (.ok parsed) ∧ SameRequest parsed (call.received token) := by
  obtain ⟨parsed, hparsed, hmethod, hpath, hbody, hheaders⟩ :=
    (h.wellformed horder).survives horder h.head_limit h.body_size h.head_size segments hs
  refine ⟨parsed, hparsed, hmethod, hpath, hbody, ?_⟩
  rw [ClientCall.bearer_received]
  exact Server.bearer_of_header (hheaders _ _ (authorization_lookup token call))

include horder in
/-- A request that is cut is not, wherever it is cut. -/
theorem parse_cut (h : Sendable limit host order token call) {segments : List Bytes} {p : Bytes}
    (hp : p <+: sent limit host order (call.request token)) (hne : p ≠ sent limit host order (call.request token))
    (hs : Segments segments p) : ∃ e, parse_request segments = some (.error e) := by
  rcases hread : readHead [] segments with e | ⟨buffer, rest⟩
  · exact ⟨e, by unfold parse_request; rw [hread]⟩
  · -- the head has come, so the body has not
    obtain ⟨hflat, split, hbuffer⟩ := readHead_spec hread
    rw [List.nil_append, hs.2] at hflat
    have hsent : sent limit host order (call.request token) = _ := sent_eq h.head_le h.body_size
    rw [hsent] at hp hne
    have hfindp : find blank_line p = some split := by
      rw [← hflat]
      exact find_append hbuffer _
    have hfind : split = (requestHead host order (call.request token)).length - 4 := by
      obtain ⟨q, hq⟩ := hp
      have hwhole := (h.wellformed horder).find_head (call.request token).body
      rw [← hq, find_append hfindp, Option.some.injEq] at hwhole
      exact hwhole
    have h4 := four_le_requestHead host order (call.request token)
    have hlen : split + 4 ≤ p.length := find_le hfindp
    have hcut : p.length < (requestHead host order (call.request token)).length + (call.request token).body.length := by
      rw [← List.length_append]
      exact lt_of_le_of_ne hp.length_le fun hl => hne (hp.eq_of_length hl)
    obtain ⟨body, rfl⟩ : requestHead host order (call.request token) <+: p :=
      List.prefix_of_prefix_length_le (List.prefix_append _ _) hp (by omega)
    rw [parse_request_of_head hread (hs.2 ▸ hfindp), hs.2, wholeRequest, hfind, take_head, Nat.sub_add_cancel h4,
      List.drop_left, contentLength, (h.wellformed horder).parseHead_headers]
    have hsize := h.body_size
    have hstoull := stoull_to_string (show (call.request token).body.length < 2 ^ 64 by omega)
    rw [List.length_append] at hcut
    have hshort : body.length < (call.request token).body.length := by omega
    simp only [(h.wellformed horder).content_length, hstoull, Option.map_some]
    rw [if_pos hshort]
    exact ⟨_, rfl⟩

end Sendable

/-! ## The response comes back, or a part of it -/

/-- What is read of the beginning of a response. -/
theorem read_response_part {r : HttpResponse} (hct : newline ∉ r.content_type) {received : List Bytes}
    (hp : received.flatten <+: serialize r) : read_response received = .error (.Internal (lit "invalid response")) ∨
      ∃ resp, read_response received = .ok resp ∧ resp.status = r.status ∧ resp.body <+: r.body := by
  by_cases hlen : received.flatten.length < (responseHead r).length
  · exact .inl (read_response_cut hct hp hlen)
  · obtain ⟨body, hbody⟩ : responseHead r <+: received.flatten :=
      List.prefix_of_prefix_length_le (List.prefix_append _ _) hp (Nat.not_lt.1 hlen)
    obtain ⟨resp, hread, hstatus, rfl⟩ := read_response_head hct hbody.symm
    refine .inr ⟨resp, hread, hstatus, ?_⟩
    rw [← hbody, serialize, List.prefix_append_right_inj] at hp
    exact hp

/-- What the job sends is a beginning of the response. -/
theorem written_job {limit : Nat} {serve : HttpRequest → HttpResponse} {segments : List Bytes} {parsed : Result HttpRequest}
    (h : parse_request segments = some parsed) : written (job limit serve segments) <+: serialize (answer serve parsed) := by
  rw [job, h]
  simp only [written, List.append_nil]
  exact List.take_prefix _ _

/-- The ways in which a call that would be answered with `r` and lead to its
state can end. -/
inductive Exchanged (r : HttpResponse × σ) (s : σ) : Result HttpResponse × σ → Prop
  /-- Answered. The end of the body may be missing. -/
  | answered (resp : HttpResponse) : resp.status = r.1.status → resp.body <+: r.1.body → Exchanged r s (.ok resp, r.2)
  /-- Handled, but the client is not told. -/
  | unanswered : Exchanged r s (.error (.Internal (lit "invalid response")), r.2)
  /-- The request was cut. -/
  | refused (resp : HttpResponse) : resp.status = 400 → Exchanged r s (.ok resp, s)
  | lost : Exchanged r s (.error (.Internal (lit "invalid response")), s)

section Exchange
variable {serve : HttpRequest → σ → HttpResponse × σ} {link : Link} {host token : Str} {call : ClientCall}
  (hserve : ∀ req req' s, SameRequest req req' → serve req s = serve req' s)
  (h : Sendable link.limit host (link.order (call.request token).headers) token call)
include hserve h

/-- Whatever the receives and wherever the connection breaks, a call is handled
as it was made or not at all. -/
theorem exchange_cases (hct : ∀ req s, newline ∉ (serve req s).1.content_type) (s : σ) :
    Exchanged (serve (call.received token) s) s (link.exchange host serve (call.request token) s) := by
  have horder := link.order_perm (call.request token).headers
  obtain ⟨p, hp, hrequest⟩ := link.arrives_part (sent link.limit host (link.order (call.request token).headers)
    (call.request token))
  obtain ⟨q, hq, hresponse⟩ := link.returns_part
    (written (jobOn link.serverLimit serve (link.received host (call.request token)) s).1)
  rw [← hresponse.2] at hq
  by_cases hwhole : p = sent link.limit host (link.order (call.request token).headers) (call.request token)
  · obtain ⟨parsed, hparsed, hsame⟩ := h.parse horder (hwhole ▸ hrequest)
    by_cases hunsent : (serve (call.received token) s).1 = .unsent
    · -- nothing comes back
      simp only [jobOn, Link.received, hparsed, hserve parsed _ s hsame, hunsent, if_true, written] at hq
      simp only [Link.exchange, jobOn, Link.received, hparsed, hserve parsed _ s hsame, hunsent, if_true, written] at hq ⊢
      have hnil := List.prefix_nil.1 hq
      rw [read_response_cut (r := .unsent) (by decide) (by rw [hnil]; exact List.nil_prefix) (by rw [hnil]; decide +kernel)]
      exact .unanswered
    · simp only [jobOn, Link.received, hparsed, hserve parsed _ s hsame, if_neg hunsent] at hq
      have hanswer := hq.trans (written_job hparsed)
      simp only [answer, hserve parsed _ s hsame] at hanswer
      simp only [Link.exchange, jobOn, Link.received, hparsed, hserve parsed _ s hsame, if_neg hunsent] at hanswer ⊢
      rcases read_response_part (hct _ s) hanswer with hread | ⟨resp, hread, hstatus, hbody⟩
      · rw [hread]
        exact .unanswered
      · rw [hread]
        exact .answered resp hstatus hbody
  · obtain ⟨e, hparsed⟩ := h.parse_cut horder hp hwhole hrequest
    have hjson : newline ∉ lit "application/json" := by decide
    simp only [jobOn, Link.received, hparsed] at hq
    have hanswer := hq.trans (written_job hparsed)
    simp only [Link.exchange, jobOn, Link.received, hparsed] at hanswer ⊢
    rcases read_response_part hjson hanswer with hread | ⟨resp, hread, hstatus, -⟩
    · rw [hread]
      exact .lost
    · rw [hread]
      exact .refused resp hstatus

/-- Where all that is sent arrives, the client has the handler's answer, if it
fits one `send`. -/
theorem exchange_whole (s : σ) (hwhole : ∀ bytes, Segments (link.arrives bytes) bytes ∧ Segments (link.returns bytes) bytes)
    (hct : newline ∉ (serve (call.received token) s).1.content_type) (hsent : (serve (call.received token) s).1 ≠ .unsent)
    (hsize : (serialize (serve (call.received token) s).1).length ≤ min link.serverLimit (2 ^ 31 - 1)) :
    ∃ resp, link.exchange host serve (call.request token) s = (.ok resp, (serve (call.received token) s).2) ∧
      resp.status = (serve (call.received token) s).1.status ∧ resp.body = (serve (call.received token) s).1.body := by
  obtain ⟨parsed, hparsed, hsame⟩ := h.parse (link.order_perm _) (hwhole (sent link.limit _ _ _)).1
  have hanswer := (hwhole (written (jobOn link.serverLimit serve (link.received host (call.request token)) s).1)).2.2
  simp only [Link.exchange, jobOn, Link.received, job, hparsed, answer, hserve parsed _ s hsame, sendSize_eq hsize,
    List.take_length, written, List.append_nil, if_neg hsent] at hanswer ⊢
  obtain ⟨resp, hread, hstatus, hbody⟩ := read_response_head hct hanswer
  exact ⟨resp, by rw [hread], hstatus, hbody⟩

end Exchange

end Dstore.HttpServer
