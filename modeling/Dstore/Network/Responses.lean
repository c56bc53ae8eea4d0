import Dstore.Network.HttpServer
/-!
# Responses on the wire

`http_request` reads until the connection is closed and never looks at the
length in the head. A response that arrives whole is read as it was written,
whatever its body; one that is cut in its head is refused; and one that is cut
in its body is taken for a shorter one (`response_survives_iff`).
-/
open Dstore.Lib

namespace Dstore.HttpServer

/-- The status line. -/
def statusLine (r : HttpResponse) : Str :=
  lit "HTTP/1.1" ++ 32 :: (to_string_int r.status.toInt ++ 32 :: reason r.status)

def responseLines (r : HttpResponse) : List Str :=
  [statusLine r, lit "Content-Type: " ++ r.content_type, lit "Content-Length: " ++ to_string r.body.length,
    lit "Connection: close"]

theorem responseHead_eq (r : HttpResponse) : responseHead r = headText (responseLines r) := by
  have h1 : lit "HTTP/1.1 " = lit "HTTP/1.1" ++ [32] := rfl
  have h2 : lit " " = [32] := rfl
  have h3 : lit "Connection: close\r\n\r\n" = lit "Connection: close" ++ (crlf ++ crlf) := rfl
  have h4 : lit "\r\n" = crlf := rfl
  unfold responseHead headText responseLines statusLine
  rw [h1, h2, h3, h4]
  simp only [List.flatMap_cons, List.flatMap_nil, List.append_assoc, List.cons_append, List.nil_append]

/-- The reasons are made of letters and spaces. -/
theorem not_mem_reason (status : Int32) : (13 : UInt8) ∉ reason status ∧ newline ∉ reason status := by
  unfold reason
  repeat' split
  all_goals decide

/-- No character of a number is one of the line ends. -/
theorem not_mem_to_string_int {i : Int} {c : UInt8} (hc : isspace c = true) : c ∉ to_string_int i := by
  intro h
  rw [isspace_of_mem_to_string_int h] at hc
  cases hc

theorem not_mem_to_string {n : Nat} {c : UInt8} (hc : isspace c = true) : c ∉ to_string n := by
  intro h
  rw [(isDigit_of_mem_to_string h).2.1] at hc
  cases hc

theorem not_mem_statusLine (r : HttpResponse) {c : UInt8} (hc : c = 13 ∨ c = newline) : c ∉ statusLine r := by
  have hreason := not_mem_reason r.status
  have hnumber : c ∉ to_string_int r.status.toInt := by
    apply not_mem_to_string_int
    rcases hc with rfl | rfl <;> decide
  have hname : c ∉ lit "HTTP/1.1" := by rcases hc with rfl | rfl <;> decide
  have hspace : c ≠ 32 := by rcases hc with rfl | rfl <;> decide
  have hrest : c ∉ reason r.status := by
    rcases hc with rfl | rfl
    · exact hreason.1
    · exact hreason.2
  simp [statusLine, hname, hnumber, hspace, hrest]

theorem isLine_responseLines {r : HttpResponse} (hct : newline ∉ r.content_type) : ∀ l ∈ responseLines r, IsLine l := by
  have hnum : newline ∉ to_string r.body.length := not_mem_to_string (by decide)
  have hct1 : newline ∉ lit "Content-Type: " := by decide
  have hcl1 : newline ∉ lit "Content-Length: " := by decide
  intro l hl
  simp only [responseLines, List.mem_cons, List.not_mem_nil, or_false] at hl
  rcases hl with rfl | rfl | rfl | rfl
  · exact ⟨by simp [statusLine, lit], not_mem_statusLine r (.inr rfl)⟩
  · exact ⟨by simp [lit], by simp [hct1, hct]⟩
  · exact ⟨by simp [lit], by simp [hcl1, hnum]⟩
  · exact ⟨by decide, by decide⟩

/-- A number between spaces is read as it was printed. -/
theorem readStatus_to_string (i : Int32) (rest : Str) : readStatus (32 :: (to_string_int i.toInt ++ 32 :: rest)) = i := by
  have hlo := i.le_toInt
  have hhi := i.toInt_lt
  have hcast : Int32.ofInt i.toInt = i := Int32.toInt.inj (Int32.toInt_ofInt_of_le hlo hhi)
  have hclamp : max (-2 ^ 31) (min i.toInt (2 ^ 31 - 1)) = i.toInt := by omega
  have hdigits : ∀ n, (to_string n ++ 32 :: rest).takeWhile isDigit = to_string n := fun n =>
    takeWhile_to_string_append n (by decide) rest
  unfold readStatus to_string_int
  rw [List.dropWhile_cons_of_pos (by decide)]
  split
  · rename_i hneg
    have habs : -(i.toInt.natAbs : Int) = i.toInt := by omega
    rw [List.cons_append, List.dropWhile_cons_of_neg (by decide)]
    simp only [readSign, hdigits, decimal_to_string, if_true, habs, hclamp, hcast]
    rw [if_neg (by simp), if_neg (to_string_ne_nil _)]
  · rename_i hpos
    have habs : (i.toInt.natAbs : Int) = i.toInt := by omega
    obtain ⟨hdrop, hsign⟩ := readSign_to_string i.toInt.natAbs (32 :: rest)
    simp only [hdrop, hsign, hdigits, decimal_to_string, Bool.false_eq_true, if_false, habs, hclamp, hcast]
    rw [if_neg (by simp), if_neg (to_string_ne_nil _)]

/-- Whatever follows the head is the body. -/
theorem read_response_head {r : HttpResponse} (hct : newline ∉ r.content_type) {received : List Bytes} {body : Bytes}
    (h : received.flatten = responseHead r ++ body) :
    ∃ resp, read_response received = .ok resp ∧ resp.status = r.status ∧ resp.body = body := by
  have hfind := find_blank_line (by simp [responseLines]) (isLine_responseLines hct) body
  have hlen : 4 ≤ (headText (responseLines r)).length := by
    simp [headText, responseLines, crlf, lit]
    omega
  have hline : find crlf (headText (responseLines r) ++ body) = some (statusLine r).length := by
    unfold responseLines
    rw [headText_cons, List.append_assoc, show crlf = [13, 10] from rfl, find_skip (not_mem_statusLine r (.inl rfl)),
      find_at_start (by rw [List.cons_append, List.cons_append]; exact ⟨_, rfl⟩)]
    simp
  have htake : (headText (responseLines r) ++ body).take (statusLine r).length = statusLine r := by
    unfold responseLines
    rw [headText_cons, List.append_assoc, List.take_left]
  have hword : readWord (statusLine r) = (lit "HTTP/1.1", 32 :: (to_string_int r.status.toInt ++ 32 :: reason r.status)) :=
    readWord_append (by decide) (by decide +kernel) (by decide)
  rw [responseHead_eq] at h
  refine ⟨⟨r.status, lit "application/json", body⟩, ?_, rfl, rfl⟩
  unfold read_response
  rw [h]
  simp only [hfind, hline, Option.getD_some, htake, hword, readStatus_to_string]
  rw [Nat.sub_add_cancel hlen, List.drop_left]

theorem read_response_cut {r : HttpResponse} (hct : newline ∉ r.content_type) {received : List Bytes}
    (hp : received.flatten <+: serialize r) (hlen : received.flatten.length < (responseHead r).length) :
    read_response received = .error (.Internal (lit "invalid response")) := by
  have hfind := find_blank_line (by simp [responseLines]) (isLine_responseLines hct) r.body
  have hnone : find blank_line received.flatten = none := by
    apply find_eq_none_of_short hfind
    · rw [← responseHead_eq]
      exact hp
    · rw [← responseHead_eq, blank_line_eq]
      simp only [List.length_cons, List.length_nil]
      omega
  unfold read_response
  simp only [hnone]

/-- A response that arrives whole is the one that was sent, and a part of it is
refused. -/
def ResponseSurvives (r : HttpResponse) (received : List Bytes) : Prop :=
  (received.flatten = serialize r →
      ∃ resp, read_response received = .ok resp ∧ resp.status = r.status ∧ resp.body = r.body) ∧
    (received.flatten ≠ serialize r → ∃ e, read_response received = .error e)

/-- A response survives unless it is cut in its body. -/
theorem response_survives_iff (r : HttpResponse) (hlf : newline ∉ r.content_type) (p : Bytes) (hp : p <+: serialize r)
    (received : List Bytes) (hr : Segments received p) :
    ResponseSurvives r received ↔ p = serialize r ∨ p.length < (responseHead r).length := by
  obtain ⟨-, rfl⟩ := hr
  constructor
  · intro h
    by_contra hnot
    rw [not_or, not_lt] at hnot
    -- the head is there, so the part of the body is taken for all of it
    rcases prefix_append_cases hp with hhead | ⟨part, hpart, -⟩
    · have hwhole : received.flatten = responseHead r ++ [] := by
        rw [List.append_nil]
        exact hhead.eq_of_length_le hnot.2
      obtain ⟨resp, hok, -⟩ := read_response_head hlf hwhole
      obtain ⟨e, he⟩ := h.2 hnot.1
      rw [hok] at he
      cases he
    · obtain ⟨resp, hok, -⟩ := read_response_head hlf hpart
      obtain ⟨e, he⟩ := h.2 hnot.1
      rw [hok] at he
      cases he
  · rintro (hwhole | hcut)
    · exact ⟨fun _ => read_response_head hlf hwhole, fun hne => absurd hwhole hne⟩
    · refine ⟨fun hwhole => ?_, fun _ => ⟨_, read_response_cut hlf hp hcut⟩⟩
      rw [hwhole, serialize, List.length_append] at hcut
      omega

/-- A body that has a blank line in it. -/
def chunkResponse : HttpResponse := ⟨200, lit "application/octet-stream", lit "a\r\n\r\nb"⟩

theorem chunkResponse_survives :
    newline ∉ chunkResponse.content_type ∧ Segments [serialize chunkResponse] (serialize chunkResponse) ∧
      ResponseSurvives chunkResponse [serialize chunkResponse] := by
  have hlf : newline ∉ chunkResponse.content_type := by decide
  have hseg : Segments [serialize chunkResponse] (serialize chunkResponse) := by
    refine ⟨fun s hs => ?_, by simp⟩
    rw [List.mem_singleton.1 hs]
    decide +kernel
  exact ⟨hlf, hseg, (response_survives_iff chunkResponse hlf _ List.prefix_rfl _ hseg).2 (.inl rfl)⟩

/-- The connection is closed before the last byte of the body. -/
theorem short_body_accepted :
    (13 : UInt8) ∉ chunkResponse.content_type ∧ newline ∉ chunkResponse.content_type ∧
      Segments [(serialize chunkResponse).dropLast] (serialize chunkResponse).dropLast ∧
      (serialize chunkResponse).dropLast <+: serialize chunkResponse ∧
      ¬ ResponseSurvives chunkResponse [(serialize chunkResponse).dropLast] := by
  have hlf : newline ∉ chunkResponse.content_type := by decide
  refine ⟨by decide, hlf, ⟨fun s hs => ?_, by simp⟩, List.dropLast_prefix _, fun h => ?_⟩
  · rw [List.mem_singleton.1 hs]
    decide +kernel
  · have hbody : [(serialize chunkResponse).dropLast].flatten = responseHead chunkResponse ++ lit "a\r\n\r\n" := by
      decide +kernel
    obtain ⟨resp, hok, -⟩ := read_response_head hlf hbody
    obtain ⟨e, he⟩ := h.2 (by decide +kernel)
    rw [hok] at he
    cases he

end Dstore.HttpServer
