import Dstore.Durability.Wal
import Dstore.Lib.Lists
/-!
# Replaying a log

`replay` undoes `append` wherever the file is cut: a prefix that ends at the
end of a line, with or without its newline, gives the records up to there, and
every other prefix is refused (`replay_cut`).

The newline is what the reader and the writer do not agree on. `replay`
accepts a last line without one, and `append` then writes the next record on
that line (`replay_continued`).
-/
open Dstore.Lib

namespace Dstore.WriteAheadLog

/-- Nothing in the key or the payload is a separator. -/
structure Clean (r : WalRecord) : Prop where
  key_tab : tab ∉ r.key
  key_newline : newline ∉ r.key
  payload_tab : tab ∉ r.payload
  payload_newline : newline ∉ r.payload

section Log
variable (H : LineHash)

/-- The line of a record, without its newline. -/
def entry (r : WalRecord) : Str := line r ++ tab :: H.hex (line r)

/-- The text of a log. -/
def text (rs : List WalRecord) : Str := rs.flatMap fun r => entry H r ++ [newline]

/-- Records appended in order, none of them refused. -/
def appendAll (log : WriteAheadLog) (rs : List WalRecord) : WriteAheadLog :=
  rs.foldl (fun log r => (log.append H none r).2) log

variable {H}

theorem text_cons (r : WalRecord) (rs : List WalRecord) : text H (r :: rs) = entry H r ++ newline :: text H rs := by
  simp [text]

theorem appendAll_file {log : WriteAheadLog} (h : log.good = true) (rs : List WalRecord) :
    (appendAll H log rs).file = log.file ++ text H rs := by
  induction rs generalizing log with
  | nil => simp [appendAll, text]
  | cons r rs ih =>
    have hstep : (log.append H none r).2 = ⟨log.file ++ (entry H r ++ [newline]), true⟩ := by
      unfold append
      simp [h, entry]
    unfold appendAll at ih ⊢
    rw [List.foldl_cons, hstep, ih rfl, text_cons]
    simp

/-! ## One line -/

theorem Clean.newline_entry {r : WalRecord} (h : Clean r) : newline ∉ entry H r := by
  have htype := newline_not_mem fun c hc => isspace_of_mem_to_string_int (i := r.type.value.toInt) (c := c) hc
  have htab : newline ≠ tab := by decide
  simp [entry, line, htype, htab, h.key_newline, h.payload_newline, H.no_newline]

theorem tab_not_mem_type (r : WalRecord) : tab ∉ to_string_int r.type.value.toInt := by
  intro hm
  exact absurd (isspace_of_mem_to_string_int hm) (by decide)

theorem Clean.fields {r : WalRecord} (h : Clean r) {rest : Str} (hr : tab ∉ rest) :
    (line r ++ tab :: rest).splitOn tab = [to_string_int r.type.value.toInt, r.key, r.payload, rest] := by
  unfold line
  simp only [List.append_assoc, List.cons_append]
  rw [List.splitOn_append_cons_self_of_not_mem (tab_not_mem_type r),
    List.splitOn_append_cons_self_of_not_mem h.key_tab, List.splitOn_append_cons_self_of_not_mem h.payload_tab,
    List.splitOn_eq_singleton hr]

theorem Clean.count_line {r : WalRecord} (h : Clean r) : (line r).count tab = 2 := by
  unfold line
  simp [List.count_eq_zero.2 (tab_not_mem_type r), List.count_eq_zero.2 h.key_tab, List.count_eq_zero.2 h.payload_tab]

theorem parseLine_entry {r : WalRecord} (h : Clean r) : parseLine H (entry H r) = some (.ok r) := by
  unfold parseLine entry
  rw [h.fields (H.no_tab _)]
  simp [stoi_to_string, line]

/-- Only a line of four fields is looked at. -/
theorem parseLine_of_count {s : Str} (h : s.count tab ≠ 3) :
    parseLine H s = some (.error (.Internal (lit "corrupt wal record"))) := by
  have hlen : (s.splitOn tab).length ≠ 4 := by
    rw [length_splitOn]
    omega
  unfold parseLine
  split
  · rename_i hs
    rw [hs] at hlen
    exact absurd rfl hlen
  · rfl

theorem count_of_parseLine {s : Str} {r : WalRecord} (h : parseLine H s = some (.ok r)) : s.count tab = 3 := by
  by_contra hne
  rw [parseLine_of_count hne] at h
  cases h

/-- A line that is cut short is refused: the cut leaves fewer fields, or a
checksum that is too short. -/
theorem parseLine_torn {r : WalRecord} (h : Clean r) {s : Str} (hp : s <+: entry H r) (hne : s ≠ entry H r) :
    ∃ e, parseLine H s = some (.error e) := by
  unfold entry at hp hne
  rcases prefix_append_cases hp with hline | ⟨rest, rfl, hrest⟩
  · have hcount := hline.sublist.count_le tab
    rw [h.count_line] at hcount
    exact ⟨_, parseLine_of_count (by omega)⟩
  · rcases List.prefix_cons_iff.1 hrest with rfl | ⟨cut, rfl, hcut⟩
    · refine ⟨_, parseLine_of_count ?_⟩
      rw [List.append_nil, h.count_line]
      decide
    · have htab : tab ∉ cut := fun hm => H.no_tab _ (hcut.subset hm)
      have hshort : H.hex (line r) ≠ cut := by
        intro heq
        exact hne (by rw [heq])
      refine ⟨.Internal (lit "wal checksum mismatch"), ?_⟩
      unfold parseLine
      rw [h.fields htab]
      exact if_pos hshort

/-! ## The lines of a file -/

theorem replayLines_append {ls : List Str} {acc mid : List WalRecord} (h : replayLines H ls acc = some (.ok mid))
    (rest : List Str) : replayLines H (ls ++ rest) acc = replayLines H rest mid := by
  induction ls generalizing acc with
  | nil =>
    simp only [replayLines, Option.some.injEq, Except.ok.injEq] at h
    rw [List.nil_append, h]
  | cons l ls ih =>
    rw [replayLines] at h
    rw [List.cons_append, replayLines]
    rcases hl : parseLine H l with _ | _ | r
    · simp [hl] at h
    · simp [hl] at h
    · simp only [hl] at h ⊢
      exact ih h

/-- A file that is accepted is accepted up to each of its lines. -/
theorem exists_of_replayLines_append {ls rest : List Str} {acc rs : List WalRecord}
    (h : replayLines H (ls ++ rest) acc = some (.ok rs)) :
    ∃ mid, replayLines H ls acc = some (.ok mid) ∧ replayLines H rest mid = some (.ok rs) := by
  induction ls generalizing acc with
  | nil => exact ⟨acc, rfl, h⟩
  | cons l ls ih =>
    rw [List.cons_append, replayLines] at h
    rw [replayLines]
    rcases hl : parseLine H l with _ | _ | r
    · simp [hl] at h
    · simp [hl] at h
    · simp only [hl] at h ⊢
      exact ih h

theorem replayLines_entries {rs : List WalRecord} (hrs : ∀ r ∈ rs, Clean r) (acc : List WalRecord) :
    replayLines H (rs.map (entry H)) acc = some (.ok (acc ++ rs)) := by
  induction rs generalizing acc with
  | nil => simp [replayLines]
  | cons r rs ih =>
    obtain ⟨hr, hrs⟩ := List.forall_mem_cons.1 hrs
    rw [List.map_cons, replayLines, parseLine_entry hr]
    simp only
    rw [ih hrs, List.append_assoc]
    rfl

theorem getlines_text {rs : List WalRecord} (hrs : ∀ r ∈ rs, Clean r) (rest : Str) :
    getlines [] (text H rs ++ rest) = rs.map (entry H) ++ getlines [] rest := by
  induction rs with
  | nil => rfl
  | cons r rs ih =>
    obtain ⟨hr, hrs⟩ := List.forall_mem_cons.1 hrs
    rw [text_cons, List.append_assoc, List.cons_append, getlines_append hr.newline_entry, ih hrs]
    rfl

/-- What follows whole records is read after them. -/
theorem replay_text_append {rs : List WalRecord} (hrs : ∀ r ∈ rs, Clean r) (rest : Str) :
    replay H (some (text H rs ++ rest)) = replayLines H (getlines [] rest) rs := by
  unfold replay
  simp only
  rw [getlines_text hrs, replayLines_append (replayLines_entries hrs [])]
  rfl

theorem replay_text {rs : List WalRecord} (hrs : ∀ r ∈ rs, Clean r) : replay H (some (text H rs)) = some (.ok rs) := by
  have h := replay_text_append hrs (H := H) []
  rwa [List.append_nil] at h

theorem entry_ne_nil (r : WalRecord) : entry H r ≠ [] := by
  simp [entry]

theorem text_append_singleton (rs : List WalRecord) (r : WalRecord) :
    text H (rs ++ [r]) = text H rs ++ (entry H r ++ [newline]) := by
  simp [text]

/-- The last newline may be missing. -/
theorem replay_unfinished {rs : List WalRecord} (hrs : ∀ r ∈ rs, Clean r) {p : Str} (hp : p ++ [newline] = text H rs) :
    replay H (some p) = some (.ok rs) := by
  rcases List.eq_nil_or_concat rs with rfl | ⟨rs, r, rfl⟩
  · simp [text] at hp
  · rw [List.concat_eq_append] at hp hrs ⊢
    rw [text_append_singleton, ← List.append_assoc] at hp
    obtain ⟨hrs, hr⟩ := List.forall_mem_append.1 hrs
    have hclean : Clean r := hr r (List.mem_singleton.2 rfl)
    rw [(List.append_inj' hp rfl).1, replay_text_append hrs, getlines_unfinished hclean.newline_entry]
    simp [entry_ne_nil, replayLines, parseLine_entry hclean]

/-! ## Every prefix -/

/-- A prefix of a log is some whole records and a part of the next line. -/
theorem prefix_text {rs : List WalRecord} {p : Str} (hp : p <+: text H rs) :
    ∃ k ≤ rs.length, p = text H (rs.take k) ∨
      ∃ r s, rs[k]? = some r ∧ s <+: entry H r ∧ p = text H (rs.take k) ++ s := by
  induction rs generalizing p with
  | nil => exact ⟨0, Nat.le_refl _, .inl (List.prefix_nil.1 hp)⟩
  | cons r rs ih =>
    rw [text_cons] at hp
    rcases prefix_append_cases hp with hs | ⟨rest, rfl, hrest⟩
    · exact ⟨0, Nat.zero_le _, .inr ⟨r, p, rfl, hs, rfl⟩⟩
    · rcases List.prefix_cons_iff.1 hrest with rfl | ⟨more, rfl, hmore⟩
      · exact ⟨0, Nat.zero_le _, .inr ⟨r, entry H r, rfl, List.prefix_rfl, by simp [text]⟩⟩
      · obtain ⟨k, hk, hcase⟩ := ih hmore
        refine ⟨k + 1, Nat.succ_le_succ hk, ?_⟩
        rcases hcase with rfl | ⟨x, s, hx, hs, rfl⟩
        · exact .inl (text_cons r _).symm
        · refine .inr ⟨x, s, hx, hs, ?_⟩
          rw [List.take_succ_cons, text_cons, List.append_assoc, List.cons_append]

/-- The prefix ends right after the newline of the `k`-th record or right
before it. -/
def EndsAt (H : LineHash) (rs : List WalRecord) (k : Nat) (p : Str) : Prop :=
  p = (appendAll H {} (rs.take k)).file ∨ p ++ [newline] = (appendAll H {} (rs.take k)).file

theorem appended (rs : List WalRecord) : (appendAll H {} rs).file = text H rs := appendAll_file rfl rs

theorem replay_endsAt {rs : List WalRecord} (hrs : ∀ r ∈ rs, Clean r) {k : Nat} {p : Str} (h : EndsAt H rs k p) :
    replay H (some p) = some (.ok (rs.take k)) := by
  have htake : ∀ r ∈ rs.take k, Clean r := fun r hr => hrs r (List.mem_of_mem_take hr)
  rcases h with rfl | h
  · rw [appended]
    exact replay_text htake
  · rw [appended] at h
    exact replay_unfinished htake h

/-- A prefix that ends at the end of a line, or one that is refused. -/
theorem endsAt_or_error {rs : List WalRecord} (hrs : ∀ r ∈ rs, Clean r) {p : Str} (hp : p <+: text H rs) :
    (∃ k ≤ rs.length, EndsAt H rs k p) ∨ ∃ e, replay H (some p) = some (.error e) := by
  obtain ⟨k, hk, rfl | ⟨r, s, hr, hs, rfl⟩⟩ := prefix_text hp
  · exact .inl ⟨k, hk, .inl (appended _).symm⟩
  · obtain ⟨hlt, hget⟩ := List.getElem?_eq_some_iff.1 hr
    have hclean : Clean r := hrs r (hget ▸ List.getElem_mem hlt)
    have htake : ∀ x ∈ rs.take k, Clean x := fun x hx => hrs x (List.mem_of_mem_take hx)
    by_cases hnil : s = []
    · subst hnil
      exact .inl ⟨k, hk, .inl (by rw [appended, List.append_nil])⟩
    by_cases hall : s = entry H r
    · -- the whole line is there and only its newline is missing
      refine .inl ⟨k + 1, hlt, .inr ?_⟩
      rw [appended, List.take_add_one, hr, Option.toList_some, text_append_singleton, hall, List.append_assoc]
    · right
      obtain ⟨e, he⟩ := parseLine_torn hclean hs hall
      have hnl : newline ∉ s := fun hm => hclean.newline_entry (hs.subset hm)
      refine ⟨e, ?_⟩
      rw [replay_text_append htake, getlines_unfinished hnl]
      simp [hnil, replayLines, he]

end Log

/-- Replay of a prefix of a log. -/
theorem replay_cut (H : LineHash) (rs : List WalRecord) (hrs : ∀ r ∈ rs, Clean r) (p : Str)
    (hp : p <+: (appendAll H {} rs).file) :
    (∀ k ≤ rs.length, EndsAt H rs k p → replay H (some p) = some (.ok (rs.take k))) ∧
      ((∀ k ≤ rs.length, ¬ EndsAt H rs k p) → ∃ e, replay H (some p) = some (.error e)) ∧
      (∀ out, replay H (some p) = some (.ok out) → out <+: rs) ∧
      replay H (some (appendAll H {} rs).file) = some (.ok rs) := by
  rw [appended] at hp
  refine ⟨fun k _ h => replay_endsAt hrs h, fun h => ?_, fun out hout => ?_, ?_⟩
  · rcases endsAt_or_error hrs hp with ⟨k, hk, hends⟩ | herr
    · exact absurd hends (h k hk)
    · exact herr
  · rcases endsAt_or_error hrs hp with ⟨k, -, hends⟩ | ⟨e, he⟩
    · rw [replay_endsAt hrs hends] at hout
      cases hout
      exact List.take_prefix k rs
    · rw [he] at hout
      cases hout
  · rw [appended]
    exact replay_text hrs

/-- A put and a delete, as the handlers log them. -/
def putX : WalRecord := ⟨.kPutObject, lit "b/x", lit "ab"⟩

def deleteX : WalRecord := ⟨.kDeleteObject, lit "b/x", lit "delete"⟩

theorem clean_putX : Clean putX := by constructor <;> decide

theorem clean_deleteX : Clean deleteX := by constructor <;> decide

theorem clean_both : ∀ r ∈ [putX, deleteX], Clean r := by
  simp [clean_putX, clean_deleteX]

/-- The log of a put and a delete, cut after three bytes. -/
theorem replay_cut_three :
    (∀ r ∈ [putX, deleteX], Clean r) ∧
      (∀ out, replay Sha256.hexHash (some ((appendAll Sha256.hexHash {} [putX, deleteX]).file.take 3)) = some (.ok out) →
        out <+: [putX, deleteX]) ∧
      replay Sha256.hexHash (some (appendAll Sha256.hexHash {} [putX, deleteX]).file) = some (.ok [putX, deleteX]) :=
  ⟨clean_both, (replay_cut Sha256.hexHash _ clean_both _ (List.take_prefix 3 _)).2.2⟩

/-! ## More records -/

section More
variable {H : LineHash}

theorem getlines_done {done : Str} (h : done = [] ∨ ∃ front, done = front ++ [newline]) (rest : Str) :
    getlines [] (done ++ rest) = getlines [] done ++ getlines [] rest := by
  rcases h with rfl | ⟨front, rfl⟩
  · rfl
  · rw [List.append_assoc]
    exact getlines_newline [] front rest

/-- After a newline the new records are read as they were written. -/
theorem replay_append_text {f : Str} {rs q : List WalRecord} (h : replay H (some f) = some (.ok rs))
    (hf : f = [] ∨ ∃ front, f = front ++ [newline]) (hq : ∀ r ∈ q, Clean r) :
    replay H (some (f ++ text H q)) = some (.ok (rs ++ q)) := by
  have hlines := getlines_text hq (H := H) []
  rw [List.append_nil, getlines, if_pos rfl, List.append_nil] at hlines
  unfold replay at h ⊢
  simp only at h ⊢
  rw [getlines_done hf, replayLines_append h, hlines]
  exact replayLines_entries hq rs

/-- Without it the first new record joins the last line, which then has seven
fields. -/
theorem replay_glued {f : Str} {rs q : List WalRecord} {r : WalRecord} (h : replay H (some f) = some (.ok rs)) (hne : f ≠ [])
    (hf : f.getLast? ≠ some newline) (hr : Clean r) (out : List WalRecord) :
    replay H (some (f ++ text H (r :: q))) ≠ some (.ok out) := by
  obtain ⟨done, last, rfl, hlast, hdone⟩ := exists_unfinished newline f
  have hlast_ne : last ≠ [] := by
    rintro rfl
    rcases hdone with rfl | ⟨front, rfl⟩
    · exact hne rfl
    · simp at hf
  intro hout
  unfold replay at h hout
  simp only at h hout
  rw [getlines_done hdone, getlines_unfinished hlast, List.nil_append, if_neg hlast_ne] at h
  obtain ⟨mid, hmid, hrest⟩ := exists_of_replayLines_append h
  have hcount : last.count tab = 3 := by
    rw [replayLines] at hrest
    rcases hl : parseLine H last with _ | _ | x
    · simp [hl] at hrest
    · simp [hl] at hrest
    · exact count_of_parseLine hl
  have hnl : newline ∉ last ++ entry H r := by
    rw [List.mem_append, not_or]
    exact ⟨hlast, hr.newline_entry⟩
  have hglued : (last ++ entry H r).count tab ≠ 3 := by
    rw [List.count_append, hcount, count_of_parseLine (parseLine_entry (H := H) hr)]
    decide
  rw [List.append_assoc, text_cons, ← List.append_assoc last, getlines_done hdone, getlines_append hnl,
    replayLines_append hmid, replayLines, List.nil_append, parseLine_of_count hglued] at hout
  cases hout

/-! ## What a file holds -/

/-- The records of the lines that `replay` does not refuse. -/
def records (H : LineHash) (file : Str) : List WalRecord :=
  (getlines [] file).filterMap fun l =>
    match parseLine H l with
    | some (.ok r) => some r
    | _ => none

/-- The file is empty or its last line has its newline. -/
def Ended (file : Str) : Prop := file = [] ∨ file.getLast? = some newline

instance (file : Str) : Decidable (Ended file) := inferInstanceAs (Decidable (file = [] ∨ _))

theorem records_append {file : Str} (h : Ended file) (rest : Str) :
    records H (file ++ rest) = records H file ++ records H rest := by
  have hdone : file = [] ∨ ∃ front, file = front ++ [newline] :=
    h.imp_right fun hlast => ⟨_, (List.dropLast_append_getLast? _ hlast).symm⟩
  rw [records, getlines_done hdone, List.filterMap_append]
  rfl

theorem records_entry {r : WalRecord} (h : Clean r) : records H (entry H r ++ [newline]) = [r] := by
  rw [records, getlines_append h.newline_entry]
  simp [getlines, parseLine_entry h]

/-- An append loses no record of a log that goes on after a newline, and adds
its own when it succeeds. -/
theorem append_records {log : WriteAheadLog} (h : log.good = true → Ended log.file) (fault : Option Nat) {r : WalRecord}
    (hr : Clean r) :
    records H log.file <+: records H (log.append H fault r).2.file ∧
      ((log.append H fault r).2.good = true → Ended (log.append H fault r).2.file) ∧
      ((log.append H fault r).1 = .ok () → records H (log.append H fault r).2.file = records H log.file ++ [r]) := by
  obtain ⟨file, good⟩ := log
  cases good with
  | false =>
    refine ⟨List.prefix_rfl, h, fun hok => ?_⟩
    cases hok
  | true =>
    have hended := h rfl
    cases fault with
    | some written =>
      refine ⟨?_, fun hgood => ?_, fun hok => ?_⟩
      · show records H file <+: records H (file ++ _)
        rw [records_append hended]
        exact List.prefix_append _ _
      · cases hgood
      · cases hok
    | none =>
      have hfile : (append H ⟨file, true⟩ none r).2.file = file ++ (entry H r ++ [newline]) := rfl
      have hrecords : records H (append H ⟨file, true⟩ none r).2.file = records H file ++ [r] := by
        rw [hfile, records_append hended, records_entry hr]
      refine ⟨?_, fun _ => .inr ?_, fun _ => hrecords⟩
      · rw [hrecords]
        exact List.prefix_append _ _
      · rw [hfile]
        simp

end More

/-- A log keeps replaying when it does not go on after an unfinished line. -/
theorem replay_continued (H : LineHash) (file : Option Str) (rs : List WalRecord) (h : replay H file = some (.ok rs))
    (q : List WalRecord) (hq : ∀ r ∈ q, Clean r) :
    replay H (some (appendAll H (open_log file false).2 q).file) = some (.ok (rs ++ q)) ↔
      q = [] ∨ file.getD [] = [] ∨ (file.getD []).getLast? = some newline := by
  have hopen : (appendAll H (open_log file false).2 q).file = file.getD [] ++ text H q := appendAll_file rfl q
  have hfile : replay H (some (file.getD [])) = some (.ok rs) := by
    cases file with
    | none => exact h
    | some f => exact h
  generalize file.getD [] = f at hopen hfile
  rw [hopen]
  constructor
  · intro hok
    by_contra hnot
    simp only [not_or] at hnot
    obtain ⟨r, q, rfl⟩ := List.exists_cons_of_ne_nil hnot.1
    exact replay_glued hfile hnot.2.1 hnot.2.2 (hq r List.mem_cons_self) _ hok
  · rintro (rfl | rfl | hlast)
    · simpa [text] using hfile
    · exact replay_append_text hfile (.inl rfl) hq
    · exact replay_append_text hfile (.inr ⟨_, (List.dropLast_append_getLast? _ hlast).symm⟩) hq

theorem replay_continued_put :
    (∀ r ∈ [deleteX], Clean r) ∧
      replay Sha256.hexHash (some (appendAll Sha256.hexHash {} [putX]).file) = some (.ok [putX]) ∧
      (replay Sha256.hexHash (some (appendAll Sha256.hexHash
          (open_log (some (appendAll Sha256.hexHash {} [putX]).file) false).2 [deleteX]).file) = some (.ok ([putX] ++ [deleteX])) ↔
        [deleteX] = [] ∨ (appendAll Sha256.hexHash {} [putX]).file = [] ∨
          (appendAll Sha256.hexHash {} [putX]).file.getLast? = some newline) := by
  have hclean : ∀ r ∈ [deleteX], Clean r := by simp [clean_deleteX]
  have hput : replay Sha256.hexHash (some (appendAll Sha256.hexHash {} [putX]).file) = some (.ok [putX]) := by
    rw [appended]
    exact replay_text (by simp [clean_putX])
  exact ⟨hclean, hput, replay_continued Sha256.hexHash _ _ hput _ hclean⟩

/-- A crash that leaves the last record without its newline: the log replays,
and after a restart and one more record it does not. -/
theorem record_joined_to_last :
    (∀ r ∈ [deleteX], Clean r) ∧ replay Sha256.hexHash (some (entry Sha256.hexHash putX)) = some (.ok [putX]) ∧
      replay Sha256.hexHash (some (appendAll Sha256.hexHash
        (open_log (some (entry Sha256.hexHash putX)) false).2 [deleteX]).file) ≠ some (.ok ([putX] ++ [deleteX])) := by
  have hput : replay Sha256.hexHash (some (entry Sha256.hexHash putX)) = some (.ok [putX]) :=
    replay_unfinished (by simp [clean_putX]) (by simp [text])
  have hlast : (entry Sha256.hexHash putX).getLast? ≠ some newline := by
    intro h
    exact clean_putX.newline_entry (List.mem_of_getLast? h)
  have hfile : (appendAll Sha256.hexHash (open_log (some (entry Sha256.hexHash putX)) false).2 [deleteX]).file =
      entry Sha256.hexHash putX ++ text Sha256.hexHash [deleteX] := appendAll_file rfl _
  refine ⟨by simp [clean_deleteX], hput, ?_⟩
  rw [hfile]
  exact replay_glued hput (entry_ne_nil putX) hlast clean_deleteX _

end Dstore.WriteAheadLog
