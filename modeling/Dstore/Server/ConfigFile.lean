import Dstore.Network.Requests
import Dstore.Server.Config
/-!
# Configuration files

What a file says is what each key's lines say, in their order, whatever stands
between them: of a string or a number the last line counts, every `peer` line
adds a peer, and a line with a number that is none makes `load_config` throw
even if a later line replaces it (`load_config_eq`). How the lines are laid out
does not matter: spaces, comments, quotes and lines without an equals sign can be
put anywhere (`load_config_written`).
-/

namespace Dstore

namespace Config

/-! ## What the lines of each key say -/

/-- The keys that `load_config` knows. -/
inductive Setting where
  | listen_host | listen_port | data_dir | metadata_db | chunk_size | replication_factor | write_quorum | read_quorum
  | node_id | peer | admin_token | wal_path | handoff_path
  deriving DecidableEq

def Setting.key : Setting → Str
  | listen_host => lit "listen_host"
  | listen_port => lit "listen_port"
  | data_dir => lit "data_dir"
  | metadata_db => lit "metadata_db"
  | chunk_size => lit "chunk_size"
  | replication_factor => lit "replication_factor"
  | write_quorum => lit "write_quorum"
  | read_quorum => lit "read_quorum"
  | node_id => lit "node_id"
  | peer => lit "peer"
  | admin_token => lit "admin_token"
  | wal_path => lit "wal_path"
  | handoff_path => lit "handoff_path"

/-- `static_cast<std::size_t>(std::stoull(value))`. -/
def size (value : Str) : Option UInt64 := (HttpServer.stoull value).map .ofNat

/-- The last of the values, all of which are read. -/
def lastOf {α : Type} (read : Str → Option α) (default : α) (values : List Str) : Option α :=
  (values.mapM read).map fun xs => xs.getLast?.getD default

/-- The configuration that the values of each key make of `cfg`. -/
def withValues (cfg : Config) (values : Setting → List Str) : Option Config := do
  let listen_port ← lastOf stoi cfg.listen_port (values .listen_port)
  let chunk_size ← lastOf size cfg.chunk_size (values .chunk_size)
  let replication_factor ← lastOf stoi cfg.replication_factor (values .replication_factor)
  let write_quorum ← lastOf stoi cfg.write_quorum (values .write_quorum)
  let read_quorum ← lastOf stoi cfg.read_quorum (values .read_quorum)
  some {
    listen_host := (values .listen_host).getLast?.getD cfg.listen_host
    listen_port
    data_dir := (values .data_dir).getLast?.getD cfg.data_dir
    metadata_db := (values .metadata_db).getLast?.getD cfg.metadata_db
    chunk_size
    replication_factor
    write_quorum
    read_quorum
    node_id := (values .node_id).getLast?.getD cfg.node_id
    peers := cfg.peers ++ values .peer
    admin_token := (values .admin_token).getLast?.getD cfg.admin_token
    wal_path := (values .wal_path).getLast?.getD cfg.wal_path
    handoff_path := (values .handoff_path).getLast?.getD cfg.handoff_path }

theorem key_injective {s s' : Setting} (h : s.key = s'.key) : s = s' := by
  revert h
  cases s <;> cases s' <;> decide

theorem lastOf_nil {α : Type} (read : Str → Option α) (default : α) : lastOf read default [] = some default := rfl

/-- A value becomes the default of those that follow. -/
theorem lastOf_cons {α : Type} (read : Str → Option α) (default : α) (value : Str) (values : List Str) :
    lastOf read default (value :: values) = (read value).bind fun x => lastOf read x values := by
  unfold lastOf
  rw [List.mapM_cons]
  cases read value with
  | none => rfl
  | some x =>
    cases values.mapM read with
    | none => rfl
    | some xs => simp [List.getLast?_cons]

theorem withValues_nil (cfg : Config) : cfg.withValues (fun _ => []) = some cfg := by
  simp [withValues, lastOf_nil]

/-- One more value in front. -/
def before (s : Setting) (value : Str) (values : Setting → List Str) (s' : Setting) : List Str :=
  if s' = s then value :: values s' else values s'

theorem withValues_before (cfg : Config) (s : Setting) (value : Str) (values : Setting → List Str) :
    cfg.withValues (before s value values) = (cfg.assign s.key value).bind fun cfg' => cfg'.withValues values := by
  cases s with
  | listen_port | chunk_size | replication_factor | write_quorum | read_quorum =>
    simp +decide only [assign, if_true, if_false, size, withValues, before, lastOf_cons]
    cases stoi value <;> cases HttpServer.stoull value <;> simp
  | _ =>
    simp +decide only [assign, if_true, if_false]
    simp [withValues, before, List.getLast?_cons]

theorem assign_unknown (cfg : Config) {key : Str} (h : ∀ s : Setting, s.key ≠ key) (value : Str) :
    cfg.assign key value = some cfg := by
  have hne : ∀ s : Setting, key ≠ s.key := fun s hs => h s hs.symm
  exact (if_neg (hne .listen_host)).trans <| (if_neg (hne .listen_port)).trans <| (if_neg (hne .data_dir)).trans <|
    (if_neg (hne .metadata_db)).trans <| (if_neg (hne .chunk_size)).trans <| (if_neg (hne .replication_factor)).trans <|
    (if_neg (hne .write_quorum)).trans <| (if_neg (hne .read_quorum)).trans <| (if_neg (hne .node_id)).trans <|
    (if_neg (hne .peer)).trans <| (if_neg (hne .admin_token)).trans <| (if_neg (hne .wal_path)).trans <|
    if_neg (hne .handoff_path)

/-- The loop over the lines adds the values of each. -/
theorem readLines_eq (lines : List Str) (cfg : Config) :
    lines.foldlM readLine cfg = cfg.withValues fun s => lines.filterMap (valueOf s.key) := by
  induction lines generalizing cfg with
  | nil => exact (withValues_nil cfg).symm
  | cons line lines ih =>
    rw [List.foldlM_cons, readLine]
    rcases hline : splitLine line with - | ⟨key, value⟩
    · have hvalue : ∀ s : Setting, valueOf s.key line = none := fun s => by rw [valueOf, hline, Option.bind_none]
      simp only [List.filterMap_cons_none (hvalue _)]
      exact ih cfg
    · have hvalue : ∀ s : Setting, valueOf s.key line = if key = s.key then some value else none := fun s => by
        rw [valueOf, hline, Option.bind_some]
      by_cases hkey : ∃ s : Setting, s.key = key
      · obtain ⟨s, rfl⟩ := hkey
        have hbefore : (fun s' : Setting => (line :: lines).filterMap (valueOf s'.key)) =
            before s value fun s' => lines.filterMap (valueOf s'.key) := by
          funext s'
          rw [List.filterMap_cons, hvalue, before]
          by_cases hs : s' = s
          · rw [if_pos hs, hs, if_pos rfl]
          · rw [if_neg hs, if_neg fun h => hs (key_injective h).symm]
        rw [hbefore, withValues_before]
        exact congrArg _ (funext fun cfg' => ih cfg')
      · have hunknown : ∀ s : Setting, s.key ≠ key := fun s hs => hkey ⟨s, hs⟩
        simp only [List.filterMap_cons_none ((hvalue _).trans (if_neg (hunknown _).symm))]
        rw [assign_unknown cfg hunknown]
        exact ih cfg

/-- What a configuration file means. -/
theorem load_config_eq (path text : Str) :
    load_config path (some text) = (({} : Config).withValues fun s => values text s.key).map .ok := by
  rw [load_config, readLines_eq]
  rfl

/-! ## Layout -/

/-- How a line that sets a key is written. -/
structure Spacing where
  indent : Str := []
  afterKey : Str := []
  beforeValue : Str := []
  afterValue : Str := []
  quoted : Bool := false
  comment : Option Str := none

namespace Spacing

/-- The value with its quotes. -/
def shown (l : Spacing) (value : Str) : Str := if l.quoted then quote :: value ++ [quote] else value

def remark (l : Spacing) : Str := l.comment.elim [] (35 :: ·)

/-- A value that needs no quotes. -/
def Bare (value : Str) : Prop :=
  (∀ c ∈ value.head?, isspace c = false) ∧ (∀ c ∈ value.getLast?, isspace c = false) ∧
    ¬ (2 ≤ value.length ∧ value.head? = some quote ∧ value.getLast? = some quote)

def Blank (s : Str) : Prop := ∀ c ∈ s, isspace c = true ∧ c ≠ newline

/-- Text that starts no comment and no line. -/
def Plain (s : Str) : Prop := ∀ c ∈ s, c ≠ 35 ∧ c ≠ newline

/-- The value can be written so on one line. -/
structure Fits (l : Spacing) (value : Str) : Prop where
  indent : Blank l.indent
  afterKey : Blank l.afterKey
  beforeValue : Blank l.beforeValue
  afterValue : Blank l.afterValue
  chars : Plain value
  bare : l.quoted = false → Bare value
  comment : ∀ text ∈ l.comment, newline ∉ text

instance (s : Str) : Decidable (Blank s) := inferInstanceAs (Decidable (∀ c ∈ s, _))

instance (s : Str) : Decidable (Plain s) := List.decidableBAll _ s

instance (value : Str) : Decidable (Bare value) := inferInstanceAs (Decidable (_ ∧ _ ∧ _))

instance (l : Spacing) (value : Str) : Decidable (l.Fits value) :=
  decidable_of_iff (Blank l.indent ∧ Blank l.afterKey ∧ Blank l.beforeValue ∧ Blank l.afterValue ∧
      Plain value ∧ (l.quoted = false → Bare value) ∧ ∀ text ∈ l.comment, newline ∉ text)
    ⟨fun ⟨hi, hk, hb, ha, hv, hbare, hc⟩ => ⟨hi, hk, hb, ha, hv, hbare, hc⟩,
      fun h => ⟨h.indent, h.afterKey, h.beforeValue, h.afterValue, h.chars, h.bare, h.comment⟩⟩

end Spacing

inductive FileLine where
  | sets (s : Setting) (value : Str) (spacing : Spacing)
  /-- A line with no equals sign, but for those in its comment. -/
  | other (text : Str)

namespace FileLine

def text : FileLine → Str
  | .sets s value l =>
    l.indent ++ s.key ++ l.afterKey ++ 61 :: (l.beforeValue ++ l.shown value ++ l.afterValue) ++ l.remark
  | .other text => text

def Fits : FileLine → Prop
  | .sets _ value l => l.Fits value
  | .other text => 61 ∉ text.takeWhile (· ≠ 35) ∧ newline ∉ text

instance : DecidablePred Fits
  | .sets _ value l => inferInstanceAs (Decidable (l.Fits value))
  | .other text => inferInstanceAs (Decidable (61 ∉ text.takeWhile (· ≠ 35) ∧ newline ∉ text))

/-- The value that it gives for a key. -/
def gives (s : Setting) : FileLine → Option Str
  | .sets s' value _ => if s' = s then some value else none
  | .other _ => none

end FileLine

/-- The last line has no newline; it may be empty. -/
def fileOf (lines : List FileLine) (last : FileLine) : Str := lines.flatMap (·.text ++ [newline]) ++ last.text

theorem isspace_ne {c d : UInt8} (hc : isspace c = true) (hd : isspace d = false) : c ≠ d := by
  rintro rfl
  rw [hc] at hd
  cases hd

/-- The characters of the keys. -/
theorem mem_key {s : Setting} : ∀ c ∈ s.key, isspace c = false ∧ c ≠ quote ∧ c ≠ 35 ∧ c ≠ 61 ∧ c ≠ newline := by
  cases s <;> decide +kernel

/-- Spaces on both sides go. -/
theorem strip_eq {spaces core spaces' : Str} (h : ∀ c ∈ spaces, isspace c = true) (h' : ∀ c ∈ spaces', isspace c = true)
    (hhead : ∀ c ∈ core.head?, isspace c = false) (hlast : ∀ c ∈ core.getLast?, isspace c = false) :
    ((spaces ++ core ++ spaces').dropWhile isspace).rdropWhile isspace = core := by
  rw [List.append_assoc, List.dropWhile_append_of_pos h]
  rcases List.eq_nil_or_concat core with rfl | ⟨front, y, rfl⟩
  · rw [List.nil_append, List.dropWhile_eq_nil_iff.2 h']
    rfl
  · rw [List.concat_eq_append] at hhead hlast ⊢
    have hdrop : (front ++ [y] ++ spaces').dropWhile isspace = front ++ [y] ++ spaces' := by
      cases front with
      | nil => exact List.dropWhile_cons_of_neg (by simp [hhead y rfl])
      | cons x front => exact List.dropWhile_cons_of_neg (by simp [hhead x rfl])
    rw [hdrop, List.rdropWhile, List.reverse_append, List.dropWhile_append_of_pos (by simpa using h'), List.reverse_append,
      List.reverse_singleton, List.singleton_append, List.dropWhile_cons_of_neg (by simp [hlast y (by simp)]),
      List.reverse_cons, List.reverse_reverse]

theorem trim_bare {spaces value spaces' : Str} (h : ∀ c ∈ spaces, isspace c = true) (h' : ∀ c ∈ spaces', isspace c = true)
    (hv : Spacing.Bare value) : trim (spaces ++ value ++ spaces') = value := by
  unfold trim
  simp only [strip_eq h h' hv.1 hv.2.1]
  exact if_neg hv.2.2

theorem trim_quoted {spaces spaces' : Str} (value : Str) (h : ∀ c ∈ spaces, isspace c = true)
    (h' : ∀ c ∈ spaces', isspace c = true) : trim (spaces ++ (quote :: value ++ [quote]) ++ spaces') = value := by
  have hlast : ((quote :: value) ++ [quote]).getLast? = some quote := List.getLast?_concat
  have hstrip := @strip_eq spaces (quote :: value ++ [quote]) spaces' h h' (by rintro c ⟨⟩; rfl)
    (by rw [hlast]; rintro c ⟨⟩; rfl)
  unfold trim
  simp only [hstrip]
  rw [if_pos ⟨by simp, rfl, hlast⟩]
  simp

theorem bare_key (s : Setting) : Spacing.Bare s.key := by
  refine ⟨fun c hc => (mem_key c (List.mem_of_mem_head? hc)).1, fun c hc => (mem_key c (List.mem_of_mem_getLast? hc)).1, ?_⟩
  rintro ⟨-, hq, -⟩
  exact (mem_key quote (List.mem_of_mem_head? hq)).2.1 rfl

/-! ## Reading a layout -/

section
variable {value : Str} {l : Spacing} (h : l.Fits value)
include h

theorem mem_shown {c : UInt8} (hc : c ∈ l.shown value) : c ≠ 35 ∧ c ≠ newline := by
  unfold Spacing.shown at hc
  split at hc
  · rcases List.mem_cons.1 hc with rfl | hc
    · decide
    · rcases List.mem_append.1 hc with hc | hc
      · exact h.chars c hc
      · rw [List.mem_singleton.1 hc]
        decide
  · exact h.chars c hc

theorem mem_right {c : UInt8} (hc : c ∈ l.beforeValue ++ l.shown value ++ l.afterValue) : c ≠ 35 ∧ c ≠ newline := by
  rcases List.mem_append.1 hc with hc | hc
  · rcases List.mem_append.1 hc with hc | hc
    · exact ⟨isspace_ne (h.beforeValue c hc).1 rfl, (h.beforeValue c hc).2⟩
    · exact mem_shown h hc
  · exact ⟨isspace_ne (h.afterValue c hc).1 rfl, (h.afterValue c hc).2⟩

theorem mem_left {s : Setting} {c : UInt8} (hc : c ∈ l.indent ++ s.key ++ l.afterKey) : c ≠ 35 ∧ c ≠ 61 ∧ c ≠ newline := by
  rcases List.mem_append.1 hc with hc | hc
  · rcases List.mem_append.1 hc with hc | hc
    · exact ⟨isspace_ne (h.indent c hc).1 rfl, isspace_ne (h.indent c hc).1 rfl, (h.indent c hc).2⟩
    · exact (mem_key c hc).2.2
  · exact ⟨isspace_ne (h.afterKey c hc).1 rfl, isspace_ne (h.afterKey c hc).1 rfl, (h.afterKey c hc).2⟩

theorem trim_shown : trim (l.beforeValue ++ l.shown value ++ l.afterValue) = value := by
  have hbefore : ∀ c ∈ l.beforeValue, isspace c = true := fun c hc => (h.beforeValue c hc).1
  have hafter : ∀ c ∈ l.afterValue, isspace c = true := fun c hc => (h.afterValue c hc).1
  unfold Spacing.shown
  split
  · exact trim_quoted value hbefore hafter
  · rename_i hquoted
    exact trim_bare hbefore hafter (h.bare (Bool.eq_false_iff.2 hquoted))

theorem splitLine_sets (s : Setting) : splitLine (FileLine.sets s value l).text = some (s.key, value) := by
  have hbody : (FileLine.sets s value l).text.takeWhile (· ≠ 35) =
      l.indent ++ s.key ++ l.afterKey ++ 61 :: (l.beforeValue ++ l.shown value ++ l.afterValue) := by
    rw [FileLine.text, List.takeWhile_append_of_pos]
    · rw [Spacing.remark]
      cases l.comment <;> simp
    · intro c hc
      rcases List.mem_append.1 hc with hc | hc
      · simpa using (mem_left h hc).1
      · rcases List.mem_cons.1 hc with rfl | hc
        · decide
        · simpa using (mem_right h hc).1
  have hkey : (l.indent ++ s.key ++ l.afterKey ++ 61 :: (l.beforeValue ++ l.shown value ++ l.afterValue)).takeWhile
    (· ≠ 61) =
      l.indent ++ s.key ++ l.afterKey := by
    rw [List.takeWhile_append_of_pos fun c hc => by simpa using (mem_left h hc).2.1, List.takeWhile_cons_of_neg (by decide),
      List.append_nil]
  have hright : (l.indent ++ s.key ++ l.afterKey ++ 61 :: (l.beforeValue ++ l.shown value ++ l.afterValue)).drop
      ((l.indent ++ s.key ++ l.afterKey).length + 1) = l.beforeValue ++ l.shown value ++ l.afterValue := by
    rw [List.append_cons]
    exact List.drop_left' List.length_append
  unfold splitLine
  simp only [hbody, hkey]
  rw [if_neg (by simp), hright, trim_shown h, trim_bare (fun c hc => (h.indent c hc).1) (fun c hc =>
    (h.afterKey c hc).1) (bare_key s)]

theorem newline_sets (s : Setting) : newline ∉ (FileLine.sets s value l).text := by
  intro hmem
  rcases List.mem_append.1 hmem with hmem | hmem
  · rcases List.mem_append.1 hmem with hmem | hmem
    · exact (mem_left h hmem).2.2 rfl
    · rcases List.mem_cons.1 hmem with heq | hmem
      · exact absurd heq (by decide)
      · exact (mem_right h hmem).2 rfl
  · rw [Spacing.remark] at hmem
    rcases hcomment : l.comment with - | text
    · rw [hcomment] at hmem
      cases hmem
    · rw [hcomment] at hmem
      rcases List.mem_cons.1 hmem with heq | hmem
      · exact absurd heq (by decide)
      · exact h.comment text (hcomment ▸ rfl) hmem

end

theorem splitLine_other {text : Str} (h : 61 ∉ text.takeWhile (· ≠ 35)) : splitLine text = none := by
  unfold splitLine
  simp only
  rw [if_pos]
  rw [List.takeWhile_eq_self_iff]
  intro c hc
  simpa using fun hc61 : c = 61 => h (hc61 ▸ hc)

theorem valueOf_text {line : FileLine} (h : line.Fits) (s : Setting) : valueOf s.key line.text = line.gives s := by
  cases line with
  | sets s' value l =>
    rw [valueOf, splitLine_sets h, Option.bind_some, FileLine.gives]
    by_cases hs : s' = s
    · rw [if_pos hs, if_pos (by rw [hs])]
    · rw [if_neg hs, if_neg fun hkey => hs (key_injective hkey)]
  | other text => rw [valueOf, FileLine.text, splitLine_other h.1, FileLine.gives, Option.bind_none]

theorem newline_text {line : FileLine} (h : line.Fits) : newline ∉ line.text := by
  cases line with
  | sets s value l => exact newline_sets h s
  | other text => exact h.2

/-- The lines of a file come back, but for an empty last one. -/
theorem getlines_fileOf {lines : List FileLine} {last : FileLine} (h : ∀ line ∈ lines, line.Fits) (hlast : last.Fits) :
    getlines [] (fileOf lines last) = lines.map FileLine.text ++ if last.text = [] then [] else [last.text] := by
  induction lines with
  | nil => exact getlines_unfinished (newline_text hlast) []
  | cons line lines ih =>
    obtain ⟨hline, hlines⟩ := List.forall_mem_cons.1 h
    have hfile : fileOf (line :: lines) last = line.text ++ newline :: fileOf lines last := by simp [fileOf]
    rw [hfile, getlines_append (newline_text hline), ih hlines]
    rfl

theorem values_fileOf {lines : List FileLine} {last : FileLine} (h : ∀ line ∈ lines ++ [last], line.Fits) (s : Setting) :
    values (fileOf lines last) s.key = (lines ++ [last]).filterMap (FileLine.gives s) := by
  have hlast : last.Fits := h last (by simp)
  have hlines : ∀ line ∈ lines, line.Fits := fun line hline => h line (by simp [hline])
  have hgives : (if last.text = [] then [] else [last.text]).filterMap (valueOf s.key) = [last].filterMap
    (FileLine.gives s) := by
    split
    · rename_i hempty
      have hnone : last.gives s = none := by
        rw [← valueOf_text hlast, hempty]
        rfl
      simp [hnone]
    · simp [List.filterMap_cons, valueOf_text hlast]
  rw [values, getlines_fileOf hlines hlast, List.filterMap_append, List.filterMap_append, hgives, List.filterMap_map]
  congr 1
  exact List.filterMap_congr fun line hline => valueOf_text (hlines line hline) s

/-! ## Writing a configuration -/

/-- The values of the lines that give a configuration. -/
def valuesOf (cfg : Config) : Setting → List Str
  | .listen_host => [cfg.listen_host]
  | .listen_port => [to_string_int cfg.listen_port.toInt]
  | .data_dir => [cfg.data_dir]
  | .metadata_db => [cfg.metadata_db]
  | .chunk_size => [to_string cfg.chunk_size.toNat]
  | .replication_factor => [to_string_int cfg.replication_factor.toInt]
  | .write_quorum => [to_string_int cfg.write_quorum.toInt]
  | .read_quorum => [to_string_int cfg.read_quorum.toInt]
  | .node_id => [cfg.node_id]
  | .peer => cfg.peers
  | .admin_token => [cfg.admin_token]
  | .wal_path => [cfg.wal_path]
  | .handoff_path => [cfg.handoff_path]

theorem size_to_string (n : UInt64) : size (to_string n.toNat) = some n := by
  rw [size, HttpServer.stoull_to_string n.toNat_lt, Option.map_some, UInt64.ofNat_toNat]

theorem withValues_valuesOf (cfg : Config) : ({} : Config).withValues cfg.valuesOf = some cfg := by
  simp [withValues, valuesOf, lastOf_cons, lastOf_nil, stoi_to_string, size_to_string]

/-- However the lines of a file are laid out, with spaces, quotes, comments and
other lines anywhere and in any order of the keys, the file is read as the values
that they give; so a configuration that is written out is read back. -/
theorem load_config_written (path : Str) (lines : List FileLine) (last : FileLine)
    (h : ∀ line ∈ lines ++ [last], line.Fits) :
    load_config path (some (fileOf lines last)) =
        (({} : Config).withValues fun s => (lines ++ [last]).filterMap (FileLine.gives s)).map .ok ∧
      ∀ cfg : Config, (∀ s, (lines ++ [last]).filterMap (FileLine.gives s) = cfg.valuesOf s) →
        load_config path (some (fileOf lines last)) = some (.ok cfg) := by
  have hload : load_config path (some (fileOf lines last)) =
      (({} : Config).withValues fun s => (lines ++ [last]).filterMap (FileLine.gives s)).map .ok := by
    rw [load_config_eq, funext (values_fileOf h)]
  refine ⟨hload, fun cfg hcfg => ?_⟩
  rw [hload, funext hcfg, withValues_valuesOf, Option.map_some]

/-- A line as the files under `config` have them. -/
def plainly (s : Setting) (value : String) : FileLine := .sets s (lit value) { afterKey := [32], beforeValue := [32] }

def inQuotes (s : Setting) (value : String) : FileLine :=
  .sets s (lit value) { afterKey := [32], beforeValue := [32], quoted := true }

/-- The lines of `config/node-a.toml`, which ends with a newline. -/
def nodeALines : List FileLine :=
  [inQuotes .listen_host "0.0.0.0", plainly .listen_port "8080", inQuotes .data_dir "data/node-a",
    inQuotes .metadata_db "data/node-a/metadata.sqlite", plainly .chunk_size "4194304", plainly .replication_factor "3",
    plainly .write_quorum "2", plainly .read_quorum "2", inQuotes .node_id "node-a", inQuotes .peer "node-b=node-b:8080",
    inQuotes .peer "node-c=node-c:8080", inQuotes .admin_token "admin-token", inQuotes .wal_path "data/node-a/wal.log",
    inQuotes .handoff_path "data/node-a/hinted-handoff.log"]

def nodeA : Config where
  data_dir := lit "data/node-a"
  metadata_db := lit "data/node-a/metadata.sqlite"
  peers := [lit "node-b=node-b:8080", lit "node-c=node-c:8080"]
  wal_path := lit "data/node-a/wal.log"
  handoff_path := lit "data/node-a/hinted-handoff.log"

theorem nodeA_read : (∀ line ∈ nodeALines ++ [FileLine.other []], line.Fits) ∧
    (∀ s, (nodeALines ++ [FileLine.other []]).filterMap (FileLine.gives s) = nodeA.valuesOf s) ∧
    load_config (lit "config/node-a.toml") (some (fileOf nodeALines (.other []))) = some (.ok nodeA) := by
  have hfits : ∀ line ∈ nodeALines ++ [FileLine.other []], line.Fits := by decide +kernel
  have hvalues : ∀ s, (nodeALines ++ [FileLine.other []]).filterMap (FileLine.gives s) = nodeA.valuesOf s := by
    intro s
    cases s <;> decide +kernel
  exact ⟨hfits, hvalues, (load_config_written (lit "config/node-a.toml") nodeALines (.other []) hfits).2 nodeA hvalues⟩

end Config

end Dstore
