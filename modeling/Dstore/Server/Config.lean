import Mathlib.Data.List.DropRight
import Dstore.Network.HttpServer
import Dstore.Server.ObjectRoutes
/-!
# The configuration of a node

`load_config` of `config.cpp`: lines `key = value`, with comments, in which the
last line of a key counts. A number that is none makes `std::stoi` or
`std::stoull` throw; nothing else is refused, so an empty token is accepted
(`load_config_admin_token`).
-/

namespace Dstore

structure Config where
  listen_host : Str := lit "0.0.0.0"
  listen_port : Int32 := 8080
  data_dir : Str := lit "data"
  metadata_db : Str := lit "data/metadata.sqlite"
  chunk_size : UInt64 := 4 * 1024 * 1024
  replication_factor : Int32 := 3
  write_quorum : Int32 := 2
  read_quorum : Int32 := 2
  node_id : Str := lit "node-a"
  peers : List Str := []
  admin_token : Str := lit "admin-token"
  wal_path : Str := lit "data/wal.log"
  handoff_path : Str := lit "data/hinted-handoff.log"
  deriving DecidableEq, Repr

namespace Config

def quote : UInt8 := 34

def trim (s : Str) : Str :=
  let s := (s.dropWhile isspace).rdropWhile isspace
  if 2 ≤ s.length ∧ s.head? = some quote ∧ s.getLast? = some quote then (s.drop 1).take (s.length - 2) else s

/-- The key and the value of a line, when it has an equals sign. -/
def splitLine (line : Str) : Option (Str × Str) :=
  let line := line.takeWhile (· ≠ 35)
  let key := line.takeWhile (· ≠ 61)
  if key = line then none else some (trim key, trim (line.drop (key.length + 1)))

/-- The assignment for a key; `none` when the number is none. -/
def assign (cfg : Config) (key value : Str) : Option Config :=
  if key = lit "listen_host" then some { cfg with listen_host := value }
  else if key = lit "listen_port" then (stoi value).map fun port => { cfg with listen_port := port }
  else if key = lit "data_dir" then some { cfg with data_dir := value }
  else if key = lit "metadata_db" then some { cfg with metadata_db := value }
  else if key = lit "chunk_size" then (HttpServer.stoull value).map fun size => { cfg with chunk_size := .ofNat size }
  else if key = lit "replication_factor" then (stoi value).map fun factor => { cfg with replication_factor := factor }
  else if key = lit "write_quorum" then (stoi value).map fun quorum => { cfg with write_quorum := quorum }
  else if key = lit "read_quorum" then (stoi value).map fun quorum => { cfg with read_quorum := quorum }
  else if key = lit "node_id" then some { cfg with node_id := value }
  else if key = lit "peer" then some { cfg with peers := cfg.peers ++ [value] }
  else if key = lit "admin_token" then some { cfg with admin_token := value }
  else if key = lit "wal_path" then some { cfg with wal_path := value }
  else if key = lit "handoff_path" then some { cfg with handoff_path := value }
  else some cfg

/-- The body of the loop over the lines. -/
def readLine (cfg : Config) (line : Str) : Option Config :=
  match splitLine line with
  | none => some cfg
  | some (key, value) => cfg.assign key value

/-- The file, or `none` when it cannot be opened. The outcome `none` is an
exception. -/
def load_config (path : Str) (file : Option Str) : Option (Result Config) :=
  match file with
  | none => some (.error (.NotFound (lit "config file not found: " ++ path)))
  | some text => ((getlines [] text).foldlM readLine {}).map .ok

/-! ## The admin token -/

/-- The value that a line gives for a key. -/
def valueOf (key line : Str) : Option Str :=
  (splitLine line).bind fun entry => if entry.1 = key then some entry.2 else none

/-- The values that a file gives for a key, in order. -/
def values (text key : Str) : List Str := (getlines [] text).filterMap (valueOf key)

theorem ite_some {c P : Prop} [Decidable c] {a b : Option Config} {cfg : Config} (ha : a = some cfg → P)
    (hb : b = some cfg → P)
    (h : (if c then a else b) = some cfg) : P := by
  by_cases hc : c
  · rw [if_pos hc] at h
    exact ha h
  · rw [if_neg hc] at h
    exact hb h

/-- Every other key leaves the token as it is. -/
theorem assign_admin_token {cfg cfg' : Config} {key value : Str} (h : cfg.assign key value = some cfg') :
    cfg'.admin_token = if key = lit "admin_token" then value else cfg.admin_token := by
  by_cases hkey : key = lit "admin_token"
  · subst hkey
    have hset : cfg.assign (lit "admin_token") value = some { cfg with admin_token := value } := rfl
    rw [hset] at h
    obtain rfl := Option.some.inj h
    exact (if_pos rfl).symm
  · rw [if_neg hkey]
    unfold assign at h
    rw [if_neg hkey] at h
    revert h
    -- one case for each of the other keys, and one for a key that is none of them
    repeat' refine ite_some ?_ ?_
    all_goals
      intro h
      first
      | (obtain rfl := Option.some.inj h; rfl)
      | (obtain ⟨_, -, rfl⟩ := Option.map_eq_some_iff.1 h; rfl)

theorem readLine_admin_token {cfg cfg' : Config} {line : Str} (h : cfg.readLine line = some cfg') :
    cfg'.admin_token = (valueOf (lit "admin_token") line).getD cfg.admin_token := by
  unfold readLine at h
  unfold valueOf
  cases hline : splitLine line with
  | none =>
    rw [hline] at h
    obtain rfl := Option.some.inj h
    rfl
  | some entry =>
    obtain ⟨key, value⟩ := entry
    rw [hline] at h
    rw [assign_admin_token h, Option.bind_some]
    by_cases hkey : key = lit "admin_token"
    · rw [if_pos hkey, if_pos hkey, Option.getD_some]
    · rw [if_neg hkey, if_neg hkey, Option.getD_none]

theorem readLines_admin_token {lines : List Str} {cfg cfg' : Config} (h : lines.foldlM readLine cfg = some cfg') :
    cfg'.admin_token = (lines.filterMap (valueOf (lit "admin_token"))).getLast?.getD cfg.admin_token := by
  induction lines generalizing cfg with
  | nil =>
    obtain rfl := Option.some.inj h
    rfl
  | cons line lines ih =>
    rw [List.foldlM_cons] at h
    obtain ⟨mid, hmid, hrest⟩ := Option.bind_eq_some_iff.1 h
    have hline := readLine_admin_token hmid
    rw [ih hrest]
    cases hvalue : valueOf (lit "admin_token") line with
    | none =>
      rw [hvalue, Option.getD_none] at hline
      rw [List.filterMap_cons_none hvalue, hline]
    | some value =>
      rw [hvalue, Option.getD_some] at hline
      rw [List.filterMap_cons_some hvalue, List.getLast?_cons, Option.getD_some, hline]

/-- The token is the last one that the file gives, and otherwise the default. -/
theorem load_config_admin_token {path text : Str} {cfg : Config} (h : load_config path (some text) = some (.ok cfg)) :
    cfg.admin_token = (values text (lit "admin_token")).getLast?.getD (lit "admin-token") := by
  unfold load_config at h
  obtain ⟨cfg', hlines, hok⟩ := Option.map_eq_some_iff.1 h
  obtain rfl := Except.ok.inj hok
  exact readLines_admin_token hlines

end Config

/-! ## The server of a configuration -/

/-- What `main` makes of the configuration. -/
def Server.ofConfig (cfg : Config) : Server where
  chunk_size := cfg.chunk_size
  chunks := {
    self := .of cfg.node_id (cfg.node_id ++ lit ":" ++ to_string_int cfg.listen_port.toInt)
    replication_factor := cfg.replication_factor.toInt
    write_quorum := cfg.write_quorum.toInt
    read_quorum := cfg.read_quorum.toInt
    seed_members := cfg.peers.map parse_node }

end Dstore
