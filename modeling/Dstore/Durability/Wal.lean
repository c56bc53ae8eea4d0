import Dstore.Common.Sha256
import Dstore.Common.Text
/-!
# The write-ahead log

`WriteAheadLog` of `wal.cpp`: one line for each record, its fields and their
hash separated by tabs. A stream that failed once stays failed, so every later
append is refused. `replay` reads the file again; it checks the number of
fields and the hash of each line.
-/

namespace Dstore

/-- The enumeration is an `int` that `replay` casts from whatever number it
reads. -/
structure WalRecordType where
  value : Int32
  deriving DecidableEq, Repr

namespace WalRecordType

def kPutObject : WalRecordType := ⟨1⟩
def kDeleteObject : WalRecordType := ⟨2⟩
def kRaftEntry : WalRecordType := ⟨3⟩
def kHintedHandoff : WalRecordType := ⟨4⟩

end WalRecordType

structure WalRecord where
  type : WalRecordType := .kPutObject
  key : Str
  payload : Str
  deriving DecidableEq, Repr

/-- What the log needs of a hash: 64 characters, none of them a separator. -/
structure LineHash where
  hex : Bytes → Str
  length : ∀ b, (hex b).length = 64
  no_tab : ∀ b, tab ∉ hex b
  no_newline : ∀ b, newline ∉ hex b

/-- Hexadecimal digits are not separators. -/
theorem not_mem_digest {s : Str} (h : Digest s) {c : UInt8} (hc : isHex c = false) : c ∉ s := by
  intro hm
  rw [h.2 c hm] at hc
  cases hc

def HexHash.lineHash (H : HexHash) : LineHash where
  hex := H.hex
  length b := (H.digest b).1
  no_tab b := not_mem_digest (H.digest b) (by decide)
  no_newline b := not_mem_digest (H.digest b) (by decide)

instance : Coe HexHash LineHash := ⟨HexHash.lineHash⟩

/-- An open log: its file, and whether the stream works. -/
structure WriteAheadLog where
  file : Str := []
  good : Bool := true
  deriving DecidableEq, Repr

namespace WriteAheadLog

variable (H : LineHash)

/-- `open`: the file is created when there is none, and appended to. -/
def open_log (file : Option Str) (fault : Bool) : Result Unit × WriteAheadLog :=
  if fault then (.error (.Internal (lit "failed to open wal")), ⟨file.getD [], false⟩) else (.ok (), ⟨file.getD [], true⟩)

/-- The fields of a record. -/
def line (record : WalRecord) : Str :=
  to_string_int record.type.value.toInt ++ tab :: record.key ++ tab :: record.payload

/-- The fault is the number of bytes that are written before the stream fails. -/
def append (log : WriteAheadLog) (fault : Option Nat) (record : WalRecord) : Result Unit × WriteAheadLog :=
  if log.good then
    let text := line record ++ tab :: H.hex (line record) ++ [newline]
    match fault with
    | some written => (.error (.Internal (lit "failed to append wal record")), ⟨log.file ++ text.take written, false⟩)
    | none => (.ok (), { log with file := log.file ++ text })
  else (.error (.Internal (lit "wal is not open")), log)

/-- A log that works takes the record. -/
theorem append_good {log : WriteAheadLog} (h : log.good = true) (record : WalRecord) :
    ∃ file, log.append H none record = (.ok (), ⟨file, true⟩) := by
  obtain ⟨file, good⟩ := log
  obtain rfl : good = true := h
  exact ⟨_, rfl⟩

/-- The body of the loop of `replay`; `none` when `std::stoi` throws. -/
def parseLine (line : Str) : Option (Result WalRecord) :=
  match line.splitOn tab with
  | [type, key, payload, checksum] =>
    if H.hex (type ++ tab :: key ++ tab :: payload) ≠ checksum then
      some (.error (.Internal (lit "wal checksum mismatch")))
    else (stoi type).map fun value => .ok ⟨⟨value⟩, key, payload⟩
  | _ => some (.error (.Internal (lit "corrupt wal record")))

/-- The loop of `replay` over the lines that are left. -/
def replayLines : List Str → List WalRecord → Option (Result (List WalRecord))
  | [], records => some (.ok records)
  | line :: rest, records =>
    match parseLine H line with
    | none => none
    | some (.error status) => some (.error status)
    | some (.ok record) => replayLines rest (records ++ [record])

/-- The file, or `none` when it cannot be read. The outcome `none` is an
exception. -/
def replay (file : Option Str) : Option (Result (List WalRecord)) :=
  match file with
  | none => some (.ok [])
  | some text => replayLines H (getlines [] text) []

end WriteAheadLog

end Dstore
