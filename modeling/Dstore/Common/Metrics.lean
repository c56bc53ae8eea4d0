import Dstore.Common.Text
import Dstore.Lib.Lists
/-!
# The counters of a node

`Metrics` of `metrics.cpp`: six counters that threads add to one at a time, and
the text that shows them. To record something is a list of additions, since
another thread can come in between two of them; nothing in the program calls
`record_error`.
-/

namespace Dstore

inductive Counter where
  | uploads | downloads | deletes | errors | bytes_in | bytes_out
  deriving DecidableEq, Repr

structure Metrics where
  uploads : UInt64 := 0
  downloads : UInt64 := 0
  deletes : UInt64 := 0
  errors : UInt64 := 0
  bytes_in : UInt64 := 0
  bytes_out : UInt64 := 0
  deriving DecidableEq, Repr

namespace Metrics

def load (m : Metrics) : Counter → UInt64
  | .uploads => m.uploads
  | .downloads => m.downloads
  | .deletes => m.deletes
  | .errors => m.errors
  | .bytes_in => m.bytes_in
  | .bytes_out => m.bytes_out

/-- One atomic addition, which wraps around. -/
def fetch_add (m : Metrics) (n : UInt64) : Counter → Metrics
  | .uploads => { m with uploads := m.uploads + n }
  | .downloads => { m with downloads := m.downloads + n }
  | .deletes => { m with deletes := m.deletes + n }
  | .errors => { m with errors := m.errors + n }
  | .bytes_in => { m with bytes_in := m.bytes_in + n }
  | .bytes_out => { m with bytes_out := m.bytes_out + n }

abbrev Addition := Counter × UInt64

def record_upload (bytes : UInt64) : List Addition := [(.uploads, 1), (.bytes_in, bytes)]

def record_download (bytes : UInt64) : List Addition := [(.downloads, 1), (.bytes_out, bytes)]

def record_delete : List Addition := [(.deletes, 1)]

def record_error : List Addition := [(.errors, 1)]

/-- The counters in the order in which `prometheus` loads them. -/
def order : List Counter := [.uploads, .downloads, .deletes, .errors, .bytes_in, .bytes_out]

def label : Counter → Str
  | .uploads => lit "dstore_uploads_total "
  | .downloads => lit "dstore_downloads_total "
  | .deletes => lit "dstore_deletes_total "
  | .errors => lit "dstore_errors_total "
  | .bytes_in => lit "dstore_bytes_in_total "
  | .bytes_out => lit "dstore_bytes_out_total "

/-- The text of the values that were loaded. -/
def text (values : List (Counter × UInt64)) : Str :=
  values.flatMap fun x => label x.1 ++ to_string x.2.toNat ++ lit "\n"

/-- The text when nobody adds anything meanwhile. -/
def prometheus (m : Metrics) : Str := text (order.map fun c => (c, m.load c))

theorem load_fetch_add (m : Metrics) (n : UInt64) (c c' : Counter) :
    (m.fetch_add n c).load c' = if c = c' then m.load c' + n else m.load c' := by
  cases c <;> cases c' <;> rfl

/-! ## What additions come to -/

def total (additions : List Addition) (c : Counter) : Nat := ((additions.filter (·.1 = c)).map (·.2.toNat)).sum

@[simp] theorem total_nil (c : Counter) : total [] c = 0 := rfl

theorem total_append (xs ys : List Addition) (c : Counter) : total (xs ++ ys) c = total xs c + total ys c := by
  rw [total, List.filter_append, List.map_append, List.sum_append]
  rfl

theorem total_singleton (x : Addition) (c : Counter) : total [x] c = if x.1 = c then x.2.toNat else 0 := by
  by_cases h : x.1 = c <;> simp [total, h]

/-- An addition keeps a counter at what was added to it. -/
theorem load_fetch_add_of {m : Metrics} {c : Counter} {n : Nat} (h : m.load c = .ofNat n) (x : Addition) :
    (m.fetch_add x.2 x.1).load c = .ofNat (n + total [x] c) := by
  rw [load_fetch_add, h, total_singleton]
  split
  · rw [UInt64.ofNat_add, UInt64.ofNat_toNat]
  · rw [Nat.add_zero]

end Metrics

end Dstore
