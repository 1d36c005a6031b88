import TableTotals.Failure

/-!
What a table is watched for, and the size of one entry.

Every table has its entries counted. A table may besides be given a sizer, which says how
many bytes an entry stands for; a sizer sizes the entries of one shape only.
-/

namespace TableTotals

inductive Sizer where
  /-- Keys that are being written, sized by their parts. -/
  | openKeys
  /-- Deleted keys, sized by every version that is kept. -/
  | deletedKeys
  deriving DecidableEq, Repr

inductive Watch where
  /-- The number of its entries. -/
  | counted
  /-- The number of its entries and their sizes. -/
  | sized (sizer : Sizer)
  deriving DecidableEq, Repr

def Watch.sizer? : Watch → Option Sizer
  | counted => none
  | sized s => some s

def Watch.tracksSize (w : Watch) : Bool := w.sizer?.isSome

/-- The bytes that one entry stands for. -/
structure Extent where
  unreplicated : Int64
  replicated : Int64
  deriving DecidableEq, Repr

namespace Extent

/-- Two word sizes as statistics, each stopping at the largest. -/
def ofWords (unreplicated replicated : UInt64) : Extent :=
  ⟨Clamped.ofWord unreplicated, Clamped.ofWord replicated⟩

def zero : Extent := ⟨0, 0⟩

def add (x y : Extent) : Extent :=
  ⟨Clamped.add x.unreplicated y.unreplicated, Clamped.add x.replicated y.replicated⟩

def sub (x y : Extent) : Extent :=
  ⟨Clamped.sub x.unreplicated y.unreplicated, Clamped.sub x.replicated y.replicated⟩

/-- The sizes taken away instead of added; no size of an entry is so small that this wraps. -/
def neg (x : Extent) : Extent := ⟨-x.unreplicated, -x.replicated⟩

end Extent

namespace Sizer

def name : Sizer → String
  | openKeys => "open entries"
  | deletedKeys => "deleted entries"

def shape : Sizer → Shape
  | openKeys => .key
  | deletedKeys => .deleted

def size? (s : Sizer) (e : Entry) : Option Extent :=
  if e.shape = s.shape then e.sizes?.map fun t => .ofWords t.1 t.2 else none

/-- The size of an entry, or that this sizer has none for it. -/
def size (s : Sizer) (table : String) (e : Entry) : Except Failure Extent :=
  match s.size? e with
  | some z => .ok z
  | none => .error (.sizing table (.unsuited s.name e.shape))

end Sizer

end TableTotals
