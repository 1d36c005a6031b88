import TableTotals.Bounded

/-!
Statistics of tables: what is measured, the key that a measure of a table is recorded under,
and the record itself.
-/

namespace TableTotals

inductive Measure where
  | count
  | unreplicated
  | replicated
  deriving DecidableEq, Repr

namespace Measure

/-- The measures in the order in which they are recorded. -/
def all : List Measure := [count, unreplicated, replicated]

theorem mem_all (m : Measure) : m ∈ all := by cases m <;> simp [all]

def suffix : Measure → String
  | count => "Count"
  | unreplicated => "UnReplicatedDataSize"
  | replicated => "ReplicatedDataSize"

def key (m : Measure) (table : String) : String := table ++ m.suffix

end Measure

/-- A moment, in milliseconds since the epoch. -/
abbrev Moment := Int64

structure Reading where
  value : Int64
  updatedAt : Moment
  deriving DecidableEq, Repr

structure Record extends Reading where
  key : String
  deriving DecidableEq, Repr

end TableTotals
