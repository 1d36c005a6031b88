import TableTotals.Vault

/-!
Reading recorded statistics back, without an engine.

A statistic that has no record reads as zero. The report of a table tells when any of its
records was last written, if there is one.
-/

namespace TableTotals

/-- The recorded statistics of a table. -/
structure Report where
  count : Int64
  extent : Extent
  /-- The latest moment at which one of the records was written. -/
  updatedAt : Option Moment
  deriving DecidableEq, Repr

namespace Vault

def countOf (v : Vault) (table : String) : Except Failure Int64 := v.value .count table

def extentOf (v : Vault) (table : String) : Except Failure Extent := do
  let u ← v.value .unreplicated table
  let r ← v.value .replicated table
  return ⟨u, r⟩

/-- The later of a moment and the moment of a record, where there is one. -/
def latest (moment : Option Moment) (r : Option Record) : Option Moment :=
  match moment, r with
  | none, r => r.map (·.updatedAt)
  | some t, none => some t
  | some t, some r => some (max t r.updatedAt)

def reportOf (v : Vault) (table : String) : Except Failure Report := do
  let c ← v.fetch (Measure.count.key table)
  let u ← v.fetch (Measure.unreplicated.key table)
  let r ← v.fetch (Measure.replicated.key table)
  let read (record : Option Record) : Int64 := (record.map (·.value)).getD 0
  return ⟨read c, ⟨read u, read r⟩, latest (latest (latest none c) u) r⟩

end Vault

end TableTotals
