import TableTotals.SortedMap.Lemmas
import TableTotals.Statistic
import TableTotals.Sizing
import TableTotals.Change

/-!
Running totals of tables, and what a change does to them.

For each measure there is one column, from table names to totals. The totals of one measure
stand in it by table name, not by the key that they are recorded under: of the tables `a` and
`aB` the former comes first, while `aBCount` comes before `aCount`. The two orders are told apart
by nothing, since the records of a measure are read, inserted and updated in one call each.

Every total is kept at or above zero: taking away more than a total holds leaves it at zero. A
change whose entries cannot be sized fails, and has changed no total by then.
-/

namespace TableTotals

/-- What a scan finds of one table. -/
structure Summary where
  count : Int64
  extent : Extent
  deriving DecidableEq, Repr

namespace Summary

def zero : Summary := ⟨0, .zero⟩

def addEntry (s : Summary) (x : Extent) : Summary :=
  ⟨Clamped.add s.count 1, s.extent.add x⟩

end Summary

/-- The running totals of tables, a column for each measure. -/
structure Totals where
  counts : SortedMap String Int64 := ∅
  unreplicated : SortedMap String Int64 := ∅
  replicated : SortedMap String Int64 := ∅
  deriving DecidableEq

namespace Totals

def empty : Totals := {}

instance : EmptyCollection Totals := ⟨empty⟩

def column (t : Totals) : Measure → SortedMap String Int64
  | .count => t.counts
  | .unreplicated => t.unreplicated
  | .replicated => t.replicated

def withColumn (t : Totals) (m : Measure) (c : SortedMap String Int64) : Totals :=
  match m with
  | .count => { t with counts := c }
  | .unreplicated => { t with unreplicated := c }
  | .replicated => { t with replicated := c }

def value? (t : Totals) (m : Measure) (table : String) : Option Int64 := (t.column m).get? table

def isEmpty (t : Totals) : Bool :=
  t.counts.isEmpty && t.unreplicated.isEmpty && t.replicated.isEmpty

/-- Gives a total a value, or zero for a negative one. -/
def set (t : Totals) (m : Measure) (table : String) (x : Int64) : Totals :=
  t.withColumn m ((t.column m).insert table (Clamped.floorZero x))

/-- Adds to a total, which is zero where there is none and never falls below zero. -/
def add (t : Totals) (m : Measure) (table : String) (d : Int64) : Totals :=
  t.set m table (Clamped.add ((t.column m).getD table 0) d)

def setExtent (t : Totals) (table : String) (x : Extent) : Totals :=
  (t.set .unreplicated table x.unreplicated).set .replicated table x.replicated

def addExtent (t : Totals) (table : String) (d : Extent) : Totals :=
  (t.add .unreplicated table d.unreplicated).add .replicated table d.replicated

/-- Takes over what a scan found; sizes only of a table that is watched for them. -/
def takeOver (t : Totals) (table : String) (w : Watch) (s : Summary) : Totals :=
  let t := t.set .count table s.count
  if w.tracksSize then t.setExtent table s.extent else t

def count? (t : Totals) (table : String) : Option Int64 := t.value? .count table

/-- Both total sizes of a table that has them. -/
def extent? (t : Totals) (table : String) : Option Extent := do
  return ⟨← t.value? .unreplicated table, ← t.value? .replicated table⟩

def records (t : Totals) (m : Measure) (now : Moment) : List Record :=
  (t.column m).entries.map fun p => { key := m.key p.1, value := p.2, updatedAt := now }

@[simp] theorem column_withColumn (t : Totals) (m m' : Measure) (c : SortedMap String Int64) :
    (t.withColumn m c).column m' = if m' = m then c else t.column m' := by
  cases m <;> cases m' <;> rfl

theorem value?_set (t : Totals) (m m' : Measure) (table table' : String) (x : Int64) :
    (t.set m table x).value? m' table' =
      if m' = m ∧ table' = table then some (Clamped.floorZero x) else t.value? m' table' := by
  unfold set value?
  rw [column_withColumn]
  by_cases hm : m' = m
  · subst hm
    by_cases ht : table' = table <;> simp [ht]
  · simp [hm]

theorem extent?_eq_some {t : Totals} {table : String} {x : Extent} :
    t.extent? table = some x ↔
      t.value? .unreplicated table = some x.unreplicated ∧
        t.value? .replicated table = some x.replicated := by
  rw [extent?]
  cases t.value? .unreplicated table <;> cases t.value? .replicated table <;> cases x <;> simp

end Totals

/-- The three ways in which a change bears on the totals of a sized table. -/
inductive Adjustment where
  | insertion
  | removal
  | modification
  deriving DecidableEq, Repr

def Action.adjustment? : Action → Option Adjustment
  | put => some .insertion
  | delete => some .removal
  | update => some .modification
  | other _ => none

/-- Adjusts the totals of a sized table by the values of a change. Without a value nothing is
known to adjust, and a modification whose old value is unknown is passed over; a modification
leaves the count alone. -/
def Totals.adjust (t : Totals) (s : Sizer) (table : String) (a : Adjustment)
    (value old : Option Entry) : Totals × Except Failure Unit :=
  match a, value, old with
  | _, none, _ => (t, .ok ())
  | .insertion, some new, _ =>
    match s.size table new with
    | .error failure => (t, .error failure)
    | .ok x => ((t.add .count table 1).addExtent table x, .ok ())
  | .removal, some gone, _ =>
    match s.size table gone with
    | .error failure => (t, .error failure)
    | .ok x => ((t.add .count table (-1)).addExtent table x.neg, .ok ())
  | .modification, some _, none => (t, .ok ())
  | .modification, some new, some old =>
    match s.size table new with
    | .error failure => (t, .error failure)
    | .ok x =>
      match s.size table old with
      | .error failure => (t, .error failure)
      | .ok y => (t.addExtent table (x.sub y), .ok ())

/-- The totals that an adjustment makes, or why it makes none. -/
def Sizer.adjust (s : Sizer) (table : String) (a : Adjustment) (value old : Option Entry)
    (t : Totals) : Except Failure Totals :=
  let (adjusted, r) := t.adjust s table a value old
  r.map fun () => adjusted

/-- Counts one entry more or less, where a change says which entry. -/
def Totals.recount (t : Totals) (c : Change) : Totals :=
  match c.action, c.value with
  | .put, some _ => t.add .count c.table 1
  | .delete, some _ => t.add .count c.table (-1)
  | _, _ => t

def Totals.apply (t : Totals) (w : Watch) (c : Change) : Totals × Except Failure Unit :=
  match w, c.action.adjustment? with
  | .counted, _ => (t.recount c, .ok ())
  | .sized _, none => (t, .ok ())
  | .sized s, some a => t.adjust s c.table a c.value c.old

end TableTotals
