import TableTotals.Executor
import TableTotals.Report

/-!
The commands that a workbench understands, and the answers that it gives.
-/

namespace TableTotals

/-- The two metadata stores of a bench. -/
inductive Shelf where
  | main
  | spare
  deriving DecidableEq, Repr

/-- Ways to look at the stores: plainly, or at the main one through the outages. -/
inductive View where
  | plain (shelf : Shelf)
  | guarded
  deriving DecidableEq, Repr

def View.shelf : View → Shelf
  | plain s => s
  | guarded => .main

inductive Duty where
  | load
  | follow (batch : Batch)
  | rescan (snapshot : View)
  | persist
  deriving DecidableEq, Repr

inductive Command where
  | create (shelf : Shelf) (table : String) (layout : Shape)
  | drop (shelf : Shelf) (table : String)
  | put (shelf : Shelf) (table : String) (key : List UInt8) (entry : Entry)
  | putBytes (shelf : Shelf) (table : String) (key bytes : List UInt8)
  | delete (shelf : Shelf) (table : String) (key : List UInt8)
  | get (shelf : Shelf) (table : String) (key : List UInt8)
  | count (shelf : Shelf) (table : String)
  | layout (shelf : Shelf) (table : String)
  | names (view : View)
  | openCursors (shelf : Shelf)
  | openTable (view : View) (table handle : String)
  | openCursor (handle cursor : String)
  | next (cursor : String)
  | rewind (cursor : String)
  | closeCursor (cursor : String)
  | summarize (cursor : String) (sizer : Sizer) (label : String)
  | feedPut (table : String) (key : List UInt8) (entry : Entry)
  | feedDelete (table : String) (key : List UInt8)
  | takeBatch
  | followFeed
  | breakScans (table : String) (after : Nat)
  | heal
  | refuseNames (on : Bool)
  | refuseInserts (on : Bool)
  | refuseUpdates (on : Bool)
  | refuseRecord (key : Option String)
  | refuseClock (on : Bool)
  | resetCounts
  | seed (key : String) (value : Int64)
  | insert (records : List Record)
  | update (records : List Record)
  | fetch (key : String)
  | lookUp (key : String)
  | now
  | setClock (moment : Moment)
  | advanceClock (millis : Int64)
  | readCount (table : String)
  | readExtent (table : String)
  | readReport (table : String)
  /-- Tells the engine to do something, and answers with the failure if it fails. -/
  | attempt (duty : Duty)
  /-- Tells the engine to do something, and answers whether it succeeded. -/
  | run (duty : Duty)
  | look
  | engineTables
  | engineTable (table : String)
  | newEngine (settings : Settings)
  | reopen (settings : Settings)
  | dismantle
  | spawn (plan : Plan) (hold : Bool)
  | offer (batch : Batch)
  | send (job : Job)
  | sendFeed
  | release
  | isRunning
  | stop
  | discard
  deriving DecidableEq

inductive Answer where
  | done
  | flag (b : Bool)
  | number (n : Nat)
  | names (names : List String)
  | opened (table : String)
  | entry (e : Option Entry)
  | cell (c : Option (List UInt8 × Entry))
  | layout (s : Option Shape)
  | summary (s : Summary)
  | batch (b : Batch)
  | followed (b : Batch) (v : Verdict)
  | record (r : Option Record)
  | holding (value : Option Int64) (size : Nat)
  | statistic (x : Int64)
  | extent (x : Extent)
  | report (r : Report)
  | verdict (v : Verdict)
  | verdicts (vs : List Verdict)
  | tables (engine : String) (tables : List (String × Watch))
  | table (watch : Watch) (count : Option Int64) (extent : Option Extent)
      (listed recorded : Bool)
  | parts (tables records : Nat)
  | accepted (vs : List Verdict)
  | rejected (b : Batch)
  | stopped (returned : Bool) (vs : List Verdict)
  deriving DecidableEq

end TableTotals
