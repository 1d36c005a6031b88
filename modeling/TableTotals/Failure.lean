import TableTotals.Entry

/-!
What can go wrong, as causes, and how each cause is worded.

A failure names the activity that met it: reading a table, sizing an entry, writing or
reading statistics, coding an entry. Its `Kind` is the coarser sort that callers act on: a
table that is missing or does not decode is a scan that went wrong. Each cause that a device
outside the library may raise has a case `reported`, which carries that device's own words.
-/

namespace TableTotals

inductive WireFault where
  /-- The bytes end before the value does. -/
  | ended
  /-- A number runs on too long or is too large. -/
  | number
  /-- A text is no UTF-8. -/
  | text
  /-- A tag stands for no alternative. -/
  | tag
  deriving DecidableEq, Repr

inductive CodingCause where
  | malformedKey (fault : WireFault)
  | malformedDeleted (fault : WireFault)
  /-- An entry of one shape was meant for a table of another layout. -/
  | mismatch (entry layout : Shape)
  | reported (text : String)
  deriving DecidableEq, Repr

inductive ScanCause where
  | undecodable (cause : CodingCause)
  /-- The scan was set to break off. -/
  | interrupted
  | reported (text : String)
  deriving DecidableEq, Repr

inductive SizingCause where
  /-- The sizer of that name sizes no entry of that shape. -/
  | unsuited (sizer : String) (entry : Shape)
  | reported (text : String)
  deriving DecidableEq, Repr

inductive WritingCause where
  /-- A record to be inserted was there. -/
  | present (key : String)
  /-- A record to be inserted met the uniqueness of keys in a database. -/
  | duplicate (key : String)
  /-- A record to be updated was not there. -/
  | absent (key : String)
  | insertsRefused
  | updatesRefused
  | reported (text : String)
  deriving DecidableEq, Repr

inductive ReadingCause where
  | recordRefused
  | clockRefused
  | reported (text : String)
  deriving DecidableEq, Repr

/-- What else can stop the engine. -/
inductive InternalCause where
  | namesRefused
  | stopped
  /-- A file that was opened as a database is none. -/
  | notDatabase
  /-- No database file can be opened at a path. -/
  | unreachable (path : String)
  | reported (text : String)
  deriving DecidableEq, Repr

/-- A failure, by the activity that met it. -/
inductive Failure where
  | scan (table : String) (cause : ScanCause)
  | sizing (table : String) (cause : SizingCause)
  | writing (cause : WritingCause)
  | reading (cause : ReadingCause)
  | coding (cause : CodingCause)
  | missingTable (table : String)
  /-- The engine has not taken up its tables yet. -/
  | notReady
  | internal (cause : InternalCause)
  deriving DecidableEq, Repr

def WireFault.message : WireFault → String
  | ended => "Hit the end of buffer, expected more data"
  | number => "Found a varint that didn't terminate. Is the usize too big for this platform?"
  | text => "Tried to parse invalid utf-8"
  | tag => "Serde Deserialization Error"

def CodingCause.message : CodingCause → String
  | malformedKey fault => "failed to decode key info: " ++ fault.message
  | malformedDeleted fault => "failed to decode deleted key info: " ++ fault.message
  | mismatch entry layout =>
    "cannot store a " ++ entry.noun ++ " value in a " ++ layout.title ++ " table"
  | reported text => text

/-- The words in front of what went wrong in coding. -/
def codingMessage (cause : CodingCause) : String := "codec error: " ++ cause.message

def ScanCause.message : ScanCause → String
  | undecodable cause => codingMessage cause
  | interrupted => "injected I/O failure"
  | reported text => text

def SizingCause.message : SizingCause → String
  | unsuited sizer entry => sizer ++ " handler cannot size a " ++ entry.noun ++ " value"
  | reported text => text

def WritingCause.message : WritingCause → String
  | present key => "record '" ++ key ++ "' already exists"
  | duplicate key =>
    "failed to insert '" ++ key ++ "': UNIQUE constraint failed: global_stats.key"
  | absent key => "record '" ++ key ++ "' does not exist"
  | insertsRefused => "injected insert failure"
  | updatesRefused => "injected update failure"
  | reported text => text

def ReadingCause.message : ReadingCause → String
  | recordRefused => "injected read failure"
  | clockRefused => "injected timestamp failure"
  | reported text => text

def InternalCause.message : InternalCause → String
  | namesRefused => "injected catalog failure"
  | stopped => "insight worker is stopped"
  | notDatabase => "failed to create global_stats table: file is not a database"
  | unreachable path =>
    "failed to open statistics database: unable to open database file: " ++ path
  | reported text => text

namespace Failure

def message : Failure → String
  | scan table cause => "failed to scan table '" ++ table ++ "': " ++ cause.message
  | sizing table cause => "handler for table '" ++ table ++ "' failed: " ++ cause.message
  | writing cause => "failed to write statistics: " ++ cause.message
  | reading cause => "failed to read statistics: " ++ cause.message
  | coding cause => codingMessage cause
  | missingTable table => "table '" ++ table ++ "' not found"
  | notReady => "insight task has not been initialized"
  | internal cause => "internal error: " ++ cause.message

/-- The sorts of failure that a caller tells apart. -/
inductive Kind where
  | scan
  | sizing
  | writing
  | other
  deriving DecidableEq, Repr

def kind : Failure → Kind
  | scan .. | coding _ | missingTable _ => .scan
  | sizing .. => .sizing
  | writing _ => .writing
  | reading _ | notReady | internal _ => .other

end Failure

end TableTotals
