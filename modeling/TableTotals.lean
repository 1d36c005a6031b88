import TableTotals.SortedMap.Lemmas
import TableTotals.Workbench
import TableTotals.Proofs.Wire.RoundTrip
import TableTotals.Proofs.SortedMap
import TableTotals.Proofs.Tally
import TableTotals.Proofs.Redundancy
import TableTotals.Proofs.Exact
import TableTotals.Proofs.Change
import TableTotals.Proofs.Replay
import TableTotals.Proofs.Amendment
import TableTotals.Proofs.Logbook
import TableTotals.Proofs.Walk
import TableTotals.Proofs.OpenCursors
import TableTotals.Proofs.Upsert
import TableTotals.Proofs.Agenda
import TableTotals.Proofs.Calls
import TableTotals.Proofs.Misfit
import TableTotals.Proofs.Range
import TableTotals.Proofs.Reset
import TableTotals.Proofs.Retry
import TableTotals.Proofs.Lockstep
import TableTotals.Proofs.Depot
import TableTotals.Proofs.Pipeline
import TableTotals.Proofs.Turns
import TableTotals.Proofs.Holdings
import TableTotals.Proofs.Report
import TableTotals.Proofs.Overlap
import TableTotals.Proofs.Service
import TableTotals.Proofs.Flaw
import TableTotals.Proofs.Effects
import TableTotals.Proofs.Wire.Truncation
import TableTotals.Proofs.Wire.Shortest
import TableTotals.Proofs.Wire.Capacity
import TableTotals.Proofs.BulkWrite
import TableTotals.Proofs.Floor
import TableTotals.Proofs.Replacement
import TableTotals.Proofs.Drift
