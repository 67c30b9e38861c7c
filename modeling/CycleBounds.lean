import CycleBounds.Word
import CycleBounds.Bound.Engine
import CycleBounds.Bound.Exploration
import CycleBounds.Bound.Iteration
import CycleBounds.Bound.Platform
import CycleBounds.Bound.Stamp
import CycleBounds.Bound.Trace
import CycleBounds.Bus.Schedule
import CycleBounds.Bus.Tracker
import CycleBounds.Cache.Access
import CycleBounds.Cache.Ages
import CycleBounds.Cache.Classification
import CycleBounds.Cache.Config
import CycleBounds.Cache.Footprint
import CycleBounds.Cache.Hierarchy
import CycleBounds.Cache.Level
import CycleBounds.Cache.State
import CycleBounds.Code.Draft
import CycleBounds.Code.Procedure
import CycleBounds.Code.Nesting
import CycleBounds.Code.Program
import CycleBounds.Context
import CycleBounds.Event
import CycleBounds.Fault
import CycleBounds.Offset.Graph
import CycleBounds.Offset.Listing
import CycleBounds.Offset.Solution
import CycleBounds.Offset.Solver
import CycleBounds.Offset.Walk
import CycleBounds.Proofs.Bound.Best
import CycleBounds.Proofs.Bound.Blocks
import CycleBounds.Proofs.Bound.Bodies
import CycleBounds.Proofs.Bound.Clock
import CycleBounds.Proofs.Bound.Exploration
import CycleBounds.Proofs.Bound.Loops
import CycleBounds.Proofs.Bound.Offsets
import CycleBounds.Proofs.Bound.Optimum
import CycleBounds.Proofs.Bound.Paths
import CycleBounds.Proofs.Bound.Progress
import CycleBounds.Proofs.Bound.Rounds
import CycleBounds.Proofs.Bound.Worst
import CycleBounds.Proofs.Bus.Delay
import CycleBounds.Proofs.Cache.Blocks
import CycleBounds.Proofs.Cache.Bodies
import CycleBounds.Proofs.Cache.Covers
import CycleBounds.Proofs.Cache.Findings
import CycleBounds.Proofs.Cache.Loops
import CycleBounds.Proofs.Cache.Lru
import CycleBounds.Proofs.Cache.Soundness
import CycleBounds.Proofs.Code.Arrangement
import CycleBounds.Proofs.Code.Calls
import CycleBounds.Proofs.Code.Checks
import CycleBounds.Proofs.Code.Nesting
import CycleBounds.Proofs.Code.Passable
import CycleBounds.Proofs.Code.Regions
import CycleBounds.Proofs.Code.Structure
import CycleBounds.Proofs.Offset.Graph
import CycleBounds.Proofs.Offset.Walk
import CycleBounds.Proofs.Results
import CycleBounds.Proofs.Run.Flow
import CycleBounds.Proofs.Run.Path
import CycleBounds.Proofs.Run.Sweep
import CycleBounds.Proofs.Run.Walk
import CycleBounds.Table
import CycleBounds.Task.Graph
import CycleBounds.Task.Placement
import CycleBounds.Text.Reading
import CycleBounds.Text.Quoted
import CycleBounds.Traced
import CycleBounds.Proofs.Bound.Estimates
import CycleBounds.Proofs.Cache.Lines
import CycleBounds.Proofs.Cache.Interference
import CycleBounds.Proofs.Bound.Summaries
import CycleBounds.Proofs.Bound.Alignment
import CycleBounds.Proofs.Cache.Persistence
import CycleBounds.Proofs.Cache.Exit
import CycleBounds.Proofs.Cache.Chains
import CycleBounds.Proofs.Cache.Progress
import CycleBounds.Proofs.Bound.Completion
import CycleBounds.Proofs.Bound.Shortest
import CycleBounds.Proofs.Bound.Sharing
import CycleBounds.Proofs.Bound.Coupling
import CycleBounds.Proofs.Bound.Monotone
import CycleBounds.Proofs.Bound.Periodic
import CycleBounds.Proofs.Bound.Untimed
import CycleBounds.Proofs.Code.Refusals
import CycleBounds.Proofs.Code.Shape
import CycleBounds.Proofs.Run.Places
import CycleBounds.Proofs.Task.Schedules
import CycleBounds.Proofs.Cache.Coverage
import CycleBounds.Proofs.Bound.Lookups
import CycleBounds.Proofs.Task.Starts
import CycleBounds.Proofs.Offset.Built
import CycleBounds.Proofs.Offset.Routes
import CycleBounds.Proofs.Offset.Exact
import CycleBounds.Proofs.Offset.Program
import CycleBounds.Proofs.Matching
import CycleBounds.Proofs.Code.Redeclared
import CycleBounds.Proofs.Cache.Neighbours
import CycleBounds.Proofs.Bound.Neighbours
import CycleBounds.Proofs.Cache.Reachable
import CycleBounds.Proofs.Cache.Order
import CycleBounds.Proofs.Cache.Directories
import CycleBounds.Proofs.Cache.Exact
import CycleBounds.Proofs.Bus.Slots
import CycleBounds.Proofs.Bus.Runs
import CycleBounds.Proofs.Cache.Searches
import CycleBounds.Proofs.Code.Recursion
import CycleBounds.Proofs.Code.Acceptance
import CycleBounds.Proofs.Bound.Stamps
import CycleBounds.Proofs.Offset.Representation
import CycleBounds.Proofs.Cache.Merging
import CycleBounds.Proofs.Cache.Weakening
import CycleBounds.Proofs.Bound.Records
import CycleBounds.Proofs.Bound.Closure
import CycleBounds.Proofs.Bound.Graphs
import CycleBounds.Proofs.Bus.Range
import CycleBounds.Proofs.Run.Contexts
