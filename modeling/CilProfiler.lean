import CilProfiler.Body.Listing
import CilProfiler.Depth.Report
import CilProfiler.Json.Shapes
import CilProfiler.Snapshot.Flat
import CilProfiler.Trace.Clock
import CilProfiler.Proofs.Code.Edits
import CilProfiler.Proofs.Depth.Assignment
import CilProfiler.Proofs.Code.Contents
import CilProfiler.Proofs.Code.Changes
import CilProfiler.Proofs.Depth.Machine
import CilProfiler.Proofs.Signature.Acceptance
import CilProfiler.Proofs.Trace.PathMachine
import CilProfiler.Proofs.Trace.Refinement
import CilProfiler.Proofs.Trace.SlotRequests
import CilProfiler.Proofs.Trace.SlotLayout
import CilProfiler.Proofs.Snapshot.Ranking
import CilProfiler.Proofs.Snapshot.Tally
import CilProfiler.Proofs.Trace.Links
import CilProfiler.Proofs.Counter
import CilProfiler.Proofs.Snapshot.Shown
import CilProfiler.Proofs.Snapshot.Agreement
import CilProfiler.Proofs.Snapshot.FoldedStack
import CilProfiler.Proofs.Snapshot.Conservation
import CilProfiler.Proofs.Code.Drafts
import CilProfiler.Proofs.Code.Navigation
import CilProfiler.Proofs.Trace.Callers
import CilProfiler.Proofs.Snapshot.Hidden
import CilProfiler.Proofs.Trace.History
import CilProfiler.Proofs.Trace.Renewal
import CilProfiler.Proofs.Snapshot.ByPath
import CilProfiler.Proofs.Snapshot.Independence
import CilProfiler.Proofs.Snapshot.Reordered
import CilProfiler.Proofs.Snapshot.Renewal
import CilProfiler.Proofs.Snapshot.Headroom
import CilProfiler.Proofs.Snapshot.Moderation
import CilProfiler.Proofs.Trace.Balanced
import CilProfiler.Proofs.Snapshot.Balanced
import CilProfiler.Proofs.Snapshot.Mirror
import CilProfiler.Proofs.Text.Utf8Order
import CilProfiler.Proofs.Snapshot.Trails
import CilProfiler.Proofs.Code.OperandMatrix
import CilProfiler.Proofs.Code.Layout
import CilProfiler.Proofs.Depth.DeadCode
import CilProfiler.Proofs.Depth.Resemblance
import CilProfiler.Proofs.Signature.Prefixes
import CilProfiler.Proofs.Code.Offsets
import CilProfiler.Proofs.Depth.Solution
import CilProfiler.Proofs.Depth.Bounds
import CilProfiler.Proofs.Code.Blocks
import CilProfiler.Proofs.Code.EditAlgebra
import CilProfiler.Proofs.Depth.Instrumentation
import CilProfiler.Proofs.Depth.Failure
import CilProfiler.Proofs.Trace.SlotGrowth
import CilProfiler.Proofs.Signature.Progress
import CilProfiler.Proofs.Code.Labels
import CilProfiler.Proofs.Json.RoundTrip
import CilProfiler.Proofs.Signature.Widths
