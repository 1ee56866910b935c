import BitKeeper.SyncKeys.Exchange
import BitKeeper.CsetInsert.Patch
import BitKeeper.CsetWeave.Markers
import BitKeeper.Libdiff.Model
import BitKeeper.Smerge.Model
import BitKeeper.Smerge.Cover
import BitKeeper.Smerge.Steps
import BitKeeper.Smerge.Resolve
import BitKeeper.Smerge.Weave
import BitKeeper.Lib.Frontier
import BitKeeper.Libdiff.Split
import BitKeeper.Libdiff.Idiff
import BitKeeper.Libdiff.Hash
import BitKeeper.Libdiff.Moving
import BitKeeper.Libdiff.Ses
import BitKeeper.Libdiff.Diff
import BitKeeper.Smerge.Calls
import BitKeeper.Smerge.Laws
import BitKeeper.Smerge.Diff3
import BitKeeper.Smerge.Main
import BitKeeper.Lib.Runs
import BitKeeper.Lockfile.Model
import BitKeeper.Lockfile.Exclusion
import BitKeeper.Locking.Model
import BitKeeper.Locking.Invariant
import BitKeeper.Locking.Steps
import BitKeeper.Locking.Exclusion
import BitKeeper.Nested.Mutex
import BitKeeper.Lib.Wave
import BitKeeper.Range.Model
import BitKeeper.Range.Walk
import BitKeeper.Range.Collect
import BitKeeper.Range.Meta
import BitKeeper.Range.Gone
import BitKeeper.Bisect.Model
import BitKeeper.Bisect.Score
import BitKeeper.Bisect.Find
import BitKeeper.Check.Paths
import BitKeeper.HashMerge.SetMerge
import BitKeeper.HashMerge.Merge
import BitKeeper.HashMerge.Laws
import BitKeeper.Range.Either
import BitKeeper.Check.Keys
import BitKeeper.Check.Merge
import BitKeeper.Check.Marks
import BitKeeper.Lib.Lines
import BitKeeper.Ndiff.Model
import BitKeeper.Ndiff.Patch
import BitKeeper.Ndiff.Blocks
import BitKeeper.Ndiff.Unified
import BitKeeper.Ndiff.Edges
import BitKeeper.Ndiff.Rcs
import BitKeeper.Ndiff.Correct
import BitKeeper.Weave.Checkin
import BitKeeper.Weave.Shape
import BitKeeper.Weave.Moves
import BitKeeper.Weave.Script
import BitKeeper.Weave.Built
import BitKeeper.Weave.Differs
import BitKeeper.Range.Algebra
import BitKeeper.Range.Unrange
import BitKeeper.Lib.Activation
import BitKeeper.Symdiff.Model
import BitKeeper.Symdiff.Bits
import BitKeeper.Symdiff.Walk
import BitKeeper.Symdiff.Expand
import BitKeeper.Serialmap.Model
import BitKeeper.Serialmap.Walk
import BitKeeper.Serialmap.Expand
import BitKeeper.Symdiff.Compress
import BitKeeper.Serialmap.Compress
import BitKeeper.Serialmap.Gca
import BitKeeper.Symdiff.Dups
import BitKeeper.Symdiff.Convert
import BitKeeper.Libdiff.Space
import BitKeeper.Graph.Dates
import BitKeeper.Libc.Shell
import BitKeeper.Range.FindMerge
import BitKeeper.Range.Lattice
import BitKeeper.Libc.HashStr
import BitKeeper.Graph.Strip
import BitKeeper.Nested.Alias
import BitKeeper.Libc.Glob
import BitKeeper.FastImport.Path
import BitKeeper.Libc.Pq
import BitKeeper.Range.Dates
import BitKeeper.Changes.Page
import BitKeeper.Csetprune.Reachable
import BitKeeper.Weave.Later
