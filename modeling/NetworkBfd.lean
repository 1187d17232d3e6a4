import NetworkBfd.Smmr.SpaceRuns
import NetworkBfd.Smmr.Filling
import NetworkBfd.Smmr.Undo
import NetworkBfd.Smmr.Database.Refused
import NetworkBfd.Smmr.Database.LastWrite
import NetworkBfd.Smmr.Database.Processes
import NetworkBfd.Lib.Heap
import NetworkBfd.Smmr.PagedBuffer
import NetworkBfd.Lib.MultiwayTree
import NetworkBfd.Smmr.Tree.Ops
import NetworkBfd.Smmr.Tree.Index
import NetworkBfd.Smmr.Tree.Stopping
import NetworkBfd.Smmr.Tree.Reached
import NetworkBfd.Smmr.Tree.Similar
import NetworkBfd.Smmr.Tree.Access
import NetworkBfd.Smmr.Tree.Ownership
import NetworkBfd.Bfdd.Faults
import NetworkBfd.Bfdd.Effect
import NetworkBfd.Bfdd.Isolation
import NetworkBfd.Bfdd.Discriminators
import NetworkBfd.Bfdd.Polls
import NetworkBfd.Bfdd.Detection
import NetworkBfd.BfddCpp.Intervals
import NetworkBfd.BfddCpp.Deadline
import NetworkBfd.BfddCpp.Ticks
import NetworkBfd.BfddNetmap.Reflect
import NetworkBfd.BfddNetmap.Frames
import NetworkBfd.BfddNetmap.Replies
import NetworkBfd.Lib.OnesComplement
import NetworkBfd.BfddNetmap.Checksum
import NetworkBfd.Lib.Loops
import NetworkBfd.BfddNetmap.Move
import NetworkBfd.Lib.LinkedList
import NetworkBfd.Lib.Tiling
import NetworkBfd.Smmr.Memory.Alloc
import NetworkBfd.Smmr.Memory.Reuse
import NetworkBfd.Smmr.Memory.Statics
import NetworkBfd.Smmr.Memory.Opening
import NetworkBfd.Smmr.Memory.Corrupt
import NetworkBfd.Smmr.Tree.OnFile
import NetworkBfd.Smmr.Tree.Refusals
import NetworkBfd.Smmr.Tree.Teardown
import NetworkBfd.BfddCpp.Written
import NetworkBfd.Network.Rounds
import NetworkBfd.Bfdd.Main
import NetworkBfd.Smmr.Database.Linear
import NetworkBfd.Smmr.Tree.Bounds
import NetworkBfd.Smmr.Database.Capacity
import NetworkBfd.BfddNetmap.Traffic
