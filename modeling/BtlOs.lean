import BtlOs.PlainMemory
import BtlOs.Conservation
import BtlOs.Swap
import BtlOs.Isolation
import BtlOs.Bypass
import BtlOs.Dispatch
import BtlOs.Timer
import BtlOs.Allocation
import BtlOs.Coverage
import BtlOs.Access
import BtlOs.Killall
import BtlOs.Lock
import BtlOs.Routine
import BtlOs.Malloc
import BtlOs.Lib.Arrivals
import BtlOs.Policy
import BtlOs.Replacement
import BtlOs.Limit
import BtlOs.Regions
import BtlOs.ProcName
import BtlOs.Release
import BtlOs.Loader
import BtlOs.LdRoutine
import BtlOs.TimeSlice
import BtlOs.Mapping
import BtlOs.Format
import BtlOs.Sequential
import BtlOs.Lib.LinkedList
import BtlOs.ReadResult
import BtlOs.QueueOrder
import BtlOs.Lookup
import BtlOs.Overlap
import BtlOs.PteWriters
import BtlOs.PageCopy
import BtlOs.Visits
import BtlOs.Completion
import BtlOs.Shutdown
import BtlOs.Progress
import BtlOs.Programs
import BtlOs.Waiting
import BtlOs.Undisturbed
import BtlOs.Makespan
import BtlOs.Killed
import BtlOs.RoundRobin
import BtlOs.DevList
import BtlOs.Main
import BtlOs.Dump
