import CpuSim.Isa.RoundTrip
import CpuSim.Memory.DirtyLines
import CpuSim.Memory.Hierarchy
import CpuSim.Memory.Provenance
import CpuSim.Memory.RangeCheck
import CpuSim.Memory.ReadDelay
import CpuSim.Memory.Recency
import CpuSim.Memory.Replacement
import CpuSim.Memory.Waiting
import CpuSim.Rtl.BranchCounts
import CpuSim.Rtl.BtbEntries
import CpuSim.Rtl.CommitTrace
import CpuSim.Rtl.DataStalls
import CpuSim.Rtl.Faults
import CpuSim.Rtl.FetchRequest
import CpuSim.Rtl.Footprint
import CpuSim.Rtl.Oracle
import CpuSim.Rtl.Pace
import CpuSim.Rtl.Pipe
import CpuSim.Rtl.Progress
import CpuSim.Rtl.Throughput
import CpuSim.Rtl.Timeline
import CpuSim.Rtl.Total
import CpuSim.Sim.ElfImage
import CpuSim.Sim.MemStage
import CpuSim.Sim.TickOrder
import CpuSim.Rtl.CycleTrace
import CpuSim.Rtl.PredictedTime
import CpuSim.Sim.Tracer
import CpuSim.Tools.Outcome
import CpuSim.Rtl.CodeFootprint
