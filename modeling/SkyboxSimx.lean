import SkyboxSimx.SimxTypes
import SkyboxSimx.PendingTable
import SkyboxSimx.LsuModel
import SkyboxSimx.LsuRuns
import SkyboxSimx.LsuInvariant
import SkyboxSimx.LsuConservation
import SkyboxSimx.LsuCounter
import SkyboxSimx.LsuFence
import SkyboxSimx.LsuMemory
import SkyboxSimx.LsuProgress
import SkyboxSimx.Arbiter
import SkyboxSimx.Fabric
import SkyboxSimx.RoundRobin
import SkyboxSimx.ArbiterAgreement
import SkyboxSimx.FabricFifo
import SkyboxSimx.SwitchRouting
import SkyboxSimx.PriorityArbiter
import SkyboxSimx.ArbiterService
import SkyboxSimx.ExecUnits
import SkyboxSimx.ExecRuns
import SkyboxSimx.SfuRuns
import SkyboxSimx.SfuProgress
import SkyboxSimx.SfuCluster
import SkyboxSimx.OutputLanes
