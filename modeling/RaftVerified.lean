import RaftVerified.RaftElections
import RaftVerified.RaftMatching
import RaftVerified.RaftAcks
import RaftVerified.RaftTransparency
import RaftVerified.RaftObserved
import RaftVerified.RaftCommitQuorum
import RaftVerified.RaftSessions
import RaftVerified.RaftOperations
import RaftVerified.LinearizabilityBound
import RaftVerified.ShrinkMinimality
import RaftVerified.NemesisOverlay
import RaftVerified.CliReplay
import RaftVerified.LinearizableHistory
import RaftVerified.RaftRedelivery
import RaftVerified.NemesisDecoding
import RaftVerified.RaftIndices
import RaftVerified.RaftQueue
import RaftVerified.RaftTimeline
import RaftVerified.RaftRepair
import RaftVerified.LogCodecs
import RaftVerified.NetworkPartition
import RaftVerified.ScenarioReplay
import RaftVerified.MessageConservation
import RaftVerified.HarnessRuns
import RaftVerified.RaftOrderly
import RaftVerified.RaftChanges
import RaftVerified.RaftAlarms
import RaftVerified.HarnessReturns
import RaftVerified.HarnessFaults
import RaftVerified.HarnessCommands
import RaftVerified.HarnessPassive
