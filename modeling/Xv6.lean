import Xv6.Proof.BufferCacheMap
import Xv6.Proof.ConsoleRing
import Xv6.Proof.ExecCommit
import Xv6.Proof.FaultProgress
import Xv6.Proof.FileAccounting
import Xv6.Proof.FileContents
import Xv6.Proof.GrepLines
import Xv6.Proof.GuardPage
import Xv6.Proof.IcacheCoherence
import Xv6.Proof.IdeRefinement
import Xv6.Proof.KallocPages
import Xv6.Proof.LogOwner
import Xv6.Proof.LogRecovery
import Xv6.Proof.MallocBounds
import Xv6.Proof.Matcher
import Xv6.Proof.MemmoveOverlap
import Xv6.Proof.MkfsHoles
import Xv6.Proof.MpTable
import Xv6.Proof.NoLostWakeup
import Xv6.Proof.PathResolution
import Xv6.Proof.PipeFifo
import Xv6.Proof.PrintfAtoi
import Xv6.Proof.ProcIdentity
import Xv6.Proof.Reap
import Xv6.Proof.RuncmdMeaning
import Xv6.Proof.SbrkOthers
import Xv6.Proof.SchedStacks
import Xv6.Proof.SharingLevel
import Xv6.Proof.SyscallArgs
