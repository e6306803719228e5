import Osisp.Lab4.Verification
import Osisp.Lab4.RingFifo
import Osisp.Lab4.Killing
import Osisp.Lab4.Progress
import Osisp.Lab7.Success
import Osisp.Lab7.WellFormed
import Osisp.Lab7.CommandLoop
import Osisp.Lab7.Progress
import Osisp.Lab6.Distribution
import Osisp.Lab6.Header
import Osisp.Lab6.BlockCount
import Osisp.Lab6.IntValues
import Osisp.Lab6.Determinism
import Osisp.Lab8.BuildPath
import Osisp.Lab8.Client
import Osisp.Lab8.CurrentDir
import Osisp.Lab8.LineBuffer
import Osisp.Lab8.PromptReturns
import Osisp.Lab8.DotDot
import Osisp.Lab5.QueueResize
import Osisp.Lab5.QueueBounds
import Osisp.Lab5.Exclusion52
import Osisp.Lab5.Bounds51
import Osisp.Lab5.Capacity51
import Osisp.Lab5.Orphan52
import Osisp.Lab5.Delivery52
import Osisp.Lab5.Blocked51
import Osisp.Lab5.CloseAll
import Osisp.Lab5.Counters
import Osisp.AccessManager.CopyFile
import Osisp.AccessManager.Report
import Osisp.AccessManager.CommandLine
import Osisp.Lab8.LinkChains
import Osisp.Lab4.ProcessTable
import Osisp.Lab4.KillCommand
import Osisp.Lab4.Cleanup
import Osisp.Lab4.Hash
import Osisp.Lab2.Environment
import Osisp.Lab2.EnvpBounds
import Osisp.Lab2.Parent
import Osisp.Lab3.Parent
import Osisp.Lab3.ChildStack
import Osisp.Lab3.Stdout
import Osisp.Lab1.Dirwalk
import Osisp.Lab1.Preorder
import Osisp.Lab1.LongPaths
import Osisp.Lab1.Listing
