import Perp.FlagByte
import Perp.TraceLaw
import Perp.FdLedger
import Perp.Tain
import Perp.Pkt
import Perp.PktSplit
import Perp.PerpdState
import Perp.PerpdSvdef
import Perp.PerpdConn
import Perp.PerpdMainloop
import Perp.PerpdFrame
import Perp.PerpdEntry
import Perp.PerpdEffect
import Perp.PerpdSlots
import Perp.PerpdActivate
import Perp.PerpdMoves
import Perp.PerpdCompact
import Perp.PerpdStill
import Perp.PerpdPhases
import Perp.PerpdWalk
import Perp.PerpdRuns
import Perp.PerpdService
import Perp.PerpdLife
import Perp.PerpdClient
import Perp.PerpdWanted
import Perp.PerpdTurns
import Perp.PerpdResetArgs
import Perp.PerpdOnce
import Perp.PerpdPaused
import Perp.PerpdDescriptors
import Perp.PerpdLogpipe
import Perp.PerpdCloses
import Perp.PerpdRequests
import Perp.PerpdLeft
import Perp.PerpdFailing
import Perp.PerpdStall
import Perp.PerpdCycle
import Perp.PerpdChildren
import Perp.PerpdFinal
import Perp.PerpdReplies
import Perp.PerpdPieces
import Perp.StatusClients
import Perp.PerpdReconcile
import Perp.PerpdClients
import Perp.PerpdClock
import Perp.PerpdAutoscan
import Perp.PerpdGovernor
import Perp.PerpdDialogue
import Perp.Pidlock
import Perp.Deux
import Perp.DeuxMoves
import Perp.DeuxRecords
import Perp.PerpbootSupervise
import Perp.IoqGet
import Perp.Stamp8601
import Perp.TinylogPost
import Perp.TinylogLines
import Perp.TinylogSize
import Perp.LinkDir
import Perp.TinylogPrune
import Perp.TinylogDir
import Perp.TinylogDisk
import Perp.TinylogCrash
import Perp.ByteImage
import Perp.OpenTable
import Perp.IoqPut
import Perp.HashFile
import Perp.CdbFormat
import Perp.HdbFormat
import Perp.HashImage
import Perp.HashSearch
import Perp.HashAdded
import Perp.HashTables
import Perp.HashFinish
import Perp.CdbExact
import Perp.HdbExact
import Perp.HashIterate
import Perp.HashCopy
import Perp.IoqStream
import Perp.Sissylog
import Perp.PktOutcome
import Perp.PerpctlControl
import Perp.HashModes
import Perp.HashBounds
import Perp.HashScan
import Perp.HashChain
import Perp.HashSizes
import Perp.HashStream
import Perp.Glob
import Perp.Cstr
import Perp.CstrMatch
import Perp.Nuscan
import Perp.Nfmt
import Perp.Nextopt
import Perp.Execvx
import Perp.Dynbufs
import Perp.Newenv
import Perp.OutvecFlush
import Perp.IoqOut
import Perp.IoqGetln
import Perp.Inplace
import Perp.CstrTrim
import Perp.ValUnescape
import Perp.SysnoLookup
import Perp.PacketCodec
import Perp.ByteOrder
import Perp.TainHex
import Perp.Upak
import Perp.Tx64
import Perp.Dynstrs
import Perp.Items
import Perp.Rlimit
import Perp.RuntoolRlimit
import Perp.RuntoolFdset
import Perp.Refusal
import Perp.Settings
import Perp.RunlimitFile
import Perp.Runlimit
import Perp.RunlimitRun
import Perp.TainMath
import Perp.Capacity
import Perp.OptionLoop
import Perp.Rundeux
import Perp.RundeuxShutdown
import Perp.Runchoom
import Perp.FileLines
import Perp.Runargs
import Perp.RunenvFile
import Perp.Probing
import Perp.HashSubtable
import Perp.Supervision
import Perp.PerpdSupervise
import Perp.PerpctlMain
import Perp.PerplsPanel
import Perp.StatusVerdicts
import Perp.PerplsShown
import Perp.Runtrap
import Perp.RuntrapForward
import Perp.Calendar
import Perp.FixedWidth
import Perp.TinylogRetention
import Perp.HashCanon
import Perp.Dynstufs
import Perp.PerplsColors
import Perp.PerplsListing
import Perp.PerplsPrinted
import Perp.PerpdInstance
import Perp.Stages
import Perp.RunenvDir
import Perp.Runtool
import Perp.RuntoolOptions
import Perp.RuntoolStages
import Perp.NewenvInside
import Perp.RuntoolFiles
import Perp.RuntoolSequence
