import Lsof.Listing.SetAlgebra
import Lsof.Listing.Terse
import Lsof.Listing.Locating
import Lsof.Cli.PathArgs
import Lsof.Listing.SpellingEnds
import Lsof.Original.FileNamed
import Lsof.Original.NetSelect
import Lsof.Ends.Naming
import Lsof.Ends.Adding
import Lsof.Linux.UnixRows
import Lsof.Render.JsonDoc
import Lsof.Render.TableLayout
import Lsof.Render.NameParts
import Lsof.Cli.EarlyMark
import Lsof.Linux.Outside
import Lsof.Cli.InetGrammar
import Lsof.Cli.StandIns
import Lsof.Cli.Wide
import Lsof.Linux.Maps
import Lsof.Linux.LockRecords
import Lsof.Linux.MountTable
import Lsof.Linux.DiagRecords
import Lsof.Ends.UnixNaming
import Lsof.Cli.DirWalk
import Lsof.Cli.IdListRuns
import Lsof.Original.SafeLength
import Lsof.Original.PrintInaddr
import Lsof.Original.ProcessVnode
import Lsof.Original.StateSpecRuns
import Lsof.Freebsd.Vnode
import Lsof.Original.FdList
import Lsof.Original.PortNames
import Lsof.Original.IdStat
import Lsof.Linux.HelperOrder
import Lsof.Linux.DeviceSplit
import Lsof.Linux.Passwd
import Lsof.Original.ReadlinkCalls
import Lsof.Original.Eventpoll
import Lsof.Original.StateOrder
import Lsof.Freebsd.Kinfo
import Lsof.Windows.HostNames
import Lsof.Linux.InetTable
import Lsof.Windows.ResolvePool
import Lsof.Windows.PoolEnds
