import LinuxDrivers.Lib.Interleaving
import LinuxDrivers.Lib.Runs
import LinuxDrivers.Blockdev.Queue
import LinuxDrivers.Blockdev.Concurrent
import LinuxDrivers.VmouseDriver.Worker
import LinuxDrivers.VmouseDriver.Handoff
import LinuxDrivers.Lib.StrokeStream
import LinuxDrivers.VmouseDriver.Strokes
import LinuxDrivers.VmouseDriver.Lifetime
import LinuxDrivers.Lib.Halting
import LinuxDrivers.Lib.LittleEndian
import LinuxDrivers.Netlink.Wire
import LinuxDrivers.Netlink.ParseRtattr
import LinuxDrivers.Netlink.Chain
import LinuxDrivers.Netlink.Netmon
import LinuxDrivers.Netlink.LoopEnds
import LinuxDrivers.Netlink.Reports
import LinuxDrivers.Netlink.RtattrAdd
import LinuxDrivers.Netlink.SetRoute
import LinuxDrivers.Netlink.RouteRequest
import LinuxDrivers.Netlink.RoundTrip
import LinuxDrivers.Netlink.CommandLine
import LinuxDrivers.Netlink.StaleStack
import LinuxDrivers.VmouseDriver.Gearbox
import LinuxDrivers.Lib.CString
import LinuxDrivers.MessageDevice.Message
import LinuxDrivers.MessageDevice.Mailbox
import LinuxDrivers.Dram.Device
import LinuxDrivers.Dram.Position
import LinuxDrivers.Dram.Stream
import LinuxDrivers.Lib.RedBlack.InsertColor
import LinuxDrivers.Lib.RedBlack.Erase
import LinuxDrivers.Lib.RedBlack.Postorder
import LinuxDrivers.Lib.RedBlack.Ordered
import LinuxDrivers.Lib.RedBlack.Insert
import LinuxDrivers.Rbtree.Insert
import LinuxDrivers.Rbtree.Search
import LinuxDrivers.Rbtree.Destroy
import LinuxDrivers.Lib.Ledger
import LinuxDrivers.TestPci.Driver
import LinuxDrivers.TestPci.Balance
import LinuxDrivers.Lib.Printf
import LinuxDrivers.Vma.OwnLine
import LinuxDrivers.Dram.Showgdt
import LinuxDrivers.VmouseDriver.Acceleration
import LinuxDrivers.Netlink.Placed
import LinuxDrivers.Netlink.AnyOrder
import LinuxDrivers.MessageDevice.Contract
import LinuxDrivers.Lib.FileReads
import LinuxDrivers.Mychardev.Read
import LinuxDrivers.Lib.FileWrites
import LinuxDrivers.Mychardev.Write
import LinuxDrivers.Lib.Records
import LinuxDrivers.Smpinfo.Table
import LinuxDrivers.Netlink.Multicast
import LinuxDrivers.Dram.Frames
import LinuxDrivers.Lib.Scanf
import LinuxDrivers.VmouseDriver.WheelSpeed
import LinuxDrivers.DeviceTable.Unwind
import LinuxDrivers.TestPci.Mapping
import LinuxDrivers.Rbtree.Ownership
import LinuxDrivers.DeviceTable.MycharInit
import LinuxDrivers.Lib.RedBlack.Height
import LinuxDrivers.Lib.RedBlack.Traversal
import LinuxDrivers.Rbtree.Map
import LinuxDrivers.Rbtree.Depth
import LinuxDrivers.Netlink.SentRoute
import LinuxDrivers.VmouseDriver.Hotplug
import LinuxDrivers.VmouseDriver.Packets
import LinuxDrivers.Ioapic.Table
import LinuxDrivers.Lib.PrefixCode
import LinuxDrivers.Smpinfo.Text
import LinuxDrivers.Smpinfo.Write
import LinuxDrivers.Ftrace.Direct
import LinuxDrivers.Netlink.Sockets
import LinuxDrivers.Netlink.Unicast
import LinuxDrivers.DeviceTable.Slot
import LinuxDrivers.Blockdev.Lifetime
import LinuxDrivers.Lib.CountedLoop
import LinuxDrivers.MapleTree.Bench
import LinuxDrivers.MapleTree.Exact
import LinuxDrivers.MapleTree.Sound
import LinuxDrivers.MapleTree.Split
import LinuxDrivers.MapleTree.Script
import LinuxDrivers.Netlink.Broadcast
import LinuxDrivers.MapleTree.Walk
import LinuxDrivers.MapleTree.Copy
import LinuxDrivers.MapleTree.Find
