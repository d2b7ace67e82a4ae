import HpiDriver.DataStructure.HashListDestroy
import HpiDriver.DataStructure.LinkListRun
import HpiDriver.TaskAdmin.Queue
import HpiDriver.TaskAdmin.UserSlots
import HpiDriver.ProtoAnalyzer.BitRoundTrip
import HpiDriver.ProtoAnalyzer.ReportedLength
import HpiDriver.ProtoAnalyzer.WireRoundTrip
import HpiDriver.ProtoAnalyzer.Release
import HpiDriver.ProtoAnalyzer.Payload
import HpiDriver.ProtoAnalyzer.Repeat
import HpiDriver.ProtoAnalyzer.Offsets
import HpiDriver.ProtoAnalyzer.BitParts
import HpiDriver.ProtoAnalyzer.FieldBuffers
import HpiDriver.ProtoAnalyzer.Accessors
import HpiDriver.ProtoAnalyzer.FormatTable
import HpiDriver.ProtoAnalyzer.FieldLists
import HpiDriver.Business.Peripherals
import HpiDriver.Business.SubPdus
import HpiDriver.Business.Tasks
import HpiDriver.PlatDriver
import HpiDriver.DataStructure.LinkListDestroy
import HpiDriver.ProtoAnalyzer.Lifetime
import HpiDriver.ProtoAnalyzer.Interleaving
import HpiDriver.TaskAdmin.Board
import HpiDriver.TaskAdmin.Lifetime
import HpiDriver.ProtoAnalyzer.Sheet
import HpiDriver.Session
import HpiDriver.PdtDrv
import HpiDriver.DriverLife
import HpiDriver.Posting
