import SecureTransfer.ControlStream
import SecureTransfer.Receiver.Admission
import SecureTransfer.Receiver.Dispatch
import SecureTransfer.Receiver.Missing
import SecureTransfer.Receiver.RepairWindow
import SecureTransfer.Receiver.WireIds
import SecureTransfer.Transfer.WriteFailure
import SecureTransfer.Receiver.WriterRuns
import SecureTransfer.Sender.BlockCache
import SecureTransfer.Sender.Chunking
import SecureTransfer.Sender.Draining
import SecureTransfer.Sender.KeystreamReuse
import SecureTransfer.Sender.Memory
import SecureTransfer.Sender.FallbackDiscipline
import SecureTransfer.Sender.Repair
import SecureTransfer.Sender.SendShutdown
import SecureTransfer.Sender.SizeLimit
import SecureTransfer.Session.Agreement
import SecureTransfer.Transfer.EarlyGiveUp
import SecureTransfer.Transfer.GaveUp
import SecureTransfer.Transfer.LateDuplicate
import SecureTransfer.Transfer.Recovery
import SecureTransfer.Transfer.Repair
import SecureTransfer.Transfer.Report
import SecureTransfer.Transfer.Traffic
import SecureTransfer.Transfer.Window
import SecureTransfer.Transfer.Wired
import SecureTransfer.Transport.Tracker
