import TcpServers.Proof.EchoComplete
import TcpServers.Proof.Drained
import TcpServers.Proof.CloseOwn
import TcpServers.Proof.Pointers
import TcpServers.Proof.Lives
import TcpServers.Proof.Release
import TcpServers.Proof.ReusePort
import TcpServers.Proof.Pairing
import TcpServers.Proof.ReadRange
import TcpServers.Proof.ReadyFlag
import TcpServers.Proof.RearmDirection
import TcpServers.Proof.FailedRead
import TcpServers.Proof.SelectSets
import TcpServers.Proof.SelectEcho
import TcpServers.Proof.LoopOrphan
import TcpServers.Proof.LoopListener
import TcpServers.Proof.LoopDelivery
import TcpServers.Proof.AcceptTables
import TcpServers.Proof.SetupResources
import TcpServers.Proof.HandlerReturns
import TcpServers.Proof.SelectScan
import TcpServers.Proof.SelectBound
import TcpServers.Proof.LoopDrain
import TcpServers.Proof.LogTerminated
import TcpServers.Proof.SelectLog
import TcpServers.Proof.ServerEcho
import TcpServers.Proof.WorkerProgress
import TcpServers.Proof.NoLeak
import TcpServers.Proof.ForkEcho
import TcpServers.Proof.ForkLimit
import TcpServers.Proof.SingleEcho
import TcpServers.Proof.Prefork
import TcpServers.Proof.EchoSystem
import TcpServers.Proof.SelectPass
import TcpServers.Proof.LoopPass
import TcpServers.Proof.LoopService
