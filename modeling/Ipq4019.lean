import Ipq4019.Lib.Interleave
import Ipq4019.Lib.Memory
import Ipq4019.Lib.Ring
import Ipq4019.Edma.Driver
import Ipq4019.Edma.Device
import Ipq4019.Edma.Send
import Ipq4019.Edma.Init
import Ipq4019.Edma.TxRing
import Ipq4019.Edma.RxRing
import Ipq4019.Edma.Recv
import Ipq4019.Edma.RxFifo
import Ipq4019.Edma.RxProgress
import Ipq4019.Edma.RxStale
import Ipq4019.Edma.Resync
import Ipq4019.Mdio.Controller
import Ipq4019.Mdio.Serial
import Ipq4019.Mdio.Bank
import Ipq4019.Mdio.Line
import Ipq4019.Mdio.RegFile
import Ipq4019.Mdio.MmdLoss
import Ipq4019.Edma.TxResult
import Ipq4019.Edma.RxCall
import Ipq4019.Edma.RxBounds
import Ipq4019.Edma.RxDecode
import Ipq4019.Ess.Driver
import Ipq4019.Lib.Fields
import Ipq4019.Ess.Lookup
import Ipq4019.Psgmii.Driver
import Ipq4019.Psgmii.SelfTest
import Ipq4019.Psgmii.Wait
import Ipq4019.Psgmii.Harness
import Ipq4019.Mdio.Chain
import Ipq4019.Psgmii.Rmw
import Ipq4019.Edma.Alloc
import Ipq4019.Eth.Driver
import Ipq4019.Eth.Life
import Ipq4019.Eth.BringUp
import Ipq4019.Lib.Digest
import Ipq4019.Fit.Rebuild
import Ipq4019.Fit.Rebuilt
import Ipq4019.Fit.Hashes
import Ipq4019.Edma.RxCache
import Ipq4019.Edma.Coherence
import Ipq4019.Edma.RightReads
import Ipq4019.Edma.WrongRead
import Ipq4019.Edma.Duplex
import Ipq4019.Fit.PatchDtb
import Ipq4019.Fit.Patched
import Ipq4019.Lib.FlatTree
import Ipq4019.Fit.Tool
import Ipq4019.Lib.Answers
import Ipq4019.Lib.CString
import Ipq4019.Netboot.CmdLine
import Ipq4019.Netboot.Protocol
