import ImSingle.Library.Transition
import ImSingle.Library.Java
import ImSingle.Library.HeapOrder
import ImSingle.Stat.ConnectNodeLoadService
import ImSingle.Stat.RegistryRun
import ImSingle.Stat.LeastLoaded
import ImSingle.Connect.ChannelsHub
import ImSingle.Connect.Interleaving
import ImSingle.Connect.LeftoverChannels
import ImSingle.HubRegistry
import ImSingle.Message.EventOrder
import ImSingle.Message.FanOut
import ImSingle.Stat.LoadConservation
import ImSingle.Kafka.Envelope
import ImSingle.Connect.ExceptionCaught
import ImSingle.Connect.AuthorizeHandler
import ImSingle.Common.Md5Utils
import ImSingle.Common.DefaultTokenService
import ImSingle.Stat.Reconciliation
import ImSingle.Stat.ConcurrentNotify
import ImSingle.Uid.DefaultUidGenerator
import ImSingle.Uid.RingFifo
import ImSingle.Uid.WorkerNodes
import ImSingle.Kafka.Undelivered
import ImSingle.Uid.PaddingAlone
import ImSingle.Kafka.Admission
import ImSingle.LoadTest.Shown
