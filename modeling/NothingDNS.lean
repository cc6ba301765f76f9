import NothingDNS.Auth.Revocation
import NothingDNS.Cache.Lifetime
import NothingDNS.Cache.NsecAdmission
import NothingDNS.Cluster.Identity
import NothingDNS.Cluster.Leadership
import NothingDNS.Cluster.Membership
import NothingDNS.Config.RoundTrip
import NothingDNS.Dnssec.Completeness
import NothingDNS.Dnssec.Nsec3Chain
import NothingDNS.Dnssec.RolloverSafety
import NothingDNS.Dnssec.SignZone
import NothingDNS.Pipeline.Relay
import NothingDNS.Pipeline.ResponsePolicy
import NothingDNS.Pipeline.Views
import NothingDNS.Policy.BlocklistLaw
import NothingDNS.Raft.Framing
import NothingDNS.Raft.LogSafety
import NothingDNS.Raft.OneVote
import NothingDNS.Raft.Recovery
import NothingDNS.Raft.WalList
import NothingDNS.Raft.ZoneStateMachine
import NothingDNS.Server.Dname
import NothingDNS.Storage.WalDurability
import NothingDNS.Storage.WalRecovery
import NothingDNS.Transfer.SlaveZone
import NothingDNS.Transfer.TransferClient
import NothingDNS.Transfer.TsigEndToEnd
import NothingDNS.Zone.KvPersistence
import NothingDNS.Zone.ManagerCopies
import NothingDNS.Zone.SerialAdvance
import NothingDNS.Transfer.ZoneStorage
import NothingDNS.Filter.Rrl
import NothingDNS.Protocol.NameSafety
import NothingDNS.Storage.RecordCodec
import NothingDNS.Raft.Codec
import NothingDNS.Raft.Progress
import NothingDNS.Cluster.Kept
import NothingDNS.Auth.LastAdmin
