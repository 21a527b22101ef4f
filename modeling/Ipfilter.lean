import Ipfilter.Proof.Scan
import Ipfilter.Proof.Token
import Ipfilter.Proof.Expire
import Ipfilter.Proof.Frrequest
import Ipfilter.Proof.RadixWalk
import Ipfilter.Proof.Synclist
import Ipfilter.Proof.Tcp
import Ipfilter.Proof.StateAges
import Ipfilter.Proof.StateRehash
import Ipfilter.Proof.Mssclamp
import Ipfilter.Proof.Rb
import Ipfilter.Proof.AuthDelivery
import Ipfilter.Proof.Sync
import Ipfilter.Proof.SyncBounds
import Ipfilter.Proof.Isn
import Ipfilter.Proof.AuthRules
import Ipfilter.Proof.Hostmap
import Ipfilter.Proof.ProxySeq
import Ipfilter.Proof.ProxyLife
import Ipfilter.Proof.SyncPeer
import Ipfilter.Proof.Retime
import Ipfilter.Proof.StateIcmp
import Ipfilter.Proof.ContentScan
import Ipfilter.Proof.Rpcb
import Ipfilter.Proof.Pptp
import Ipfilter.Proof.Ppsrate
import Ipfilter.Proof.DnsPolicy
import Ipfilter.Proof.DnsQueries
import Ipfilter.Proof.Nat6Xlate
import Ipfilter.Proof.TcpWindow
import Ipfilter.Proof.StateFail
import Ipfilter.Proof.AhSkip
import Ipfilter.Proof.Queueflush
import Ipfilter.Proof.Decaps
import Ipfilter.Proof.Tcpoptions
import Ipfilter.Proof.Tune
import Ipfilter.Proof.Matchflush
import Ipfilter.Proof.Ruleiter
import Ipfilter.Proof.SyncOrder
import Ipfilter.Proof.Logpkt
import Ipfilter.Proof.Bimap
import Ipfilter.Proof.Timeouts
import Ipfilter.Proof.DstlistSelect
import Ipfilter.Proof.DnsPxy
import Ipfilter.Proof.NatPorts
import Ipfilter.Proof.Ip6Arith
import Ipfilter.Proof.DnsName
import Ipfilter.Proof.Ipid
