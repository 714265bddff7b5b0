import LbBind.Profiler
import LbBind.Compress.Message
import LbBind.Rbtdb.Cache
import LbBind.Rbtdb.Snapshot
import LbBind.Message.Safety
import LbBind.Message.Reserve
import LbBind.Journal.Compact
import LbBind.Journal.Crash
import LbBind.Xfrin.Soa
import LbBind.Journal.DiffxApply
import LbBind.Update.Loadable
import LbBind.Keytable.Secure
import LbBind.Isccc.Fromwire
import LbBind.Master.Generate
import LbBind.Rpz.Longest
import LbBind.Dnssec.Verify
import LbBind.Tsig.Signed
import LbBind.Nsec.Denial
import LbBind.Rdataslab.Offline
import LbBind.Name.Decode
import LbBind.Name.Downcase
import LbBind.Name.Totext
import LbBind.Rbt.Predecessor
import LbBind.Rbt.Names
import LbBind.Rbt.Hash
import LbBind.Rdata.Multitxt
import LbBind.Lex.Sources
import LbBind.Lex.Parseint
import LbBind.Rdata.Keydata
import LbBind.Netaddr
