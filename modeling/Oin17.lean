import Oin17.Crypto.Mt64
import Oin17.Utils.U64str
import Oin17.Chals.Prefix
import Oin17.Chals.Shortpath.Room
import Oin17.Chals.Shortpath.Placing
import Oin17.Chals.Shortpath.Pops
import Oin17.Chals.Shortpath.Decrease
import Oin17.Chals.Mkseed
import Oin17.Chals.Sortlist.Sort
import Oin17.Chals.Sortlist.Words
import Oin17.Chals.Stale
import Oin17.Chals.Resize
import Oin17.Chals.Documents
import Oin17.Tpool.Singles
import Oin17.Tpool.Jobs
import Oin17.Tpool.Conserved
import Oin17.Tpool.Handshake
import Oin17.Ws.Outgoing
import Oin17.Ws.Accounting
import Oin17.Ws.Incoming
import Oin17.Ws.Relay
import Oin17.Ws.Contained
import Oin17.Ws.Slots
import Oin17.Mine.Idle
import Oin17.Mine.Wakeup
import Oin17.Mine.Found
import Oin17.Utils.Roundtrip
import Oin17.Compat.Strlcpy
import Oin17.Ca.Pem
import Oin17.Chals.Overflow
import Oin17.Ws.Fifo
import Oin17.Mine.Nonces
import Oin17.Register
import Oin17.Tpool.Awake
import Oin17.Tpool.Stopped
import Oin17.Mine.Accepted
import Oin17.Mine.Pooled
