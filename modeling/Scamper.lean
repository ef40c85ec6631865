import Scamper.Bits.Bytes
import Scamper.Bits.Masks
import Scamper.Addr.Basic
import Scamper.Addr.Cmp
import Scamper.Addr.Inprefix
import Scamper.Addr.Prefix
import Scamper.Addr.Netaddr
import Scamper.Addr.Classify
import Scamper.Addr.Tostr
import Scamper.Addr.HumanCmp
import Scamper.Cache.Splaytree
import Scamper.Cache.Heap
import Scamper.Cache.Invariant
import Scamper.Cache.Ops
import Scamper.Cache.System
import Scamper.Cache.Interning
import Scamper.Cache.Resolve
import Scamper.Cache.Table
import Scamper.Cache.Release
