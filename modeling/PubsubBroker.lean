import PubsubBroker.Lib.CLang
import PubsubBroker.Lib.Numeral
import PubsubBroker.Lib.Run
import PubsubBroker.Lib.Table
import PubsubBroker.Lib.KeyPath
import PubsubBroker.Protocol.ArgvBounds
import PubsubBroker.Protocol.ReadBuf
import PubsubBroker.Protocol.Fragment
import PubsubBroker.Protocol.Flush
import PubsubBroker.Protocol.Framing
import PubsubBroker.Protocol.Lifetime
import PubsubBroker.Broker.Deliver
import PubsubBroker.Broker.Dangling
import PubsubBroker.Broker.Stream
import PubsubBroker.Broker.Read
import PubsubBroker.Protocol.Consumed
import PubsubBroker.Protocol.Grammar
import PubsubBroker.Protocol.Resume
import PubsubBroker.Protocol.Termination
import PubsubBroker.Protocol.Junk
import PubsubBroker.Broker.Interest
import PubsubBroker.Broker.Ids
import PubsubBroker.Broker.Unsubscribe
import PubsubBroker.Broker.Descriptors
import PubsubBroker.Common.Repr
import PubsubBroker.Common.String2ll
import PubsubBroker.Protocol.Inline
import PubsubBroker.Protocol.Bounds
import PubsubBroker.Broker.Dispatch
import PubsubBroker.Broker.SubscribeReply
import PubsubBroker.Protocol.EventUpdate
import PubsubBroker.Broker.Conversion
import PubsubBroker.Lib.Linked
import PubsubBroker.Common.ListRuns
import PubsubBroker.Common.Ucs4
import PubsubBroker.Lib.Keeps
import PubsubBroker.Common.Rand
import PubsubBroker.Common.FreeFn
import PubsubBroker.Common.Destructors
import PubsubBroker.Common.Hset
import PubsubBroker.Broker.Handlers
import PubsubBroker.Broker.HashStores
import PubsubBroker.Common.SdsRuns
import PubsubBroker.Common.SdsText
import PubsubBroker.Common.Zmalloc
import PubsubBroker.Common.JsonString
import PubsubBroker.Common.JsonText
import PubsubBroker.Broker.Config
