import BrokerLite.Theory.Run
import BrokerLite.Theory.Dict
import BrokerLite.Theory.Slice
import BrokerLite.Theory.OffsetLog
import BrokerLite.Theory.FairDivision
import BrokerLite.Theory.Lanes
import BrokerLite.Theory.Utf8
import BrokerLite.Theory.Custody
import BrokerLite.Theory.Visibility
import BrokerLite.Theory.Heap
import BrokerLite.Theory.BigEndian
import BrokerLite.Theory.Metering
import BrokerLite.Theory.Framing
import BrokerLite.Theory.Matching
import BrokerLite.Theory.Line
import BrokerLite.Theory.Window
import BrokerLite.Theory.TokenBucket
import BrokerLite.Theory.Atomic
import BrokerLite.Theory.Backoff
import BrokerLite.Theory.OrderStatistic
import BrokerLite.Store.Message
import BrokerLite.Store.Partition
import BrokerLite.Store.PartitionLog
import BrokerLite.Store.PartitionRead
import BrokerLite.Consume.Consumer
import BrokerLite.Consume.Poll
import BrokerLite.Consume.AtMostOnce
import BrokerLite.Consume.Lossless
import BrokerLite.Consume.Group
import BrokerLite.Consume.GroupRun
import BrokerLite.Consume.Committed
import BrokerLite.Consume.AtLeastOnce
import BrokerLite.Broker.Topic
import BrokerLite.Broker.Broker
import BrokerLite.Broker.Offsets
import BrokerLite.Broker.Ownership
import BrokerLite.Broker.BrokerRun
import BrokerLite.Broker.Recreation
import BrokerLite.Broker.Atomicity
import BrokerLite.Broker.Routing
import BrokerLite.Broker.Republish
import BrokerLite.Broker.Subscriptions
import BrokerLite.Broker.Middleware
import BrokerLite.Broker.Deduplication
import BrokerLite.Delivery.AckManager
import BrokerLite.Delivery.DeadLetter
import BrokerLite.Delivery.Timeouts
import BrokerLite.Delivery.Bookkeeping
import BrokerLite.Delivery.DeadLetterQueue
import BrokerLite.Delivery.Retry
import BrokerLite.Delivery.Jitter
import BrokerLite.Queue.MessageQueue
import BrokerLite.Queue.PriorityQueue
import BrokerLite.Queue.PointToPoint
import BrokerLite.Queue.Conservation
import BrokerLite.Queue.PriorityOrder
import BrokerLite.Queue.Redelivery
import BrokerLite.Queue.Expiry
import BrokerLite.Queue.Capacity
import BrokerLite.Broker.Queues
import BrokerLite.Wire.Protocol
import BrokerLite.Server.QueueHandlers
import BrokerLite.Broker.Errors
import BrokerLite.Server.Snapshot
import BrokerLite.Broker.Accounting
import BrokerLite.Consume.Lag
import BrokerLite.Wire.Stream
import BrokerLite.Wire.Client
import BrokerLite.Wire.ClientRun
import BrokerLite.Wire.Grammar
import BrokerLite.Wire.CorrelationIds
import BrokerLite.Server.Request
import BrokerLite.Server.Session
import BrokerLite.Server.Responses
import BrokerLite.Server.ClientCalls
import BrokerLite.Server.RemoteCall
import BrokerLite.Server.Connections
import BrokerLite.Server.Exchange
import BrokerLite.Server.Membership
import BrokerLite.Server.Admin
import BrokerLite.Codec.BinarySerializer
import BrokerLite.Codec.Schema
import BrokerLite.Codec.MessageCodec
import BrokerLite.Codec.Truncation
import BrokerLite.Codec.Progress
import BrokerLite.Storage.LogRun
import BrokerLite.Storage.Compaction
import BrokerLite.Storage.Reopening
import BrokerLite.Storage.Retention
import BrokerLite.Storage.Rotation
import BrokerLite.Storage.SegmentTruncation
import BrokerLite.Produce.Producer
import BrokerLite.Produce.Recorded
import BrokerLite.Produce.ProducerRun
import BrokerLite.Produce.InOrder
import BrokerLite.Produce.Upkeep
import BrokerLite.Produce.BrokerWorld
import BrokerLite.Produce.BrokerProducers
import BrokerLite.Produce.EndToEnd
import BrokerLite.Flow.RateLimiter
import BrokerLite.Flow.Backpressure
import BrokerLite.Flow.Isolation
import BrokerLite.Server.Metrics
