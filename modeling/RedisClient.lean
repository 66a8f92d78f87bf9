import RedisClient.Parser.Recovery
import RedisClient.Parser.Conversions
import RedisClient.Parser.Reserve
import RedisClient.Sync.Pipelining
import RedisClient.Sync.Success
import RedisClient.Paths
import RedisClient.Async.Subscribing
import RedisClient.Async.Reconnect
import RedisClient.Async.Reads
import RedisClient.Async.Dialling
import RedisClient.Async.Unsubscribing
import RedisClient.Async.Confirmations
import RedisClient.Async.Queue
import RedisClient.Async.Handles
import RedisClient.Async.Kinds
import RedisClient.Async.SingleShot
import RedisClient.Async.Silence
import RedisClient.Async.Delivery
import RedisClient.Async.Lifetime
import RedisClient.Agreement
import RedisClient.Async.Told
import RedisClient.Async.Throws
import RedisClient.Async.Modes
import RedisClient.Parser.Space
import RedisClient.Async.Users
import RedisClient.Async.Feed
import RedisClient.Async.Broadcast
