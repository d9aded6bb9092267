import Mysql51.Cache.BucketRecover
import Mysql51.Cache.Layout
import Mysql51.Cache.LogSuffix
import Mysql51.Cache.Mirror
import Mysql51.Cache.Recovery
import Mysql51.Cache.ShmMap
import Mysql51.Decimal.Integers
import Mysql51.Decimal.Mul
import Mysql51.Decimal.RoundTrip
import Mysql51.Decimal.Sub
import Mysql51.Innodb.InsertReplay
import Mysql51.Innodb.PoolRuns
import Mysql51.Innodb.PurgeView
import Mysql51.Innodb.RecLockRuns
import Mysql51.Innodb.RecordRoundTrip
import Mysql51.IoCache.BlockWrite
import Mysql51.Myisam.PackedRoundTrip
import Mysql51.Mysys.Base64
import Mysql51.Mysys.Bitmap
import Mysql51.Mysys.Queue
import Mysql51.Partitioning.LinearHash
import Mysql51.Partitioning.Walking
import Mysql51.Protocol.Compressed
import Mysql51.Rpl.RowRoundTrip
import Mysql51.Stats.ShmSwitch
import Mysql51.Stats.TabMarshal
import Mysql51.Stats.TabRuns
import Mysql51.Strings.Simple
import Mysql51.TcLog.Durable
import Mysql51.ThrLock.Exclusion
import Mysql51.Time.DatetimeNumber
import Mysql51.Time.TimeRange
import Mysql51.Time.Week
