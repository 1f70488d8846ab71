import FeatureStore.Conservation
import FeatureStore.Consumer
import FeatureStore.Dashboard
import FeatureStore.Dict
import FeatureStore.DrainAccounting
import FeatureStore.EngineRun
import FeatureStore.Features
import FeatureStore.Grouping
import FeatureStore.IssuedRows
import FeatureStore.LastWriter
import FeatureStore.MirrorSymmetry
import FeatureStore.PermitConservation
import FeatureStore.PositionAccounting
import FeatureStore.PrefixConsistency
import FeatureStore.Replay
import FeatureStore.Runs
import FeatureStore.Scorer
import FeatureStore.Statements
import FeatureStore.TableAgreement
import FeatureStore.Tumbling
import FeatureStore.WalletSharding
import FeatureStore.WindowBatch
import FeatureStore.WindowNesting
import FeatureStore.Writer
import FeatureStore.Concentration
import FeatureStore.SnapshotBounds
import FeatureStore.ScoreRange
import FeatureStore.SteadyFlow
import FeatureStore.OpenWindows
import FeatureStore.PointInTime
import FeatureStore.Clustered
import FeatureStore.FreshReads
import FeatureStore.RawFills
import FeatureStore.BackgroundWriters
import FeatureStore.RefusedSend
import FeatureStore.Lots
import FeatureStore.OpenLots
import FeatureStore.KeptPrice
import FeatureStore.WalletClass
import FeatureStore.SimultaneousFills
import FeatureStore.ReplayTies
import FeatureStore.Firehose
import FeatureStore.Pacing
import FeatureStore.Loadgen
import FeatureStore.Stride
import FeatureStore.StrideSharding
import FeatureStore.Text
import FeatureStore.Schema
import FeatureStore.SampleKeys
import FeatureStore.Latency
import FeatureStore.Scoreboard
import FeatureStore.Delivery
import FeatureStore.EndToEnd
import FeatureStore.Serving
import FeatureStore.FlushFreshness
import FeatureStore.Panel
import FeatureStore.SlidingWindow
import FeatureStore.Bursts
import FeatureStore.LiveCounters
import FeatureStore.CoinSharding
import FeatureStore.LoadTest
import FeatureStore.ReadBench
import FeatureStore.Units
import FeatureStore.LivePanel
import FeatureStore.RateLimit
import FeatureStore.LateEvents
import FeatureStore.LateFills
import FeatureStore.LiveBoard
import FeatureStore.RollUp
import FeatureStore.ClosedRows
import FeatureStore.Recovery
