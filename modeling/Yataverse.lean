import Yataverse.EventLoop.RelyGuarantee
import Yataverse.EventLoop.Trace
import Yataverse.Custody.Complete
import Yataverse.BlockIngest.Histories
import Yataverse.BlockMirror.Release
import Yataverse.BlockIngest.Pins
import Yataverse.Protocol.FirstWins
import Yataverse.LakeHead.Settle
import Yataverse.Writer.Decide
import Yataverse.Writer.Serve
import Yataverse.Writer.Rules
import Yataverse.Writer.Steps
import Yataverse.Writer.Log
import Yataverse.Writer.Answers
import Yataverse.GraphHead.Actions
import Yataverse.GraphHead.Python
import Yataverse.GraphHead.DagCbor
import Yataverse.Economy.Ledger
import Yataverse.Carv2.Archive
import Yataverse.Machine.Run
import Yataverse.Lake.PidLock
import Yataverse.Ipns.Fallback
import Yataverse.Filecoin.Receipts
import Yataverse.EpochCycle.Retry
import Yataverse.RawBlockStore.CrashSafe
import Yataverse.Cover.Consecutive
import Yataverse.Ship.Once
import Yataverse.Ship.Gapless
import Yataverse.CarExport.Accepted
import Yataverse.RouterStandby.Consecutive
import Yataverse.Sorting.Stable
import Yataverse.Planner.Spread
import Yataverse.Planner.Rank
import Yataverse.Carv2.Layout
import Yataverse.Carv2.AllOrNothing
import Yataverse.ImportCar.Retry
import Yataverse.Replicate.Migrate
import Yataverse.Replicate.Finish
import Yataverse.Replicate.Prefetch
import Yataverse.Ship.SameRows
import Yataverse.Readback.Batches
import Yataverse.LakeAudit.Coverage
import Yataverse.Serve.Covers
import Yataverse.LakeDiff.Superset
import Yataverse.LakeEpoch.Delta
import Yataverse.LakeHead.Resolve
import Yataverse.LakeHead.Bundle
import Yataverse.LakeHead.SigningText
import Yataverse.Lake.Base32
import Yataverse.BlockIngest.Address
import Yataverse.RouterStandby.Restored
import Yataverse.Custody.Linked
import Yataverse.BlockIngest.Limiter
import Yataverse.R2HeadFollower.Agree
import Yataverse.BlockIngest.OneOperation
import Yataverse.Js.Decode
import Yataverse.LakeLog.Readable
import Yataverse.CarExport.Ported
import Yataverse.RawBlockStore.Digest
import Yataverse.IndependentRead.DigestOf
import Yataverse.LakeDiff.Written
import Yataverse.LakeCapture.Resumed
import Yataverse.Lake.Base58
import Yataverse.Filecoin.Base32
import Yataverse.Filecoin.Legible
import Yataverse.LakeEpoch.Grown
import Yataverse.LakeHead.Bundled
import Yataverse.R2Origin.Served
import Yataverse.LakeReader.Answers
import Yataverse.Recover.Rebuild
