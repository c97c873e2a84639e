import WaiNative.Cxx.Strings
import WaiNative.Cxx.Multimap
import WaiNative.Cxx.Decimal
import WaiNative.Cxx.Fixed
import WaiNative.Theory.Tiling
import WaiNative.Theory.ShortestPath
import WaiNative.Theory.ChainGraph
import WaiNative.Theory.Runs
import WaiNative.Theory.SelfSync
import WaiNative.Text.CtrlClaw
import WaiNative.Text.Utf8
import WaiNative.Segment.Windows
import WaiNative.Segment.Hints
import WaiNative.Segment.Groups
import WaiNative.Segment.Graph
import WaiNative.Segment.Prediction
import WaiNative.Segment.Segmenters
import WaiNative.Segment.Selection
import WaiNative.Segment.Lookup
import WaiNative.Segment.Pieces
import WaiNative.Segment.Stretches
import WaiNative.Segment.Coverage
import WaiNative.Segment.Contiguity
import WaiNative.Segment.Qiangbao
import WaiNative.Training.MultiWord
import WaiNative.Training.Learn
import WaiNative.Training.Records
import WaiNative.Training.Ranking
import WaiNative.Training.CheckedCounts
import WaiNative.Training.Commit
import WaiNative.Training.RecordBytes
import WaiNative.Storage.MasterDBWord
import WaiNative.Storage.Dictionary
import WaiNative.Storage.CastWeights
import WaiNative.Storage.LoadMaster
import WaiNative.Storage.UrlStorage
import WaiNative.Service.SaveTask
import WaiNative.Service.OstrichTask
import WaiNative.Service.CrawlerSave
import WaiNative.Service.WikiCrawler
import WaiNative.Service.IpfsTextPump
import WaiNative.Service.UdpServer
import WaiNative.Browser.JsObject
import WaiNative.Browser.WaiParrot
import WaiNative.Browser.WaiCrystal
import WaiNative.Text.Phonemes
import WaiNative.Segment.ZhiZiObject
import WaiNative.Service.ProcessText
import WaiNative.Segment.Conflicts
import WaiNative.Segment.RawRank
import WaiNative.Service.CrawlerSets
import WaiNative.Text.UnicodeToUtf8
import WaiNative.Segment.Distances
import WaiNative.Segment.GroupEnds
import WaiNative.Segment.Gaps
import WaiNative.Theory.HashChain
import WaiNative.Browser.JsText
import WaiNative.Dataset.BlockObject
import WaiNative.Dataset.HashArchive
import WaiNative.Dataset.RepoIpfsWiki
import WaiNative.Segment.PredictionTree
import WaiNative.Segment.SplitSeq
import WaiNative.Segment.FetchPrediction
import WaiNative.Training.ParrotSelection
import WaiNative.Training.ParrotRemains
import WaiNative.Training.WindowCounts
import WaiNative.Training.RankingBatches
import WaiNative.Service.CutFaults
import WaiNative.Text.Utf8ToUnicode
import WaiNative.Text.ParseIndex
import WaiNative.Text.ClawIndex
import WaiNative.Text.Utf8ToCode
import WaiNative.Segment.Multipliers
import WaiNative.Browser.TableRuns
import WaiNative.Service.CutSpace
import WaiNative.Dataset.Roma2Kana
import WaiNative.Dataset.WikiDumper
import WaiNative.Theory.Messages
import WaiNative.Training.Corpus
import WaiNative.Service.CrawlerFetch
import WaiNative.Service.StageFetch
import WaiNative.Dataset.RedisCrawler
import WaiNative.Redis.RedisParser
import WaiNative.Redis.RedisClient
import WaiNative.Dataset.DumpRange
import WaiNative.Dataset.IpfsCnwiki
import WaiNative.Dataset.ConvHash
import WaiNative.Dataset.DeepHash
import WaiNative.Dataset.DeepHashEnd
import WaiNative.Service.RedisEntry
import WaiNative.Text.ClawIndex
