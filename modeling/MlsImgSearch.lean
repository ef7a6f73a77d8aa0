import MlsImgSearch.Lib.Run
import MlsImgSearch.Lib.SortedList
import MlsImgSearch.Lib.SparseList
import MlsImgSearch.Lib.Bytes
import MlsImgSearch.Lib.Segmentation
import MlsImgSearch.Lib.Strings
import MlsImgSearch.Lib.TextSearch
import MlsImgSearch.Lib.Ledger
import MlsImgSearch.Lib.RecordFile
import MlsImgSearch.Blitz.RandomSelector
import MlsImgSearch.Blitz.SelectorWeights
import MlsImgSearch.Blitz.ServiceSelector
import MlsImgSearch.Blitz.ConsistHashRing
import MlsImgSearch.Blitz.Framework
import MlsImgSearch.Blitz.StaleHandle
import MlsImgSearch.Blitz.ContextCompletion
import MlsImgSearch.Blitz.FixHeadMsg
import MlsImgSearch.Blitz.ThriftMsg
import MlsImgSearch.Blitz.HttpReqSegments
import MlsImgSearch.Blitz.HttpRespSegments
import MlsImgSearch.Blitz.IHttpReqSegments
import MlsImgSearch.Blitz.TokenlessService
import MlsImgSearch.Blitz.Tokens
import MlsImgSearch.Blitz.MemcachedReply
import MlsImgSearch.Blitz2.FixHeadMsg
import MlsImgSearch.Blitz2.FixHeadBlocks
import MlsImgSearch.Blitz2.MemcachedReq
import MlsImgSearch.Blitz2.MemcachedResp
import MlsImgSearch.Blitz2.HttpUri
import MlsImgSearch.Blitz2.UriReads
import MlsImgSearch.Blitz2.HttpReqDecoder
import MlsImgSearch.Blitz2.HttpRespDecoder
import MlsImgSearch.Blitz2.HttpResponse
import MlsImgSearch.Blitz2.StateMachine
import MlsImgSearch.Blitz2.StateTable
import MlsImgSearch.Blitz2.QueryMatching
import MlsImgSearch.Blitz2.HbaseRegions
import MlsImgSearch.Blitz2.HbaseRequests
import MlsImgSearch.Blitz2.HbaseHostPort
import MlsImgSearch.Blitz2.SelectorWeights
import MlsImgSearch.Blitz2.ServicePool
import MlsImgSearch.BofCore.Indexer
import MlsImgSearch.Indexer.ReducerResult
import MlsImgSearch.Indexer.Merger
import MlsImgSearch.Indexer.NormalizeReducer
import MlsImgSearch.Indexer.Reducer
import MlsImgSearch.Indexer.ImageQuantizedSerializer
import MlsImgSearch.ParallelCompute.MergeProcessor
import MlsImgSearch.Searchd.SpatialRanker
import MlsImgSearch.BofCore.Searcher
import MlsImgSearch.Common.BeansdbBuckets
import MlsImgSearch.Common.BeansdbClusters
import MlsImgSearch.Cache.RedisConnPool
import MlsImgSearch.Db.MysqlConnPool
import MlsImgSearch.Db.BinlogDelivery
import MlsImgSearch.Searchd.DistributedMerge
import MlsImgSearch.Searchd.MergeAgreement
import MlsImgSearch.Searchd.Dispatch
import MlsImgSearch.Searchd.ThreadsResult
import MlsImgSearch.Lib.Grouping
import MlsImgSearch.Lib.Lanes
import MlsImgSearch.BofCore.HammingEmbedding
import MlsImgSearch.BofCore.BucketMerge
import MlsImgSearch.BofCore.CosineScore
import MlsImgSearch.Searchd.CosineMerge
import MlsImgSearch.BofCore.BeginBucket
import MlsImgSearch.BofCore.RansacRanker
import MlsImgSearch.Lib.Lines
import MlsImgSearch.Blitz.LegacySelectors
import MlsImgSearch.Blitz.FailedSetup
import MlsImgSearch.Blitz.LineMsg
import MlsImgSearch.Blitz.Buffer
import MlsImgSearch.Blitz.BufferCodec
import MlsImgSearch.Lib.LinkedTable
import MlsImgSearch.Blitz.ArrayList
import MlsImgSearch.Blitz.TcpConn
import MlsImgSearch.Common.HttpClient
import MlsImgSearch.Blitz2.LineMsg
import MlsImgSearch.ParallelCompute.MergeReply
import MlsImgSearch.BofCore.Reranking
import MlsImgSearch.Utils.ComPool
import MlsImgSearch.Db.BatchExecute
import MlsImgSearch.Db.PoolRouting
import MlsImgSearch.Utils.TextConfig
import MlsImgSearch.Lib.Pieces
import MlsImgSearch.Utils.StringUtil
import MlsImgSearch.Lib.Int32
import MlsImgSearch.Utils.UrlUtil
import MlsImgSearch.Lib.Words
import MlsImgSearch.Lib.Printf
import MlsImgSearch.Blitz.MemcachedReqFunction
import MlsImgSearch.Blitz.MemcachedServerMsg
import MlsImgSearch.Blitz.ImgdbProxyServer
import MlsImgSearch.Blitz.TokenlessServicePool
import MlsImgSearch.Blitz.DivideKeys
import MlsImgSearch.Utils.PoolTime
import MlsImgSearch.Blitz.PrintInt
import MlsImgSearch.Blitz.PatternServices
import MlsImgSearch.Utils.LogFormat
import MlsImgSearch.Lib.Bitmap
import MlsImgSearch.Db.RowImage
import MlsImgSearch.Db.RowChanges
import MlsImgSearch.Utils.FileAppender
import MlsImgSearch.Lib.BlockStream
import MlsImgSearch.Lib.Crc
import MlsImgSearch.Lib.History
import MlsImgSearch.Lib.RefCount
import MlsImgSearch.Utils.Md5
import MlsImgSearch.Utils.Md5New
import MlsImgSearch.Utils.Crc32
import MlsImgSearch.Blitz2.Reactor
import MlsImgSearch.Blitz.RefObject
import MlsImgSearch.Lib.Fifo
import MlsImgSearch.Blitz.TaskQueues
import MlsImgSearch.Blitz.TaskServer
import MlsImgSearch.Blitz.MemcachedServer
import MlsImgSearch.Blitz.MemcachedRuns
import MlsImgSearch.Blitz.MemcachedGet
