import SpiderFrame.Base.Blocks
import SpiderFrame.Base.Ring
import SpiderFrame.Base.Run
import SpiderFrame.Base.Once
import SpiderFrame.Base.Worklist
import SpiderFrame.CString
import SpiderFrame.Hash.Key
import SpiderFrame.Hash.Crc
import SpiderFrame.Hash.Module
import SpiderFrame.Hash.Refinement
import SpiderFrame.Link.DualLink
import SpiderFrame.Queue.Record
import SpiderFrame.Queue.Table
import SpiderFrame.Queue.Load
import SpiderFrame.Queue.Reader
import SpiderFrame.Queue.Callers
import SpiderFrame.Crawl.Spider
import SpiderFrame.Crawl.Move
import SpiderFrame.Crawl.Account
import SpiderFrame.Crawl.Checkpoint
import SpiderFrame.Crawl.DepthLimit
import SpiderFrame.Crawl.Overshoot
import SpiderFrame.Crawl.EndOfFile
import SpiderFrame.Crawl.Single
import SpiderFrame.Var.Table
import SpiderFrame.Var.Map
import SpiderFrame.Crawl.Onward
import SpiderFrame.Crawl.Restart
import SpiderFrame.Base.BreadthFirst
import SpiderFrame.Crawl.Levels
import SpiderFrame.Link.Rings
import SpiderFrame.Var.Shared
import SpiderFrame.Crawl.Detection
import SpiderFrame.Crawl.Indicator
import SpiderFrame.Hash.Names
import SpiderFrame.Conf.Checkpoint
import SpiderFrame.Base.Template
import SpiderFrame.Curl.FailList
import SpiderFrame.Nested.StartUrl
import SpiderFrame.Nested.Users
import SpiderFrame.Pcre
import SpiderFrame.Queue.Rewrite
import SpiderFrame.Queue.RoundTrip
import SpiderFrame.Base.Json
import SpiderFrame.Base.Prog
import SpiderFrame.Json.Items
import SpiderFrame.Page.Expand
import SpiderFrame.Page.JsonText
import SpiderFrame.Page.NestedRun
import SpiderFrame.Page.Uniq
import SpiderFrame.Base.Brackets
import SpiderFrame.Url.Reduce
import SpiderFrame.Url.Temp
import SpiderFrame.Base.Regex
import SpiderFrame.Url.Patterns
import SpiderFrame.Url.Merge
import SpiderFrame.Url.Normal
import SpiderFrame.Url.DotSegments
import SpiderFrame.Base.Memory
import SpiderFrame.Curl.Download
import SpiderFrame.Page.Window
import SpiderFrame.Curl.Retry
import SpiderFrame.Url.Offers
import SpiderFrame.Url.FailedFetch
import SpiderFrame.Page.Scan
import SpiderFrame.Page.Substitution
import SpiderFrame.Page.Ranges
import SpiderFrame.Page.Stores
import SpiderFrame.Base.Resource
import SpiderFrame.Page.Frees
import SpiderFrame.Page.Pointer
import SpiderFrame.Base.Rounds
import SpiderFrame.Page.Markup
import SpiderFrame.Json.Buffer
import SpiderFrame.Base.JsonTree
import SpiderFrame.Json.Trees
import SpiderFrame.Page.Reading
import SpiderFrame.Page.Report
import SpiderFrame.Calls.Machine
import SpiderFrame.Calls.Step
import SpiderFrame.Page.References
import SpiderFrame.Calls.Levels
import SpiderFrame.Calls.Streams
import SpiderFrame.Base.Chain
import SpiderFrame.Base.Follow
import SpiderFrame.Calls.Keys
import SpiderFrame.Conf.Includes
import SpiderFrame.Crawl.Depth
import SpiderFrame.Var.Handles
import SpiderFrame.Conf.Order
import SpiderFrame.Page.Captures
import SpiderFrame.Base.Shell
import SpiderFrame.Page.Command
import SpiderFrame.Calls.Overlong
import SpiderFrame.Calls.Startup
import SpiderFrame.Conf.Tails
import SpiderFrame.Hash.Buckets
import SpiderFrame.Base.Arena
import SpiderFrame.Base.Heap
import SpiderFrame.Base.Checked
import SpiderFrame.Pool.Palloc
import SpiderFrame.Pool.Invariant
import SpiderFrame.Pool.Requests
import SpiderFrame.Pool.Releases
import SpiderFrame.Pool.Pools
import SpiderFrame.Pool.Search
import SpiderFrame.Pool.Contents
import SpiderFrame.Pool.Sizes
import SpiderFrame.Libjson.Tables
import SpiderFrame.Libjson.Parser
import SpiderFrame.Libjson.Pieces
import SpiderFrame.Libjson.Unbounded
import SpiderFrame.Libjson.Limits
import SpiderFrame.Libjson.Dialect
import SpiderFrame.Libjson.Unicode
import SpiderFrame.Libjson.Reading
import SpiderFrame.Libjson.Expected
import SpiderFrame.Libjson.Accepted
import SpiderFrame.Libjson.Documents
import SpiderFrame.Libjson.Dom
import SpiderFrame.Libjson.Lint
import SpiderFrame.Libjson.Printer
import SpiderFrame.Libjson.Printing
import SpiderFrame.Libjson.Protocol
import SpiderFrame.Libjson.Callbacks
import SpiderFrame.Libjson.Trees
import SpiderFrame.Libjson.TreeFiles
import SpiderFrame.Md5.Body
import SpiderFrame.Md5.Digest
