import Grim.Lib.Steps
import Grim.Scheduler.Runs
import Grim.Scheduler.Lost
import Grim.Scheduler.Ownership
import Grim.Lib.Json.Grammar
import Grim.Lib.Json.Tokens
import Grim.Constrain.JsonFsm
import Grim.Constrain.Complete
import Grim.Constrain.Sound
import Grim.KvTransport.Spill
import Grim.KvTransport.LastDemotion
import Grim.KvTransport.Receiver
import Grim.KvTransport.Framing
import Grim.Memory.Radix
import Grim.Memory.Books
import Grim.Memory.Exclusive
import Grim.Memory.Links
import Grim.Memory.Recycled
import Grim.Lib.Slice
import Grim.Memory.Paged
import Grim.Memory.PagedList
import Grim.Memory.Draws
import Grim.Engine.Passes
import Grim.Memory.Registry
import Grim.Engine.Coverage
import Grim.Engine.Hits
import Grim.Memory.Leaks
import Grim.Memory.Paths
import Grim.Memory.PrefixMatch
import Grim.Memory.Sharing
import Grim.KvTransport.Push
import Grim.KvTransport.Inbox
import Grim.KvTransport.WeightStreamer
import Grim.KvTransport.Handoff
import Grim.Format.Value
import Grim.Format.DType
import Grim.Format.GrimMetadata
import Grim.Format.Gguf
import Grim.Lib.Layout
import Grim.Lib.LittleEndian
import Grim.Format.Conversion
import Grim.Format.Preserved
import Grim.Constrain.Sampler
import Grim.KvTransport.Touched
import Grim.Memory.Writes
import Grim.Memory.Copies
import Grim.Memory.Promotions
import Grim.Memory.Tenancy
import Grim.KvQuant.Block
import Grim.Memory.SpilledPages
import Grim.Memory.Cursors
import Grim.Lib.FloatFormat
import Grim.Lib.Json.Value
import Grim.Lib.Text
import Grim.Format.TensorExt
import Grim.Format.ValueJson
import Grim.Format.NativeMetadata
import Grim.Lib.Extents
import Grim.Format.GrimFile
import Grim.Format.GrimLayout
import Grim.Speculative.Wrapper
import Grim.Speculative.Acceptance
import Grim.Speculative.Visible
import Grim.Autograd.AdamW
import Grim.Autograd.Checkpoint
import Grim.Autograd.Resume
import Grim.Lib.Chop
import Grim.Lib.Utf8
import Grim.Tokenizer.Pretokenize
import Grim.Tokenizer.Special
import Grim.Tokenizer.Chunks
import Grim.Tokenizer.Model
import Grim.Tokenizer.ByteLevel
import Grim.Tokenizer.RoundTrip
import Grim.Tokenizer.Cuts
import Grim.Tokenizer.ScoreMerges
import Grim.Tokenizer.Parallel
import Grim.Tokenizer.ByteFallback
import Grim.Tokenizer.Returns
import Grim.Format.Outliers
import Grim.Format.Streams
import Grim.Format.Rewrite
import Grim.Format.OutlierCodec
import Grim.Format.GgufKeys
import Grim.Format.TrainState
import Grim.Lib.Cursor
import Grim.Format.AttachmentIndex
import Grim.Format.AttachmentTrip
import Grim.Lib.BitStream
import Grim.Lib.FloatBounds
import Grim.Format.StreamLayout
import Grim.Format.RowPacking
import Grim.Format.PackedRows
import Grim.Format.EffectiveRow
import Grim.Format.Merge
import Grim.Format.BoltOn
import Grim.Format.Kept
import Grim.Scheduler.SeqCap
import Grim.Scheduler.Dispatches
import Grim.Scheduler.Arbitration
import Grim.Memory.Evictions
import Grim.Memory.Claims
import Grim.Memory.Admission
import Grim.Scheduler.Accounting
import Grim.Scheduler.Order
import Grim.Autograd.Replay
import Grim.Autograd.Backward
import Grim.Autograd.Freed
import Grim.Memory.Mirror
import Grim.Memory.Residency
import Grim.Memory.ElementStore
import Grim.Memory.Handles
import Grim.Memory.FillCounts
import Grim.Memory.Leased
import Grim.Memory.FailedGrowth
import Grim.Memory.PrefixShare
import Grim.Memory.SharedTail
import Grim.Memory.TidyRuns
import Grim.Memory.Checkpoints
import Grim.Engine.CacheBlend
import Grim.Engine.TreePaths
import Grim.Engine.Packing
import Grim.Lib.Search
import Grim.Constrain.Pattern
import Grim.Constrain.Schema
import Grim.Lib.Json.Extend
import Grim.Constrain.Validate
import Grim.Constrain.FastPath
import Grim.Constrain.Modes
import Grim.Constrain.JumpForward
import Grim.Memory.PushedBlocks
import Grim.Engine.PromptChunks
import Grim.Engine.Registrations
import Grim.Memory.PathClaims
import Grim.Engine.Claiming
import Grim.Tokenizer.FromMetadata
import Grim.Lib.Regex
import Grim.Tokenizer.Gpt2Pattern
import Grim.KvQuant.FromBytes
import Grim.KvQuant.BitIo
import Grim.KvQuant.LloydMax
import Grim.KvQuant.Merge
import Grim.KvQuant.ChannelBits
import Grim.Lib.Ranking
import Grim.KvQuant.Evict
import Grim.Lib.Nucleus
import Grim.Sampling.Histogram
import Grim.Sampling.Sampler
import Grim.Autograd.Accumulation
import Grim.Lib.FlatMatrix
import Grim.Format.AdapterDelta
import Grim.Lib.FloatNat
import Grim.Autograd.Collate
import Grim.Lib.FloatOrder
import Grim.Format.HalfFloat
import Grim.Format.SidecarNumbers
import Grim.Lib.Traces
import Grim.Garage.Jobs
import Grim.Garage.Finality
import Grim.Garage.JobLimit
import Grim.Autograd.ExactReplay
import Grim.Garage.Dataloader
import Grim.Garage.Preference
import Grim.Compress.Sentences
import Grim.Compress.Compressor
import Grim.Autograd.Walk
import Grim.Autograd.BackwardStep
import Grim.Quant.Fp8
import Grim.Quant.ScrubJay
import Grim.Quant.GreyRaven
import Grim.Quant.GreyTiles
import Grim.Quant.CoupledPatterns
import Grim.Quant.TreePie
import Grim.Quant.CityCrow
import Grim.Server.ToolParse
import Grim.Server.PyLiteral
import Grim.Server.BracketCall
