import Llm386.Core.Registry
import Llm386.Diff.Plans
import Llm386.Lmdb.Erasure
import Llm386.Packer.Calendar
import Llm386.Packer.Fitting
import Llm386.Packer.Snapshot
import Llm386.Packer.Rendering
import Llm386.Pager.Isolation
import Llm386.Pager.Repeats
import Llm386.Pager.Overlap
import Llm386.Pager.Contradictions
import Llm386.Pager.Fanout
import Llm386.Pager.Redundant
import Llm386.Pager.Compressed
import Llm386.Pager.Greediness
import Llm386.Reduce.Commit
import Llm386.Trace.Older
import Llm386.Trace.Sharing
import Llm386.Retrieve.Hnsw
import Llm386.Pg.Deadlock
import Llm386.Packer.Determinism
import Llm386.Store.Erasures
import Llm386.Pg.Progress
import Llm386.Pg.Opening
import Llm386.Lmdb.Recovery
import Llm386.Lmdb.Recorded
import Llm386.Pager.Truncated
import Llm386.Tokenizer.Caching
import Llm386.Retrieve.Cache
import Llm386.Cli.Ids
import Llm386.Cli.Summarize
import Llm386.Python.Retrievers
import Llm386.Python.Repacking
import Llm386.Pg.Edges
import Llm386.Retrieve.Spaces
