import Streaming.ChunkReader
import Streaming.Double.Shortest
import Streaming.Latin1
import Streaming.Partition
import Streaming.Proofs.Source.Reads
import Streaming.Text.Joined
import Streaming.Text.Lines
import Streaming.Text.Stripped
import Streaming.Text.Words
import Streaming.Utf8.Encoding
import Streaming.Utf8.Stored
import Streaming.Proofs.Source.Turns
import Streaming.Proofs.Source.Cursor
import Streaming.Proofs.Utf8.Grammar
import Streaming.Proofs.Utf8.Automaton
import Streaming.Proofs.Utf8.Resume
import Streaming.Proofs.Utf8.Segments
import Streaming.Proofs.Utf8.Strict
import Streaming.Proofs.Utf8.RoundTrip
import Streaming.Proofs.Utf8.Injective
import Streaming.Proofs.Utf8.Chunked
import Streaming.Proofs.Utf8.Pushed
import Streaming.Proofs.Utf8.Interrupted
import Streaming.Proofs.Source.Conservation
import Streaming.Proofs.Source.HandBack
import Streaming.Proofs.Source.Sessions
import Streaming.Proofs.Source.Counted
import Streaming.Proofs.Source.Rounds
import Streaming.Proofs.Source.Forward
import Streaming.Proofs.Parser.Stock
import Streaming.Proofs.Parser.Splits
import Streaming.Proofs.Text.Lines
import Streaming.Proofs.Parser.Tracks
import Streaming.Proofs.Utf8.Forged
import Streaming.Proofs.Utf8.Held
import Streaming.Proofs.Source.ForwardRounds
import Streaming.Proofs.Parser.Runs
import Streaming.Proofs.Text.Words
import Streaming.Proofs.Parser.Blocks
import Streaming.Proofs.Parser.Separators
import Streaming.Proofs.Parser.Greedy
import Streaming.Proofs.Text.Joined
import Streaming.Proofs.Text.Spacing
import Streaming.Proofs.Parser.Counts
import Streaming.Proofs.Parser.Scanners
import Streaming.Proofs.Source.Draws
import Streaming.Proofs.Text.Drawn
import Streaming.Partition.Checked
import Streaming.Utf8.Buffered
import Streaming.Proofs.Partition.Even
import Streaming.Proofs.Json
import Streaming.Proofs.Utf8.Stored
import Streaming.Proofs.Pauses
import Streaming.Proofs.Source.Hints
