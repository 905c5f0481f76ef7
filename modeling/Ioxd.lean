import Ioxd.Pipe.Kept
import Ioxd.Pipe.Full
import Ioxd.Http.TextLaws
import Ioxd.Pipe.WriterLaws
import Ioxd.Pipe.WriterRun
import Ioxd.Http.Framing
import Ioxd.Lib.Chunked
import Ioxd.Http.HeadRun
import Ioxd.Http.HeadGet
import Ioxd.Http.Announced
import Ioxd.Http.Boundary
import Ioxd.Http.ReplyRun
import Ioxd.Http.ReadLaws
import Ioxd.Http.Dispatch
import Ioxd.Http.Chain
import Ioxd.Http.Bodyless
import Ioxd.Http.Joined
import Ioxd.Http.Targets
import Ioxd.Http.Registered
import Ioxd.Http.Numbers
import Ioxd.Http.Query
import Ioxd.Http.FindLaws
import Ioxd.Http.Labelled
import Ioxd.Json.RoundTrip
import Ioxd.Io.Starved
import Ioxd.Io.Buffers
import Ioxd.Io.Lifetime
import Ioxd.Io.WaitingRun
import Ioxd.Io.Blocks
import Ioxd.Io.Listeners
import Ioxd.Io.Spsc
import Ioxd.Io.Submissions
import Ioxd.Tls.Closing
import Ioxd.Tls.HandoverLaws
import Ioxd.Tls.Refs
import Ioxd.Tls.Names
import Ioxd.Files.TableLaws
import Ioxd.Files.Named
import Ioxd.Files.Resolve
import Ioxd.Files.RangeReply
import Ioxd.Files.Tagged
import Ioxd.Files.Dates
import Ioxd.Http.DecodeLaws
import Ioxd.Http.Malformed
import Ioxd.Http.Pieces
import Ioxd.Http.Faithful
import Ioxd.Http.HeadRead
import Ioxd.Http.Written
import Ioxd.Http.Answers
