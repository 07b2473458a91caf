import WsPmd.Library.Loop
import WsPmd.Library.Quoted
import WsPmd.Library.Traversal
import WsPmd.Library.Trace
import WsPmd.Library.Passage
import WsPmd.Library.Transducer
import WsPmd.Library.ByteMachine
import WsPmd.Library.Following
import WsPmd.Library.Deflate.Format
import WsPmd.Library.Deflate.Machine
import WsPmd.Library.Deflate.Reads
import WsPmd.Library.Deflate.Streams
import WsPmd.Library.Deflate.Inflater
import WsPmd.Library.Deflate.Octets
import WsPmd.Error
import WsPmd.Header
import WsPmd.Config
import WsPmd.Grammar
import WsPmd.Negotiated
import WsPmd.Client
import WsPmd.Server
import WsPmd.Backend
import WsPmd.Codec
import WsPmd.Encoder
import WsPmd.Field.Syntax
import WsPmd.Field.Splitter
import WsPmd.Field.Acceptance
import WsPmd.Field.Validate
import WsPmd.Field.Layout
import WsPmd.Field.Parameters
import WsPmd.Handshake.Selections
import WsPmd.Handshake.Quoting
import WsPmd.Handshake.Rendering
import WsPmd.Handshake.Windows
import WsPmd.Handshake.Elements
import WsPmd.Handshake.Choice
import WsPmd.Handshake.Agreement
import WsPmd.Handshake.Refinement
import WsPmd.Handshake.Faults
import WsPmd.Handshake.Offers
import WsPmd.Handshake.Joining
import WsPmd.Handshake.Answering
import WsPmd.Handshake.Opening
import WsPmd.Decoder.Exchanges
import WsPmd.Decoder.Turn
import WsPmd.Decoder.Bounds
import WsPmd.Decoder.Ceiling
import WsPmd.Decoder.Resources
import WsPmd.Decoder.Phases
import WsPmd.Decoder.Instance
import WsPmd.Decoder.Position
import WsPmd.Decoder.Greedy
import WsPmd.Decoder.Reading
import WsPmd.Decoder.Fragments
import WsPmd.Decoder.Unbounded
import WsPmd.Decoder.TooLong
import WsPmd.Decoder.Verdict
import WsPmd.Decoder.Accounts
import WsPmd.Decoder.Conforming
import WsPmd.Decoder.Boundary
import WsPmd.Encoder.Exchanges
import WsPmd.Encoder.SyncFlush
import WsPmd.Encoder.Flushing
import WsPmd.Encoder.Ledger
import WsPmd.Encoder.Steps
import WsPmd.Encoder.Wire
import WsPmd.Encoder.Progress
import WsPmd.Encoder.Rewriting
import WsPmd.Encoder.Buffering
import WsPmd.Encoder.Spending
import WsPmd.RoundTrip
import WsPmd.Isolation
import WsPmd.Connection.Relay
import WsPmd.Connection.Link
import WsPmd.Connection.Duplex
import WsPmd.Connection.Delivery
import WsPmd.Connection.Standalone
import WsPmd.Connection.Widths
