import Csexp.Sexp
import Csexp.Library.Scanner
import Csexp.Library.Viability
import Csexp.Lexer
import Csexp.Stack
import Csexp.Reader
import Csexp.Grammar
import Csexp.StringParser
import Csexp.Acceptance
import Csexp.Encoding
import Csexp.Composition
import Csexp.Offsets
import Csexp.ChannelParser
import Csexp.Framing
import Csexp.Library.Effects
import Csexp.MonadicParser
import Csexp.Transcripts
import Csexp.Safety
import Csexp.SerialisedLength
import Csexp.Library.Nesting
import Csexp.Tokens
import Csexp.AtomLength
import Csexp.Spelling
import Csexp.Turns
import Csexp.Wrapping
import Csexp.Allocation
import Csexp.Rpc.LwtClient
import Csexp.Rpc.Ints
import Csexp.Rpc.Fields
import Csexp.Rpc.Conv
import Csexp.Library.Raising
import Csexp.Rpc.RoundTrip
import Csexp.Rpc.Reading
import Csexp.Rpc.Types
import Csexp.Rpc.Packets
import Csexp.Library.Systems
import Csexp.Rpc.Session
import Csexp.Rpc.ThreadWorker
import Csexp.Rpc.Menu
import Csexp.Rpc.Versioned
import Csexp.Rpc.Registration
import Csexp.Rpc.RemoteCalls
import Csexp.Rpc.Client
import Csexp.Rpc.Exchange
import Csexp.Rpc.Flight
import Csexp.Rpc.Answers
import Csexp.Rpc.Calls
import Csexp.Rpc.Agreement
import Csexp.Rpc.Kept
import Csexp.Rpc.Settling
