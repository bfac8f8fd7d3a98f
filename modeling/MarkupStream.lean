import MarkupStream.Event.Collection
import MarkupStream.Proofs.CaseBlind
import MarkupStream.Proofs.Location
import MarkupStream.Proofs.NormalForm
import MarkupStream.Proofs.RawText
import MarkupStream.Proofs.RoundTrip
import MarkupStream.Proofs.Selection
import MarkupStream.Proofs.Serialization
import MarkupStream.Selector.Cache
import MarkupStream.Proofs.Sharing
import MarkupStream.Proofs.Dialogue
import MarkupStream.Proofs.Collecting
import MarkupStream.Proofs.Lexing
import MarkupStream.Proofs.PredicateText
import MarkupStream.Proofs.SelectorText
import MarkupStream.Proofs.SelectorReading
import MarkupStream.Proofs.SelectorSoundness
import MarkupStream.Proofs.Interchange
import MarkupStream.Proofs.Rendering
import MarkupStream.Proofs.Expansion
import MarkupStream.Proofs.OpenTagGrammar
import MarkupStream.Proofs.DeclarationGrammar
import MarkupStream.Proofs.Depth
import MarkupStream.Proofs.Warnings
import MarkupStream.Proofs.Rejection
import MarkupStream.Proofs.Rounds
import MarkupStream.Proofs.Progress
import MarkupStream.Proofs.WordPositions
import MarkupStream.Proofs.Geometry
import MarkupStream.Proofs.Continuation
import MarkupStream.Proofs.Parentheses
import MarkupStream.Proofs.CloseTagSearch
import MarkupStream.Selector.FramePool
import MarkupStream.Proofs.FramePool
import MarkupStream.Proofs.Lockstep
import MarkupStream.Proofs.WordCounts
import MarkupStream.Proofs.Alternatives
import MarkupStream.Proofs.ExpandedText
import MarkupStream.Selector.Bounds
import MarkupStream.Selector.Scanner
import MarkupStream.Selector.Parser
import MarkupStream.Proofs.Boundaries
import MarkupStream.Proofs.Scanner
import MarkupStream.Proofs.Parser
import MarkupStream.Proofs.ParserSteps
import MarkupStream.Proofs.SelectorErrors
import MarkupStream.Element.Segments
import MarkupStream.Proofs.CatalogLookup
import MarkupStream.Proofs.SelectorShape
import MarkupStream.Token.Tokenizer
import MarkupStream.Proofs.Tokenizer
import MarkupStream.Proofs.Tokenizing
