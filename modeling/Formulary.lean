import Formulary.Document.HtmlReader
import Formulary.Formula.Markup
import Formulary.Proofs.Delimiters.BracedClosers
import Formulary.Proofs.Delimiters.Braces
import Formulary.Proofs.Delimiters.Closers
import Formulary.Proofs.Delimiters.Environments
import Formulary.Proofs.Delimiters.Slices
import Formulary.Proofs.Delimiters.TextParts
import Formulary.Proofs.Discovery.ElementCover
import Formulary.Proofs.Discovery.PositionKeys
import Formulary.Proofs.Discovery.SourceSpelling
import Formulary.Proofs.Discovery.StableSort
import Formulary.Proofs.Discovery.TypesetMarks
import Formulary.Proofs.Extraction.Blocks
import Formulary.Proofs.Extraction.Offsets
import Formulary.Proofs.Extraction.RunningText
import Formulary.Proofs.Formula.DistinctMarkup
import Formulary.Proofs.Formula.Markup
import Formulary.Proofs.Reader.Bars
import Formulary.Proofs.Reader.BraceGroups
import Formulary.Proofs.Reader.ExpansionLimit
import Formulary.Proofs.Reader.MatchingBrace
import Formulary.Proofs.Reader.NestedWords
import Formulary.Proofs.Reader.Outcome
import Formulary.Proofs.Reader.RefusedPushes
import Formulary.Proofs.Reader.StepEffects
import Formulary.Proofs.Reader.Templates
import Formulary.Proofs.Reader.TokenPlaces
import Formulary.Proofs.Reader.Transcript
import Formulary.Proofs.Rediscovery.SecondRender
import Formulary.Proofs.Restoration.Cycles
import Formulary.Proofs.Restoration.SecondDiscovery
import Formulary.Proofs.Restoration.SettledSession
import Formulary.Proofs.Restoration.SingleItems
import Formulary.Proofs.Search.Marks
import Formulary.Proofs.Session.Accounts
import Formulary.Proofs.Session.CallOrder
import Formulary.Proofs.Session.Compilation
import Formulary.Proofs.Session.ItemHistory
import Formulary.Proofs.Session.ItemLife
import Formulary.Proofs.Session.RenderedStreams
import Formulary.Proofs.Tokens.Decomposition
import Formulary.Proofs.Tokens.SpacedTexts
import Formulary.Proofs.Update.PendingLocations
import Formulary.Session
import Formulary.Tex.Bench
import Formulary.Tex.Entry
