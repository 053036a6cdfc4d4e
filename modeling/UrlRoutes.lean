import UrlRoutes.Parser.Built
import UrlRoutes.Route.Compile
import UrlRoutes.Table
import UrlRoutes.Proofs.Cuts
import UrlRoutes.Proofs.Numerals
import UrlRoutes.Proofs.Integers
import UrlRoutes.Proofs.Steps
import UrlRoutes.Proofs.Coherence
import UrlRoutes.Proofs.Trails
import UrlRoutes.Proofs.Compiled
import UrlRoutes.Proofs.QueryCodec
import UrlRoutes.Proofs.Fields
import UrlRoutes.Proofs.Reading
import UrlRoutes.Proofs.Spelling
import UrlRoutes.Proofs.Captures
import UrlRoutes.Proofs.RoundTrip
import UrlRoutes.Proofs.ReadBack
import UrlRoutes.Proofs.Failures
import UrlRoutes.Proofs.Resolution
import UrlRoutes.Proofs.Liveness
import UrlRoutes.Proofs.Dependence
import UrlRoutes.Proofs.Acceptance
import UrlRoutes.Proofs.UrlParts
import UrlRoutes.Proofs.Splitting
import UrlRoutes.Proofs.TrailingSlash
import UrlRoutes.Proofs.Records
import UrlRoutes.Proofs.ByteSearch
import UrlRoutes.Proofs.TextGuards
import UrlRoutes.Proofs.Recognition
import UrlRoutes.Proofs.NumberBytes
import UrlRoutes.Proofs.NumberStyles
import UrlRoutes.Proofs.Regrouping
import UrlRoutes.Proofs.Rewriting
import UrlRoutes.Proofs.Methods
import UrlRoutes.Proofs.NumberBounds
import UrlRoutes.Proofs.LiteralSearch
import UrlRoutes.Proofs.Skipping
import UrlRoutes.Proofs.ConsumedText
import UrlRoutes.Proofs.CursorWords
import UrlRoutes.Proofs.Prepending
import UrlRoutes.Proofs.JsonReading
