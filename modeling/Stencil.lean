import Stencil.Main
import Stencil.Proofs.Numerals
import Stencil.Proofs.Lexing
import Stencil.Proofs.Derivation
import Stencil.Proofs.RoundTrip
import Stencil.Proofs.Range
import Stencil.Proofs.Confinement
import Stencil.Proofs.Events
import Stencil.Proofs.Serialization
import Stencil.Proofs.Stretches
import Stencil.Proofs.Walks
import Stencil.Proofs.Nesting
import Stencil.Proofs.Spans
import Stencil.Proofs.Interpolation
import Stencil.Proofs.Attributes
import Stencil.Proofs.Decomposition
import Stencil.Proofs.Detection
import Stencil.Proofs.Descriptors
import Stencil.Proofs.Correspondence
import Stencil.Proofs.Machine
import Stencil.Proofs.Expressible
import Stencil.Proofs.Derivability
import Stencil.Proofs.Grouping
import Stencil.Proofs.RawBindings
import Stencil.Proofs.Layout
import Stencil.Proofs.DoubledSigns
import Stencil.Proofs.OutOption
import Stencil.Proofs.Storage
import Stencil.Proofs.Outcomes
import Stencil.Proofs.Boundaries
import Stencil.Proofs.Passage
import Stencil.Proofs.Assignments
import Stencil.Proofs.Composition
import Stencil.Proofs.Filters
import Stencil.Proofs.Spacing
import Stencil.Proofs.NormalForm
import Stencil.Proofs.Failures
import Stencil.Proofs.BoundTexts
import Stencil.Proofs.DistinctCode
import Stencil.Proofs.WrittenTexts
import Stencil.Proofs.EarlyEnds
import Stencil.Proofs.Quotations
import Stencil.Proofs.Documents
import Stencil.Proofs.Configurations
import Stencil.Proofs.Brackets
import Stencil.Proofs.Units
import Stencil.Proofs.Positions
