import Stencil.Line
import Stencil.Encoding
import Stencil.Command.Outcome
import Stencil.Main
import Stencil.Proofs.Resolver
import Stencil.Proofs.Recovery
import Stencil.Proofs.Ceiling
import Stencil.Proofs.Lines
import Stencil.Proofs.Structure
import Stencil.Proofs.Expansion
import Stencil.Proofs.Inlining
import Stencil.Proofs.Decimal
import Stencil.Proofs.Script.Lexing
import Stencil.Proofs.Script.Outline
import Stencil.Proofs.Script.Reading
import Stencil.Proofs.Script.Running
import Stencil.Proofs.Script.Places
import Stencil.Proofs.Script.Following
import Stencil.Proofs.Script.Plain
import Stencil.Proofs.Script.Settling
import Stencil.Proofs.Script.Containment.Statements
import Stencil.Proofs.Script.Containment.Expressions
import Stencil.Proofs.Script.Splicing.Tokens
import Stencil.Proofs.Script.Splicing.Rows
import Stencil.Proofs.Script.Splicing.Expressions
import Stencil.Proofs.Script.Splicing.Operands
import Stencil.Proofs.Script.Lookahead
import Stencil.Proofs.Script.Footprints
import Stencil.Proofs.Script.Definitions
import Stencil.Proofs.Script.Newlines
import Stencil.Proofs.Script.Stepping
import Stencil.Proofs.Encoding
import Stencil.Proofs.Program
import Stencil.Proofs.Content
import Stencil.Proofs.Template
import Stencil.Proofs.Passes
import Stencil.Proofs.Reprocessing
import Stencil.Proofs.Sharing
import Stencil.Proofs.Script.Numbers
import Stencil.Proofs.Script.Literal
import Stencil.Proofs.Embedding
import Stencil.Proofs.Double.Packing
import Stencil.Proofs.Double.Reading
import Stencil.Proofs.Double.Shortest
import Stencil.Proofs.Double.Writing
import Stencil.Proofs.Substitution
import Stencil.Proofs.Blocks
import Stencil.Proofs.Deferral
import Stencil.Proofs.Markers
import Stencil.Proofs.Capture
import Stencil.Proofs.Relocation
import Stencil.Proofs.FileTree
import Stencil.Proofs.Delivery
import Stencil.Proofs.Isolation
import Stencil.Proofs.Guards
import Stencil.Proofs.Classification
import Stencil.Proofs.Throwing
import Stencil.Proofs.Location
import Stencil.Proofs.Script.Quoting
import Stencil.Proofs.Splitting
import Stencil.Proofs.Wrapping
import Stencil.Proofs.Script.Properties
import Stencil.Proofs.Views
import Stencil.Proofs.Caching
import Stencil.Proofs.Updates
import Stencil.Proofs.NormalForm
import Stencil.Proofs.Protocol
import Stencil.Proofs.Scanning.Segments
import Stencil.Proofs.Modes
