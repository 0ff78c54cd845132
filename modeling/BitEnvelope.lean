import BitEnvelope.Checked.Draws
import BitEnvelope.Checked.Envelope
import BitEnvelope.Checked.Misuse
import BitEnvelope.Checked.Packed
import BitEnvelope.Checked.Valuation
import BitEnvelope.Checked.Words
import BitEnvelope.Config.Basic
import BitEnvelope.Config.Binary
import BitEnvelope.Config.Bound
import BitEnvelope.Config.Decoder
import BitEnvelope.Config.Printer
import BitEnvelope.Config.Reader
import BitEnvelope.Draws
import BitEnvelope.Envelope.Arithmetic
import BitEnvelope.Envelope.Basic
import BitEnvelope.Envelope.Completion
import BitEnvelope.Envelope.Goal
import BitEnvelope.Envelope.Member
import BitEnvelope.Envelope.Narrow
import BitEnvelope.Envelope.Scatter
import BitEnvelope.Envelope.Search
import BitEnvelope.Envelope.Sign
import BitEnvelope.Envelope.Sweep
import BitEnvelope.Error
import BitEnvelope.Json.NumberReader
import BitEnvelope.Json.TextReader
import BitEnvelope.Json.Token
import BitEnvelope.Packed.Basic
import BitEnvelope.Packed.Hex
import BitEnvelope.Packed.InPlace
import BitEnvelope.Packed.Lemmas
import BitEnvelope.Release
import BitEnvelope.Text.Blank
import BitEnvelope.Text.Graphic
import BitEnvelope.Text.Integer
import BitEnvelope.Text.Numeral
import BitEnvelope.Text.Quoted
import BitEnvelope.Valuation.Basic
import BitEnvelope.Valuation.Mutation
import BitEnvelope.Valuation.Reachable
import BitEnvelope.Valuation.Sample
import BitEnvelope.Valuation.Text
import BitEnvelope.Word
import BitEnvelope.Words.Basic
import BitEnvelope.Words.Product
import BitEnvelope.Words.Sum
import BitEnvelope.Proofs.Fallible
import BitEnvelope.Proofs.BitOrder
import BitEnvelope.Proofs.Envelope.Arithmetic
import BitEnvelope.Proofs.Envelope.Completion
import BitEnvelope.Proofs.Envelope.Narrow
import BitEnvelope.Proofs.Envelope.Regular
import BitEnvelope.Proofs.Envelope.Search
import BitEnvelope.Proofs.Packed.Value
import BitEnvelope.Proofs.Words.Product
import BitEnvelope.Proofs.Words.Sum
import BitEnvelope.Proofs.Valuation.Change
import BitEnvelope.Proofs.Valuation.Checked
import BitEnvelope.Proofs.Valuation.Nearest
import BitEnvelope.Proofs.Valuation.Restrict
import BitEnvelope.Proofs.Valuation.Sound
import BitEnvelope.Proofs.Envelope.Failure
import BitEnvelope.Proofs.Envelope.Overlap
import BitEnvelope.Proofs.Valuation.Intersect
import BitEnvelope.Proofs.Envelope.Perturbation
import BitEnvelope.Proofs.Valuation.Sampling
import BitEnvelope.Valuation.InPlace
import BitEnvelope.Proofs.Valuation.Undo
import BitEnvelope.Proofs.Valuation.Pinned
import BitEnvelope.Proofs.Packed.Headroom
import BitEnvelope.Proofs.Envelope.Alike
import BitEnvelope.Proofs.Envelope.Checked
import BitEnvelope.Proofs.Valuation.Stored
import BitEnvelope.Proofs.Valuation.Alike
import BitEnvelope.Proofs.Envelope.Tightened
import BitEnvelope.Proofs.Text.Decimal
import BitEnvelope.Proofs.Config.Build
import BitEnvelope.Proofs.Config.Rebuild
import BitEnvelope.Proofs.Valuation.Tighten
import BitEnvelope.Proofs.Valuation.Trial
import BitEnvelope.Proofs.Config.Binary
import BitEnvelope.Proofs.Json.Run
import BitEnvelope.Proofs.Json.Text
import BitEnvelope.Proofs.Json.Number
import BitEnvelope.Proofs.Config.Spelling
import BitEnvelope.Proofs.Config.Printer
import BitEnvelope.Proofs.Envelope.Extremes
import BitEnvelope.Proofs.Valuation.Extremes
import BitEnvelope.Proofs.Envelope.Pinned
import BitEnvelope.Proofs.Envelope.Idempotence
import BitEnvelope.Proofs.Valuation.Idempotence
import BitEnvelope.Proofs.Envelope.Modular
import BitEnvelope.Proofs.Envelope.Sweep
import BitEnvelope.Proofs.Envelope.Sign
import BitEnvelope.Proofs.Valuation.Repair
import BitEnvelope.Proofs.Draws
import BitEnvelope.Proofs.Envelope.Scatter
import BitEnvelope.Proofs.Valuation.Variant
import BitEnvelope.Proofs.Valuation.Coverage
import BitEnvelope.Proofs.Envelope.PinsKept
import BitEnvelope.Proofs.Valuation.Perturbation
import BitEnvelope.Proofs.Json.Grammar
import BitEnvelope.Proofs.Json.Passing
import BitEnvelope.Proofs.Config.Blocks
import BitEnvelope.Proofs.Config.Layout
import BitEnvelope.Proofs.Config.Described
import BitEnvelope.Proofs.Config.Printed
import BitEnvelope.Proofs.Config.Direct
import BitEnvelope.Proofs.Packed.Hex
import BitEnvelope.Proofs.Valuation.Saturation
import BitEnvelope.Proofs.Json.Rendering
import BitEnvelope.Proofs.Config.Tokens
import BitEnvelope.Proofs.Config.Truncation
import BitEnvelope.Proofs.Packed.Order
import BitEnvelope.Proofs.Valuation.Distance
import BitEnvelope.Proofs.Valuation.BitSerial
import BitEnvelope.Proofs.Packed.Views
import BitEnvelope.Proofs.Envelope.Trail
