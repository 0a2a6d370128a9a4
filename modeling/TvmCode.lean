import TvmCode.Cell.Builder
import TvmCode.Main
import TvmCode.Proofs.Bits
import TvmCode.Proofs.Cell
import TvmCode.Proofs.Slice
import TvmCode.Proofs.Builder
import TvmCode.Proofs.Builder.Actions
import TvmCode.Proofs.Builder.Runs
import TvmCode.Proofs.Hex
import TvmCode.Proofs.Decoder
import TvmCode.Proofs.Slice.Operations
import TvmCode.Proofs.Slice.Runs
import TvmCode.Proofs.Slice.Extraction
import TvmCode.Proofs.Operand
import TvmCode.Proofs.Integer
import TvmCode.Proofs.Coupling
import TvmCode.Proofs.Dispatch
import TvmCode.Proofs.Dispatch.Declarations
import TvmCode.Proofs.Dispatch.Lookup
import TvmCode.Proofs.Instruction
import TvmCode.Proofs.CodePage
import TvmCode.Proofs.Listing.Steps
import TvmCode.Proofs.Listing.Pairs
import TvmCode.Proofs.Listing.Limits
import TvmCode.Proofs.Listing.Twins
import TvmCode.Proofs.Listing.Windows
import TvmCode.Proofs.Listing.Digits
import TvmCode.Proofs.Listing.Safety
import TvmCode.Proofs.Listing.Cuts
import TvmCode.Proofs.Listing.WholeBytes
import TvmCode.Proofs.Literal
import TvmCode.Proofs.Quiet
import TvmCode.Proofs.Listing.Truncation
import TvmCode.Proofs.Layout
import TvmCode.Proofs.Listing.Layout
import TvmCode.Proofs.Rows
import TvmCode.Proofs.Listing.Indentation
import TvmCode.Proofs.Listing.Nesting
import TvmCode.Proofs.Listing.Accounting
import TvmCode.Proofs.Listing.Breaks
import TvmCode.Proofs.Listing.Concatenation
import TvmCode.Proofs.Listing.Trails
import TvmCode.Proofs.BagOfCells.Reading
import TvmCode.Proofs.BagOfCells.Encoding
import TvmCode.Proofs.BagOfCells.RoundTrip
import TvmCode.Proofs.BagOfCells.Accepting
import TvmCode.Proofs.BagOfCells.Soundness
import TvmCode.Proofs.BagOfCells.Delimiting
import TvmCode.Proofs.BagOfCells.Tags
import TvmCode.Proofs.Dictionary
import TvmCode.Proofs.Dictionary.Order
import TvmCode.Proofs.Dictionary.Loop
import TvmCode.Proofs.Contract
import TvmCode.Proofs.Padding
import TvmCode.Proofs.Integer
import TvmCode.Proofs.Tree
import TvmCode.Proofs.Tree.Shown
