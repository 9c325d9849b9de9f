import FunctionIR.Command.Run
import FunctionIR.Main
import FunctionIR.Session
import FunctionIR.Proofs.Printing.Assignment
import FunctionIR.Proofs.Listing.Nesting
import FunctionIR.Proofs.Translation.Identity
import FunctionIR.Proofs.Translation.Qualification
import FunctionIR.Proofs.Translation.Program
import FunctionIR.Proofs.Exchange.Agreement
import FunctionIR.Proofs.Reading.Shape
import FunctionIR.Proofs.Layout.Indentation
import FunctionIR.Proofs.Layout.Discount
import FunctionIR.Proofs.Translation.Tracing
import FunctionIR.Proofs.Translation.Mirroring
import FunctionIR.Proofs.Translation.Discounting
import FunctionIR.Proofs.Translation.Registration
import FunctionIR.Proofs.Translation.Exporting
import FunctionIR.Proofs.Command.Account
import FunctionIR.Proofs.Layout.BrokenStrings
import FunctionIR.Proofs.Translation.Depth
import FunctionIR.Proofs.Translation.Shapes
import FunctionIR.Proofs.Layout.Blanks
import FunctionIR.Proofs.Reading.ParameterLists
import FunctionIR.Proofs.Tree.Consistency
import FunctionIR.Proofs.Translation.Ambiguity
import FunctionIR.Proofs.Reading.Overlaps
import FunctionIR.Proofs.Printing.Quotation
import FunctionIR.Proofs.Reading.Augmented
import FunctionIR.Proofs.Tree.Dumps
import FunctionIR.Proofs.Tree.Distinctness
import FunctionIR.Proofs.Tree.SignedLines
