import FrameLang.Main
import FrameLang.Proofs.Lowering.LabelDiscipline
import FrameLang.Proofs.Machine.Runs
import FrameLang.Proofs.Machine.Control
import FrameLang.Proofs.Lowering.Heights
import FrameLang.Proofs.Machine.Operands
import FrameLang.Proofs.Machine.Returns
import FrameLang.Proofs.Semantics.Interpreter
import FrameLang.Proofs.Semantics.Frames
import FrameLang.Proofs.Semantics.Following
import FrameLang.Proofs.Semantics.Simulation
import FrameLang.Proofs.Semantics.Agreement
import FrameLang.Proofs.Semantics.Rearrangement
import FrameLang.Proofs.Semantics.Termination
import FrameLang.Proofs.Semantics.Stability
import FrameLang.Proofs.Semantics.Purity
import FrameLang.Proofs.Syntax.Completion
import FrameLang.Proofs.Syntax.Grammar
import FrameLang.Proofs.Syntax.Acceptance
import FrameLang.Proofs.Syntax.Recognition
import FrameLang.Proofs.Syntax.Printing
import FrameLang.Proofs.Syntax.Lexemes
import FrameLang.Proofs.Syntax.Tiling
import FrameLang.Proofs.Syntax.Rescanning
import FrameLang.Proofs.Syntax.RoundTrip
import FrameLang.Proofs.Syntax.Placement
import FrameLang.Proofs.Syntax.Provenance
import FrameLang.Proofs.Syntax.Displacement
import FrameLang.Proofs.Lowering.Positions
import FrameLang.Proofs.Syntax.Spacing
import FrameLang.Proofs.Lowering.Contents
import FrameLang.Proofs.Lowering.Success
import FrameLang.Proofs.Semantics.Arithmetic
import FrameLang.Proofs.Semantics.ByValue
import FrameLang.Proofs.Semantics.Interference
import FrameLang.Proofs.Diagnostics.Location
import FrameLang.Proofs.Diagnostics.Pointing
import FrameLang.Proofs.Machine.Integrity
import FrameLang.Proofs.Machine.Sessions
import FrameLang.Proofs.Listing.Legibility
import FrameLang.Proofs.Listing.Compiled
import FrameLang.Proofs.CommandLine.Files
import FrameLang.Proofs.CommandLine.Arguments
import FrameLang.Proofs.CommandLine.Extensions
import FrameLang.Proofs.CommandLine.Plans
import FrameLang.Proofs.CommandLine.Contract
import FrameLang.Proofs.CommandLine.Outputs
import FrameLang.Proofs.Machine.Loading
import FrameLang.Proofs.Lowering.Builders
import FrameLang.Proofs.Lowering.RegisterDiscipline
import FrameLang.Proofs.Outline.Legibility
import FrameLang.Proofs.Diagnostics.Decoding
import FrameLang.Proofs.Syntax.Numerals
import FrameLang.Proofs.Syntax.Descent
import FrameLang.Proofs.Syntax.Stances
import FrameLang.Proofs.Syntax.Progress
import FrameLang.Proofs.Diagnostics.Hints
import FrameLang.Proofs.Diagnostics.Renaming
