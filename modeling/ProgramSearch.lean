import ProgramSearch.Main
import ProgramSearch.Proofs.Arithmetic.Unexpanded
import ProgramSearch.Proofs.CommandLine.Exit
import ProgramSearch.Proofs.Enumeration.Cancellation
import ProgramSearch.Proofs.Enumeration.Dryness
import ProgramSearch.Proofs.Enumeration.LevelOrder
import ProgramSearch.Proofs.Enumeration.Multiplicity
import ProgramSearch.Proofs.Enumeration.Validity
import ProgramSearch.Proofs.Grammar.Lineage
import ProgramSearch.Proofs.Grammar.Rendering
import ProgramSearch.Proofs.Odometer.Position
import ProgramSearch.Proofs.Search.Boundary
import ProgramSearch.Proofs.Search.Finality
import ProgramSearch.Proofs.Search.Termination
import ProgramSearch.Proofs.Sketch.Rows
import ProgramSearch.Proofs.Tree.History
import ProgramSearch.Proofs.Tree.Rendering
import ProgramSearch.Proofs.Tree.Splicing
