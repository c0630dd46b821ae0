import ClassNav.Disk.Loader
import ClassNav.Library.Reference
import ClassNav.Navigation.Context
import ClassNav.Proofs.Grammar.Children
import ClassNav.Proofs.Grammar.Trivia
import ClassNav.Proofs.Navigation.Locality
import ClassNav.Proofs.Navigation.Snapshot
import ClassNav.Proofs.Outline.RoundTrip
import ClassNav.Proofs.Symbols.ClassLookup
import ClassNav.Proofs.Symbols.Innermost
import ClassNav.Proofs.Files.Identity
import ClassNav.Proofs.Grammar.Nesting
import ClassNav.Proofs.Grammar.Termination
import ClassNav.Proofs.Grammar.Brackets
import ClassNav.Proofs.Grammar.Surroundings
import ClassNav.Proofs.Grammar.Unlimited
import ClassNav.Proofs.Grammar.Overdeep
import ClassNav.Proofs.Grammar.Continuation
import ClassNav.Proofs.Grammar.Reports
import ClassNav.Proofs.Syntax.Munch
import ClassNav.Proofs.Disk.Loader
import ClassNav.Proofs.Syntax.Cutting
import ClassNav.Proofs.Navigation.Identifier
import ClassNav.Proofs.Navigation.FirstClass
import ClassNav.Proofs.Navigation.Containment
import ClassNav.Proofs.Outline.Method
import ClassNav.Proofs.Navigation.Leaf
import ClassNav.Proofs.Text.LineIndex
import ClassNav.Proofs.Text.Columns
import ClassNav.Proofs.Library.Reference
import ClassNav.Proofs.Grammar.CutOff
import ClassNav.Proofs.Machine.Discipline
