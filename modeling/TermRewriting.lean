import TermRewriting.Proofs.Arithmetic.Settled
import TermRewriting.Proofs.Config
import TermRewriting.Proofs.Flat.Naming
import TermRewriting.Proofs.Flat.Partial
import TermRewriting.Proofs.Flat.Partition
import TermRewriting.Proofs.Matching.Absorption
import TermRewriting.Proofs.Matching.Growth
import TermRewriting.Proofs.Matching.Inheritance
import TermRewriting.Proofs.Matching.Overlooked
import TermRewriting.Proofs.Matching.Reordered
import TermRewriting.Proofs.Matching.Repetition
import TermRewriting.Proofs.Matching.Separation
import TermRewriting.Proofs.Matching.Sequence
import TermRewriting.Proofs.Matching.Shortcut
import TermRewriting.Proofs.Matching.Spelling
import TermRewriting.Proofs.Matching.Transparency
import TermRewriting.Proofs.Options
import TermRewriting.Proofs.Replace.Asserted
import TermRewriting.Proofs.Replace.Dispatch
import TermRewriting.Proofs.Replace.Failure
import TermRewriting.Proofs.Replace.Iteration
import TermRewriting.Proofs.Replace.Trials
import TermRewriting.Proofs.Schema.Unification
import TermRewriting.Proofs.Search.Calls
import TermRewriting.Proofs.Term.Sameness
import TermRewriting.Proofs.Widths
