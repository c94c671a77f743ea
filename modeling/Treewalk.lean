import Treewalk.Main
import Treewalk.Session
import Treewalk.Tree.RoundTrip
import Treewalk.Tour
import Treewalk.Proofs.Printing.RoundTrip
import Treewalk.Proofs.Evaluation.Refinement
import Treewalk.Proofs.Evaluation.Frame
import Treewalk.Proofs.Evaluation.CallLimit
import Treewalk.Proofs.Evaluation.Nesting
import Treewalk.Proofs.Evaluation.Purity
import Treewalk.Proofs.Parsing.FirstError
import Treewalk.Proofs.Scanning.Split
import Treewalk.Proofs.Calculation.Answer
import Treewalk.Proofs.Evaluation.Trace
import Treewalk.Proofs.Sessions.Steps
import Treewalk.Proofs.Sessions.Wrapping
import Treewalk.Proofs.Sessions.Range
import Treewalk.Proofs.Parsing.Layout
import Treewalk.Proofs.Evaluation.Renaming
import Treewalk.Proofs.Sessions.Integrity
import Treewalk.Proofs.Sessions.Piecewise
import Treewalk.Proofs.Evaluation.Rules
import Treewalk.Proofs.Parsing.Composition
import Treewalk.Proofs.Parsing.Termination
import Treewalk.Proofs.Reporting.ParseError
import Treewalk.Proofs.Evaluation.Dissolution
import Treewalk.Proofs.Evaluation.Course
import Treewalk.Proofs.Sessions.Course
import Treewalk.Proofs.Sessions.Sources
import Treewalk.Proofs.Sessions.ReadBack
import Treewalk.Proofs.Evaluation.Evolution
import Treewalk.Proofs.Sessions.Resemblance
import Treewalk.Proofs.Sessions.Depth
import Treewalk.Proofs.Parsing.Literal
import Treewalk.Proofs.Parsing.Climbing
import Treewalk.Proofs.Sessions.Conversation
