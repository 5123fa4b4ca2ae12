import ReversePolish.Main
import ReversePolish.Proofs.Session.Answer
import ReversePolish.Proofs.Session.Driver
import ReversePolish.Proofs.Session.Failures
import ReversePolish.Proofs.Session.Lines
import ReversePolish.Proofs.Reader.Rounds
import ReversePolish.Proofs.Reader.Splicing
import ReversePolish.Proofs.Value.RoundTrip
import ReversePolish.Proofs.Action.Changes
import ReversePolish.Proofs.Execution.Caller
import ReversePolish.Proofs.Execution.Data
import ReversePolish.Proofs.Execution.Atomic
import ReversePolish.Proofs.Execution.Operators
import ReversePolish.Proofs.Execution.Stop
import ReversePolish.Proofs.Execution.Under
import ReversePolish.Proofs.Execution.Onto
import ReversePolish.Proofs.Execution.Equality
import ReversePolish.Proofs.Execution.Divergence
import ReversePolish.Proofs.Execution.Binding
import ReversePolish.Proofs.Session.Data
import ReversePolish.Proofs.Execution.Storage
import ReversePolish.Proofs.Value.Limits
import ReversePolish.Proofs.Value.Sameness
import ReversePolish.Proofs.Value.Answers
import ReversePolish.Proofs.Value.Canonical
import ReversePolish.Proofs.Session.Collections
import ReversePolish.Proofs.Session.Copies
import ReversePolish.Proofs.Execution.Unrolling
import ReversePolish.Proofs.Reader.Names
import ReversePolish.Proofs.Session.Batch
import ReversePolish.Proofs.Session.Nesting
import ReversePolish.Proofs.Execution.Integers
import ReversePolish.Proofs.Scope.History
import ReversePolish.Proofs.Execution.Maps
import ReversePolish.Proofs.Text.Excerpt
import ReversePolish.Proofs.Token.Tiling
import ReversePolish.Proofs.Reader.Layouts
import ReversePolish.Proofs.Loader
