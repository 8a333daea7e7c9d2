import Lisplet.Main
import Lisplet.Proofs.Evaluate.Containment
import Lisplet.Proofs.Reader.Pieces
import Lisplet.Proofs.Value.RoundTrip
import Lisplet.Proofs.Session.Pieces
import Lisplet.Proofs.Evaluate.Locality
import Lisplet.Proofs.Reader.Alike
import Lisplet.Proofs.Reader.CleanCut
import Lisplet.Proofs.Evaluate.Logic
import Lisplet.Proofs.Evaluate.Printing
import Lisplet.Proofs.Token.Newline
import Lisplet.Proofs.Reader.Lines
import Lisplet.Proofs.Repl.Transcript
import Lisplet.Proofs.Scopes.Writes
import Lisplet.Proofs.Session.Requests
import Lisplet.Proofs.Session.Idle
import Lisplet.Proofs.Value.Parts
import Lisplet.Proofs.Evaluate.Bound
import Lisplet.Proofs.Reader.Contents
import Lisplet.Proofs.Session.Contents
import Lisplet.Proofs.Session.Identity
import Lisplet.Proofs.Session.Proper
import Lisplet.Proofs.Evaluate.Steps
import Lisplet.Proofs.Template.Holes
import Lisplet.Proofs.Evaluate.Binding
import Lisplet.Proofs.Evaluate.Apply
import Lisplet.Proofs.Evaluate.LambdaCall
import Lisplet.Proofs.Reader.Words
import Lisplet.Proofs.Session.Calls
import Lisplet.Proofs.Session.Names
import Lisplet.Proofs.Token.Layout
import Lisplet.Proofs.Reader.Layout
import Lisplet.Proofs.Reader.Requests
import Lisplet.Proofs.Reader.Finish
import Lisplet.Proofs.Number.Equal
import Lisplet.Proofs.Value.Heap
import Lisplet.Proofs.Evaluate.Heap
import Lisplet.Proofs.Value.Equality
import Lisplet.Proofs.Reader.Heap
import Lisplet.Proofs.Session.Sharing
import Lisplet.Proofs.Formals.Valid
import Lisplet.Proofs.Text.Quoted
import Lisplet.Proofs.Reader.Offsets
import Lisplet.Proofs.Session.Progress
