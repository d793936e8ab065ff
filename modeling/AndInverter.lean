import AndInverter.Proofs.Aiger.Canonical
import AndInverter.Proofs.Aiger.Permuted
import AndInverter.Proofs.Aiger.RoundTrip
import AndInverter.Proofs.Cnf.Exact
import AndInverter.Proofs.Expression.Made
import AndInverter.Proofs.Graph.Compact
import AndInverter.Proofs.Graph.Homomorphism
import AndInverter.Proofs.Graph.Parallel
import AndInverter.Proofs.Graph.Paths
import AndInverter.Proofs.Graph.Relabel
import AndInverter.Proofs.Graph.Sequence
import AndInverter.Proofs.Graph.Session
import AndInverter.Proofs.Word.Integer
import AndInverter.Proofs.Word.Unblast
import AndInverter.Proofs.WordCircuit.Lift
import AndInverter.Proofs.WordCircuit.UnrollRuns
import AndInverter.Proofs.WordCircuit.UnrollWords
import AndInverter.Proofs.WordCircuit.Written
import AndInverter.Proofs.WordGate.Arithmetic
import AndInverter.Proofs.WordGate.Compare
import AndInverter.Proofs.WordGate.Functions
