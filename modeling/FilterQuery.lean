import FilterQuery.Main
import FilterQuery.Node.Trace
import FilterQuery.Proofs.Bounds
import FilterQuery.Proofs.Collapse
import FilterQuery.Proofs.Conservation
import FilterQuery.Proofs.Contract
import FilterQuery.Proofs.Demand
import FilterQuery.Proofs.Dumped
import FilterQuery.Proofs.Faults
import FilterQuery.Proofs.Furthest
import FilterQuery.Proofs.Joined
import FilterQuery.Proofs.Lines
import FilterQuery.Proofs.LongestSpelling
import FilterQuery.Proofs.LongestToken
import FilterQuery.Proofs.Normalize
import FilterQuery.Proofs.Overrun
import FilterQuery.Proofs.Probes
import FilterQuery.Proofs.Respelled
import FilterQuery.Proofs.RoundTrip
import FilterQuery.Proofs.Sessions
import FilterQuery.Proofs.Strays
import FilterQuery.Proofs.TooDeep
import FilterQuery.Proofs.Traversal
import FilterQuery.Proofs.Unlimited
import FilterQuery.Scanner.Session
import FilterQuery.Scanner.Split
