import ValueFlow.Analysis.Run
import ValueFlow.Bindings.Lemmas
import ValueFlow.Proofs.Branches
import ValueFlow.Proofs.Simulation
import ValueFlow.Proofs.Simulation.Expr
import ValueFlow.Proofs.Simulation.Stmt
import ValueFlow.Proofs.Simulation.Effects
import ValueFlow.Proofs.Denotation
import ValueFlow.Proofs.Interval
import ValueFlow.Proofs.Lattice
import ValueFlow.Proofs.Conversion
import ValueFlow.Proofs.Simulation.Loop
import ValueFlow.Proofs.State
import ValueFlow.Proofs.Lockstep
import ValueFlow.Proofs.JoinMeet
import ValueFlow.Proofs.LoopHead
import ValueFlow.Proofs.Termination
import ValueFlow.Proofs.Guard
import ValueFlow.Proofs.Contract
import ValueFlow.Proofs.Soundness
import ValueFlow.Proofs.Invariant
import ValueFlow.Proofs.Representation
import ValueFlow.Proofs.Idempotence
import ValueFlow.Proofs.Unmentioned
import ValueFlow.Proofs.Verbosity
import ValueFlow.Proofs.Muting
import ValueFlow.Proofs.Shape
import ValueFlow.Proofs.Malformed
import ValueFlow.Proofs.Trace
import ValueFlow.Proofs.Trace.Expr
import ValueFlow.Proofs.Trace.Stmt
import ValueFlow.Proofs.Fault
import ValueFlow.Proofs.Identity
import ValueFlow.Proofs.Resemblance
import ValueFlow.Proofs.Desugaring
import ValueFlow.Proofs.Narrowing
import ValueFlow.Proofs.Splitting.Guard
import ValueFlow.Proofs.Splitting
import ValueFlow.Proofs.Widening
import ValueFlow.Proofs.Widening.Chain
import ValueFlow.Proofs.Converse
import ValueFlow.Proofs.Reporting
import ValueFlow.Proofs.Negation
import ValueFlow.Proofs.Seeding
import ValueFlow.Proofs.Endless
import ValueFlow.Proofs.Retention
import ValueFlow.Proofs.Interval.Exactness
import ValueFlow.Proofs.Concatenation
import ValueFlow.Proofs.Conversion.Fit
import ValueFlow.Proofs.Report.Canonical
