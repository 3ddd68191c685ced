import QueryMachine.Compile.Script
import QueryMachine.Proofs.Compile.Evaluation
import QueryMachine.Proofs.Database.Violation
import QueryMachine.Proofs.Database.Reuse
import QueryMachine.Proofs.Database.ReadBack
import QueryMachine.Proofs.Database.KeyAgreement
import QueryMachine.Proofs.Database.Truncation
import QueryMachine.Proofs.Database.Rewriting
import QueryMachine.Proofs.Value.Number
import QueryMachine.Proofs.Record.Shortest
import QueryMachine.Proofs.Database.Orphans
import QueryMachine.Proofs.Database.Cost
import QueryMachine.Proofs.Query.Filters
import QueryMachine.Proofs.Query.Misuse
import QueryMachine.Proofs.Database.Registration
import QueryMachine.Proofs.Database.NaN
import QueryMachine.Proofs.Tree.Probe
import QueryMachine.Proofs.Program.Patching
import QueryMachine.Proofs.Program.Allocation
import QueryMachine.Proofs.Sql.Reading
import QueryMachine.Proofs.Compile.Calls
import QueryMachine.Proofs.Query.Named
