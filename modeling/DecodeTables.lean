import DecodeTables.Session
import DecodeTables.Proofs.Catalog.Frame
import DecodeTables.Proofs.Catalog.Growth
import DecodeTables.Proofs.Catalog.Lookup
import DecodeTables.Proofs.Catalog.Operations
import DecodeTables.Proofs.Catalog.Registrations
import DecodeTables.Proofs.Catalog.Settings
import DecodeTables.Proofs.Catalog.Settled
import DecodeTables.Proofs.Catalog.Untraced
import DecodeTables.Proofs.Constructor.Elaborate
import DecodeTables.Proofs.Constructor.Lists
import DecodeTables.Proofs.Diagnostic.Report
import DecodeTables.Proofs.Disassembly.Evaluation
import DecodeTables.Proofs.Disassembly.Rebuild
import DecodeTables.Proofs.Disassembly.StackBalance
import DecodeTables.Proofs.Display.Canonical
import DecodeTables.Proofs.Display.Operands
import DecodeTables.Proofs.Display.Render
import DecodeTables.Proofs.Elaboration.AddAll
import DecodeTables.Proofs.Elaboration.Fragments
import DecodeTables.Proofs.Elaboration.Replay
import DecodeTables.Proofs.Elaboration.Verdict
import DecodeTables.Proofs.Export.Join
import DecodeTables.Proofs.Export.LeastCover
import DecodeTables.Proofs.Export.Order
import DecodeTables.Proofs.Export.Text
import DecodeTables.Proofs.Interner.Calls
import DecodeTables.Proofs.Location
import DecodeTables.Proofs.Pattern.Acceptance
import DecodeTables.Proofs.Pattern.Concatenation
import DecodeTables.Proofs.Pattern.FirstFault
import DecodeTables.Proofs.Pattern.Idempotence
import DecodeTables.Proofs.Pattern.Meaning
import DecodeTables.Proofs.Pattern.Rearrangement
import DecodeTables.Proofs.Pattern.Satisfiable
import DecodeTables.Proofs.Pattern.Sorted
import DecodeTables.Proofs.Pattern.Terms
import DecodeTables.Proofs.Session.Accounts
import DecodeTables.Proofs.Session.Add
import DecodeTables.Proofs.Session.Attempts
import DecodeTables.Proofs.Session.Catalog
import DecodeTables.Proofs.Session.Finish
import DecodeTables.Proofs.Session.Growth
import DecodeTables.Proofs.Session.Isolation
import DecodeTables.Proofs.Session.Names
import DecodeTables.Proofs.Session.Print
import DecodeTables.Proofs.Session.Records
import DecodeTables.Proofs.Session.Untraced
import DecodeTables.Proofs.Source.Files
import DecodeTables.Proofs.Source.Normal
import DecodeTables.Proofs.Source.Reduced
import DecodeTables.Proofs.Table.Batch
import DecodeTables.Proofs.Table.Decision
import DecodeTables.Proofs.Table.Growth
import DecodeTables.Proofs.Table.Name
import DecodeTables.Proofs.Table.Register
