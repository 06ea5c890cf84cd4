import Durable.Main
import Durable.Session
import Durable.Tree.Edit
import Durable.Proofs.Text.Bytes
import Durable.Proofs.Token.Tiling
import Durable.Proofs.Grammar.Reads
import Durable.Proofs.Grammar.Sound
import Durable.Proofs.Grammar.Progress
import Durable.Proofs.Grammar.Statements
import Durable.Proofs.Grammar.Members
import Durable.Proofs.Grammar.Places
import Durable.Proofs.Package.Sources
import Durable.Proofs.Model.Scoping
import Durable.Proofs.Text.Splice
import Durable.Proofs.Grammar.Standing
import Durable.Proofs.Tree.OneLine
import Durable.Proofs.Grammar.Inits
import Durable.Proofs.Routing.Calls
import Durable.Proofs.Routing.Layout
import Durable.Proofs.Grammar.Starts
import Durable.Proofs.Grammar.Complete
import Durable.Proofs.Grammar.Declarations
import Durable.Proofs.Grammar.Trial
import Durable.Proofs.Grammar.CompleteStmt
import Durable.Proofs.Grammar.CompleteMember
import Durable.Proofs.Engine.Lifecycle
import Durable.Proofs.Engine.Runs
import Durable.Proofs.Engine.Delivery
import Durable.Proofs.Engine.Deadlines
import Durable.Proofs.Routing.Mediation
import Durable.Proofs.Routing.Names
import Durable.Proofs.Tree.Slots
import Durable.Proofs.Tree.Visits
import Durable.Proofs.Tree.Erase
import Durable.Proofs.Print.Walk
import Durable.Proofs.Print.Phrase
import Durable.Proofs.Print.Type
import Durable.Proofs.Print.Record
import Durable.Proofs.Print.Expr
import Durable.Proofs.Print.Parts
import Durable.Proofs.Print.Reprint
import Durable.Proofs.Print.Stmt
import Durable.Proofs.Token.Cut
import Durable.Proofs.Print.Path
import Durable.Proofs.Print.Member
import Durable.Proofs.Print.Module
import Durable.Proofs.Print.Quoted
import Durable.Proofs.Print.Literal
import Durable.Proofs.Print.Imports
import Durable.Proofs.Value.Conversion
import Durable.Proofs.Token.Partition
import Durable.Proofs.Package.Canonical
import Durable.Proofs.Routing.Imports
import Durable.Proofs.Routing.Prefix
import Durable.Proofs.Model.Framework
import Durable.Proofs.Registry.Processes
import Durable.Proofs.Token.Faults
import Durable.Proofs.Grammar.Ends
import Durable.Proofs.Grammar.EndsExpr
import Durable.Proofs.Grammar.EndsStmt
import Durable.Proofs.Grammar.EndsMember
import Durable.Proofs.Grammar.Termination
import Durable.Proofs.Tree.Extent
import Durable.Proofs.Grammar.Extents
import Durable.Proofs.Host.Runs
import Durable.Proofs.Host.Registrations
import Durable.Proofs.Host.Client
import Durable.Proofs.Model.Types
import Durable.Proofs.Model.Frame
import Durable.Proofs.Routing.CastType
import Durable.Proofs.Rule.CallSite
import Durable.Proofs.Rule.Body
import Durable.Proofs.Rule.Signature
import Durable.Proofs.Rule.Service
import Durable.Proofs.Grammar.Occurrences
import Durable.Proofs.Grammar.Precedence
import Durable.Proofs.Text.Lines
import Durable.Proofs.Tree.Reached
import Durable.Proofs.Tree.Edited
import Durable.Proofs.Print.Conditional
import Durable.Proofs.Print.FieldType
import Durable.Proofs.Order
import Durable.Proofs.Text.AtOnce
import Durable.Proofs.Routing.Tables
