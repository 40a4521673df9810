import BareC.Assembly.Program
import BareC.Host.Disk
import BareC.Host.Exports
import BareC.Host.Headers
import BareC.Host.Recorded
import BareC.Machine.Run
import BareC.Output.Toolchain
import BareC.Proofs.Isa.Fields
import BareC.Proofs.Machine.Memory
import BareC.Proofs.Machine.Step
import BareC.Proofs.Machine.Operations
import BareC.Proofs.Machine.Halting
import BareC.Proofs.Machine.Architecture
import BareC.Proofs.Machine.Faults
import BareC.Proofs.Machine.Runs
import BareC.Proofs.Machine.Stores
import BareC.Proofs.Assembly.Placement
import BareC.Proofs.Assembly.Equations
import BareC.Proofs.Assembly.Labels
import BareC.Proofs.Linking.Rounds
import BareC.Proofs.Linking.Places
import BareC.Proofs.Linking.Insertion
import BareC.Proofs.Linking.Greatest
import BareC.Proofs.Grammar.Reads
import BareC.Proofs.Grammar.Outcome
import BareC.Proofs.Grammar.Expressions
import BareC.Proofs.Grammar.Scopes
import BareC.Proofs.Grammar.Statements
import BareC.Proofs.Grammar.Units
import BareC.Proofs.Grammar.Slots
import BareC.Proofs.Grammar.Markers
import BareC.Proofs.Grammar.Height
import BareC.Proofs.Grammar.Local
import BareC.Proofs.Grammar.Groups
import BareC.Proofs.Grammar.Declarations
import BareC.Proofs.Grammar.Containment
import BareC.Proofs.Grammar.Targets
import BareC.Proofs.Grammar.Depth
import BareC.Proofs.Journal.Parsers
import BareC.Proofs.Journal.Expressions
import BareC.Proofs.Journal.Statements
import BareC.Proofs.Journal.Units
import BareC.Proofs.Journal.Operands
import BareC.Proofs.Journal.Restarts
import BareC.Proofs.Isa.Immediates
import BareC.Proofs.Isa.Operands
import BareC.Proofs.Isa.Reencoding
import BareC.Proofs.Assembly.Drafts
import BareC.Proofs.Assembly.Ranges
import BareC.Proofs.Assembly.WellFormed
import BareC.Proofs.Assembly.Entries
import BareC.Proofs.Assembly.Jumps
import BareC.Proofs.Machine.Instructions
import BareC.Proofs.Semantics.Evaluation
import BareC.Proofs.Semantics.Frames
import BareC.Proofs.Semantics.Operators
import BareC.Proofs.Semantics.Sequences
import BareC.Proofs.Semantics.Calls
import BareC.Proofs.Semantics.Deepest
import BareC.Proofs.Semantics.Expressions
import BareC.Proofs.Semantics.Statements
import BareC.Proofs.Semantics.Functions
import BareC.Proofs.Semantics.Preservation
import BareC.Proofs.Safety.Monitor
import BareC.Proofs.Safety.Expressions
import BareC.Proofs.Safety.Statements
import BareC.Proofs.Safety.Functions
import BareC.Proofs.Printing.Trees
import BareC.Proofs.Printing.Resolving
import BareC.Proofs.Printing.Cursor
import BareC.Proofs.Printing.Expressions
import BareC.Proofs.Printing.Statements
import BareC.Proofs.Printing.Units
import BareC.Proofs.Printing.RoundTrip
import BareC.Proofs.Printing.Heights
import BareC.Proofs.Lexing.Decomposition
import BareC.Proofs.Lexing.LineEnds
import BareC.Proofs.Lexing.Writing
import BareC.Proofs.Lexing.Literals
import BareC.Proofs.Lexing.Joining
import BareC.Proofs.Directives.Visits
import BareC.Proofs.Directives.Conditionals
import BareC.Proofs.Directives.Conditions
import BareC.Proofs.Directives.Inclusion
import BareC.Proofs.Directives.Passages
import BareC.Proofs.Directives.Libraries
import BareC.Proofs.Macros.Replacing
import BareC.Proofs.Renaming.Code
import BareC.Proofs.Initialized.Independence
import BareC.Proofs.Output.Frontends
import BareC.Proofs.Output.Verdicts
import BareC.Proofs.Output.Capacity
import BareC.Proofs.Output.EntryPoints
import BareC.Proofs.Host.Descriptors
import BareC.Proofs.Host.LogLines
import BareC.Proofs.Isa.Listings
import BareC.Proofs.Machine.Constants
