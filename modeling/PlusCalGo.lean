import PlusCalGo.Algorithm.Basic
import PlusCalGo.Algorithm.Uids
import PlusCalGo.Text.Quoted
import PlusCalGo.Text.Decimal
import PlusCalGo.Json.Basic
import PlusCalGo.Json.Reader
import PlusCalGo.Algorithm.Reader
import PlusCalGo.Algorithm.Writer
import PlusCalGo.Locking.LockGroup
import PlusCalGo.Project.Path
import PlusCalGo.Diagnostic
import PlusCalGo.Resolution.Basic
import PlusCalGo.Locking.Atomicity
import PlusCalGo.Go.Program
import PlusCalGo.Toml.Reader
import PlusCalGo.Toml.Decoder
import PlusCalGo.Project.Config
import PlusCalGo.Project.Host
import PlusCalGo.Project.FileTree
import PlusCalGo.Project.Build
import PlusCalGo.Project.CommandLine
import PlusCalGo.Main
import PlusCalGo.Proofs.Go.LockFlow
import PlusCalGo.Proofs.Go.Agreement
import PlusCalGo.Proofs.Go.Erasure
import PlusCalGo.Proofs.Go.Lifting
import PlusCalGo.Proofs.Go.Balance
import PlusCalGo.Proofs.Go.Success
import PlusCalGo.Proofs.Go.Everywhere
import PlusCalGo.Proofs.Go.Arrivals
import PlusCalGo.Proofs.Go.LockBalance
import PlusCalGo.Proofs.Go.LabelNames
import PlusCalGo.Proofs.Go.Retries
import PlusCalGo.Proofs.Go.Functions
import PlusCalGo.Proofs.Resolution.Placement
import PlusCalGo.Proofs.Locking.Traces
import PlusCalGo.Proofs.Go.StepLocks
import PlusCalGo.Proofs.Locking.Forest
import PlusCalGo.Proofs.Locking.Grouping
import PlusCalGo.Proofs.Locking.Numbering
import PlusCalGo.Proofs.Resolution.Occurrences
import PlusCalGo.Proofs.Resolution.Scoping
import PlusCalGo.Proofs.Resolution.Linking
import PlusCalGo.Proofs.Locking.Recording
import PlusCalGo.Proofs.Locking.Groups
import PlusCalGo.Proofs.Go.Guards
import PlusCalGo.Proofs.Go.Visits
import PlusCalGo.Proofs.Go.Anchors
import PlusCalGo.Proofs.Resolution.Texts
import PlusCalGo.Proofs.Resolution.Declarations
import PlusCalGo.Proofs.Go.Prepared
import PlusCalGo.Proofs.Go.Faults
import PlusCalGo.Proofs.Go.Loops
import PlusCalGo.Proofs.Go.Pieces
import PlusCalGo.Proofs.Go.RetryTargets
import PlusCalGo.Proofs.Go.Attempts
import PlusCalGo.Proofs.Locking.Order
import PlusCalGo.Proofs.Locking.Acceptance
import PlusCalGo.Proofs.Renaming.Syntax
import PlusCalGo.Proofs.Renaming.Resolution
import PlusCalGo.Proofs.Renaming.Texts
import PlusCalGo.Proofs.Renaming.Lockstep
import PlusCalGo.Proofs.Renaming.Bodies
import PlusCalGo.Proofs.Go.Strategies
import PlusCalGo.Proofs.Renaming.Accesses
import PlusCalGo.Proofs.Renaming.Groups
import PlusCalGo.Proofs.Renaming.Compilation
import PlusCalGo.Proofs.Names.Blocks
import PlusCalGo.Proofs.Names.Code
import PlusCalGo.Proofs.Names.Words
import PlusCalGo.Proofs.Names.Lowering
import PlusCalGo.Proofs.Names.Spelling
import PlusCalGo.Proofs.Resolution.Sight
import PlusCalGo.Proofs.Names.Fitting
import PlusCalGo.Proofs.Names.Denotations
import PlusCalGo.Proofs.Names.Statements
import PlusCalGo.Proofs.Names.Apart
import PlusCalGo.Proofs.Names.Variables
import PlusCalGo.Proofs.Names.Functions
import PlusCalGo.Proofs.Names.Programs
import PlusCalGo.Proofs.Resolution.Visibility
import PlusCalGo.Proofs.Resolution.Exactness
import PlusCalGo.Proofs.Locking.Contents
import PlusCalGo.Proofs.Go.Calls
import PlusCalGo.Proofs.Json.Layout
import PlusCalGo.Proofs.Json.Scalars
import PlusCalGo.Proofs.Json.Brackets
import PlusCalGo.Proofs.Json.Nodes
import PlusCalGo.Proofs.Json.Loading
import PlusCalGo.Proofs.Resolution.LabelRules
import PlusCalGo.Proofs.Go.Prologues
import PlusCalGo.Proofs.Locking.SharedGlobals
import PlusCalGo.Proofs.Expressions.Rereading
import PlusCalGo.Proofs.Expressions.Literals
import PlusCalGo.Proofs.Expressions.Sequences
import PlusCalGo.Proofs.Expressions.Arithmetic
import PlusCalGo.Proofs.Expressions.Assignments
import PlusCalGo.Proofs.Go.Expansion
import PlusCalGo.Proofs.Go.Mutexes
import PlusCalGo.Proofs.Locking.Numbers
import PlusCalGo.Proofs.Locking.Coverage
import PlusCalGo.Proofs.Go.Landings
import PlusCalGo.Proofs.Expressions.Surroundings
import PlusCalGo.Proofs.Go.Launches
import PlusCalGo.Proofs.Locking.Clashes
import PlusCalGo.Proofs.Go.LabelLines
import PlusCalGo.Proofs.Locking.Reports
import PlusCalGo.Proofs.Project.Services
import PlusCalGo.Proofs.Locking.Histories
import PlusCalGo.Proofs.Go.Sessions
import PlusCalGo.Proofs.Go.Staying
import PlusCalGo.Proofs.Json.Identities
import PlusCalGo.Proofs.Go.Building
import PlusCalGo.Proofs.Go.LabelStatements
import PlusCalGo.Proofs.Go.LockStatements
