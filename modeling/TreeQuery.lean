import TreeQuery.Main
import TreeQuery.Walk.Traversal
import TreeQuery.Store.Memory
import TreeQuery.Proofs.Names
import TreeQuery.Proofs.Normal
import TreeQuery.Proofs.Steps
import TreeQuery.Proofs.Commands
import TreeQuery.Proofs.Pulls
import TreeQuery.Proofs.Stacks
import TreeQuery.Proofs.Lives
import TreeQuery.Proofs.Trees
import TreeQuery.Proofs.Frames
import TreeQuery.Proofs.Visits
import TreeQuery.Proofs.Refinement
import TreeQuery.Proofs.Acceptance
import TreeQuery.Proofs.Failures
import TreeQuery.Proofs.Contents
import TreeQuery.Proofs.Alternation
import TreeQuery.Proofs.Soundness
import TreeQuery.Proofs.Ending
import TreeQuery.Proofs.Invisible
import TreeQuery.Proofs.Histories
import TreeQuery.Proofs.Delivery
import TreeQuery.Proofs.Demand
import TreeQuery.Proofs.Lookahead
import TreeQuery.Proofs.Pausing
import TreeQuery.Proofs.Waiting
import TreeQuery.Proofs.Order
import TreeQuery.Proofs.FilesFirst
import TreeQuery.Proofs.Once
import TreeQuery.Proofs.Consumers
import TreeQuery.Proofs.Paths
import TreeQuery.Proofs.Containment
import TreeQuery.Proofs.Disks
import TreeQuery.Proofs.Descents
import TreeQuery.Proofs.Keys
import TreeQuery.Proofs.Lookups
import TreeQuery.Proofs.Stars
import TreeQuery.Proofs.Dropping
import TreeQuery.Proofs.Places
import TreeQuery.Proofs.Cycles
import TreeQuery.Proofs.Bounds
import TreeQuery.Proofs.Printing
import TreeQuery.Proofs.Accounting
import TreeQuery.Proofs.Meaning
import TreeQuery.Proofs.Canonical
import TreeQuery.Proofs.Escapes
import TreeQuery.Proofs.Documents
import TreeQuery.Proofs.Lines
import TreeQuery.Proofs.Missing
import TreeQuery.Proofs.Columns
import TreeQuery.Proofs.Expressions
import TreeQuery.Proofs.Configs
