import SparcBackend.Main
import SparcBackend.Proofs.Machine.Execution
import SparcBackend.CommandLine.FileTree
import SparcBackend.Proofs.Ir.Execution
import SparcBackend.Proofs.Ir.Freshness
import SparcBackend.Proofs.Selection.Expressions
import SparcBackend.Proofs.Selection.Statements
import SparcBackend.Proofs.Machine.Agreement
import SparcBackend.Proofs.Machine.Flow
import SparcBackend.Proofs.Peephole.Rewrite
import SparcBackend.Proofs.Peephole.Exchange
import SparcBackend.Proofs.Peephole.Run
import SparcBackend.Proofs.Peephole.Simulation
import SparcBackend.Proofs.Lifetime
import SparcBackend.Proofs.Peephole.Behaviour
import SparcBackend.Proofs.Allocation.FirstFit
import SparcBackend.Proofs.Peephole.Definedness
import SparcBackend.Proofs.Allocation.Sharing
import SparcBackend.Proofs.Pipeline
import SparcBackend.Proofs.Selection.Grammar
import SparcBackend.Proofs.Machine.Linearity
import SparcBackend.Proofs.Peephole.Linearity
import SparcBackend.Proofs.Machine.DelaySlots
import SparcBackend.Proofs.Peephole.DelaySlots
import SparcBackend.Proofs.Machine.Encoding
import SparcBackend.Proofs.Peephole.Encoding
import SparcBackend.Proofs.Selection.Linearity
import SparcBackend.Proofs.Ir.Codec
import SparcBackend.Proofs.Accounting
import SparcBackend.Proofs.Ownership
import SparcBackend.Proofs.Selection.Siblings
import SparcBackend.Proofs.Peephole.Window
import SparcBackend.Proofs.Selection.Staging
import SparcBackend.Proofs.Allocation.Enlargement
import SparcBackend.Proofs.Allocation.Naming
import SparcBackend.Peephole.InPlace
import SparcBackend.Proofs.Peephole.Settling
import SparcBackend.Proofs.Peephole.Skeleton
import SparcBackend.Proofs.Renaming.Generation
import SparcBackend.Proofs.Ir.Labels
import SparcBackend.Proofs.Selection.Refusal
import SparcBackend.Proofs.Selection.Tallies
import SparcBackend.Proofs.Frames
import SparcBackend.Proofs.Peephole.Notes
import SparcBackend.Proofs.Asm.Rendering
import SparcBackend.Proofs.Ir.IndexedSupply
