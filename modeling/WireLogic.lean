import WireLogic.File.Tree
import WireLogic.Main
import WireLogic.Proofs.Accounting
import WireLogic.Proofs.Compile
import WireLogic.Proofs.Consumers
import WireLogic.Proofs.Cycles
import WireLogic.Proofs.Diagnostics
import WireLogic.Proofs.DrainOrder
import WireLogic.Proofs.Equivalence
import WireLogic.Proofs.Forcing
import WireLogic.Proofs.FullTrim
import WireLogic.Proofs.Grammar
import WireLogic.Proofs.Growth
import WireLogic.Proofs.Labels
import WireLogic.Proofs.Loading
import WireLogic.Proofs.LonelyEdges
import WireLogic.Proofs.Ordered
import WireLogic.Proofs.PlugChains
import WireLogic.Proofs.Probes
import WireLogic.Proofs.Pruning
import WireLogic.Proofs.Quotient
import WireLogic.Proofs.Rebinding
import WireLogic.Proofs.Registration
import WireLogic.Proofs.ReportedLines
import WireLogic.Proofs.Revalidation
import WireLogic.Proofs.Spacing
import WireLogic.Proofs.StrictPlugs
import WireLogic.Proofs.Tracing
import WireLogic.Serial.Decode
