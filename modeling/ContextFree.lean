import ContextFree.Symbol.Alphabet
import ContextFree.Derivation
import ContextFree.Automaton.Path
import ContextFree.Lr.Validity
import ContextFree.Main
import ContextFree.Proofs.Greibach
import ContextFree.Proofs.Halting
import ContextFree.Proofs.LeftOrder
import ContextFree.Proofs.Unambiguous
import ContextFree.Proofs.RoundTrip
import ContextFree.Proofs.Collection
import ContextFree.Proofs.ViablePrefix
import ContextFree.Proofs.EarlyError
import ContextFree.Proofs.Tracking
import ContextFree.Grammar.Notation
import ContextFree.Proofs.Reading
import ContextFree.Proofs.Useful
import ContextFree.Proofs.Idempotence
import ContextFree.Proofs.Subgrammar
import ContextFree.Proofs.Limits
import ContextFree.Proofs.Pipeline
import ContextFree.Proofs.Passes
import ContextFree.Proofs.Recursion
import ContextFree.Proofs.Cells
import ContextFree.Proofs.Retrace
import ContextFree.Proofs.Sheet
import ContextFree.Proofs.Acyclic
import ContextFree.Proofs.Rounds
import ContextFree.Proofs.Sharing
import ContextFree.Proofs.Chains
