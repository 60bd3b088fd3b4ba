import RegexAutomaton.Main
import RegexAutomaton.Proofs.Path
import RegexAutomaton.Proofs.Exploration
import RegexAutomaton.Proofs.Language
import RegexAutomaton.Proofs.Construction
import RegexAutomaton.Proofs.Grammar
import RegexAutomaton.Proofs.Rendering
import RegexAutomaton.Proofs.Grouping
import RegexAutomaton.Proofs.Reading
import RegexAutomaton.Proofs.Recovery
import RegexAutomaton.Proofs.Anchoring
import RegexAutomaton.Proofs.Finding
import RegexAutomaton.Proofs.Searching
import RegexAutomaton.Proofs.Buffers
import RegexAutomaton.Proofs.Wiring
import RegexAutomaton.Proofs.Checked
import RegexAutomaton.Proofs.Continuing
import RegexAutomaton.Proofs.Operands
import RegexAutomaton.Proofs.Repeating
import RegexAutomaton.Proofs.Decoding
import RegexAutomaton.Proofs.Emission
import RegexAutomaton.Proofs.Shape
import RegexAutomaton.Proofs.Scanning
import RegexAutomaton.Proofs.Escaping
import RegexAutomaton.Proofs.Flipping
import RegexAutomaton.Proofs.Lasting
import RegexAutomaton.Proofs.Segmenting
import RegexAutomaton.Proofs.Sizing
import RegexAutomaton.Proofs.Tracing
import RegexAutomaton.Proofs.Printing
import RegexAutomaton.Proofs.Enclosing
import RegexAutomaton.Proofs.Partitioning
import RegexAutomaton.Proofs.Journaling
