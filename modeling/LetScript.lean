import LetScript.Main
import LetScript.Program.Log
import LetScript.Program.Reader
import LetScript.Tree.Equality
import LetScript.Proofs.Strata
import LetScript.Proofs.Outcome
import LetScript.Proofs.Soundness
import LetScript.Proofs.Attempts
import LetScript.Proofs.Completeness
import LetScript.Proofs.Acceptance
import LetScript.Proofs.Failure
import LetScript.Proofs.BrokenBlock
import LetScript.Proofs.Recovery
import LetScript.Proofs.Relocation
import LetScript.Proofs.Locality
import LetScript.Proofs.Layout
import LetScript.Proofs.Extent
import LetScript.Proofs.Containment
import LetScript.Proofs.Exchange
import LetScript.Proofs.Lexing
import LetScript.Proofs.Boundaries
import LetScript.Proofs.Shifting
import LetScript.Proofs.Segments
import LetScript.Proofs.Resumption
import LetScript.Proofs.Concatenation
import LetScript.Proofs.Printing
import LetScript.Proofs.Rereading
import LetScript.Proofs.Tiling
import LetScript.Proofs.Transport
import LetScript.Proofs.Enclosure
import LetScript.Proofs.Detection
import LetScript.Proofs.Viability
import LetScript.Proofs.EarliestError
import LetScript.Proofs.Height
import LetScript.Proofs.Spacing
import LetScript.Proofs.Numbering
import LetScript.Proofs.Chains
import LetScript.Proofs.Frames
import LetScript.Proofs.Causes
import LetScript.Proofs.Window
import LetScript.Proofs.Machine
import LetScript.Proofs.Agreement
import LetScript.Proofs.Reachability
import LetScript.Proofs.Termination
import LetScript.Proofs.Terminators
import LetScript.Proofs.Parts
import LetScript.Proofs.Provenance
import LetScript.Proofs.Cutting
import LetScript.Proofs.Lines
import LetScript.Proofs.Excerpt
import LetScript.Proofs.Caret
import LetScript.Proofs.Reporting
import LetScript.Proofs.Record
import LetScript.Proofs.Scanner
import LetScript.Proofs.Scanning
import LetScript.Proofs.Dialogue
