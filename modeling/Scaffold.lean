import Scaffold.Run
import Scaffold.Proofs.Extraction.Opaque
import Scaffold.Proofs.Extraction.Start
import Scaffold.Proofs.Extraction.Swapped
import Scaffold.Proofs.Grammar.Language
import Scaffold.Proofs.Reversal
import Scaffold.Proofs.Script.Rendering
import Scaffold.Proofs.Storage.Equivalence
import Scaffold.Proofs.Script.Verdict
import Scaffold.Proofs.Script.Climb
import Scaffold.Proofs.Confinement
import Scaffold.Proofs.Extraction.Position
import Scaffold.Proofs.Naming.Canonical
import Scaffold.Proofs.Storage.Effect
import Scaffold.Proofs.Grammar.Blocks
import Scaffold.Proofs.Opening
import Scaffold.Proofs.Storage.Cursor
import Scaffold.Proofs.Storage.Leftover
