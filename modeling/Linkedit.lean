import Linkedit.Main
import Linkedit.Proofs.Bind.Expansion
import Linkedit.Proofs.Bind.Extent
import Linkedit.Proofs.Bind.Overrun
import Linkedit.Proofs.Bind.Saturation
import Linkedit.Proofs.Image.CommandArea
import Linkedit.Proofs.Image.Bounds
import Linkedit.Proofs.Image.WrittenCommands
import Linkedit.Proofs.Leb128.Shortest
import Linkedit.Proofs.Leb128.SignedReading
import Linkedit.Proofs.Reading
import Linkedit.Proofs.Tool.Settled
import Linkedit.Proofs.Trie.Arena.Passes
import Linkedit.Proofs.Trie.Preorder
import Linkedit.Proofs.Trie.Readers
import Linkedit.Proofs.Trie.Refit
import Linkedit.Proofs.Trie.Slot
