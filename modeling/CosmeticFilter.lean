import CosmeticFilter.Main
import CosmeticFilter.Proofs.Arguments
import CosmeticFilter.Proofs.Canonical
import CosmeticFilter.Proofs.Concatenation
import CosmeticFilter.Proofs.Extension
import CosmeticFilter.Proofs.Forms
import CosmeticFilter.Proofs.Independence
import CosmeticFilter.Proofs.Inert
import CosmeticFilter.Proofs.Limit
import CosmeticFilter.Proofs.LineEndings
import CosmeticFilter.Proofs.Lossless
import CosmeticFilter.Proofs.Patterns
import CosmeticFilter.Proofs.Pieces
import CosmeticFilter.Proofs.Progress
import CosmeticFilter.Proofs.Quotation
import CosmeticFilter.Proofs.Registers
import CosmeticFilter.Proofs.Settling
import CosmeticFilter.Proofs.Target
import CosmeticFilter.Proofs.Totality
import CosmeticFilter.Proofs.Unclosed
import CosmeticFilter.Proofs.Verbatim
