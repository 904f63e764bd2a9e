import LayeredTree.Main
import LayeredTree.Proofs.Lifecycle
import LayeredTree.Proofs.Chain.Spending
import LayeredTree.Proofs.Influence
import LayeredTree.Proofs.Disk.Keeping
import LayeredTree.Proofs.Patch.Resealing
import LayeredTree.Proofs.Written.Numerals
import LayeredTree.Proofs.Tree.Fingerprint
import LayeredTree.Proofs.Chain.Authored
import LayeredTree.Proofs.Staging.Combining
import LayeredTree.Proofs.Staging.Faithful
import LayeredTree.Proofs.Staging.Refining
import LayeredTree.Proofs.Resource.Custody
import LayeredTree.Proofs.Patch.Undoing
import LayeredTree.Proofs.Patch.Inverting
import LayeredTree.Proofs.Tree.Enumerating
import LayeredTree.Proofs.Gating
import LayeredTree.Proofs.Reading.Accepting
import LayeredTree.Proofs.Reading.Hexadecimal
import LayeredTree.Proofs.Tree.Addresses
import LayeredTree.Proofs.Settings.Overrides
