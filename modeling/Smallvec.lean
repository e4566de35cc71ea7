import Smallvec.Basic
import Smallvec.Storage
import Smallvec.Generic
import Smallvec.Iterator
import Smallvec.Variants
import Smallvec.Machine
import Smallvec.Proofs.Memory
import Smallvec.Proofs.Grow
import Smallvec.Proofs.Methods
import Smallvec.Proofs.Iterators
import Smallvec.Proofs.Refinement
import Smallvec.Proofs.Growth
import Smallvec.Proofs.Clone
import Smallvec.Proofs.Reachable
import Smallvec.Proofs.ZeroSized
import Smallvec.Proofs.Drop
import Smallvec.Proofs.Move
import Smallvec.Proofs.Independence
import Smallvec.Proofs.Values
