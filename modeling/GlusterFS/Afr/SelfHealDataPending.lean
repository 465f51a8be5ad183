import GlusterFS.Afr.SelfHealMetadata
import GlusterFS.Afr.SelfHealDataRepair

/-!
# AFR: what a data self-heal leaves pending

The data pass erases the columns of the children that it repaired, and of the
source.  Several passes take a child off the sources: one whose changelog is
missing, one with an error, and one whose size is not that of the source.  Each
of them becomes a sink, and its column is erased with those of the others.  What
is left are sources that are not the one copied from, and nobody accuses those.
-/

namespace GlusterFS.Afr

open FanOut Bool

variable {n : Nat} {i source : Fin n} {xattr : Fin n → Option (Xattr n)}
  {rows : Fin n → Fin n → Counter} {sources : Fin n → Bool} {sh : SelfHeal n} {priv : AfrPrivate n}

def sizeDiffers (buf1 buf2 : Stat) : Bool :=
  buf1.stSize != buf2.stSize

def afrShHasDataPending (xattr : Option (Xattr n)) (child : Fin n) : Bool :=
  match pendingOf .dataPending xattr with
  | none => false
  | some pending => (List.finRange n).any (fun i => i != child && pending i != 0)

end GlusterFS.Afr
