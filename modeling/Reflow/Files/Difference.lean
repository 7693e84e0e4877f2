import Reflow.Files.Tree

/-!
What has to be done to a disk so that it holds the files of another tree.
-/

namespace Reflow.Files

structure Difference where
  removed : List Place
  written : List (Place × Text)
deriving DecidableEq, Repr

namespace Tree

/-- What leads from one tree to another: entries that are gone, and texts that are new or differ. -/
def difference (before after : Tree) : Difference where
  removed := (before.entries.map (·.1)).filter fun p => (after.entries.lookup p).isNone
  written := after.entries.filterMap fun (p, e) =>
    match e with
    | .file (.text t) => if before.entries.lookup p = some e then none else some (p, t)
    | _ => none

end Tree

end Reflow.Files
