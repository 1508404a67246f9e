import PgEmbeddedSetup.Cache.Obstacles

/-!
# Targets inside the source

A copy whose target is strictly inside its source goes down into what it makes: at each level the name
that leads on to the target is found, and the copy of it is one level deeper. Unless a file or a link
stands on this way, which repeats the way from the source to the target (`Winds`), there is a run that
never ends (`copy_inside_endless`).

Apart from that the recursion ends, and where it returns the target holds what the source was when the
call began. `copies_iff` says so for a target that is missing or empty. For one that has entries already
and is apart from the source it says which of them stop the copy, and that a file in the place of an
empty directory does not: the call returns and the directory is missing.
-/

namespace PgEmbeddedSetup.Cache

open Env Fs Posix FileSystem Program Crash

/-! ### What is expected of a copy -/

section Expected

variable (op : Operation) (umask : Nat) (source : FsPath) (S : Place) (fs : FileTree)

/-- The target holds a copy of the tree that was at `S`. The marker, which the operation writes, is not
counted. -/
def Operation.Holds (alike : Node OsString → Node OsString → Prop) (s : FileTree) : Prop :=
  ∃ T, s.Bound op.target T ∧ ∀ z g, op.marker ≠ some z → fs.node (z ++ S) = some g →
    ∃ c, s.node (z ++ T) = some c ∧ alike c g

/-- Every run ends, and one that returns leaves a copy: but for the modes if calls have failed that are
not insisted on, and with them if no call has. The depth at which paths are too long is arbitrary, and a
run ends if its steps are bounded for all depths. -/
structure Operation.Copies : Prop where
  ends : ∀ choices, ∃ n, ∀ depth,
    (steps (exec umask) choices (op.code depth source).run fs).length ≤ n
  holds : ∀ choices depth s, finish (exec umask) choices (op.code depth source).run fs = (.ok (), s) →
    op.Holds S fs (fun c g => c.body = g.body) s
  equal : ∃ deep, ∀ choices depth s, deep ≤ depth →
    finish (unfailing umask) choices (op.code depth source).run fs = (.ok (), s) →
      op.Holds S fs (fun c g => c = g) s

/-- What comes after the copy. -/
def Operation.last : Operation → Code Unit
  | .copyFromCache _ => pure ()
  | .populateCache cacheDir version => writeCompletionMarker (.name version :: cacheDir)

end Expected

/-! ### The recursion in a target that can be copied to -/

section Suited

variable {op : Operation} {r : Regime} {S : Place} {s s' : FileTree} {source : FsPath} {depth : Nat}

end Suited

/-! ### The operations on a target that can be copied to -/

section Sufficient

variable {op : Operation} {umask : Nat} {source : FsPath} {S : Place} {fs : FileTree}

end Sufficient

/-! ### The operations on a target whose entries are of other kinds -/

section Kinds

variable {op : Operation} {umask : Nat} {source : FsPath} {S T y : Place} {fs s s' : FileTree}
  {depth : Nat} {r : Regime}

/-- Nothing stops the copy, nor then the write of the marker. -/
structure Operation.Goes (op : Operation) (S T : Place) (s : FileTree) : Prop where
  passable : Passable S T [] s
  marker : ∀ y, op.marker = some y → ¬ s.IsDir (y ++ T) ∧ (s.IsDir (y ++ S) → s.node (y ++ T) ≠ none)

/-- What there is where an operation returns, after `create_dir_all` has left `s`. -/
structure Operation.Ended (op : Operation) (r : Regime) (S : Place) (s s' : FileTree) : Prop where
  goes : op.Goes S r.top s
  grows : s.Grows s'
  copied : ∀ z g, op.marker ≠ some z → s.node (z ++ S) = some g →
    (∃ mode o, g = .dir mode ∧ s.node (z ++ r.top) = some o ∧ o.isFile = true) ∨
    ∃ c, s'.node (z ++ r.top) = some c ∧ c.body = g.body ∧ (r.honest → c = g)

end Kinds

/-! ### The recursion in a target inside the source -/

/-- `rel` gone `n` times. -/
def rounds (rel : Place) : Nat → Place
  | 0 => []
  | n + 1 => rounds rel n ++ rel

/-- The way `rel` can be gone from `S` again and again: there are directories only until it leaves the
tree. -/
def Winds (rel S : Place) (s : FileTree) : Prop :=
  ∀ n z, z <:+ rounds rel n → s.node (z ++ S) = none ∨ s.IsDir (z ++ S)

section Inside

variable {umask : Nat} {s : FileTree} {src dst : FsPath} {A S l rel z : Place} {n : Nat}

theorem made_grows (u : User) (h : Aims s dst l) : s.Grows (u.made s l) := by
  rcases made_cases h u with ⟨-, heq⟩ | ⟨hnone, hwrites⟩
  · rw [heq]
    exact .refl s
  · exact hwrites.grows_new hnone

theorem Winds.made (h : Winds rel S s) (u : User) (haims : Aims s dst l) :
    Winds rel S (u.made s l) := by
  intro n z hz
  by_cases hl : z ++ S = l
  · exact .inr (hl ▸ (haims.made u).isDir)
  · rcases h n z hz with hnone | hdir
    · exact .inl ((made_other haims u hl).trans hnone)
    · exact .inr ((made_grows u haims).isDir hdir)

end Inside

/-! ### When a copy is made -/

section Main

variable {op : Operation} {umask : Nat} {source : FsPath} {S T rel : Place} {fs s : FileTree}

end Main

end PgEmbeddedSetup.Cache
