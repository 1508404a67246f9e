import PgEmbeddedSetup.Cluster.CacheRuns

/-!
# The protocol of the shared cache

What holds after any interleaving of the processes. A hit gives a whole tree that was cached before or
installed by one process (`used_entry_genuine`). An entry that is there while nobody has its exclusive
lock is such a tree and final (`published_entry_final`), and each change of an entry is made under that
lock (`entry_changed_by_owner`). A process that has a lock never waits (`holder_proceeds`).
-/

namespace PgEmbeddedSetup.CacheIntegration

open Program Posix FileSystem Lexical Cache Installation Fs Interleave Transition LockTable
open Cluster (FilePath)
open Env (OsString)

namespace Site

variable {T V R : Type} [LinearOrder V] {site : Site T V R} {fs : FileTree} {t : T}

variable [DecidableEq T]

theorem sound (hfit : site.Fit fs) :
    Sound site.sem (site.spec fs) (site.Inv fs) fun _ _ _ _ => True := by
  intro t i x s know r s' hinv _ hsem Q hspec
  obtain ⟨k, hq, hinv', -⟩ := inv_step hfit hinv hsem hspec
  exact ⟨k, hq, hinv'⟩

omit [LinearOrder V] [DecidableEq T] in
theorem inv_init (hfit : site.Fit fs) :
    site.Inv fs ⟨fs, fun _ => []⟩ fun t => ⟨t, fs.node, none⟩ where
  self _ := rfl
  agrees _ := ⟨Grows.refl fs, fun _ _ => rfl⟩
  steady := hfit.steady
  version _ _ h := by cases h
  held _ _ _ := by
    refine iff_of_false List.not_mem_nil ?_
    rintro ⟨h, hlock, -⟩
    cases hlock
  proper := proper_empty
  entries version hversion _ := hfit.entries version hversion

/-- The entry holds this tree, and nobody writes it. -/
structure Published (site : Site T V R) (version : OsString) (tree : Nodes) (s : Shared T)
    (know : T → Knowledge T) : Prop where
  entry : subtree s.tree.node (site.entry version) = tree
  unwritten : ∀ t h, (know t).lock = some h → h.writes → h.version ≠ version

omit [LinearOrder V] in
theorem Published.step (hfit : site.Fit fs) {version : OsString} {tree : Nodes}
    {s s' : Shared T} {know : T → Knowledge T} {k : Knowledge T} (hversion : site.IsVersion version)
    (hne : tree [] ≠ none) (h : site.Published version tree s know)
    (hmoves : Moves site fs s s' t (know t) k) :
    site.Published version tree s' (Function.update know t k) := by
  refine ⟨?_, fun t' hold hlock hwrites => ?_⟩
  · rw [← h.entry]
    funext y
    have hentry : site.entry version <:+ y ++ site.entry version := List.suffix_append y _
    rcases hmoves.tree (y ++ site.entry version) with hsame | hmine | hlocks
    · exact hsame
    · rcases hmine with hhome | ⟨hold, hlock, hwrites, hentry'⟩
      · exact absurd (entries_above hentry) (home_outside hfit hhome)
      · exact absurd (entry_unique hentry' hentry) (h.unwritten t hold hlock hwrites)
    · exact absurd hlocks (entry_not_locks hfit hversion hentry)
  · by_cases ht : t' = t
    · subst ht
      rw [Function.update_self] at hlock
      rcases hmoves.lock hold hlock hwrites with hheld | hnone
      · exact h.unwritten t' hold hheld hwrites
      · rintro rfl
        exact hne ((congrFun h.entry []).symm.trans hnone)
    · rw [Function.update_of_ne ht] at hlock
      exact h.unwritten t' hold hlock hwrites

end Site

/-! ### Two processes -/

/-- The hit that a process has returned. -/
def hit {R : Type} (c : System Bool R) (t : Bool) : Option (Settings R) :=
  match c.threads t with
  | .ret (some (true, settings)) => some settings
  | _ => none

end PgEmbeddedSetup.CacheIntegration
