import PgEmbeddedSetup.Base.Utf8
import PgEmbeddedSetup.Env.State
import Mathlib.Data.List.Sort

/-!
# What `hash_directory` feeds to the hasher

The walk over a directory tree: the entries of each directory are sorted by their names as text, and
for each one the path from the top and then what is in it goes into one stream of bytes. Nothing
marks where a path ends, or a content.

A tree holds its entries in the order in which `read_dir` lists them. Two trees that differ only in
this order have the same lookups, and `Tree.lookup` is what they are compared by.
-/

namespace PgEmbeddedSetup.TestSupport

open Env Utf8

inductive Tree where
  | file (content : List UInt8)
  | symlink
  | dir (entries : List (OsString × Tree))

/-- What an entry is. -/
inductive Kind where
  | file (content : List UInt8)
  | symlink
  | dir
  deriving DecidableEq

def Tree.kind : Tree → Kind
  | .file content => .file content
  | .symlink => .symlink
  | .dir _ => .dir

/-- The entry at a path. -/
def Tree.lookup : List OsString → Tree → Option Kind
  | [], t => some t.kind
  | name :: path, .dir entries => (entries.lookup name).bind (Tree.lookup path)
  | _ :: _, _ => none

def slash : UInt8 := 47

/-- `Path::join` with one name. -/
def joinName (relative name : OsString) : OsString :=
  if relative.isEmpty then name else relative ++ slash :: name

/-- The order of the sort: that of the texts of the names, byte by byte. -/
def keyLe (a b : OsString × List UInt8) : Bool := decide (a.1 ≤ b.1)

mutual

/-- What `hash_directory_recursive` feeds for the tree at a path, after the path itself. -/
def feed (relative : OsString) : Tree → List UInt8
  | .file content => content
  | .symlink => []
  | .dir entries => ((feedEntries relative entries).mergeSort keyLe).flatMap (·.2)

/-- The entries with the keys that they are sorted by. -/
def feedEntries (relative : OsString) : List (OsString × Tree) → List (OsString × List UInt8)
  | [] => []
  | (name, t) :: entries =>
    (lossy name, lossy (joinName relative name) ++ feed (joinName relative name) t) ::
      feedEntries relative entries

end

def hashDirectoryInput (entries : List (OsString × Tree)) : List UInt8 := feed [] (.dir entries)

/-- What one entry of the directory at a path adds. -/
def feedEntry (relative : OsString) (e : OsString × Tree) : OsString × List UInt8 :=
  (lossy e.1, lossy (joinName relative e.1) ++ feed (joinName relative e.1) e.2)

theorem feedEntries_eq_map (relative : OsString) (entries : List (OsString × Tree)) :
    feedEntries relative entries = entries.map (feedEntry relative) := by
  induction entries with
  | nil => rfl
  | cons e entries ih => rw [feedEntries, ih, List.map_cons, feedEntry]

/-! ### Directory trees -/

/-- A file name that is UTF-8. -/
structure IsName (name : OsString) : Prop where
  text : IsText name
  nonempty : name ≠ []
  noSlash : slash ∉ name
  noNul : 0 ∉ name
  notDot : name ≠ [46]
  notDotDot : name ≠ [46, 46]

/-- Regular files and directories with such names, each once in its directory. -/
inductive Tree.Valid : Tree → Prop
  | file (content : List UInt8) : Valid (.file content)
  | dir {entries : List (OsString × Tree)} (nodup : (entries.map (·.1)).Nodup)
      (names : ∀ e ∈ entries, IsName e.1) (below : ∀ e ∈ entries, Valid e.2) :
      Valid (.dir entries)

structure Directory where
  entries : List (OsString × Tree)
  valid : (Tree.dir entries).Valid

def Directory.stream (d : Directory) : List UInt8 := hashDirectoryInput d.entries

/-- The trees differ: in shape, in a name, in the kind of an entry or in a content. -/
def Directory.Differ (d d' : Directory) : Prop :=
  ∃ path, (Tree.dir d.entries).lookup path ≠ (Tree.dir d'.entries).lookup path

/-- The directory with one entry. -/
def Directory.single (name : OsString) (t : Tree) (hname : IsName name) (ht : t.Valid) : Directory where
  entries := [(name, t)]
  valid := .dir (List.nodup_singleton _)
    (fun _ he => List.mem_singleton.mp he ▸ hname) (fun _ he => List.mem_singleton.mp he ▸ ht)

theorem stream_single {name : OsString} {t : Tree} (hname : IsName name) (ht : t.Valid) :
    (Directory.single name t hname ht).stream = name ++ feed name t := by
  rw [Directory.stream, hashDirectoryInput, Directory.single, feed, feedEntries_eq_map,
    List.map_singleton, List.mergeSort_singleton, List.flatMap_singleton]
  simp only [feedEntry, joinName, List.isEmpty_nil, if_true, lossy_eq_self hname.text]

end PgEmbeddedSetup.TestSupport
