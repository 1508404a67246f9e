import PgEmbeddedSetup.Base.SortedJoin
import PgEmbeddedSetup.TestSupport.Collisions

/-!
# Which directory trees have one stream

The walk sorts the entries of a directory by their names as text. Names that are not UTF-8 may have
the same text, and then the entries stay in the order in which `read_dir` lists them. So the stream of
a tree depends on that order unless what is written for two such entries can change places
(`order_free_iff`).
-/

namespace PgEmbeddedSetup.TestSupport

open Env Utf8

/-- The same tree, with the entries of its directories in another order. -/
inductive Tree.Reordered : Tree → Tree → Prop
  | refl (t : Tree) : Reordered t t
  | trans {t t' t'' : Tree} (h : Reordered t t') (h' : Reordered t' t'') : Reordered t t''
  | listing {entries entries' : List (OsString × Tree)} (h : entries.Perm entries') :
      Reordered (.dir entries) (.dir entries')
  | entry {t t' : Tree} (before : List (OsString × Tree)) (name : OsString)
      (after : List (OsString × Tree)) (h : Reordered t t') :
      Reordered (.dir (before ++ (name, t) :: after)) (.dir (before ++ (name, t') :: after))

/-! ### Trees written out in one order -/

/-- The order of the texts of names, and then of what is written for the entries. -/
def entryLe (a b : OsString × List UInt8) : Bool :=
  if a.1 = b.1 then decide (a.2 ≤ b.2) else keyLe a b

mutual

/-- What is below a path, with the entries in an order that does not depend on a listing. -/
def text (relative : OsString) : Tree → List UInt8
  | .file content => content
  | .symlink => []
  | .dir entries => ((textEntries relative entries).mergeSort entryLe).flatMap (·.2)

def textEntries (relative : OsString) : List (OsString × Tree) → List (OsString × List UInt8)
  | [] => []
  | (name, t) :: entries =>
    (lossy name, lossy (joinName relative name) ++ text (joinName relative name) t) ::
      textEntries relative entries

end

def textEntry (relative : OsString) (e : OsString × Tree) : OsString × List UInt8 :=
  (lossy e.1, lossy (joinName relative e.1) ++ text (joinName relative e.1) e.2)

/-- Of two entries of one directory whose names have the same text, the path and content of the one and
those of the other can change places. Two files of one content are such entries. -/
inductive Separated : OsString → Tree → Prop
  | file (relative : OsString) (content : List UInt8) : Separated relative (.file content)
  | symlink (relative : OsString) : Separated relative .symlink
  | dir {relative : OsString} {entries : List (OsString × Tree)}
      (pairs : ∀ a ∈ entries, ∀ b ∈ entries, lossy a.1 = lossy b.1 →
        List.Swap (·.2) (textEntry relative a) (textEntry relative b))
      (below : ∀ e ∈ entries, Separated (joinName relative e.1) e.2) :
      Separated relative (.dir entries)

theorem Tree.induct {P : Tree → Prop} (file : ∀ content, P (.file content)) (symlink : P .symlink)
    (dir : ∀ entries : List (OsString × Tree), (∀ e ∈ entries, P e.2) → P (.dir entries)) (t : Tree) :
    P t :=
  @Tree.rec P (fun entries => ∀ e ∈ entries, P e.2) (fun e => P e.2) file symlink dir
    (fun _ he => absurd he List.not_mem_nil)
    (fun _ _ hhead htail => List.forall_mem_cons.mpr ⟨hhead, htail⟩) (fun _ _ h => h) t

section Order

variable {a b c : OsString × List UInt8}

theorem entryLe_of_eq (h : a.1 = b.1) : entryLe a b = true ↔ a.2 ≤ b.2 := by
  rw [entryLe, if_pos h, decide_eq_true_eq]

theorem entryLe_of_ne (h : a.1 ≠ b.1) : entryLe a b = true ↔ a.1 ≤ b.1 := by
  rw [entryLe, if_neg h, keyLe_iff]

theorem keyLe_of_entryLe (h : entryLe a b = true) : keyLe a b = true := by
  by_cases heq : a.1 = b.1
  · exact keyLe_iff.mpr (heq ▸ List.le_refl _)
  · exact keyLe_iff.mpr ((entryLe_of_ne heq).mp h)

theorem entryLe_trans (a b c : OsString × List UInt8) (hab : entryLe a b = true)
    (hbc : entryLe b c = true) : entryLe a c = true := by
  have hac : a.1 ≤ c.1 :=
    keyLe_iff.mp (keyLe_trans a b c (keyLe_of_entryLe hab) (keyLe_of_entryLe hbc))
  by_cases heq : a.1 = c.1
  · have hab' : a.1 = b.1 :=
      List.le_antisymm (keyLe_iff.mp (keyLe_of_entryLe hab))
        (heq ▸ keyLe_iff.mp (keyLe_of_entryLe hbc))
    rw [entryLe_of_eq heq]
    exact List.le_trans ((entryLe_of_eq hab').mp hab) ((entryLe_of_eq (hab'.symm.trans heq)).mp hbc)
  · exact (entryLe_of_ne heq).mpr hac

theorem entryLe_total (a b : OsString × List UInt8) : (entryLe a b || entryLe b a) = true := by
  rw [Bool.or_eq_true]
  by_cases heq : a.1 = b.1
  · rw [entryLe_of_eq heq, entryLe_of_eq heq.symm]
    exact List.le_total a.2 b.2
  · rw [entryLe_of_ne heq, entryLe_of_ne (Ne.symm heq)]
    exact List.le_total a.1 b.1

theorem entryLe_antisymm (hab : entryLe a b = true) (hba : entryLe b a = true) : a = b := by
  have heq : a.1 = b.1 :=
    List.le_antisymm (keyLe_iff.mp (keyLe_of_entryLe hab)) (keyLe_iff.mp (keyLe_of_entryLe hba))
  exact Prod.ext heq
    (List.le_antisymm ((entryLe_of_eq heq).mp hab) ((entryLe_of_eq heq.symm).mp hba))

/-- The sort of the walk leaves two entries as listed just where their names have the same text. -/
theorem tied_iff : List.Tied keyLe a b ↔ a.1 = b.1 := by
  rw [List.Tied, keyLe_iff, keyLe_iff]
  exact ⟨fun h => List.le_antisymm h.1 h.2, fun h => ⟨h ▸ List.le_refl _, h ▸ List.le_refl _⟩⟩

end Order

/-! ### The tree written out -/

section Text

variable {relative : OsString} {t t' : Tree} {entries entries' : List (OsString × Tree)}

theorem textEntries_eq_map (relative : OsString) (entries : List (OsString × Tree)) :
    textEntries relative entries = entries.map (textEntry relative) := by
  induction entries with
  | nil => rfl
  | cons e entries ih => rw [textEntries, ih, List.map_cons, textEntry]

theorem text_dir (relative : OsString) (entries : List (OsString × Tree)) :
    text relative (.dir entries) =
      ((entries.map (textEntry relative)).mergeSort entryLe).flatMap (·.2) := by
  rw [text, textEntries_eq_map]

theorem feed_dir (relative : OsString) (entries : List (OsString × Tree)) :
    feed relative (.dir entries) =
      ((entries.map (feedEntry relative)).mergeSort keyLe).flatMap (·.2) := by
  rw [feed, feedEntries_eq_map]

theorem Tree.Reordered.text (h : t.Reordered t') (relative : OsString) :
    text relative t = text relative t' := by
  induction h generalizing relative with
  | refl t => rfl
  | trans h h' ih ih' => exact (ih relative).trans (ih' relative)
  | @listing entries entries' hperm =>
    rw [text_dir, text_dir]
    congr 1
    have hsorted := fun l => List.pairwise_mergeSort entryLe_trans entryLe_total l
    refine List.Perm.eq_of_pairwise (fun _ _ _ _ hab hba => entryLe_antisymm hab hba) (hsorted _)
      (hsorted _) ?_
    exact (List.mergeSort_perm _ _).trans
      ((hperm.map (textEntry relative)).trans (List.mergeSort_perm _ _).symm)
  | entry before name after h ih =>
    rw [text_dir, text_dir, List.map_append, List.map_append, List.map_cons, List.map_cons, textEntry,
      textEntry, ih (joinName relative name)]

theorem Tree.Reordered.dir {entries : List (OsString × Tree)} (h : (Tree.dir entries).Reordered t) :
    ∃ entries', t = .dir entries' := by
  generalize hdir : Tree.dir entries = d at h
  induction h generalizing entries with
  | refl t => exact ⟨entries, hdir.symm⟩
  | trans h h' ih ih' =>
    obtain ⟨entries', rfl⟩ := ih hdir
    exact ih' rfl
  | listing hperm => exact ⟨_, rfl⟩
  | entry before name after h => exact ⟨_, rfl⟩

theorem Separated.reordered (hsep : Separated relative t) (h : t.Reordered t') :
    Separated relative t' := by
  induction h generalizing relative with
  | refl t => exact hsep
  | trans h h' ih ih' => exact ih' (ih hsep)
  | @listing entries entries' hperm =>
    cases hsep with
    | dir pairs below =>
    exact .dir (fun a ha b hb => pairs a (hperm.mem_iff.mpr ha) b (hperm.mem_iff.mpr hb))
      fun e he => below e (hperm.mem_iff.mpr he)
  | @entry t t' before name after h ih =>
    cases hsep with
    | dir pairs below =>
    -- each entry has one with its name, of which the same is written
    have hold : ∀ e ∈ before ++ (name, t') :: after, ∃ e' ∈ before ++ (name, t) :: after,
        e'.1 = e.1 ∧ textEntry relative e' = textEntry relative e := by
      intro e he
      rcases List.mem_append.mp he with he | he
      · exact ⟨e, List.mem_append_left _ he, rfl, rfl⟩
      · rcases List.mem_cons.mp he with rfl | he
        · refine ⟨(name, t), List.mem_append_right _ List.mem_cons_self, rfl, ?_⟩
          rw [textEntry, textEntry, h.text]
        · exact ⟨e, List.mem_append_right _ (List.mem_cons_of_mem _ he), rfl, rfl⟩
    refine .dir (fun a ha b hb hlossy => ?_) fun e he => ?_
    · obtain ⟨a', ha', hname, htext⟩ := hold a ha
      obtain ⟨b', hb', hname', htext'⟩ := hold b hb
      rw [← htext, ← htext']
      exact pairs a' ha' b' hb' (by rw [hname, hname', hlossy])
    · rcases List.mem_append.mp he with he | he
      · exact below e (List.mem_append_left _ he)
      · rcases List.mem_cons.mp he with rfl | he
        · exact ih (below (name, t) (List.mem_append_right _ List.mem_cons_self))
        · exact below e (List.mem_append_right _ (List.mem_cons_of_mem _ he))

theorem Separated.feed_eq (h : Separated relative t) : feed relative t = text relative t := by
  induction h with
  | file relative content => rw [feed, text]
  | symlink relative => rw [feed, text]
  | @dir relative entries pairs below ih =>
    have hmap : entries.map (feedEntry relative) = entries.map (textEntry relative) := by
      refine List.map_congr_left fun e he => ?_
      rw [feedEntry, textEntry, ih e he]
    rw [feed_dir, text_dir, hmap]
    refine List.flatMap_eq_of_sorted ?_ (List.pairwise_mergeSort keyLe_trans keyLe_total _)
      ((List.pairwise_mergeSort entryLe_trans entryLe_total _).imp keyLe_of_entryLe) ?_
    · exact (List.mergeSort_perm _ _).trans (List.mergeSort_perm _ _).symm
    · intro x hx y hy htied
      obtain ⟨a, ha, rfl⟩ := List.mem_map.mp (List.mem_mergeSort.mp hx)
      obtain ⟨b, hb, rfl⟩ := List.mem_map.mp (List.mem_mergeSort.mp hy)
      exact pairs a ha b hb (tied_iff.mp htied)

end Text

/-! ### Orders that show -/

section Shown

variable {relative : OsString} {t : Tree} {entries : List (OsString × Tree)}

/-- Of an entry that is listed first, what is below it can be listed in any order. -/
theorem feed_below {name : OsString} {t t' : Tree} (rest : List (OsString × Tree))
    (h : feed relative (.dir ((name, t) :: rest)) = feed relative (.dir ((name, t') :: rest))) :
    feed (joinName relative name) t = feed (joinName relative name) t' := by
  rw [feed_dir, feed_dir, List.map_cons, List.map_cons] at h
  have htied : List.Tied keyLe (feedEntry relative (name, t)) (feedEntry relative (name, t')) :=
    tied_iff.mpr rfl
  have hword := List.flatMap_mergeSort_tied keyLe_trans keyLe_total htied h
  exact List.append_cancel_left hword

theorem feed_pair {a b : OsString × Tree} {rest : List (OsString × Tree)}
    (hlossy : lossy a.1 = lossy b.1)
    (h : feed relative (.dir (a :: b :: rest)) = feed relative (.dir (b :: a :: rest))) :
    List.Swap (·.2) (feedEntry relative a) (feedEntry relative b) := by
  rw [feed_dir, feed_dir, List.map_cons, List.map_cons, List.map_cons, List.map_cons] at h
  exact List.flatMap_mergeSort_pair keyLe_trans keyLe_total (tied_iff.mpr hlossy) h

theorem exists_perm_cons {e : OsString × Tree} (he : e ∈ entries) :
    ∃ rest, entries.Perm (e :: rest) := by
  obtain ⟨before, after, rfl⟩ := List.append_of_mem he
  exact ⟨before ++ after, List.perm_middle⟩

/-- If all listings of a tree give the same, the tree is separated. -/
theorem separated_of_feed (h : ∀ t₁ t₂, t.Reordered t₁ → t.Reordered t₂ →
    feed relative t₁ = feed relative t₂) : Separated relative t := by
  induction t using Tree.induct generalizing relative with
  | file content => exact .file relative content
  | symlink => exact .symlink relative
  | dir entries ih =>
    have hbelow : ∀ e ∈ entries, Separated (joinName relative e.1) e.2 := by
      intro e he
      obtain ⟨rest, hperm⟩ := exists_perm_cons he
      refine ih e he fun t₁ t₂ h₁ h₂ => feed_below rest ?_
      exact h _ _ ((Tree.Reordered.listing hperm).trans (.entry [] e.1 rest h₁))
        ((Tree.Reordered.listing hperm).trans (.entry [] e.1 rest h₂))
    refine .dir (fun a ha b hb hlossy => ?_) hbelow
    by_cases heq : a = b
    · rw [heq]
      exact rfl
    obtain ⟨rest, hperm⟩ := exists_perm_cons ha
    have hb' : b ∈ rest := (List.mem_cons.mp (hperm.mem_iff.mp hb)).resolve_left (Ne.symm heq)
    obtain ⟨rest', hperm'⟩ := exists_perm_cons hb'
    have hfirst : entries.Perm (a :: b :: rest') := hperm.trans (hperm'.cons a)
    have hswap : List.Swap (·.2) (feedEntry relative a) (feedEntry relative b) :=
      feed_pair hlossy (h _ _ (.listing hfirst) (.listing (hfirst.trans (.swap b a rest'))))
    have htext : ∀ e ∈ entries, feedEntry relative e = textEntry relative e := fun e he => by
      rw [feedEntry, textEntry, (hbelow e he).feed_eq]
    rwa [htext a ha, htext b hb] at hswap

end Shown

/-- **All listings of a tree give one stream** if and only if entries whose names have the same text
can change places. -/
theorem order_free_iff (entries : List (OsString × Tree)) :
    (∀ first second, (Tree.dir entries).Reordered (.dir first) →
      (Tree.dir entries).Reordered (.dir second) →
      hashDirectoryInput first = hashDirectoryInput second) ↔ Separated [] (.dir entries) := by
  constructor
  · intro h
    refine separated_of_feed fun t₁ t₂ h₁ h₂ => ?_
    obtain ⟨first, rfl⟩ := h₁.dir
    obtain ⟨second, rfl⟩ := h₂.dir
    exact h first second h₁ h₂
  · intro hsep first second h₁ h₂
    calc hashDirectoryInput first = text [] (.dir first) := (hsep.reordered h₁).feed_eq
      _ = text [] (.dir second) := (h₁.text []).symm.trans (h₂.text [])
      _ = hashDirectoryInput second := (hsep.reordered h₂).feed_eq.symm

/-- Two files with the names `0xFF` and `0xFE`, and a byte in each. -/
def twoUnreadable : List (OsString × Tree) := [([0xFF], .file [1]), ([0xFE], .file [2])]

theorem hashDirectoryInput_pair {a b : OsString × Tree} (h : lossy a.1 = lossy b.1) :
    hashDirectoryInput [a, b] = (feedEntry [] a).2 ++ (feedEntry [] b).2 := by
  have hle : keyLe (feedEntry [] a) (feedEntry [] b) = true := (tied_iff.mpr h).1
  rw [hashDirectoryInput, feed_dir, List.map_cons, List.map_singleton,
    List.mergeSort_of_pairwise (List.pairwise_pair.mpr hle), List.flatMap_cons,
    List.flatMap_singleton]

/-- They are fed in the order in which they are listed. -/
theorem listing_order_fed : ¬ ∀ entries first second : List (OsString × Tree),
    (Tree.dir entries).Reordered (.dir first) → (Tree.dir entries).Reordered (.dir second) →
    hashDirectoryInput first = hashDirectoryInput second := by
  intro h
  have heq := h twoUnreadable twoUnreadable twoUnreadable.reverse (.refl _)
    (.listing (List.reverse_perm _).symm)
  rw [twoUnreadable, List.reverse_cons, List.reverse_singleton, List.singleton_append,
    hashDirectoryInput_pair (by decide), hashDirectoryInput_pair (by decide)] at heq
  revert heq
  decide

end PgEmbeddedSetup.TestSupport
