import PgEmbeddedSetup.TestSupport.Hash

/-!
# Which directory trees the stream tells apart

Paths and contents follow each other in the stream without a mark, so almost every directory shares
its stream with another one: a file can take the whole stream as its name and content. Only a
directory whose stream can be read in no other way is told apart from all others, and that is an empty
one, or one file whose name and content allow no other cut (`told_apart_iff`).
-/

namespace PgEmbeddedSetup.TestSupport

open Env Utf8

/-- The name and the content of a file can be cut in no other way: the name cannot be shortened or
continued into the content, and no second entry can be read in the content. -/
structure OneReading (name : OsString) (content : List UInt8) : Prop where
  nonempty : content ≠ []
  noShorter : ∀ shorter rest, name = shorter ++ rest → rest ≠ [] → ¬ IsName shorter
  noLonger : ∀ more rest, content = more ++ rest → more ≠ [] → ¬ IsName (name ++ more)
  noSecond : ∀ first second rest, content = first ++ (second ++ rest) → name < second →
    ¬ IsName second

/-! ### The sorted entries -/

theorem keyLe_iff {a b : OsString × List UInt8} : keyLe a b = true ↔ a.1 ≤ b.1 :=
  decide_eq_true_iff

theorem keyLe_trans (a b c : OsString × List UInt8) (hab : keyLe a b = true)
    (hbc : keyLe b c = true) : keyLe a c = true :=
  keyLe_iff.mpr (List.le_trans (keyLe_iff.mp hab) (keyLe_iff.mp hbc))

theorem keyLe_total (a b : OsString × List UInt8) : (keyLe a b || keyLe b a) = true := by
  rw [Bool.or_eq_true, keyLe_iff, keyLe_iff]
  exact List.le_total a.1 b.1

theorem keys_eq_names {entries : List (OsString × Tree)} (hnames : ∀ e ∈ entries, IsName e.1)
    (relative : OsString) :
    (entries.map (feedEntry relative)).map (·.1) = entries.map (·.1) := by
  rw [List.map_map]
  exact List.map_congr_left fun e he => lossy_eq_self (hnames e he).text

theorem exists_first (relative : OsString) {entries : List (OsString × Tree)} (hne : entries ≠ []) :
    ∃ e ∈ entries, ∃ tail, (feedEntries relative entries).mergeSort keyLe =
      feedEntry relative e :: tail := by
  have hperm := List.mergeSort_perm (feedEntries relative entries) keyLe
  rw [feedEntries_eq_map] at hperm ⊢
  cases hsorted : (entries.map (feedEntry relative)).mergeSort keyLe with
  | nil =>
    rw [hsorted] at hperm
    exact absurd (List.map_eq_nil_iff.mp hperm.nil_eq.symm) hne
  | cons x tail =>
    have hmem : x ∈ entries.map (feedEntry relative) :=
      hperm.mem_iff.mp (hsorted ▸ List.mem_cons_self)
    obtain ⟨e, he, rfl⟩ := List.mem_map.mp hmem
    exact ⟨e, he, tail, rfl⟩

theorem exists_second {entries : List (OsString × Tree)} (hvalid : (Tree.dir entries).Valid)
    {e : OsString × Tree} (he : e ∈ entries) {tail : List (OsString × List UInt8)}
    (hsorted : (feedEntries [] entries).mergeSort keyLe = feedEntry [] e :: tail) :
    tail = [] ∧ entries = [e] ∨
      ∃ e' ∈ entries, ∃ tail', e.1 < e'.1 ∧ tail = feedEntry [] e' :: tail' := by
  cases hvalid with
  | dir hnodup hnames hbelow =>
  have hperm := List.mergeSort_perm (feedEntries [] entries) keyLe
  have hpairs := List.pairwise_mergeSort keyLe_trans keyLe_total (feedEntries [] entries)
  rw [hsorted] at hperm hpairs
  rw [feedEntries_eq_map] at hperm
  cases tail with
  | nil =>
    refine Or.inl ⟨rfl, ?_⟩
    have hlength := hperm.length_eq
    rw [List.length_map, List.length_singleton] at hlength
    obtain ⟨e', rfl⟩ := List.length_eq_one_iff.mp hlength.symm
    rw [List.mem_singleton.mp he]
  | cons y tail' =>
    refine Or.inr ?_
    have hmem : y ∈ entries.map (feedEntry []) :=
      hperm.mem_iff.mp (List.mem_cons_of_mem _ List.mem_cons_self)
    obtain ⟨e', he', rfl⟩ := List.mem_map.mp hmem
    refine ⟨e', he', tail', ?_, rfl⟩
    have hle : lossy e.1 ≤ lossy e'.1 :=
      keyLe_iff.mp (List.rel_of_pairwise_cons hpairs List.mem_cons_self)
    have hkeys := (hperm.map (·.1)).nodup_iff.mpr (keys_eq_names hnames [] ▸ hnodup)
    rw [List.map_cons, List.nodup_cons] at hkeys
    have hdiffer : lossy e.1 ≠ lossy e'.1 := fun heq =>
      hkeys.1 (List.mem_map.mpr ⟨_, List.mem_cons_self, heq.symm⟩)
    rw [lossy_eq_self (hnames e he).text, lossy_eq_self (hnames e' he').text] at hle hdiffer
    exact Std.lt_of_le_of_ne hle hdiffer

theorem feedEntry_nil {e : OsString × Tree} (hname : IsName e.1) :
    (feedEntry [] e).2 = e.1 ++ feed e.1 e.2 := by
  simp only [feedEntry, joinName, List.isEmpty_nil, if_true, lossy_eq_self hname.text]

theorem names_of_valid {entries : List (OsString × Tree)} (hvalid : (Tree.dir entries).Valid) :
    ∀ e ∈ entries, IsName e.1 := by
  cases hvalid with
  | dir hnodup hnames hbelow => exact hnames

theorem below_of_valid {entries : List (OsString × Tree)} (hvalid : (Tree.dir entries).Valid) :
    ∀ e ∈ entries, e.2.Valid := by
  cases hvalid with
  | dir hnodup hnames hbelow => exact hbelow

theorem stream_of_nonempty (d : Directory) (hne : d.entries ≠ []) :
    ∃ e ∈ d.entries, ∃ rest, d.stream = e.1 ++ (feed e.1 e.2 ++ rest) ∧
      (rest = [] ∧ d.entries = [e] ∨
        ∃ second rest', IsName second ∧ e.1 < second ∧ rest = second ++ rest') := by
  obtain ⟨e, he, tail, hsorted⟩ := exists_first [] hne
  have hnames := names_of_valid d.valid
  refine ⟨e, he, tail.flatMap (·.2), ?_, ?_⟩
  · rw [Directory.stream, hashDirectoryInput, feed, hsorted, List.flatMap_cons,
      feedEntry_nil (hnames e he), List.append_assoc]
  · rcases exists_second d.valid he hsorted with ⟨rfl, hentries⟩ | ⟨e', he', tail', hlt, rfl⟩
    · exact Or.inl ⟨rfl, hentries⟩
    · refine Or.inr ⟨e'.1, feed e'.1 e'.2 ++ tail'.flatMap (·.2), hnames e' he', hlt, ?_⟩
      rw [List.flatMap_cons, feedEntry_nil (hnames e' he'), List.append_assoc]

theorem feed_dir_cons {relative : OsString} {entries : List (OsString × Tree)}
    (htext : IsText relative) (hrelative : relative ≠ []) (hvalid : (Tree.dir entries).Valid)
    (hne : entries ≠ []) : ∃ rest, feed relative (.dir entries) = relative ++ slash :: rest := by
  obtain ⟨e, he, tail, hsorted⟩ := exists_first relative hne
  have hslash : IsText [slash] := .cons (c := [slash]) rfl .nil
  have hjoin : joinName relative e.1 = relative ++ slash :: e.1 :=
    if_neg (by rwa [List.isEmpty_iff])
  have htext' : IsText (joinName relative e.1) := by
    rw [hjoin]
    exact htext.append (hslash.append (names_of_valid hvalid e he).text)
  refine ⟨e.1 ++ (feed (joinName relative e.1) e.2 ++ tail.flatMap (·.2)), ?_⟩
  rw [feed, hsorted, List.flatMap_cons, feedEntry, lossy_eq_self htext', hjoin]
  simp only [List.append_assoc, List.cons_append]

/-! ### One reading -/

theorem IsName.twice {name : OsString} (h : IsName name) : IsName (name ++ name) where
  text := h.text.append h.text
  nonempty := List.append_ne_nil_of_left_ne_nil h.nonempty _
  noSlash := fun hmem => h.noSlash ((List.mem_append.mp hmem).elim id id)
  noNul := fun hmem => h.noNul ((List.mem_append.mp hmem).elim id id)
  notDot := fun heq => by
    have hlength := congrArg List.length heq
    have hpos := List.length_pos_of_ne_nil h.nonempty
    rw [List.length_append, List.length_singleton] at hlength
    omega
  notDotDot := fun heq => by
    have hlength := congrArg List.length heq
    rw [List.length_append] at hlength
    have hone : name.length = 1 := by
      have : ([46, 46] : OsString).length = 2 := rfl
      omega
    obtain ⟨b, rfl⟩ := List.length_eq_one_iff.mp hone
    rw [List.singleton_append, List.cons.injEq] at heq
    exact h.notDot (by rw [heq.1])

theorem entries_of_stream {name : OsString} {content : List UInt8} (hname : IsName name)
    (hone : OneReading name content) (d : Directory) (hstream : d.stream = name ++ content) :
    d.entries = [(name, .file content)] := by
  have hne : d.entries ≠ [] := by
    intro hnil
    have hempty : d.stream = [] := by
      rw [Directory.stream, hashDirectoryInput, hnil, feed, feedEntries_eq_map, List.map_nil,
        List.mergeSort_nil, List.flatMap_nil]
    exact List.append_ne_nil_of_left_ne_nil hname.nonempty content (hstream.symm.trans hempty)
  obtain ⟨⟨first, t⟩, he, rest, hfirst, hrest⟩ := stream_of_nonempty d hne
  have hfirstName := names_of_valid d.valid _ he
  have hvalid := below_of_valid d.valid _ he
  rw [hstream] at hfirst
  dsimp only at hfirst hrest hfirstName hvalid
  -- The first entry has the name of the file: it can be neither shorter nor longer.
  obtain rfl : first = name := by
    rcases List.append_eq_append_iff.mp hfirst.symm with ⟨more, hmore, -⟩ | ⟨more, hmore, hcontent⟩
    · by_contra hdiffer
      refine hone.noShorter first more hmore (fun hnil => hdiffer ?_) hfirstName
      rw [hmore, hnil, List.append_nil]
    · by_contra hdiffer
      refine hone.noLonger more _ hcontent (fun hnil => hdiffer ?_) (hmore ▸ hfirstName)
      rw [hmore, hnil, List.append_nil]
  have hcontent : content = feed first t ++ rest := List.append_cancel_left hfirst
  have hsecond : rest ≠ [] → False := by
    intro hrestNe
    rcases hrest with ⟨hnil, -⟩ | ⟨second, rest', hsecondName, hlt, rfl⟩
    · exact hrestNe hnil
    · exact hone.noSecond _ second rest' hcontent hlt hsecondName
  have hnil : rest = [] := by_contra hsecond
  subst hnil
  rw [List.append_nil] at hcontent
  have hentries : d.entries = [(first, t)] := by
    rcases hrest with ⟨-, hentries⟩ | ⟨second, rest', hsecondName, -, hnil⟩
    · exact hentries
    · exact absurd hnil.symm (List.append_ne_nil_of_left_ne_nil hsecondName.nonempty rest')
  rw [hentries]
  cases hvalid with
  | file content' => rw [hcontent, feed]
  | @dir entries hnodup hnames hbelow =>
    exfalso
    cases hempty : entries with
    | nil =>
      refine hone.nonempty ?_
      rw [hcontent, hempty, feed, feedEntries_eq_map, List.map_nil, List.mergeSort_nil,
        List.flatMap_nil]
    | cons e entries' =>
      -- The path of what is below the directory would continue the name.
      obtain ⟨rest, hfeed⟩ := feed_dir_cons hname.text hname.nonempty
        (.dir hnodup hnames hbelow) (hempty ▸ List.cons_ne_nil e entries')
      rw [hfeed] at hcontent
      exact hone.noLonger first _ hcontent hname.nonempty hname.twice

/-! ### Other readings -/

theorem lookup_name (entries : List (OsString × Tree)) (name : OsString) :
    (Tree.dir entries).lookup [name] = (entries.lookup name).map Tree.kind := by
  rw [Tree.lookup]
  cases entries.lookup name <;> rfl

theorem lookup_name_single (name : OsString) (t : Tree) :
    (Tree.dir [(name, t)]).lookup [name] = some t.kind := by
  rw [lookup_name, List.lookup_cons_self, Option.map_some]

theorem lookup_name_ne {name other : OsString} (t : Tree) (h : other ≠ name) :
    (Tree.dir [(name, t)]).lookup [other] = none := by
  rw [lookup_name, List.lookup_cons, beq_eq_false_iff_ne.mpr h, List.lookup_nil, Option.map_none]

theorem entries_of_not_differ {name : OsString} {content : List UInt8} (hname : IsName name)
    {d : Directory} (h : ¬ d.Differ (.single name (.file content) hname (.file content))) :
    d.entries = [(name, .file content)] := by
  have hlookup : ∀ path, (Tree.dir d.entries).lookup path =
      (Tree.dir [(name, Tree.file content)]).lookup path := fun path =>
    by_contra fun hne => h ⟨path, hne⟩
  have hkeys : ∀ e ∈ d.entries, e.1 = name := by
    intro e he
    by_contra hne
    have hnone := hlookup [e.1]
    rw [lookup_name_ne _ hne, lookup_name, Option.map_eq_none_iff, List.lookup_eq_none_iff] at hnone
    exact absurd rfl (bne_iff_ne.mp (hnone e he))
  have hself := hlookup [name]
  rw [lookup_name_single, lookup_name] at hself
  have hnodup : (d.entries.map (·.1)).Nodup := by
    cases d.valid with
    | dir hnodup hnames hbelow => exact hnodup
  match hentries : d.entries with
  | [] =>
    rw [hentries] at hself
    cases hself
  | [(n, t)] =>
    obtain rfl : n = name := hkeys (n, t) (hentries ▸ List.mem_cons_self)
    rw [hentries, List.lookup_cons_self, Option.map_some, Option.some.injEq] at hself
    cases t with
    | file content' =>
      rw [Tree.kind, Tree.kind, Kind.file.injEq] at hself
      rw [hself]
    | symlink => cases hself
    | dir entries => cases hself
  | (n, t) :: (n', t') :: rest =>
    have h₁ := hkeys (n, t) (hentries ▸ List.mem_cons_self)
    have h₂ := hkeys (n', t') (hentries ▸ List.mem_cons_of_mem _ List.mem_cons_self)
    rw [hentries, List.map_cons, List.map_cons, List.nodup_cons] at hnodup
    exact absurd (List.mem_cons.mpr (Or.inl (h₁.trans h₂.symm))) hnodup.1

/-- The directory of two files, the first with the smaller name. -/
def Directory.pair (first second : OsString) (content content' : List UInt8)
    (hfirst : IsName first) (hsecond : IsName second) (hlt : first < second) : Directory where
  entries := [(first, .file content), (second, .file content')]
  valid := .dir
    (List.nodup_cons.mpr ⟨fun hmem => by
      have heq : first = second := List.mem_singleton.mp hmem
      exact Std.lt_irrefl (heq ▸ hlt), List.nodup_singleton _⟩)
    (fun e he => by
      rcases List.mem_pair.mp he with rfl | rfl
      · exact hfirst
      · exact hsecond)
    (fun e he => by
      rcases List.mem_pair.mp he with rfl | rfl
      · exact .file content
      · exact .file content')

theorem stream_pair {first second : OsString} {content content' : List UInt8}
    (hfirst : IsName first) (hsecond : IsName second) (hlt : first < second) :
    (Directory.pair first second content content' hfirst hsecond hlt).stream =
      first ++ (content ++ (second ++ content')) := by
  have hle : keyLe (feedEntry [] (first, .file content)) (feedEntry [] (second, .file content')) =
      true := by
    rw [keyLe_iff, feedEntry, feedEntry, lossy_eq_self hfirst.text, lossy_eq_self hsecond.text]
    exact Std.le_of_lt hlt
  rw [Directory.stream, hashDirectoryInput, Directory.pair, feed, feedEntries_eq_map, List.map_cons,
    List.map_singleton, List.mergeSort_of_pairwise (List.pairwise_pair.mpr hle), List.flatMap_cons,
    List.flatMap_singleton, feedEntry_nil hfirst, feedEntry_nil hsecond, List.append_assoc, feed,
    feed]

/-- A file that has the stream for itself has one reading. -/
theorem oneReading_of_told_apart {name : OsString} {content : List UInt8} (hname : IsName name)
    (h : ∀ d : Directory, Directory.Differ (.single name (.file content) hname (.file content)) d →
      name ++ content ≠ d.stream) : OneReading name content where
  nonempty := by
    rintro rfl
    refine h (.single name (.dir []) hname (.dir List.nodup_nil (fun _ h => by cases h)
      fun _ h => by cases h)) ⟨[name], ?_⟩ ?_
    · rw [Directory.single, Directory.single, lookup_name_single, lookup_name_single]
      exact fun h => by cases h
    · rw [stream_single, feed, feedEntries_eq_map, List.map_nil, List.mergeSort_nil,
        List.flatMap_nil]
  noShorter := by
    rintro shorter rest rfl hrest hshorter
    refine h (.single shorter (.file (rest ++ content)) hshorter (.file _)) ⟨[shorter], ?_⟩ ?_
    · have hne : shorter ≠ shorter ++ rest := fun heq => hrest (List.self_eq_append_right.mp heq)
      rw [Directory.single, Directory.single, lookup_name_single, lookup_name_ne _ hne]
      exact fun h => by cases h
    · rw [stream_single, feed, List.append_assoc]
  noLonger := by
    rintro more rest rfl hmore hlonger
    refine h (.single (name ++ more) (.file rest) hlonger (.file _)) ⟨[name], ?_⟩ ?_
    · have hne : name ≠ name ++ more := fun heq => hmore (List.self_eq_append_right.mp heq)
      rw [Directory.single, Directory.single, lookup_name_single, lookup_name_ne _ hne]
      exact fun h => by cases h
    · rw [stream_single, feed, List.append_assoc]
  noSecond := by
    rintro first second rest rfl hlt hsecond
    refine h (.pair name second first rest hname hsecond hlt) ⟨[second], ?_⟩ ?_
    · have hne : second ≠ name := fun heq => Std.lt_irrefl (heq ▸ hlt)
      rw [Directory.single, Directory.pair, lookup_name_ne _ hne, lookup_name, List.lookup_cons,
        beq_eq_false_iff_ne.mpr hne, List.lookup_cons_self]
      exact fun h => by cases h
    · rw [stream_pair]

/-- **The stream of a directory is that of no other one** exactly when the directory is empty, or is
one file that has one reading only. -/
theorem told_apart_iff (d : Directory) :
    (∀ d' : Directory, d.Differ d' → d.stream ≠ d'.stream) ↔
      d.entries = [] ∨ ∃ name content, d.entries = [(name, .file content)] ∧
        OneReading name content := by
  constructor
  · intro h
    by_cases hne : d.entries = []
    · exact Or.inl hne
    obtain ⟨⟨name, t⟩, he, rest, hstream, -⟩ := stream_of_nonempty d hne
    have hname := names_of_valid d.valid _ he
    dsimp only at hstream hname
    -- The whole stream can be read as one file.
    have hfile : ¬ d.Differ (.single name (.file (feed name t ++ rest)) hname (.file _)) :=
      fun hdiffer => h _ hdiffer (by rw [hstream, stream_single, feed])
    have hentries := entries_of_not_differ hname hfile
    refine Or.inr ⟨name, _, hentries, oneReading_of_told_apart hname fun d' hdiffer => ?_⟩
    rw [← hstream]
    refine h d' ?_
    rw [Directory.Differ, hentries]
    exact hdiffer
  · rintro (hnil | ⟨name, content, hentries, hone⟩) d' ⟨path, hdiffer⟩ hstream
    · have hempty : d.stream = [] := by
        rw [Directory.stream, hashDirectoryInput, hnil, feed, feedEntries_eq_map, List.map_nil,
          List.mergeSort_nil, List.flatMap_nil]
      by_cases hne : d'.entries = []
      · rw [hnil, hne] at hdiffer
        exact hdiffer rfl
      · obtain ⟨e, he, rest, hstream', -⟩ := stream_of_nonempty d' hne
        rw [hempty, hstream'] at hstream
        exact List.append_ne_nil_of_left_ne_nil (names_of_valid d'.valid e he).nonempty _ hstream.symm
    · have hname := names_of_valid d.valid (name, .file content) (hentries ▸ List.mem_cons_self)
      have hself : d.stream = name ++ content := by
        rw [Directory.stream, hashDirectoryInput, hentries]
        exact stream_single hname (.file content)
      have hentries' := entries_of_stream hname hone d' (hstream.symm.trans hself)
      rw [hentries, hentries'] at hdiffer
      exact hdiffer rfl

theorem isName_of_ascii {b : UInt8} (htext : IsText [b]) (hslash : b ≠ slash) (hnul : b ≠ 0)
    (hdot : b ≠ 46) : IsName [b] where
  text := htext
  nonempty := List.cons_ne_nil _ _
  noSlash := fun hmem => hslash (List.mem_singleton.mp hmem).symm
  noNul := fun hmem => hnul (List.mem_singleton.mp hmem).symm
  notDot := fun heq => hdot (List.singleton_inj.mp heq)
  notDotDot := fun heq => nomatch congrArg List.length heq

/-- A file `a` with the content `b`, and an empty file `ab`. -/
theorem file_and_content_collide :
    ∃ d d' : Directory, d.Differ d' ∧ d.stream = d'.stream := by
  have ha : IsText [0x61] := .cons (c := [0x61]) rfl .nil
  have hb : IsText [0x62] := .cons (c := [0x62]) rfl .nil
  have hname : IsName [0x61] := isName_of_ascii ha (by decide) (by decide) (by decide)
  have hname' : IsName [0x61, 0x62] :=
    { text := ha.append hb
      nonempty := List.cons_ne_nil _ _
      noSlash := by decide
      noNul := by decide
      notDot := by decide
      notDotDot := by decide }
  refine ⟨.single [0x61] (.file [0x62]) hname (.file _), .single [0x61, 0x62] (.file []) hname' (.file _),
    ⟨[[0x61]], ?_⟩, ?_⟩
  · rw [Directory.single, Directory.single, lookup_name_single, lookup_name_ne _ (by decide)]
    exact fun h => by cases h
  · rw [stream_single, stream_single, feed, feed, List.append_nil]
    rfl

end PgEmbeddedSetup.TestSupport
