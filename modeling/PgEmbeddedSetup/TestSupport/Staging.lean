import Mathlib.Logic.Function.Basic
import PgEmbeddedSetup.Base.Overlay
import PgEmbeddedSetup.Base.Program
import PgEmbeddedSetup.Base.Transition

/-!
# The staged worker

`try_stage_worker_binary` copies the worker to the temporary directory, in place, and a later call
takes what it finds there unless the source is newer. Processes that call it for one source are
interleaved, the source is replaced meanwhile, and calls fail or are killed. `staged_right` says which
steps a run must not have for every call that returns `Ok` to find the copy complete.
-/

namespace PgEmbeddedSetup.Staging

open Program Transition

structure File where
  content : List UInt8
  mode : Nat
  mtime : Nat
  deriving DecidableEq

/-- `statStaged` is answered by none where there is no staged file. The open source is answered with
its content, and a write of several bytes is several of these. -/
inductive Instr where
  | statStaged
  | statSource
  | openSource
  | create (mode : Nat)
  | fchmod (mode : Nat)
  | write (offset : Nat) (byte : UInt8)
  | chmod (mode : Nat)
  deriving DecidableEq

@[reducible] def Instr.Reply : Instr → Type
  | .statStaged => Option Nat
  | .statSource => Nat
  | .openSource => File
  | .create _ | .fchmod _ | .write _ _ | .chmod _ => Unit

/-- A call that fails for another reason ends the program, as a kill does. -/
abbrev Code := Prog Instr Instr.Reply

def call (i : Instr) : Code i.Reply := Prog.call i

/-! ### The functions -/

def shouldRestage : Code Bool := do
  match ← call .statStaged with
  | none => pure true
  | some stagedMtime => do
    let sourceMtime ← call .statSource
    pure (decide (stagedMtime < sourceMtime))

def writeAll : Nat → List UInt8 → Code Unit
  | _, [] => pure ()
  | offset, byte :: rest => do
    call (.write offset byte)
    writeAll (offset + 1) rest

/-- `fs::copy`. -/
def copy : Code Unit := do
  let file ← call .openSource
  call (.create file.mode)
  call (.fchmod file.mode)
  writeAll 0 file.content

/-- Whether the result is `Ok`, once there is a directory for the copy. -/
def tryStageWorkerBinary : Code Bool := do
  if ← shouldRestage then
    copy
    match ← call .statStaged with
    | none => pure false
    | some _ => do
      call (.chmod 0o755)
      pure true
  else pure true

/-! ### Processes -/

/-- What a call has seen and done so far. -/
structure Progress where
  staged : Option Nat
  source : Option Nat
  reader : Option File
  written : Option Nat
  finished : Bool

def Progress.start : Progress := ⟨none, none, none, none, false⟩

def Progress.after (pr : Progress) : (i : Instr) → i.Reply → Progress
  | .statStaged, mtime => { pr with staged := mtime }
  | .statSource, mtime => { pr with source := some mtime }
  | .openSource, file => { pr with reader := some file }
  | .create _, _ => { pr with written := some 0 }
  | .fchmod _, _ => pr
  | .write _ _, _ => { pr with written := pr.written.map (· + 1) }
  | .chmod _, _ => { pr with finished := true }

/-- The call has opened the source and not come to the end of its copy. -/
def Progress.Reading (pr : Progress) : Prop := pr.reader.isSome = true ∧ pr.finished = false

/-- It has truncated the staged file. -/
def Progress.Copying (pr : Progress) : Prop := pr.written.isSome = true ∧ pr.finished = false

/-- A call, and which source there was when it began. -/
structure Call where
  since : Nat
  progress : Progress
  rest : Code Bool

/-- What there is when a call returns `Ok`. -/
structure Return where
  replaced : Bool
  source : File
  staged : Option File
  deriving DecidableEq

/-- `version` counts the replacements of the source. -/
structure State where
  source : File
  version : Nat
  staged : Option File
  calls : Nat → Option Call
  returned : List Return

/-- No call has been made. -/
def State.init (source : File) : State := ⟨source, 0, none, fun _ => none, []⟩

/-- The time of a write is up to the clock. -/
inductive Event where
  | replace (new : File)
  | begin (p : Nat)
  | advance (p : Nat) (umask now : Nat)
  | abort (p : Nat)

/-- The reply to an instruction, and the staged file after it. -/
def perform (umask now : Nat) (source : File) (staged : Option File) :
    (i : Instr) → i.Reply × Option File
  | .statStaged => (staged.map File.mtime, staged)
  | .statSource => (source.mtime, staged)
  | .openSource => (source, staged)
  | .create mode =>
    ((), match staged with
      | none => some ⟨[], mode ^^^ (mode &&& umask), now⟩
      | some file => some { file with content := [], mtime := now })
  | .fchmod mode | .chmod mode => ((), staged.map fun file => { file with mode := mode })
  | .write offset byte => ((), staged.map fun file =>
      { file with content := file.content.putAt 0 offset byte, mtime := now })

def State.setCall (s : State) (p : Nat) (c : Option Call) : State :=
  { s with calls := Function.update s.calls p c }

def State.advance (s : State) (p : Nat) (c : Call) (umask now : Nat) : State :=
  match c.rest with
  | .ret ok =>
    { s.setCall p none with
      returned := if ok then s.returned ++ [⟨c.since != s.version, s.source, s.staged⟩]
        else s.returned }
  | .exec i k =>
    let done := perform umask now s.source s.staged i
    { s.setCall p (some ⟨c.since, c.progress.after i done.1, k done.1⟩) with staged := done.2 }

def step (s : State) : Event → Option State
  | .replace new => some { s with source := new, version := s.version + 1 }
  | .begin p =>
    match s.calls p with
    | none => some (s.setCall p (some ⟨s.version, .start, tryStageWorkerBinary⟩))
    | some _ => none
  | .advance p umask now => (s.calls p).map fun c => s.advance p c umask now
  | .abort p => (s.calls p).map fun _ => s.setCall p none

/-! ### What is promised -/

/-- The staged file has the content of the source, and the mode of a program. -/
def Return.Right (r : Return) : Prop :=
  r.staged.any (fun file => file.content = r.source.content ∧ file.mode = 0o755) = true

/-- No call returns `Ok` while the copy of another is under way, no copy that was begun is cut short by
an error or a kill, and a new source is newer than the staged file and comes while no call is copying
the old one. -/
def Careful (s : State) : Event → Prop
  | .replace new => (∀ file, s.staged = some file → file.mtime < new.mtime) ∧
      ∀ q c, s.calls q = some c → ¬ c.progress.Reading
  | .begin _ => True
  | .advance p _ _ => ∀ c, s.calls p = some c → c.rest = .ret true →
      ∀ q c', q ≠ p → s.calls q = some c' → ¬ c'.progress.Copying
  | .abort p => ∀ c, s.calls p = some c → ¬ c.progress.Copying

/-! ### What a call may do next -/

/-- `Ok` comes after a whole copy, or without one where the staged file was not older. -/
def Progress.MayReturn (pr : Progress) : Prop :=
  pr.finished = true ∨ pr.written = none ∧
    ∃ staged source, pr.staged = some staged ∧ pr.source = some source ∧ source ≤ staged

def Progress.Allows (pr : Progress) : Instr → Prop
  | .statStaged | .statSource => True
  | .openSource => pr.reader = none ∧ pr.written = none
  | .create _ => pr.reader.isSome = true ∧ pr.finished = false
  | .fchmod _ => pr.Copying
  | .write offset byte => pr.finished = false ∧ pr.written = some offset ∧
      ∃ file, pr.reader = some file ∧ file.content[offset]? = some byte
  | .chmod mode => mode = 0o755 ∧ pr.finished = false ∧
      ∃ file, pr.reader = some file ∧ pr.written = some file.content.length

/-- A file that is being copied is there. -/
def Progress.Expects (pr : Progress) : (i : Instr) → i.Reply → Prop
  | .statStaged, mtime => pr.Copying → mtime.isSome = true
  | _, _ => True

/-- All that the program does is allowed when it comes to it. -/
def Follows : Progress → Code Bool → Prop
  | pr, .ret ok => ok = true ∧ pr.MayReturn
  | pr, .exec i k => pr.Allows i ∧ ∀ r, pr.Expects i r → Follows (pr.after i r) (k r)

theorem follows_writeAll {pr : Progress} {file : File} {offset : Nat} {rest : List UInt8}
    {K : Unit → Code Bool} (hdrop : file.content.drop offset = rest)
    (hwritten : pr.written = some offset) (hreader : pr.reader = some file)
    (hfinished : pr.finished = false) (hoffset : offset ≤ file.content.length)
    (hK : ∀ pr' : Progress, pr'.written = some file.content.length → pr'.reader = some file →
      pr'.finished = false → Follows pr' (K ())) :
    Follows pr (writeAll offset rest >>= K) := by
  induction rest generalizing pr offset with
  | nil =>
    have hlength := List.drop_eq_nil_iff.mp hdrop
    obtain rfl : offset = file.content.length := Nat.le_antisymm hoffset hlength
    exact hK pr hwritten hreader hfinished
  | cons byte rest ih =>
    have hlt : offset < file.content.length := by
      by_contra hge
      rw [List.drop_eq_nil_iff.mpr (Nat.le_of_not_lt hge)] at hdrop
      cases hdrop
    rw [List.drop_eq_getElem_cons hlt, List.cons.injEq] at hdrop
    refine ⟨⟨hfinished, hwritten, file, hreader, ?_⟩, fun _ _ => ?_⟩
    · rw [List.getElem?_eq_getElem hlt, hdrop.1]
    · exact ih hdrop.2 (by rw [Progress.after, hwritten, Option.map_some]) hreader hfinished hlt

theorem follows_restage {pr : Progress} (hreader : pr.reader = none) (hwritten : pr.written = none)
    (hfinished : pr.finished = false) :
    Follows pr (do
      copy
      match ← call .statStaged with
      | none => pure false
      | some _ => do
        call (.chmod 0o755)
        pure true) := by
  refine ⟨⟨hreader, hwritten⟩, fun file _ => ⟨⟨rfl, hfinished⟩, fun _ _ => ⟨⟨rfl, hfinished⟩,
    fun _ _ => ?_⟩⟩⟩
  refine follows_writeAll (List.drop_zero) rfl rfl hfinished (Nat.zero_le _) ?_
  intro pr' hwritten' hreader' hfinished'
  refine ⟨trivial, fun mtime hmtime => ?_⟩
  cases mtime with
  | none => cases hmtime ⟨by rw [hwritten']; rfl, hfinished'⟩
  | some mtime =>
    exact ⟨⟨rfl, hfinished', file, hreader', hwritten'⟩, fun _ _ => ⟨rfl, Or.inl rfl⟩⟩

theorem follows_tryStageWorkerBinary : Follows .start tryStageWorkerBinary := by
  refine ⟨trivial, fun staged _ => ?_⟩
  cases staged with
  | none => exact follows_restage rfl rfl rfl
  | some stagedMtime =>
    refine ⟨trivial, fun (sourceMtime : Nat) _ => ?_⟩
    show Follows _ (if decide (stagedMtime < sourceMtime) = true then _ else _)
    split
    next => exact follows_restage rfl rfl rfl
    next h =>
      rw [decide_eq_true_eq, Nat.not_lt] at h
      exact ⟨rfl, Or.inr ⟨rfl, stagedMtime, sourceMtime, rfl, rfl, h⟩⟩

/-! ### The invariant -/

/-- The staged file is as far as `k` a copy of the content, or a call that has written as much as agrees
goes on with the copy. The same for its mode. -/
structure Good (content : List UInt8) (calls : Nat → Option Call) (file : File) : Prop where
  length_le : file.content.length ≤ content.length
  agrees : file.content.AgreesTo content content.length ∨
    ∃ q c k, calls q = some c ∧ c.progress.finished = false ∧ c.progress.written = some k ∧
      k ≤ content.length ∧ file.content.AgreesTo content k
  mode : file.mode = 0o755 ∨ ∃ q c, calls q = some c ∧ c.progress.Copying

/-- There is a staged file, and it is or becomes a copy of the source. -/
def State.Staged (s : State) : Prop :=
  ∃ file, s.staged = some file ∧ Good s.source.content s.calls file

structure Sound (s : State) (c : Call) : Prop where
  follows : Follows c.progress c.rest
  reads : c.progress.written.isSome = true → c.progress.reader.isSome = true
  current : c.progress.finished = false →
    ∀ file, c.progress.reader = some file → file.content = s.source.content
  since_le : c.since ≤ s.version
  seen : c.since = s.version → ∀ mtime, c.progress.staged = some mtime →
    s.source.mtime ≤ mtime → s.Staged
  compared : c.since = s.version → ∀ mtime, c.progress.source = some mtime → mtime = s.source.mtime
  copied : c.since = s.version → c.progress.finished = true → s.Staged

structure Inv (s : State) : Prop where
  sound : ∀ p c, s.calls p = some c → Sound s c
  copying : ∀ p c, s.calls p = some c → c.progress.Copying → s.Staged
  older : ∀ file, s.staged = some file → file.mtime < s.source.mtime ∨ s.Staged
  right : ∀ r ∈ s.returned, r.replaced = false → r.Right

theorem inv_init (source : File) : Inv (.init source) where
  sound := fun _ _ h => by cases h
  copying := fun _ _ h => by cases h
  older := fun _ h => by cases h
  right := fun _ h => absurd h List.not_mem_nil

variable {s s' : State} {p : Nat} {c : Call}

theorem Good.done {content : List UInt8} {calls : Nat → Option Call} {file : File}
    (h : Good content calls file)
    (hnone : ∀ q c, calls q = some c → ¬ c.progress.Copying) :
    file.content = content ∧ file.mode = 0o755 := by
  constructor
  · rcases h.agrees with hall | ⟨q, c, k, hq, hfinished, hwritten, -, -⟩
    · exact hall.eq h.length_le
    · exact absurd ⟨by rw [hwritten]; rfl, hfinished⟩ (hnone q c hq)
  · rcases h.mode with hmode | ⟨q, c, hq, hcopying⟩
    · exact hmode
    · exact absurd hcopying (hnone q c hq)

theorem Good.calls_mono {content : List UInt8} {calls calls' : Nat → Option Call} {file : File}
    (h : Good content calls file)
    (hcalls : ∀ q c, calls q = some c → c.progress.Copying → ∃ c', calls' q = some c' ∧
      c'.progress.written = c.progress.written ∧ c'.progress.finished = c.progress.finished) :
    Good content calls' file where
  length_le := h.length_le
  agrees := by
    refine h.agrees.imp_right fun ⟨q, c, k, hq, hfinished, hwritten, hk, hagrees⟩ => ?_
    obtain ⟨c', hq', hwritten', hfinished'⟩ := hcalls q c hq ⟨by rw [hwritten]; rfl, hfinished⟩
    exact ⟨q, c', k, hq', hfinished'.trans hfinished, hwritten'.trans hwritten, hk, hagrees⟩
  mode := by
    refine h.mode.imp_right fun ⟨q, c, hq, hcopying⟩ => ?_
    obtain ⟨c', hq', hwritten', hfinished'⟩ := hcalls q c hq hcopying
    exact ⟨q, c', hq', by rw [Progress.Copying, hwritten', hfinished']; exact hcopying⟩

/-! ### One instruction -/

theorem exists_update {calls : Nat → Option Call} {P : Nat → Call → Prop} (c' : Call)
    (hc : calls p = some c) (h : ∃ q c₀, calls q = some c₀ ∧ P q c₀) (hP : P p c → P p c') :
    ∃ q c₀, Function.update calls p (some c') q = some c₀ ∧ P q c₀ := by
  obtain ⟨q, c₀, hq, hPq⟩ := h
  by_cases heq : q = p
  · subst heq
    obtain rfl := Option.some.inj (hc.symm.trans hq)
    exact ⟨q, c', Function.update_self .., hP hPq⟩
  · exact ⟨q, c₀, by rw [Function.update_of_ne heq]; exact hq, hPq⟩

section Instructions

variable {file : File} {pr : Progress} {since umask now : Nat} {rest : Code Bool}

theorem Good.unwritten {content : List UInt8} {calls : Nat → Option Call}
    (h : Good content calls file) (hc : calls p = some c)
    (hwritten : pr.written = c.progress.written) (hfinished : pr.finished = c.progress.finished) :
    Good content (Function.update calls p (some ⟨since, pr, rest⟩)) file where
  length_le := h.length_le
  agrees := h.agrees.imp_right fun ⟨q, c₀, k, hq, hrest⟩ => by
    obtain ⟨q', c', hq', h'⟩ := exists_update (P := fun _ c₀ => c₀.progress.finished = false ∧
      c₀.progress.written = some k ∧ k ≤ content.length ∧ file.content.AgreesTo content k)
      ⟨since, pr, rest⟩ hc ⟨q, c₀, hq, hrest⟩ fun ⟨hf, hw, hk⟩ =>
        ⟨hfinished.trans hf, hwritten.trans hw, hk⟩
    exact ⟨q', c', k, hq', h'⟩
  mode := h.mode.imp_right fun hcopying => exists_update _ hc hcopying fun h => by
    rw [Progress.Copying, hwritten, hfinished]
    exact h

theorem good_truncated {content : List UInt8} {calls : Nat → Option Call} {mode mtime : Nat}
    (hwritten : pr.written = some 0) (hfinished : pr.finished = false) :
    Good content (Function.update calls p (some ⟨since, pr, rest⟩)) ⟨[], mode, mtime⟩ where
  length_le := Nat.zero_le _
  agrees := Or.inr ⟨p, _, 0, Function.update_self .., hfinished, hwritten, Nat.zero_le _,
    List.agreesTo_zero _ _⟩
  mode := Or.inr ⟨p, _, Function.update_self .., by rw [hwritten]; rfl, hfinished⟩

theorem Good.wrote {content : List UInt8} {calls : Nat → Option Call} {offset : Nat} {byte : UInt8}
    {mtime : Nat} (h : Good content calls file) (hc : calls p = some c)
    (hbyte : content[offset]? = some byte) (hwritten : c.progress.written = some offset)
    (hwritten' : pr.written = some (offset + 1)) (hfinished : pr.finished = c.progress.finished) :
    Good content (Function.update calls p (some ⟨since, pr, rest⟩))
      { file with content := file.content.putAt 0 offset byte, mtime := mtime } where
  length_le := List.length_putAt_le h.length_le hbyte
  agrees := by
    rcases h.agrees with hall | ⟨q, c₀, k, hq, hf, hw, hk, hagrees⟩
    · exact Or.inl (hall.putAt (Nat.le_refl _) hbyte)
    · refine Or.inr ?_
      by_cases heq : q = p
      · -- the call goes on from where it agrees
        subst heq
        obtain rfl := Option.some.inj (hc.symm.trans hq)
        obtain rfl := Option.some.inj (hwritten.symm.trans hw)
        exact ⟨q, _, offset + 1, Function.update_self .., hfinished.trans hf, hwritten',
          (List.getElem?_eq_some_iff.mp hbyte).1, hagrees.putAt_next hbyte⟩
      · exact ⟨q, c₀, k, by rw [Function.update_of_ne heq]; exact hq, hf, hw, hk,
          hagrees.putAt hk hbyte⟩
  mode := h.mode.imp_right fun hcopying => exists_update _ hc hcopying fun h =>
    ⟨by rw [hwritten']; rfl, hfinished.trans h.2⟩

theorem Good.finished {content : List UInt8} {calls : Nat → Option Call}
    (h : Good content calls file) (hc : calls p = some c)
    (hwritten : c.progress.written = some content.length) :
    Good content (Function.update calls p (some ⟨since, pr, rest⟩)) { file with mode := 0o755 } where
  length_le := h.length_le
  agrees := by
    rcases h.agrees with hall | ⟨q, c₀, k, hq, hf, hw, hk, hagrees⟩
    · exact Or.inl hall
    · by_cases heq : q = p
      · subst heq
        obtain rfl := Option.some.inj (hc.symm.trans hq)
        obtain rfl := Option.some.inj (hwritten.symm.trans hw)
        exact Or.inl hagrees
      · exact Or.inr ⟨q, c₀, k, by rw [Function.update_of_ne heq]; exact hq, hf, hw, hk, hagrees⟩
  mode := Or.inl rfl

theorem Good.chmodded {content : List UInt8} {calls : Nat → Option Call} {mode : Nat}
    (h : Good content calls file) (hcopying : ∃ q c, calls q = some c ∧ c.progress.Copying) :
    Good content calls { file with mode := mode } :=
  ⟨h.length_le, h.agrees, Or.inr hcopying⟩

end Instructions

section Instructions

variable {umask now : Nat} {i : Instr} {k : i.Reply → Code Bool}

/-- An instruction of a call leaves the staged file good, and `create` makes it so. -/
theorem staged_advance (hsound : Sound s c) (hc : s.calls p = some c) (hrest : c.rest = .exec i k)
    (hallows : c.progress.Allows i) (hstaged : s.Staged ∨ ∃ mode, i = .create mode) :
    (s.advance p c umask now).Staged := by
  have hadvance : s.advance p c umask now =
      { s.setCall p (some ⟨c.since,
          c.progress.after i (perform umask now s.source s.staged i).1,
          k (perform umask now s.source s.staged i).1⟩) with
        staged := (perform umask now s.source s.staged i).2 } := by
    rw [State.advance, hrest]
  rw [hadvance]
  unfold State.Staged State.setCall
  cases i with
  | create mode =>
    cases hfile : s.staged with
    | none => exact ⟨_, rfl, good_truncated rfl hallows.2⟩
    | some file => exact ⟨_, rfl, good_truncated rfl hallows.2⟩
  | statStaged =>
    obtain ⟨file, hfile, hgood⟩ := hstaged.resolve_right (by rintro ⟨_, h⟩; cases h)
    exact ⟨file, hfile, hgood.unwritten hc rfl rfl⟩
  | statSource =>
    obtain ⟨file, hfile, hgood⟩ := hstaged.resolve_right (by rintro ⟨_, h⟩; cases h)
    exact ⟨file, hfile, hgood.unwritten hc rfl rfl⟩
  | openSource =>
    obtain ⟨file, hfile, hgood⟩ := hstaged.resolve_right (by rintro ⟨_, h⟩; cases h)
    exact ⟨file, hfile, hgood.unwritten hc rfl rfl⟩
  | fchmod mode =>
    obtain ⟨file, hfile, hgood⟩ := hstaged.resolve_right (by rintro ⟨_, h⟩; cases h)
    exact ⟨{ file with mode := mode }, congrArg (Option.map _) hfile,
      (hgood.unwritten hc rfl rfl).chmodded ⟨p, _, Function.update_self .., hallows⟩⟩
  | write offset byte =>
    obtain ⟨file, hfile, hgood⟩ := hstaged.resolve_right (by rintro ⟨_, h⟩; cases h)
    obtain ⟨hfinished, hwritten, source, hreader, hbyte⟩ := hallows
    rw [hsound.current hfinished source hreader] at hbyte
    exact ⟨_, congrArg (Option.map _) hfile, hgood.wrote hc hbyte hwritten
      (by rw [Progress.after, hwritten, Option.map_some]) rfl⟩
  | chmod mode =>
    obtain ⟨file, hfile, hgood⟩ := hstaged.resolve_right (by rintro ⟨_, h⟩; cases h)
    obtain ⟨rfl, hfinished, source, hreader, hwritten⟩ := hallows
    rw [hsound.current hfinished source hreader] at hwritten
    exact ⟨_, congrArg (Option.map _) hfile, hgood.finished hc hwritten⟩

end Instructions

/-! ### The steps -/

section Steps

variable {umask now : Nat}

theorem Sound.keep (h : Sound s c) (hsource : s'.source = s.source) (hversion : s'.version = s.version)
    (hstaged : s.Staged → s'.Staged) : Sound s' c where
  follows := h.follows
  reads := h.reads
  current := by
    rw [hsource]
    exact h.current
  since_le := hversion ▸ h.since_le
  seen := by
    rw [hsource, hversion]
    exact fun hsince mtime hmtime hle => hstaged (h.seen hsince mtime hmtime hle)
  compared := by
    rw [hsource, hversion]
    exact h.compared
  copied := by
    rw [hversion]
    exact fun hsince hfinished => hstaged (h.copied hsince hfinished)

theorem State.Staged.setCall (h : s.Staged) {c' : Option Call}
    (hc : ∀ c, s.calls p = some c → ¬ c.progress.Copying) : (s.setCall p c').Staged := by
  obtain ⟨file, hfile, hgood⟩ := h
  refine ⟨file, hfile, hgood.calls_mono fun q c hq hcopying => ?_⟩
  have hne : q ≠ p := fun heq => hc c (heq ▸ hq) hcopying
  have hq' : Function.update s.calls p c' q = some c := by
    rw [Function.update_of_ne hne]
    exact hq
  exact ⟨c, hq', rfl, rfl⟩

theorem setCall_calls {c' c₀ : Option Call} {q : Nat} (h : (s.setCall p c').calls q = c₀) :
    (q = p ∧ c' = c₀) ∨ (q ≠ p ∧ s.calls q = c₀) := by
  have h : Function.update s.calls p c' q = c₀ := h
  by_cases heq : q = p
  · subst heq
    rw [Function.update_self] at h
    exact Or.inl ⟨rfl, h⟩
  · rw [Function.update_of_ne heq] at h
    exact Or.inr ⟨heq, h⟩

theorem inv_setCall (hinv : Inv s) {c' : Option Call}
    (hc : ∀ c, s.calls p = some c → ¬ c.progress.Copying)
    (hc' : ∀ c, c' = some c → Sound (s.setCall p c') c ∧ ¬ c.progress.Copying) :
    Inv (s.setCall p c') where
  sound := by
    intro q c hq
    rcases setCall_calls hq with ⟨-, heq⟩ | ⟨-, hq⟩
    · exact (hc' c heq).1
    · exact (hinv.sound q c hq).keep rfl rfl fun h => h.setCall hc
  copying := by
    intro q c hq hcopying
    rcases setCall_calls hq with ⟨-, heq⟩ | ⟨-, hq⟩
    · exact absurd hcopying (hc' c heq).2
    · exact (hinv.copying q c hq hcopying).setCall hc
  older := fun file hfile => (hinv.older file hfile).imp_right fun h => h.setCall hc
  right := hinv.right

theorem inv_returned {returned : List Return} (hinv : Inv s)
    (h : ∀ r ∈ returned, r.replaced = false → r.Right) : Inv { s with returned := returned } where
  sound := fun q c hq => (hinv.sound q c hq).keep rfl rfl id
  copying := hinv.copying
  older := hinv.older
  right := h

theorem inv_replace {new : File} (hinv : Inv s) (hcareful : Careful s (.replace new)) :
    Inv { s with source := new, version := s.version + 1 } where
  sound := by
    intro q c hq
    have hsound := hinv.sound q c hq
    have hsince : c.since ≠ s.version + 1 := Nat.ne_of_lt (Nat.lt_succ_of_le hsound.since_le)
    exact
      { follows := hsound.follows
        reads := hsound.reads
        current := fun hfinished file hreader =>
          absurd ⟨by rw [hreader]; rfl, hfinished⟩ (hcareful.2 q c hq)
        since_le := Nat.le_succ_of_le hsound.since_le
        seen := fun heq => absurd heq hsince
        compared := fun heq => absurd heq hsince
        copied := fun heq => absurd heq hsince }
  copying := fun q c hq hcopying =>
    absurd ⟨(hinv.sound q c hq).reads hcopying.1, hcopying.2⟩ (hcareful.2 q c hq)
  older := fun file hfile => Or.inl (hcareful.1 file hfile)
  right := hinv.right

theorem right_of_ret (hinv : Inv s) (hc : s.calls p = some c) (hrest : c.rest = .ret true)
    (hcareful : ∀ q c', q ≠ p → s.calls q = some c' → ¬ c'.progress.Copying) :
    ¬ c.progress.Copying ∧ (c.since = s.version → Return.Right ⟨false, s.source, s.staged⟩) := by
  have hsound := hinv.sound p c hc
  have hmay : c.progress.MayReturn := by
    have hfollows := hsound.follows
    rw [hrest] at hfollows
    exact hfollows.2
  have hnot : ¬ c.progress.Copying := by
    rintro ⟨hwritten, hunfinished⟩
    rcases hmay with hfinished | ⟨hnone, -⟩
    · rw [hfinished] at hunfinished
      cases hunfinished
    · rw [hnone] at hwritten
      cases hwritten
  refine ⟨hnot, fun hsince => ?_⟩
  have hstaged : s.Staged := by
    rcases hmay with hfinished | ⟨-, staged, source, hseen, hcompared, hle⟩
    · exact hsound.copied hsince hfinished
    · obtain rfl := hsound.compared hsince source hcompared
      exact hsound.seen hsince staged hseen hle
  obtain ⟨file, hfile, hgood⟩ := hstaged
  obtain ⟨hcontent, hmode⟩ := hgood.done fun q c' hq => by
    by_cases heq : q = p
    · subst heq
      obtain rfl := Option.some.inj (hc.symm.trans hq)
      exact hnot
    · exact hcareful q c' heq hq
  unfold Return.Right
  rw [hfile, Option.any_some, decide_eq_true_eq]
  exact ⟨hcontent, hmode⟩

theorem sound_after (hinv : Inv s) (hc : s.calls p = some c) {i : Instr} {k : i.Reply → Code Bool}
    (hrest : c.rest = .exec i k) (hsource : s'.source = s.source) (hversion : s'.version = s.version)
    (hstaged : s.Staged → s'.Staged) :
    Sound s' ⟨c.since, c.progress.after i (perform umask now s.source s.staged i).1,
      k (perform umask now s.source s.staged i).1⟩ := by
  have hsound := hinv.sound p c hc
  have hfollows := hsound.follows
  rw [hrest] at hfollows
  obtain ⟨hallows, hnext⟩ := hfollows
  have hkeep := hsound.keep hsource hversion hstaged
  refine ⟨hnext _ ?_, ?_, ?_, hkeep.since_le, ?_, ?_, ?_⟩
  · cases i with
    | statStaged =>
      intro hcopying
      obtain ⟨file, hfile, -⟩ := hinv.copying p c hc hcopying
      show (s.staged.map File.mtime).isSome = true
      rw [hfile]
      rfl
    | _ => trivial
  · cases i with
    | create mode => exact fun _ => hallows.1
    | write offset byte => exact fun h => hsound.reads (by rw [hallows.2.1]; rfl)
    | openSource => exact fun _ => rfl
    | _ => exact hsound.reads
  · cases i with
    | openSource =>
      intro _ file hfile
      obtain rfl := Option.some.inj hfile
      rw [hsource]
      rfl
    | chmod mode => exact fun h => by cases h
    | _ => exact hkeep.current
  · cases i with
    | statStaged =>
      intro _ mtime hmtime hle
      obtain ⟨file, hfile, rfl⟩ := Option.map_eq_some_iff.mp hmtime
      rw [hsource] at hle
      exact hstaged ((hinv.older file hfile).resolve_left (Nat.not_lt.mpr hle))
    | _ => exact hkeep.seen
  · cases i with
    | statSource =>
      intro _ mtime hmtime
      obtain rfl := Option.some.inj hmtime
      rw [hsource]
      rfl
    | _ => exact hkeep.compared
  · cases i with
    | chmod mode =>
      obtain ⟨-, hfinished, file, -, hwritten⟩ := hallows
      exact fun _ _ => hstaged (hinv.copying p c hc ⟨by rw [hwritten]; rfl, hfinished⟩)
    | _ => exact hkeep.copied

/-- An instruction that touches the staged file is one of a copy. -/
theorem staged_or_untouched (hinv : Inv s) (hc : s.calls p = some c) {i : Instr}
    (hallows : c.progress.Allows i) :
    (s.Staged ∨ ∃ mode, i = .create mode) ∨
      (perform umask now s.source s.staged i).2 = s.staged ∧
        ∀ r, (c.progress.after i r).Copying → c.progress.Copying := by
  cases i with
  | statStaged => exact Or.inr ⟨rfl, fun _ => id⟩
  | statSource => exact Or.inr ⟨rfl, fun _ => id⟩
  | openSource => exact Or.inr ⟨rfl, fun _ => id⟩
  | create mode => exact Or.inl (Or.inr ⟨mode, rfl⟩)
  | fchmod mode => exact Or.inl (Or.inl (hinv.copying p c hc hallows))
  | write offset byte =>
    exact Or.inl (Or.inl (hinv.copying p c hc ⟨by rw [hallows.2.1]; rfl, hallows.1⟩))
  | chmod mode =>
    obtain ⟨-, hfinished, file, -, hwritten⟩ := hallows
    exact Or.inl (Or.inl (hinv.copying p c hc ⟨by rw [hwritten]; rfl, hfinished⟩))

theorem inv_exec (hinv : Inv s) (hc : s.calls p = some c) {i : Instr} {k : i.Reply → Code Bool}
    (hrest : c.rest = .exec i k) : Inv (s.advance p c umask now) := by
  have hallows : c.progress.Allows i := by
    have hfollows := (hinv.sound p c hc).follows
    rw [hrest] at hfollows
    exact hfollows.1
  have hstaged : s.Staged ∨ (∃ mode, i = .create mode) → (s.advance p c umask now).Staged :=
    staged_advance (hinv.sound p c hc) hc hrest hallows
  have hsource : (s.advance p c umask now).source = s.source := by rw [State.advance, hrest]; rfl
  have hversion : (s.advance p c umask now).version = s.version := by
    rw [State.advance, hrest]; rfl
  have hcalls : ∀ q c₀, (s.advance p c umask now).calls q = some c₀ →
      (q = p ∧ c₀ = ⟨c.since, c.progress.after i (perform umask now s.source s.staged i).1,
        k (perform umask now s.source s.staged i).1⟩) ∨ s.calls q = some c₀ := by
    intro q c₀ hq
    rw [State.advance, hrest] at hq
    rcases setCall_calls hq with ⟨heq, hsome⟩ | ⟨-, hq⟩
    · exact Or.inl ⟨heq, (Option.some.inj hsome).symm⟩
    · exact Or.inr hq
  have hfile : (s.advance p c umask now).staged = (perform umask now s.source s.staged i).2 := by
    rw [State.advance, hrest]
  have htouched : _ ∨ (perform umask now s.source s.staged i).2 = _ ∧ _ :=
    staged_or_untouched hinv hc hallows
  refine ⟨fun q c₀ hq => ?_, fun q c₀ hq hcopying => ?_, fun file h => ?_, ?_⟩
  · rcases hcalls q c₀ hq with ⟨-, rfl⟩ | hq
    · exact sound_after hinv hc hrest hsource hversion fun h => hstaged (Or.inl h)
    · exact (hinv.sound q c₀ hq).keep hsource hversion fun h => hstaged (Or.inl h)
  · rcases hcalls q c₀ hq with ⟨rfl, rfl⟩ | hq
    · rcases htouched with h | ⟨-, h⟩
      · exact hstaged h
      · exact hstaged (Or.inl (hinv.copying q c hc (h _ hcopying)))
    · exact hstaged (Or.inl (hinv.copying q c₀ hq hcopying))
  · rcases htouched with htouched | ⟨huntouched, -⟩
    · exact Or.inr (hstaged htouched)
    · rw [hfile, huntouched] at h
      rw [hsource]
      exact (hinv.older file h).imp_right fun h => hstaged (Or.inl h)
  · rw [State.advance, hrest]
    exact hinv.right

theorem inv_ret (hinv : Inv s) (hc : s.calls p = some c) {ok : Bool} (hrest : c.rest = .ret ok)
    (hcareful : Careful s (.advance p umask now)) : Inv (s.advance p c umask now) := by
  have hok : ok = true := by
    have hfollows := (hinv.sound p c hc).follows
    rw [hrest] at hfollows
    exact hfollows.1
  subst hok
  obtain ⟨hnot, hright⟩ := right_of_ret hinv hc hrest (hcareful c hc hrest)
  have hleft : Inv (s.setCall p none) :=
    inv_setCall hinv (fun c' hc' => Option.some.inj (hc.symm.trans hc') ▸ hnot) nofun
  rw [State.advance, hrest]
  refine inv_returned hleft fun r hr hreplaced => ?_
  rcases List.mem_append.mp hr with hr | hr
  · exact hinv.right r hr hreplaced
  · obtain rfl := List.mem_singleton.mp hr
    exact hright (by simpa using hreplaced)

theorem inv_step {e : Event} (hinv : Inv s) (hcareful : Careful s e) (hstep : step s e = some s') :
    Inv s' := by
  cases e with
  | replace new =>
    obtain rfl := Option.some.inj hstep
    exact inv_replace hinv hcareful
  | begin p =>
    rw [step] at hstep
    cases hnone : s.calls p with
    | some c =>
      rw [hnone] at hstep
      cases hstep
    | none =>
      rw [hnone] at hstep
      obtain rfl := Option.some.inj hstep
      refine inv_setCall hinv (fun c hc => by cases hnone.symm.trans hc) fun c hc => ?_
      obtain rfl := Option.some.inj hc
      exact ⟨⟨follows_tryStageWorkerBinary, nofun, nofun, Nat.le_refl _, nofun, nofun, nofun⟩,
        fun h => by cases h.1⟩
  | advance p umask now =>
    obtain ⟨c, hc, rfl⟩ := Option.map_eq_some_iff.mp hstep
    cases hrest : c.rest with
    | ret ok => exact inv_ret hinv hc hrest hcareful
    | exec i k => exact inv_exec hinv hc hrest
  | abort p =>
    obtain ⟨c, hc, rfl⟩ := Option.map_eq_some_iff.mp hstep
    exact inv_setCall hinv (fun c' hc' => hcareful c' hc') nofun

end Steps

/-- **A call that returns `Ok` finds the copy of the source**, complete and with its mode, in every run
in which no copy is cut short or under way when another call returns, and each new source is newer than
the staged file and comes between the copies. -/
theorem staged_right {source : File} {events : List Event}
    (hrun : run step events (.init source) = some s)
    (hcareful : Along step Careful events (.init source)) :
    ∀ r ∈ s.returned, r.replaced = false → r.Right :=
  (run_invariant (fun _ _ _ => inv_step) (inv_init source) hcareful hrun).right

/-! ### Calls one after the other, and a call that is killed -/

/-- An event of this process that does not cut its call short. -/
def Event.IsOf (p : Nat) : Event → Prop
  | .begin q | .advance q _ _ => q = p
  | .replace _ | .abort _ => False

theorem along_alone {events : List Event} (hevents : ∀ e ∈ events, e.IsOf p)
    (halone : ∀ q, q ≠ p → s.calls q = none) : Along step Careful events s := by
  induction events generalizing s with
  | nil => trivial
  | cons e events ih =>
    have hrest : ∀ e ∈ events, e.IsOf p := fun e he => hevents e (List.mem_cons_of_mem _ he)
    have hof := hevents e List.mem_cons_self
    cases e with
    | replace new => exact hof.elim
    | abort q => exact hof.elim
    | begin q =>
      obtain rfl := hof
      refine ⟨trivial, fun s' hstep => ih hrest fun q' hq' => ?_⟩
      rw [step] at hstep
      cases hnone : s.calls q with
      | some c =>
        rw [hnone] at hstep
        cases hstep
      | none =>
        rw [hnone] at hstep
        obtain rfl := Option.some.inj hstep
        exact (Function.update_of_ne hq' ..).trans (halone q' hq')
    | advance q umask now =>
      obtain rfl := hof
      refine ⟨fun _ _ _ q' c' hne hc' => ?_, fun s' hstep => ih hrest fun q' hq' => ?_⟩
      · cases (halone q' hne).symm.trans hc'
      · obtain ⟨c, hc, rfl⟩ := Option.map_eq_some_iff.mp hstep
        rw [State.advance]
        split
        next => exact (Function.update_of_ne hq' ..).trans (halone q' hq')
        next => exact (Function.update_of_ne hq' ..).trans (halone q' hq')

def builtWorker : File := ⟨[0x7F, 0x45], 0o755, 1⟩

/-- One process stages the worker, and finds it staged when it calls again. -/
def stagedTwice : List Event :=
  .begin 0 :: List.replicate 9 (.advance 0 0o022 5) ++
    .begin 0 :: List.replicate 3 (.advance 0 0o022 6)

theorem staged_right_twice : ∃ s, run step stagedTwice (.init builtWorker) = some s ∧
    s.returned.length = 2 ∧ ∀ r ∈ s.returned, r.replaced = false → r.Right := by
  have hrun : run step stagedTwice (.init builtWorker) =
      some ((run step stagedTwice (.init builtWorker)).get (by decide +kernel)) :=
    (Option.some_get _).symm
  have hevents : ∀ e ∈ stagedTwice, e.IsOf 0 := by
    intro e he
    simp only [stagedTwice, List.cons_append, List.mem_cons, List.mem_append,
      List.mem_replicate] at he
    rcases he with rfl | ⟨-, rfl⟩ | rfl | ⟨-, rfl⟩ <;> rfl
  exact ⟨_, hrun, by decide +kernel, staged_right hrun (along_alone hevents fun _ _ => rfl)⟩

/-- A call is killed when it has truncated the staged file, and the next one takes what is there. -/
def killedThenStaged : List Event :=
  [.begin 0, .advance 0 0o022 5, .advance 0 0o022 5, .advance 0 0o022 5, .abort 0,
    .begin 1, .advance 1 0o022 6, .advance 1 0o022 6, .advance 1 0o022 6]

theorem truncated_worker_returned : ¬ ∀ (source : File) (events : List Event) (s : State),
    run step events (.init source) = some s → ∀ r ∈ s.returned, r.replaced = false → r.Right := by
  intro h
  have hrun : run step killedThenStaged (.init builtWorker) =
      some ((run step killedThenStaged (.init builtWorker)).get (by decide +kernel)) :=
    (Option.some_get _).symm
  have hmem : (⟨false, builtWorker, some ⟨[], 0o755, 5⟩⟩ : Return) ∈
      ((run step killedThenStaged (.init builtWorker)).get (by decide +kernel)).returned := by
    decide +kernel
  exact absurd (h builtWorker killedThenStaged _ hrun _ hmem rfl) (by
    unfold Return.Right
    decide +kernel)

end PgEmbeddedSetup.Staging
