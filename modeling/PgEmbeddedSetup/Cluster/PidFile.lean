import PgEmbeddedSetup.Base.Lines
import PgEmbeddedSetup.Cluster.CleanupPaths
import PgEmbeddedSetup.Cluster.Shutdown

/-!
# Reading `postmaster.pid`

The port is read from the fourth line of the file, and the process id from the first, while the server
may still be writing it. Neither reader looks for the end of its line. So a file that ends within a
number is read as one with another number there, and it is the only one that is
(`prefix_read_iff`).
-/

namespace PgEmbeddedSetup.Cluster

open Program Text

/-! ### The port -/

/-- `parse_port_from_pid_contents`. -/
def parsePortFromPidContents (contents : List Char) : Option Nat := do
  let portLine ← (lines [] contents)[3]?
  parseUInt 16 (trim portLine)

def readPidFileContents (dataDir : FilePath) : Code (Except String (Option (List Char))) :=
  .exec (.readPidFile dataDir) fun
    | .contents text => pure (.ok (some text))
    | .notFound => pure (.ok none)
    | .failed err => pure (.error ("failed to read postmaster pid: " ++ err))

def readPostmasterPort (dataDir : FilePath) : Code (Except String (Option Nat)) := do
  match ← readPidFileContents dataDir with
  | .error err => pure (.error err)
  | .ok none => pure (.ok none)
  | .ok (some contents) => pure (.ok (parsePortFromPidContents contents))

/-- `POSTMASTER_PORT_ATTEMPTS`. -/
def postmasterPortAttempts : Nat := 10

/-- `POSTMASTER_PORT_DELAY`. -/
def postmasterPortDelay : Nat := 100

def readPortAttempts (dataDir : FilePath) : Nat → Code (Except String (Option Nat))
  | 0 => pure (.ok none)
  | attempts + 1 => do
    match ← readPostmasterPort dataDir with
    | .error err => pure (.error err)
    | .ok (some port) => pure (.ok (some port))
    | .ok none => .exec (.sleep postmasterPortDelay) fun _ => readPortAttempts dataDir attempts

def readPostmasterPortWithRetry (dataDir : FilePath) : Code (Except String (Option Nat)) :=
  readPortAttempts dataDir postmasterPortAttempts

/-! ### The file -/

def encode (text : List Char) : ByteArray := (String.ofList text).toUTF8

/-- `read_to_string`, of a file with these bytes. -/
def readToString (bytes : ByteArray) : Option (List Char) :=
  (String.fromUTF8? bytes).map String.toList

/-- What a server writes into the file. -/
structure PidFile where
  pid : Numeral
  pid_pos : 0 < pid.value
  pid_lt : pid.value < 2 ^ 31
  dataDir : List Char
  startTime : List Char
  oneLine : '\n' ∉ dataDir ∧ '\n' ∉ startTime
  port : Numeral
  port_lt : port.value < 2 ^ 16
  further : List Char

namespace PidFile

variable (file : PidFile)

/-- The lines before the port. -/
def beforePort : List (List Char) := [file.pid.digits, file.dataDir, file.startTime]

def text : List Char :=
  unlines file.beforePort ++ (file.port.digits ++ '\n' :: file.further)

/-- The bytes of the file when all of it has been written. -/
def bytes : ByteArray := encode file.text

/-- What has been written ends within the process id. -/
def EndsInPid (seen : ByteArray) : Prop :=
  ∃ part, part <+: file.pid.digits ∧ part ≠ [] ∧ part ≠ file.pid.digits ∧ seen = encode part

/-- What has been written ends within the port. -/
def EndsInPort (seen : ByteArray) : Prop :=
  ∃ part, part <+: file.port.digits ∧ part ≠ [] ∧ part ≠ file.port.digits ∧
    seen = encode (unlines file.beforePort ++ part)

end PidFile

def pidFileAnswer (bytes : ByteArray) : PidFileAnswer :=
  match readToString bytes with
  | some text => .contents text
  | none => .failed "stream did not contain valid UTF-8"

/-- The file has these bytes whenever it is read. -/
def answerWith (bytes : ByteArray) : (i : Instr) → i.Answer
  | .readPidFile _ => pidFileAnswer bytes
  | _ => default

/-- What `read_postmaster_pid` makes of the bytes. -/
def pidIn (dataDir : FilePath) (bytes : ByteArray) : Option Int :=
  (readPostmasterPid dataDir).result (fun _ => answerWith bytes) 0

/-- None, or what the whole file holds. -/
def PortRight (file : PidFile) (seen : ByteArray) : Prop :=
  ∀ text, readToString seen = some text →
    parsePortFromPidContents text = none ∨
      parsePortFromPidContents text = parsePortFromPidContents file.text

def PidRight (file : PidFile) (dataDir : FilePath) (seen : ByteArray) : Prop :=
  pidIn dataDir seen = none ∨ pidIn dataDir seen = pidIn dataDir file.bytes

/-! ### Bytes and characters -/

theorem encode_eq (text : List Char) : encode text = text.utf8Encode := String.toByteArray_ofList

theorem readToString_encode (text : List Char) : readToString (encode text) = some text := by
  have hvalid : (encode text).IsValidUTF8 := (String.ofList text).isValidUTF8
  rw [readToString, String.fromUTF8?, dif_pos hvalid]
  show some (String.ofList text).toList = some text
  rw [String.toList_ofList]

theorem encode_of_readToString {bytes : ByteArray} {text : List Char}
    (h : readToString bytes = some text) : bytes = encode text := by
  obtain ⟨s, hs, rfl⟩ := Option.map_eq_some_iff.mp h
  unfold String.fromUTF8? at hs
  split at hs
  next hvalid =>
    obtain rfl := Option.some.inj hs
    rw [encode, String.ofList_toList]
    rfl
  next => cases hs

theorem prefix_of_readToString {seen rest : ByteArray} {text all : List Char}
    (hsplit : seen ++ rest = encode all) (h : readToString seen = some text) : text <+: all := by
  rw [encode_of_readToString h, encode_eq, encode_eq] at hsplit
  exact List.isPrefix_of_utf8Encode_append_eq_utf8Encode rest hsplit

/-! ### The process id and the port of a file -/

section File

variable {file : PidFile} {dataDir : FilePath} {text : List Char} {seen rest : ByteArray}

theorem pidIn_eq (dataDir : FilePath) (bytes : ByteArray) :
    pidIn dataDir bytes = (readToString bytes).bind parsePostmasterPid := by
  unfold pidIn readPostmasterPid answerWith pidFileAnswer
  cases readToString bytes <;> rfl

theorem parsePort_of_line {line : List Char} (h : (lines [] text)[3]? = some line) :
    parsePortFromPidContents text = parseUInt 16 (trim line) := by
  rw [parsePortFromPidContents, h]
  rfl

theorem newline_notMem_beforePort (file : PidFile) : ∀ line ∈ file.beforePort, '\n' ∉ line := by
  intro line hline
  simp only [PidFile.beforePort, List.mem_cons, List.not_mem_nil, or_false] at hline
  rcases hline with rfl | rfl | rfl
  · exact notMem_of_digits (by decide) file.pid.isDigit
  · exact file.oneLine.1
  · exact file.oneLine.2

theorem text_eq (file : PidFile) : file.text = unlines [] ++ (file.pid.digits ++ '\n' ::
    (unlines [file.dataDir, file.startTime] ++ (file.port.digits ++ '\n' :: file.further))) :=
  unlines_cons _ _ _

theorem parsePid_of_line {line : List Char} (h : firstLine text = some line) :
    parsePostmasterPid text =
      (parseInt 32 (trim line)).bind fun pid => if 0 < pid then some pid else none := by
  rw [parsePostmasterPid, h]
  rfl

theorem parsePid_of_digits {digits : List Char} (hdigits : ∀ c ∈ digits, c.isDigit = true)
    (hline : firstLine text = some digits) (hpos : 0 < ofDigits digits)
    (hlt : ofDigits digits < 2 ^ 31) : parsePostmasterPid text = some (ofDigits digits : Int) := by
  have hne : digits ≠ [] := by
    rintro rfl
    exact absurd hpos (Nat.lt_irrefl 0)
  rw [parsePid_of_line hline, trim_of_digits hdigits, parseInt_of_digits hdigits hne hlt,
    Option.bind_some, if_pos (Int.natCast_pos.mpr hpos)]

theorem parsePort_of_digits {digits : List Char} (hdigits : ∀ c ∈ digits, c.isDigit = true)
    (hne : digits ≠ []) (hline : (lines [] text)[3]? = some digits)
    (hlt : ofDigits digits < 2 ^ 16) :
    parsePortFromPidContents text = some (ofDigits digits) := by
  rw [parsePort_of_line hline, trim_of_digits hdigits, parseUInt_of_digits hdigits hne hlt]

theorem parsePort_text (file : PidFile) :
    parsePortFromPidContents file.text = some file.port.value := by
  have hline : (lines [] file.text)[3]? = some file.port.digits :=
    (getElem?_lines (newline_notMem_beforePort file) _).trans
      ((firstLine_append (notMem_of_digits (by decide) file.port.isDigit) _).trans
        (congrArg some (stripReturn_of_digits file.port.isDigit)))
  exact parsePort_of_digits file.port.isDigit file.port.ne_nil hline file.port_lt

theorem parsePid_text (file : PidFile) :
    parsePostmasterPid file.text = some (file.pid.value : Int) := by
  have hline : firstLine file.text = some file.pid.digits := by
    rw [text_eq]
    exact (firstLine_append (notMem_of_digits (by decide) file.pid.isDigit) _).trans
      (congrArg some (stripReturn_of_digits file.pid.isDigit))
  exact parsePid_of_digits file.pid.isDigit hline file.pid_pos file.pid_lt

theorem parsePort_cut (h : text <+: file.text) : parsePortFromPidContents text = none ∨
    parsePortFromPidContents text = some file.port.value ∨
      ∃ part, part <+: file.port.digits ∧ part ≠ [] ∧ part ≠ file.port.digits ∧
        text = unlines file.beforePort ++ part := by
  have hnl := notMem_of_digits (c := '\n') (by decide) file.port.isDigit
  have hwhole : (lines [] text)[3]? = some file.port.digits →
      parsePortFromPidContents text = some file.port.value := fun hline =>
    parsePort_of_digits file.port.isDigit file.port.ne_nil hline file.port_lt
  rcases getElem?_lines_prefix (newline_notMem_beforePort file) hnl h with
    hline | ⟨part, hpart, hne, htext, hline⟩ | hline
  · refine Or.inl ?_
    rw [parsePortFromPidContents, show (lines [] text)[3]? = none from hline]
    rfl
  · by_cases hproper : part = file.port.digits
    · exact Or.inr (Or.inl (hwhole (hproper ▸ hline)))
    · exact Or.inr (Or.inr ⟨part, hpart, hne, hproper, htext⟩)
  · rw [stripReturn_of_digits file.port.isDigit] at hline
    exact Or.inr (Or.inl (hwhole hline))

theorem parsePid_cut (h : text <+: file.text) : parsePostmasterPid text = none ∨
    parsePostmasterPid text = some (file.pid.value : Int) ∨
      ∃ part, part <+: file.pid.digits ∧ part ≠ [] ∧ part ≠ file.pid.digits ∧ text = part := by
  have hnl := notMem_of_digits (c := '\n') (by decide) file.pid.isDigit
  have hwhole : firstLine text = some file.pid.digits →
      parsePostmasterPid text = some (file.pid.value : Int) := fun hline =>
    parsePid_of_digits file.pid.isDigit hline file.pid_pos file.pid_lt
  rw [text_eq] at h
  have hfirst : (lines [] text)[([] : List (List Char)).length]? = firstLine text :=
    List.head?_eq_getElem?.symm
  have hnone : ∀ line ∈ ([] : List (List Char)), '\n' ∉ line :=
    fun line hline => absurd hline List.not_mem_nil
  rcases getElem?_lines_prefix hnone hnl h with hline | ⟨part, hpart, hne, htext, hline⟩ | hline
  · refine Or.inl ?_
    rw [parsePostmasterPid, hfirst.symm.trans hline]
    rfl
  · by_cases hproper : part = file.pid.digits
    · exact Or.inr (Or.inl (hwhole (hfirst.symm.trans (hproper ▸ hline))))
    · exact Or.inr (Or.inr ⟨part, hpart, hne, hproper, htext⟩)
  · rw [stripReturn_of_digits file.pid.isDigit] at hline
    exact Or.inr (Or.inl (hwhole (hfirst.symm.trans hline)))

theorem parsePort_part {part : List Char} (hpart : part <+: file.port.digits) (hne : part ≠ [])
    (hproper : part ≠ file.port.digits) :
    ∃ port, parsePortFromPidContents (unlines file.beforePort ++ part) = some port ∧
      port ≠ file.port.value := by
  have hdigits : ∀ c ∈ part, c.isDigit = true := fun c hc => file.port.isDigit c (hpart.subset hc)
  have hlt := Numeral.lt_of_prefix hpart hne hproper
  have hline : (lines [] (unlines file.beforePort ++ part))[3]? = some part :=
    (getElem?_lines (newline_notMem_beforePort file) part).trans
      (firstLine_part (notMem_of_digits (by decide) hdigits) hne)
  exact ⟨_, parsePort_of_digits hdigits hne hline (Nat.lt_trans hlt file.port_lt), Nat.ne_of_lt hlt⟩

theorem parsePid_part {part : List Char} (hpart : part <+: file.pid.digits) (hne : part ≠ [])
    (hproper : part ≠ file.pid.digits) :
    ∃ pid, parsePostmasterPid part = some pid ∧ pid ≠ (file.pid.value : Int) := by
  have hdigits : ∀ c ∈ part, c.isDigit = true := fun c hc => file.pid.isDigit c (hpart.subset hc)
  have hlt := Numeral.lt_of_prefix hpart hne hproper
  have hline := firstLine_part (notMem_of_digits (by decide) hdigits) hne
  have hpos := Numeral.pos_of_prefix hpart hne hproper
  exact ⟨_, parsePid_of_digits hdigits hline hpos (Nat.lt_trans hlt file.pid_lt),
    fun heq => Nat.ne_of_lt hlt (Int.natCast_inj.mp heq)⟩

end File

/-! ### Any number of bytes -/

section Prefixes

variable {file : PidFile} {dataDir : FilePath} {seen rest : ByteArray}

theorem portRight_of_not_ends (h : seen ++ rest = file.bytes) (hends : ¬ file.EndsInPort seen) :
    PortRight file seen := by
  intro text htext
  rw [parsePort_text]
  refine (parsePort_cut (prefix_of_readToString h htext)).imp_right fun hport => ?_
  refine hport.resolve_right ?_
  rintro ⟨part, hpart, hne, hproper, rfl⟩
  exact hends ⟨part, hpart, hne, hproper, encode_of_readToString htext⟩

theorem pidIn_bytes (file : PidFile) (dataDir : FilePath) :
    pidIn dataDir file.bytes = some (file.pid.value : Int) := by
  rw [pidIn_eq, PidFile.bytes, readToString_encode, Option.bind_some, parsePid_text]

theorem pidRight_of_not_ends (h : seen ++ rest = file.bytes) (hends : ¬ file.EndsInPid seen) :
    PidRight file dataDir seen := by
  rw [PidRight, pidIn_bytes, pidIn_eq]
  cases htext : readToString seen with
  | none => exact Or.inl rfl
  | some text =>
    refine (parsePid_cut (prefix_of_readToString h htext)).imp_right fun hpid => ?_
    refine hpid.resolve_right ?_
    rintro ⟨part, hpart, hne, hproper, rfl⟩
    exact hends ⟨text, hpart, hne, hproper, encode_of_readToString htext⟩

theorem not_portRight_of_ends (h : file.EndsInPort seen) : ¬ PortRight file seen := by
  obtain ⟨part, hpart, hne, hproper, rfl⟩ := h
  obtain ⟨port, hport, hwrong⟩ := parsePort_part hpart hne hproper
  intro hright
  have hread := hright _ (readToString_encode _)
  rw [hport, parsePort_text] at hread
  rcases hread with hnone | hsome
  · cases hnone
  · exact hwrong (Option.some.inj hsome)

theorem not_pidRight_of_ends (h : file.EndsInPid seen) : ¬ PidRight file dataDir seen := by
  obtain ⟨part, hpart, hne, hproper, rfl⟩ := h
  obtain ⟨pid, hpid, hwrong⟩ := parsePid_part hpart hne hproper
  intro hright
  rw [PidRight, pidIn_bytes, pidIn_eq, readToString_encode, Option.bind_some, hpid] at hright
  rcases hright with hnone | hsome
  · cases hnone
  · exact hwrong (Option.some.inj hsome)

/-- **A file that is being written is read right** just when it does not end within the process id or
within the port. -/
theorem prefix_read_iff (file : PidFile) (dataDir : FilePath) {seen rest : ByteArray}
    (h : seen ++ rest = file.bytes) : PortRight file seen ∧ PidRight file dataDir seen ↔
      ¬ file.EndsInPort seen ∧ ¬ file.EndsInPid seen :=
  ⟨fun hright => ⟨fun hends => not_portRight_of_ends hends hright.1,
    fun hends => not_pidRight_of_ends hends hright.2⟩,
    fun hends => ⟨portRight_of_not_ends h hends.1, pidRight_of_not_ends h hends.2⟩⟩

theorem result_readPostmasterPort {os : Nat → (i : Instr) → i.Answer} {n : Nat}
    (h : os n (.readPidFile dataDir) = pidFileAnswer seen) {port : Nat}
    (hport : (readPostmasterPort dataDir).result os n = .ok (some port)) :
    ∃ text, readToString seen = some text ∧ parsePortFromPidContents text = some port := by
  unfold readPostmasterPort readPidFileContents at hport
  simp only [Prog.exec_bind, Prog.result, h, pidFileAnswer] at hport
  cases htext : readToString seen with
  | none =>
    rw [htext] at hport
    cases hport
  | some text =>
    rw [htext] at hport
    exact ⟨text, rfl, Except.ok.inj hport⟩

theorem readPortAttempts_right {os : Nat → (i : Instr) → i.Answer}
    (hseen : ∀ n, ∃ seen, PortRight file seen ∧ os n (.readPidFile dataDir) = pidFileAnswer seen)
    {attempts n port : Nat} (h : (readPortAttempts dataDir attempts).result os n = .ok (some port)) :
    port = file.port.value := by
  induction attempts generalizing n with
  | zero => cases h
  | succ attempts ih =>
    obtain ⟨seen, hright, hanswer⟩ := hseen n
    rw [readPortAttempts, Prog.result_bind] at h
    cases hresult : (readPostmasterPort dataDir).result os n with
    | error err =>
      rw [hresult] at h
      cases h
    | ok found =>
      rw [hresult] at h
      cases found with
      | none => exact ih h
      | some found =>
        obtain rfl : found = port := Option.some.inj (Except.ok.inj h)
        obtain ⟨text, htext, hfound⟩ := result_readPostmasterPort hanswer hresult
        have hread := hright text htext
        rw [hfound, parsePort_text] at hread
        exact hread.elim nofun Option.some.inj

end Prefixes

/-- A file as a server on port 54321 writes it. -/
def sampleFile : PidFile where
  pid := ⟨['1', '2', '3', '4', '5'], List.all_eq_true.mp (by decide), nofun, by decide⟩
  pid_pos := by decide
  pid_lt := by decide
  dataDir := ['/', 'd']
  startTime := ['1', '7']
  oneLine := by decide
  port := ⟨['5', '4', '3', '2', '1'], List.all_eq_true.mp (by decide), nofun, by decide⟩
  port_lt := by decide
  further := []

/-- `/`. -/
def sampleDir : FilePath := Lexical.Path.absolute []

theorem encode_append (s t : List Char) : encode (s ++ t) = encode s ++ encode t := by
  rw [encode_eq, encode_eq, encode_eq, List.utf8Encode_append]

theorem encode_inj {s t : List Char} (h : encode s = encode t) : s = t := by
  have hread := congrArg readToString h
  rw [readToString_encode, readToString_encode] at hread
  exact Option.some.inj hread

/-- After the first line, nothing is read wrong. -/
theorem prefix_read_first_line :
    encode ['1', '2', '3', '4', '5', '\n'] ++ encode (sampleFile.text.drop 6) = sampleFile.bytes ∧
      PortRight sampleFile (encode ['1', '2', '3', '4', '5', '\n']) ∧
      PidRight sampleFile sampleDir (encode ['1', '2', '3', '4', '5', '\n']) := by
  have hsplit : encode ['1', '2', '3', '4', '5', '\n'] ++
      encode (sampleFile.text.drop 6) = sampleFile.bytes := by
    rw [← encode_append]
    rfl
  refine ⟨hsplit, (prefix_read_iff sampleFile sampleDir hsplit).mpr ⟨?_, ?_⟩⟩
  · rintro ⟨part, -, -, -, hseen⟩
    have hlength : 6 = ((unlines sampleFile.beforePort) ++ part).length :=
      congrArg List.length (encode_inj hseen)
    rw [List.length_append, show (unlines sampleFile.beforePort).length = 12 from rfl] at hlength
    omega
  · rintro ⟨part, hpart, -, -, hseen⟩
    obtain rfl := encode_inj hseen
    exact absurd hpart.length_le (by decide)

/-- Three digits of the port are taken for it, and two of the process id. -/
theorem prefix_read_wrong :
    (∃ rest, encode (unlines sampleFile.beforePort ++ ['5', '4', '3']) ++ rest = sampleFile.bytes) ∧
      ¬ PortRight sampleFile (encode (unlines sampleFile.beforePort ++ ['5', '4', '3'])) ∧
      (∃ rest, encode ['1', '2'] ++ rest = sampleFile.bytes) ∧
      ¬ PidRight sampleFile sampleDir (encode ['1', '2']) := by
  refine ⟨⟨encode ['2', '1', '\n'], ?_⟩, ?_, ⟨encode (sampleFile.text.drop 2), ?_⟩, ?_⟩
  · rw [← encode_append]
    rfl
  · exact not_portRight_of_ends ⟨['5', '4', '3'], by decide, nofun, by decide, rfl⟩
  · rw [← encode_append]
    rfl
  · exact not_pidRight_of_ends ⟨['1', '2'], by decide, nofun, by decide, rfl⟩

end PgEmbeddedSetup.Cluster
