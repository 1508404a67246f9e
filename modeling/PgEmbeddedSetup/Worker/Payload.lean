import PgEmbeddedSetup.Base.Outcome
import PgEmbeddedSetup.Env.State
import Mathlib.Data.List.AList

/-!
# The payload for the worker

The settings and the environment that the parent hands to a worker go through a JSON file. A
`SettingsSnapshot` holds them in types that can be serialised: paths as UTF-8 text, the version
requirement as it is displayed, the timeout in whole seconds. The worker decodes the file and turns
the snapshot into `Settings` again.

`serde_json` is taken to write and read a JSON value as it is. The crates behind two of the fields are
parameters: the text of a version requirement, and the seconds that are stored of a duration.

The worker gets the settings of the parent, unless their timeout has a part of a second
(`payload_roundTrips_iff`).
-/

namespace PgEmbeddedSetup.Worker

open Env Outcome

/-- A `HashMap` in the order in which it is iterated. Two are equal when their lookups are. -/
abbrev HashMap := AList fun _ : String => String

structure Duration where
  secs : UInt64
  nanos : Fin 1000000000
  deriving DecidableEq

/-- `postgresql_embedded::Settings`. -/
structure Settings (VersionReq : Type) where
  releasesUrl : String
  version : VersionReq
  installationDir : OsString
  passwordFile : OsString
  dataDir : OsString
  host : String
  port : UInt16
  username : String
  password : String
  temporary : Bool
  timeout : Option Duration
  configuration : HashMap
  trustInstallationDir : Bool
  socketDir : Option OsString

/-- `secrecy` hides the text from `Debug`, and from nothing else. -/
structure PlainSecret where
  expose : String

structure SettingsSnapshot (VersionReq : Type) where
  releasesUrl : String
  version : VersionReq
  installationDir : String
  passwordFile : String
  dataDir : String
  host : String
  port : UInt16
  username : String
  password : PlainSecret
  temporary : Bool
  timeoutSecs : Option Duration
  configuration : HashMap
  trustInstallationDir : Bool
  socketDir : Option String

structure WorkerPayload (VersionReq : Type) where
  settings : SettingsSnapshot VersionReq
  environment : List (String × Option PlainSecret)

variable {VersionReq : Type}

/-! ### Settings and snapshots -/

/-- `Utf8PathBuf::from_path_buf`. -/
def fromPathBuf (path : OsString) : Option String :=
  String.fromUTF8? ⟨path.toArray⟩

/-- The path of a `Utf8PathBuf`. -/
def intoPathBuf (path : String) : OsString := path.toByteArray.data.toList

def utf8Path (field : String) (path : OsString) : Except String String :=
  match fromPathBuf path with
  | some text => .ok text
  | none => .error (field ++ " must be valid UTF-8")

def SettingsSnapshot.tryFrom (settings : Settings VersionReq) :
    Except String (SettingsSnapshot VersionReq) := do
  let installationDir ← utf8Path "installation_dir" settings.installationDir
  let passwordFile ← utf8Path "password_file" settings.passwordFile
  let dataDir ← utf8Path "data_dir" settings.dataDir
  let socketDir ← settings.socketDir.mapM (utf8Path "socket_dir")
  return {
    releasesUrl := settings.releasesUrl
    version := settings.version
    installationDir := installationDir
    passwordFile := passwordFile
    dataDir := dataDir
    host := settings.host
    port := settings.port
    username := settings.username
    password := ⟨settings.password⟩
    temporary := settings.temporary
    timeoutSecs := settings.timeout
    configuration := settings.configuration
    trustInstallationDir := settings.trustInstallationDir
    socketDir := socketDir }

def SettingsSnapshot.intoSettings (snapshot : SettingsSnapshot VersionReq) :
    Settings VersionReq where
  releasesUrl := snapshot.releasesUrl
  version := snapshot.version
  installationDir := intoPathBuf snapshot.installationDir
  passwordFile := intoPathBuf snapshot.passwordFile
  dataDir := intoPathBuf snapshot.dataDir
  host := snapshot.host
  port := snapshot.port
  username := snapshot.username
  password := snapshot.password.expose
  temporary := snapshot.temporary
  timeout := snapshot.timeoutSecs
  configuration := snapshot.configuration
  trustInstallationDir := snapshot.trustInstallationDir
  socketDir := snapshot.socketDir.map intoPathBuf

def WorkerPayload.new (settings : Settings VersionReq) (environment : List (String × Option String)) :
    Except String (WorkerPayload VersionReq) := do
  let snapshot ← SettingsSnapshot.tryFrom settings
  return ⟨snapshot, environment.map fun (key, value) => (key, value.map PlainSecret.mk)⟩

/-! ### JSON -/

inductive Json where
  | null
  | bool (value : Bool)
  | number (value : Nat)
  | string (value : String)
  | array (items : List Json)
  | object (fields : List (String × Json))

inductive DecodeError where
  | missingField (name : String)
  | duplicateField (name : String)
  | invalidType
  | invalidValue
  deriving DecidableEq

abbrev Decoded (α : Type) := Except DecodeError α

/-- The value of a field, which may be given once. -/
def optionalField (fields : List (String × Json)) (name : String) : Decoded (Option Json) :=
  match fields.filter fun field => field.1 == name with
  | [] => .ok none
  | [field] => .ok (some field.2)
  | _ => .error (.duplicateField name)

def field {α : Type} (fields : List (String × Json)) (name : String) (decode : Json → Decoded α) :
    Decoded α := do
  match ← optionalField fields name with
  | some value => decode value
  | none => .error (.missingField name)

/-- A field of type `Option` may be left out. -/
def fieldOrNone {α : Type} (fields : List (String × Json)) (name : String)
    (decode : Json → Decoded α) : Decoded (Option α) := do
  match ← optionalField fields name with
  | none | some .null => .ok none
  | some value => return some (← decode value)

def decodeString : Json → Decoded String
  | .string text => .ok text
  | _ => .error .invalidType

def decodeBool : Json → Decoded Bool
  | .bool value => .ok value
  | _ => .error .invalidType

def decodeU16 : Json → Decoded UInt16
  | .number n => if n < 65536 then .ok (UInt16.ofNat n) else .error .invalidValue
  | _ => .error .invalidType

def decodeU64 : Json → Decoded UInt64
  | .number n => if n < 18446744073709551616 then .ok (UInt64.ofNat n) else .error .invalidValue
  | _ => .error .invalidType

def decodeEntry (field : String × Json) : Decoded (String × String) := do
  return (field.1, ← decodeString field.2)

/-- Of two values for a key, the later one is kept. -/
def decodeMap : Json → Decoded HashMap
  | .object fields => do
    let entries ← fields.mapM decodeEntry
    return entries.foldl (fun map entry => map.insert entry.1 entry.2) ∅
  | _ => .error .invalidType

def encodeOption {α : Type} (encode : α → Json) : Option α → Json
  | none => .null
  | some a => encode a

/-- What the crates behind two of the fields do. -/
structure Adapters (VersionReq : Type) where
  /-- `Display for VersionReq`. -/
  display : VersionReq → String
  /-- `FromStr for VersionReq`. -/
  fromStr : String → Option VersionReq
  /-- The seconds that `DurationSeconds<u64>` stores. -/
  seconds : Duration → UInt64

variable (crates : Adapters VersionReq)

def decodeVersion (json : Json) : Decoded VersionReq := do
  match crates.fromStr (← decodeString json) with
  | some version => .ok version
  | none => .error .invalidValue

/-- `Duration::from_secs`. -/
def decodeDuration (json : Json) : Decoded Duration := do
  return ⟨← decodeU64 json, 0⟩

def decodeSecret (json : Json) : Decoded PlainSecret := do
  return ⟨← decodeString json⟩

def SettingsSnapshot.fields (snapshot : SettingsSnapshot VersionReq) : List (String × Json) := [
  ("releases_url", .string snapshot.releasesUrl),
  ("version", .string (crates.display snapshot.version)),
  ("installation_dir", .string snapshot.installationDir),
  ("password_file", .string snapshot.passwordFile),
  ("data_dir", .string snapshot.dataDir),
  ("host", .string snapshot.host),
  ("port", .number snapshot.port.toNat),
  ("username", .string snapshot.username),
  ("password", .string snapshot.password.expose),
  ("temporary", .bool snapshot.temporary),
  ("timeout_secs", encodeOption (fun d => .number (crates.seconds d).toNat) snapshot.timeoutSecs),
  ("configuration",
    .object (snapshot.configuration.entries.map fun entry => (entry.1, .string entry.2))),
  ("trust_installation_dir", .bool snapshot.trustInstallationDir),
  ("socket_dir", encodeOption .string snapshot.socketDir)]

def SettingsSnapshot.serialize (snapshot : SettingsSnapshot VersionReq) : Json :=
  .object (snapshot.fields crates)

def SettingsSnapshot.deserialize : Json → Decoded (SettingsSnapshot VersionReq)
  | .object fields => do
    let releasesUrl ← field fields "releases_url" decodeString
    let version ← field fields "version" (decodeVersion crates)
    let installationDir ← field fields "installation_dir" decodeString
    let passwordFile ← field fields "password_file" decodeString
    let dataDir ← field fields "data_dir" decodeString
    let host ← field fields "host" decodeString
    let port ← field fields "port" decodeU16
    let username ← field fields "username" decodeString
    let password ← field fields "password" decodeSecret
    let temporary ← field fields "temporary" decodeBool
    let timeoutSecs ← fieldOrNone fields "timeout_secs" decodeDuration
    let configuration ← field fields "configuration" decodeMap
    let trustInstallationDir ← field fields "trust_installation_dir" decodeBool
    let socketDir ← fieldOrNone fields "socket_dir" decodeString
    return {
      releasesUrl, version, installationDir, passwordFile, dataDir, host, port, username, password
      temporary, timeoutSecs, configuration, trustInstallationDir, socketDir }
  | _ => .error .invalidType

def encodeVariable (entry : String × Option PlainSecret) : Json :=
  .array [.string entry.1, encodeOption (fun secret => .string secret.expose) entry.2]

def decodeVariable : Json → Decoded (String × Option PlainSecret)
  | .array [key, .null] => return (← decodeString key, none)
  | .array [key, value] => return (← decodeString key, some (← decodeSecret value))
  | _ => .error .invalidType

def decodeEnvironment : Json → Decoded (List (String × Option PlainSecret))
  | .array items => items.mapM decodeVariable
  | _ => .error .invalidType

def WorkerPayload.serialize (payload : WorkerPayload VersionReq) : Json := .object [
  ("settings", payload.settings.serialize crates),
  ("environment", .array (payload.environment.map encodeVariable))]

def WorkerPayload.deserialize : Json → Decoded (WorkerPayload VersionReq)
  | .object fields => do
    let settings ← field fields "settings" (SettingsSnapshot.deserialize crates)
    let environment ← field fields "environment" decodeEnvironment
    return ⟨settings, environment⟩
  | _ => .error .invalidType

/-! ### Decoding what was encoded -/

theorem optionalField_of_mem {fields : List (String × Json)} (hkeys : (fields.map (·.1)).Nodup)
    {name : String} {value : Json} (hmem : (name, value) ∈ fields) :
    optionalField fields name = .ok (some value) := by
  suffices h : fields.filter (fun f => f.1 == name) = [(name, value)] by rw [optionalField, h]
  induction fields with
  | nil => cases hmem
  | cons f fields ih =>
    rw [List.map_cons, List.nodup_cons] at hkeys
    rcases List.mem_cons.mp hmem with rfl | hmem
    · have hnil : fields.filter (fun f => f.1 == name) = [] := by
        rw [List.filter_eq_nil_iff]
        intro f' hf' heq
        exact hkeys.1 (List.mem_map.mpr ⟨f', hf', beq_iff_eq.mp heq⟩)
      rw [List.filter_cons_of_pos (by simp), hnil]
    · have hne : ¬ (f.1 == name) = true := fun heq =>
        hkeys.1 (List.mem_map.mpr ⟨_, hmem, (beq_iff_eq.mp heq).symm⟩)
      rw [List.filter_cons, if_neg hne]
      exact ih hkeys.2 hmem

theorem field_of_mem {α : Type} {fields : List (String × Json)} (hkeys : (fields.map (·.1)).Nodup)
    {name : String} {value : Json} {decode : Json → Decoded α} (hmem : (name, value) ∈ fields) :
    field fields name decode = decode value := by
  rw [field, optionalField_of_mem hkeys hmem]
  rfl

theorem fieldOrNone_of_mem {α β : Type} {fields : List (String × Json)}
    (hkeys : (fields.map (·.1)).Nodup) {name : String} {encode : α → Json}
    (decode : Json → Decoded β) (f : α → β) (hdecode : ∀ a, decode (encode a) = .ok (f a))
    (hnull : ∀ a, encode a ≠ .null) {a : Option α} (hmem : (name, encodeOption encode a) ∈ fields) :
    fieldOrNone fields name decode = .ok (a.map f) := by
  rw [fieldOrNone, optionalField_of_mem hkeys hmem]
  cases a with
  | none => rfl
  | some a =>
    show (match some (encode a) with
      | none | some .null => Except.ok none
      | some value => do return some (← decode value)) = _
    split
    next => cases ‹_ = none›
    next heq => exact absurd (Option.some.inj heq) (hnull a)
    next value _ heq =>
      obtain rfl := Option.some.inj heq
      rw [hdecode]
      rfl

theorem mapM_map_ok {ε α β : Type} (encode : α → β) (decode : β → Except ε α)
    (h : ∀ a, decode (encode a) = .ok a) (as : List α) : (as.map encode).mapM decode = .ok as := by
  induction as with
  | nil => rfl
  | cons a as ih =>
    rw [List.map_cons, List.mapM_cons, h, ih]
    rfl

theorem lookup_foldl_insert {entries : List (String × String)} (hnodup : (entries.map (·.1)).Nodup)
    (map : HashMap) (key : String) :
    (entries.foldl (fun map entry => map.insert entry.1 entry.2) map).lookup key =
      (entries.lookup key).or (map.lookup key) := by
  induction entries generalizing map with
  | nil => rfl
  | cons entry entries ih =>
    obtain ⟨k, v⟩ := entry
    rw [List.map_cons, List.nodup_cons] at hnodup
    rw [List.foldl_cons, ih hnodup.2]
    by_cases heq : key = k
    · subst heq
      have hnone : entries.lookup key = none := by
        rw [List.lookup_eq_none_iff]
        intro e he
        refine bne_iff_ne.mpr fun hkey => hnodup.1 ?_
        exact List.mem_map.mpr ⟨e, he, hkey.symm⟩
      rw [hnone, List.lookup_cons_self]
      exact AList.lookup_insert map
    · rw [List.lookup_cons, beq_eq_false_iff_ne.mpr heq]
      congr 1
      exact AList.lookup_insert_ne heq

theorem lookup_entries (map : HashMap) (key : String) :
    (map.entries.map fun entry => (entry.1, entry.2)).lookup key = map.lookup key := by
  rw [AList.lookup]
  generalize map.entries = entries
  induction entries with
  | nil => rfl
  | cons entry entries ih =>
    obtain ⟨k, v⟩ := entry
    rw [List.map_cons, List.lookup_cons]
    by_cases heq : key = k
    · subst heq
      simp
    · rw [beq_eq_false_iff_ne.mpr heq, List.dlookup_cons_ne _ _ heq]
      exact ih

theorem decodeMap_entries (map : HashMap) :
    ∃ decoded, decodeMap (.object (map.entries.map fun entry => (entry.1, .string entry.2))) =
      .ok decoded ∧ ∀ key, decoded.lookup key = map.lookup key := by
  let entries := map.entries.map fun entry => (entry.1, entry.2)
  have hentries : (map.entries.map fun entry => (entry.1, Json.string entry.2)).mapM decodeEntry =
      .ok entries := by
    have hmap : (map.entries.map fun entry => (entry.1, Json.string entry.2)) =
        entries.map fun entry => (entry.1, Json.string entry.2) := by
      rw [List.map_map]
      rfl
    rw [hmap]
    exact mapM_map_ok (fun entry => (entry.1, Json.string entry.2)) decodeEntry (fun _ => rfl) entries
  refine ⟨entries.foldl (fun map entry => map.insert entry.1 entry.2) ∅, ?_, fun key => ?_⟩
  · rw [decodeMap, hentries]
    rfl
  · have hnodup : (entries.map (·.1)).Nodup := by
      rw [List.map_map]
      exact map.nodupKeys
    rw [lookup_foldl_insert hnodup, lookup_entries]
    simp

theorem decodeVariable_encode (entry : String × Option PlainSecret) :
    decodeVariable (encodeVariable entry) = .ok entry := by
  obtain ⟨key, value⟩ := entry
  cases value with
  | none => rfl
  | some secret => rfl

theorem decodeU16_toNat (n : UInt16) : decodeU16 (.number n.toNat) = .ok n := by
  rw [decodeU16, if_pos n.toNat_lt, UInt16.ofNat_toNat]

theorem decodeU64_toNat (n : UInt64) : decodeU64 (.number n.toNat) = .ok n := by
  rw [decodeU64, if_pos n.toNat_lt, UInt64.ofNat_toNat]

theorem fields_nodup (crates : Adapters VersionReq) (snapshot : SettingsSnapshot VersionReq) :
    ((snapshot.fields crates).map (·.1)).Nodup := by
  simp [SettingsSnapshot.fields]

/-- What is decoded of a snapshot: the timeout in whole seconds, and a map with the same lookups. -/
theorem deserialize_serialize {crates : Adapters VersionReq}
    (hversion : ∀ version, crates.fromStr (crates.display version) = some version)
    (snapshot : SettingsSnapshot VersionReq) :
    ∃ map, (∀ key, map.lookup key = snapshot.configuration.lookup key) ∧
      SettingsSnapshot.deserialize crates (snapshot.serialize crates) = .ok { snapshot with
        timeoutSecs := snapshot.timeoutSecs.map fun d => ⟨crates.seconds d, 0⟩
        configuration := map } := by
  obtain ⟨map, hmap, hlookup⟩ := decodeMap_entries snapshot.configuration
  refine ⟨map, hlookup, ?_⟩
  have hkeys := fields_nodup crates snapshot
  have hdecode : decodeVersion crates (.string (crates.display snapshot.version)) =
      .ok snapshot.version := by
    show (do match crates.fromStr (crates.display snapshot.version) with
      | some version => Except.ok version
      | none => Except.error DecodeError.invalidValue) = _
    rw [hversion]
  have hmem : ∀ entry ∈ snapshot.fields crates, entry ∈ snapshot.fields crates := fun _ h => h
  simp only [SettingsSnapshot.fields, List.forall_mem_cons] at hmem
  obtain ⟨hreleases, hversion', hinstall, hpassword, hdata, hhost, hport, husername, hsecret,
    htemporary, htimeout, hconfiguration, htrust, hsocket, -⟩ := hmem
  have htimeout' := fieldOrNone_of_mem hkeys decodeDuration
    (fun d => (⟨crates.seconds d, 0⟩ : Duration)) (fun d => by
      rw [decodeDuration, decodeU64_toNat]
      rfl) (fun _ => Json.noConfusion) htimeout
  have hsocket' := fieldOrNone_of_mem hkeys decodeString id
    (fun _ => rfl) (fun _ => Json.noConfusion) hsocket
  rw [SettingsSnapshot.serialize, SettingsSnapshot.deserialize]
  rw [field_of_mem hkeys hreleases, field_of_mem hkeys hversion', field_of_mem hkeys hinstall,
    field_of_mem hkeys hpassword, field_of_mem hkeys hdata, field_of_mem hkeys hhost,
    field_of_mem hkeys hport, field_of_mem hkeys husername, field_of_mem hkeys hsecret,
    field_of_mem hkeys htemporary, htimeout', field_of_mem hkeys hconfiguration,
    field_of_mem hkeys htrust, hsocket', hdecode, hmap, decodeU16_toNat]
  simp only [Option.map_id]
  rfl

/-! ### The round trip -/

/-- The paths that have to be UTF-8. -/
def Settings.paths (settings : Settings VersionReq) : List OsString :=
  [settings.installationDir, settings.passwordFile, settings.dataDir] ++ settings.socketDir.toList

def Settings.Utf8Paths (settings : Settings VersionReq) : Prop :=
  ∀ path ∈ settings.paths, ByteArray.IsValidUTF8 ⟨path.toArray⟩

def Duration.fromSecs (secs : UInt64) : Duration := ⟨secs, 0⟩

/-- Equal in every field, where maps are equal when their lookups are. -/
def Settings.Same (a b : Settings VersionReq) : Prop :=
  { a with configuration := ∅ } = { b with configuration := ∅ } ∧
    ∀ key, a.configuration.lookup key = b.configuration.lookup key

/-- The payload is refused exactly when a path is not UTF-8, and otherwise the worker gets the
settings and the environment that it was made of. -/
def RoundTrips (crates : Adapters VersionReq) (settings : Settings VersionReq)
    (environment : List (String × Option String)) : Prop :=
  ((∃ e, WorkerPayload.new settings environment = .error e) ↔ ¬ settings.Utf8Paths) ∧
    ∀ payload, WorkerPayload.new settings environment = .ok payload →
      ∃ decoded, WorkerPayload.deserialize crates (payload.serialize crates) = .ok decoded ∧
        decoded.settings.intoSettings.Same settings ∧
        decoded.environment.map (fun entry => (entry.1, entry.2.map (·.expose))) = environment

theorem isValidUTF8_intoPathBuf (text : String) :
    ByteArray.IsValidUTF8 ⟨(intoPathBuf text).toArray⟩ := by
  rw [intoPathBuf, Array.toArray_toList]
  exact text.isValidUTF8

theorem utf8Path_of_valid {path : OsString} (field : String)
    (h : ByteArray.IsValidUTF8 ⟨path.toArray⟩) :
    ∃ text, utf8Path field path = .ok text ∧ intoPathBuf text = path := by
  refine ⟨String.fromUTF8 ⟨path.toArray⟩ h, ?_, rfl⟩
  rw [utf8Path, fromPathBuf, String.fromUTF8?, dif_pos h]

theorem utf8Path_ok {field text : String} {path : OsString} (h : utf8Path field path = .ok text) :
    ByteArray.IsValidUTF8 ⟨path.toArray⟩ := by
  rw [utf8Path, fromPathBuf, String.fromUTF8?] at h
  by_contra hinvalid
  rw [dif_neg hinvalid] at h
  cases h

theorem tryFrom_of_utf8 {settings : Settings VersionReq} (h : settings.Utf8Paths) :
    ∃ snapshot, SettingsSnapshot.tryFrom settings = .ok snapshot ∧
      snapshot.intoSettings = settings := by
  have hpath : ∀ field, ∀ path ∈ settings.paths, ∃ text, utf8Path field path = .ok text ∧
      intoPathBuf text = path := fun field path hmem => utf8Path_of_valid field (h path hmem)
  obtain ⟨install, hinstall, hinstall'⟩ :=
    hpath "installation_dir" settings.installationDir (by simp [Settings.paths])
  obtain ⟨password, hpassword, hpassword'⟩ :=
    hpath "password_file" settings.passwordFile (by simp [Settings.paths])
  obtain ⟨data, hdata, hdata'⟩ := hpath "data_dir" settings.dataDir (by simp [Settings.paths])
  have hsocket : ∃ socket, settings.socketDir.mapM (utf8Path "socket_dir") = .ok socket ∧
      socket.map intoPathBuf = settings.socketDir := by
    cases hdir : settings.socketDir with
    | none => exact ⟨none, rfl, rfl⟩
    | some dir =>
      obtain ⟨text, htext, htext'⟩ := hpath "socket_dir" dir (by simp [Settings.paths, hdir])
      refine ⟨some text, ?_, congrArg some htext'⟩
      rw [Option.mapM_some, htext]
      rfl
  obtain ⟨socket, hsocket, hsocket'⟩ := hsocket
  rw [SettingsSnapshot.tryFrom, hinstall, hpassword, hdata, hsocket]
  refine ⟨_, rfl, ?_⟩
  rw [SettingsSnapshot.intoSettings, hinstall', hpassword', hdata', hsocket']

theorem utf8_of_tryFrom {settings : Settings VersionReq} {snapshot : SettingsSnapshot VersionReq}
    (h : SettingsSnapshot.tryFrom settings = .ok snapshot) : settings.Utf8Paths := by
  obtain ⟨install, hinstall, h⟩ := except_bind_eq_ok.mp h
  obtain ⟨password, hpassword, h⟩ := except_bind_eq_ok.mp h
  obtain ⟨data, hdata, h⟩ := except_bind_eq_ok.mp h
  obtain ⟨socket, hsocket, -⟩ := except_bind_eq_ok.mp h
  have hdir : ∀ dir ∈ settings.socketDir.toList, ByteArray.IsValidUTF8 ⟨dir.toArray⟩ := by
    intro dir hmem
    rw [Option.mem_toList] at hmem
    rw [hmem, Option.mapM_some] at hsocket
    obtain ⟨text, htext, -⟩ := except_bind_eq_ok.mp hsocket
    exact utf8Path_ok htext
  intro path hmem
  simp only [Settings.paths, List.mem_append, List.mem_cons, List.not_mem_nil, or_false] at hmem
  rcases hmem with (rfl | rfl | rfl) | hmem
  · exact utf8Path_ok hinstall
  · exact utf8Path_ok hpassword
  · exact utf8Path_ok hdata
  · exact hdir path hmem

theorem new_error_iff (settings : Settings VersionReq) (environment : List (String × Option String)) :
    (∃ e, WorkerPayload.new settings environment = .error e) ↔ ¬ settings.Utf8Paths := by
  constructor
  · rintro ⟨e, he⟩ hutf8
    obtain ⟨snapshot, hsnapshot, -⟩ := tryFrom_of_utf8 hutf8
    rw [WorkerPayload.new, hsnapshot] at he
    cases he
  · intro hnot
    cases hsnapshot : SettingsSnapshot.tryFrom settings with
    | error e => exact ⟨e, by rw [WorkerPayload.new, hsnapshot]; rfl⟩
    | ok snapshot => exact absurd (utf8_of_tryFrom hsnapshot) hnot

theorem decoded_of_new {crates : Adapters VersionReq}
    (hversion : ∀ version, crates.fromStr (crates.display version) = some version)
    {settings : Settings VersionReq} {environment : List (String × Option String)}
    {payload : WorkerPayload VersionReq} (h : WorkerPayload.new settings environment = .ok payload) :
    ∃ decoded, WorkerPayload.deserialize crates (payload.serialize crates) = .ok decoded ∧
      decoded.settings.intoSettings.Same { settings with
        timeout := settings.timeout.map fun d => ⟨crates.seconds d, 0⟩ } ∧
      decoded.environment.map (fun entry => (entry.1, entry.2.map (·.expose))) = environment := by
  obtain ⟨snapshot, hsnapshot, h⟩ := except_bind_eq_ok.mp h
  obtain rfl := Except.ok.inj h
  obtain ⟨snapshot', hsnapshot', rfl⟩ := tryFrom_of_utf8 (utf8_of_tryFrom hsnapshot)
  obtain rfl := Except.ok.inj (hsnapshot.symm.trans hsnapshot')
  obtain ⟨map, hlookup, hsettings⟩ := deserialize_serialize hversion snapshot
  have hkeys : (([("settings", snapshot.serialize crates), ("environment", .array
      ((environment.map fun (key, value) => (key, value.map PlainSecret.mk)).map encodeVariable))] :
      List (String × Json)).map (·.1)).Nodup := by
    simp
  refine ⟨⟨{ snapshot with
      timeoutSecs := snapshot.timeoutSecs.map fun d => ⟨crates.seconds d, 0⟩
      configuration := map },
    environment.map fun (key, value) => (key, value.map PlainSecret.mk)⟩, ?_, ⟨rfl, hlookup⟩, ?_⟩
  · rw [WorkerPayload.serialize, WorkerPayload.deserialize,
      field_of_mem hkeys List.mem_cons_self,
      field_of_mem hkeys (List.mem_cons_of_mem _ List.mem_cons_self), hsettings, decodeEnvironment,
      mapM_map_ok _ _ decodeVariable_encode]
    rfl
  · rw [List.map_map]
    refine (List.map_congr_left fun entry _ => ?_).trans (List.map_id environment)
    obtain ⟨key, value⟩ := entry
    cases value <;> rfl

theorem timeout_of_same {crates : Adapters VersionReq} {settings decoded : Settings VersionReq}
    (h : decoded.Same { settings with timeout := settings.timeout.map fun d => ⟨crates.seconds d, 0⟩ })
    (hsame : decoded.Same settings) : ∀ d ∈ settings.timeout, d.nanos = 0 := by
  intro d hd
  have htimeout : settings.timeout.map (fun d => (⟨crates.seconds d, 0⟩ : Duration)) =
      settings.timeout :=
    (congrArg (·.timeout) h.1).symm.trans (congrArg (·.timeout) hsame.1)
  rw [Option.mem_def.mp hd, Option.map_some] at htimeout
  exact (congrArg Duration.nanos (Option.some.inj htimeout)).symm

/-- **The worker gets what the parent has**, unless the timeout has a part of a second. -/
theorem payload_roundTrips_iff {crates : Adapters VersionReq}
    (hversion : ∀ version, crates.fromStr (crates.display version) = some version)
    (hseconds : ∀ secs, crates.seconds ⟨secs, 0⟩ = secs) (settings : Settings VersionReq)
    (environment : List (String × Option String)) :
    RoundTrips crates settings environment ↔
      (settings.Utf8Paths → ∀ d ∈ settings.timeout, d.nanos = 0) := by
  constructor
  · rintro ⟨hrefused, hround⟩ hutf8
    cases hpayload : WorkerPayload.new settings environment with
    | error e => exact absurd hutf8 (hrefused.mp ⟨e, hpayload⟩)
    | ok payload =>
      obtain ⟨decoded, hdecoded, hsettings, -⟩ := decoded_of_new hversion hpayload
      obtain ⟨decoded', hdecoded', hsame, -⟩ := hround payload hpayload
      obtain rfl := Except.ok.inj (hdecoded.symm.trans hdecoded')
      exact timeout_of_same hsettings hsame
  · intro hwhole
    refine ⟨new_error_iff settings environment, fun payload hpayload => ?_⟩
    have hutf8 : settings.Utf8Paths := by
      by_contra hnot
      obtain ⟨e, he⟩ := (new_error_iff settings environment).mpr hnot
      cases he.symm.trans hpayload
    obtain ⟨decoded, hdecoded, hsettings, henvironment⟩ := decoded_of_new hversion hpayload
    have htimeout : settings.timeout.map (fun d => (⟨crates.seconds d, 0⟩ : Duration)) =
        settings.timeout := by
      cases hd : settings.timeout with
      | none => rfl
      | some d =>
        have hnanos := hwhole hutf8 d hd
        obtain ⟨secs, nanos⟩ := d
        obtain rfl : nanos = 0 := hnanos
        rw [Option.map_some, hseconds]
    rw [htimeout] at hsettings
    exact ⟨decoded, hdecoded, hsettings, henvironment⟩

/-! ### A sample -/

/-- One requirement, with its text. A duration is rounded to the nearest second. -/
def sampleCrates : Adapters Unit where
  display _ := "=16.4.0"
  fromStr text := if text = "=16.4.0" then some () else none
  seconds d := if d.nanos.val < 500000000 then d.secs else d.secs + 1

def sampleSettings (timeout : Duration) : Settings Unit where
  releasesUrl := "https://example.invalid/releases"
  version := ()
  installationDir := intoPathBuf "/var/lib/postgres/install"
  passwordFile := intoPathBuf "/var/lib/postgres/.pgpass"
  dataDir := intoPathBuf "/var/lib/postgres/data"
  host := "127.0.0.1"
  port := 54321
  username := "postgres"
  password := "secret"
  temporary := true
  timeout := some timeout
  configuration := AList.insert "shared_buffers" "128MB" (AList.singleton "log_min_messages" "debug")
  trustInstallationDir := true
  socketDir := some (intoPathBuf "/var/run/postgresql")

theorem sample_lossless (version : Unit) :
    sampleCrates.fromStr (sampleCrates.display version) = some version := rfl

theorem payload_roundTrips_sample :
    RoundTrips sampleCrates (sampleSettings ⟨45, 0⟩)
      [("RUST_LOG", some "debug"), ("PGUSER", none), ("RUST_LOG", some "")] := by
  refine (payload_roundTrips_iff sample_lossless (fun _ => rfl) _ _).mpr fun _ d hd => ?_
  obtain rfl := Option.some.inj hd
  rfl

/-- A timeout of a second and a half comes back as two seconds. -/
theorem fractional_timeout_lost :
    ¬ RoundTrips sampleCrates (sampleSettings ⟨1, 500000000⟩) [("RUST_LOG", some "debug")] := by
  rintro ⟨hrefused, hround⟩
  cases hpayload : WorkerPayload.new (sampleSettings ⟨1, 500000000⟩) [("RUST_LOG", some "debug")] with
  | error e =>
    refine hrefused.mp ⟨e, hpayload⟩ ?_
    simp only [Settings.Utf8Paths, Settings.paths, sampleSettings, Option.toList_some,
      List.cons_append, List.nil_append, List.forall_mem_cons, isValidUTF8_intoPathBuf, true_and]
    exact nofun
  | ok payload =>
    obtain ⟨decoded, hdecoded, hsettings, -⟩ := decoded_of_new sample_lossless hpayload
    obtain ⟨decoded', hdecoded', hsame, -⟩ := hround payload hpayload
    obtain rfl := Except.ok.inj (hdecoded.symm.trans hdecoded')
    have h := timeout_of_same hsettings hsame _ rfl
    exact absurd h (by decide)

end PgEmbeddedSetup.Worker
