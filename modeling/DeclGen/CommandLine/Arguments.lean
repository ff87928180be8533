import DeclGen.Text.Basic

/-!
# Arguments

The words of a command line are read from left to right. An option takes its value from the same
word, after an equals sign or, for one letter, directly, or else from the next word that is no
option. Words after `--` are never options.

* `CommandLine.Arguments` : what the words mean;
* `CommandLine.UsageError` : why they mean nothing;
* `CommandLine.step` : what one word does;
* `CommandLine.parse` : reads the words.
-/

namespace DeclGen.CommandLine

/-- What the words of a command line mean. -/
structure Arguments where
  /-- A file or a directory; with a base directory, a pattern of names. -/
  source : Text
  /-- The directory of the generated files. -/
  output : Text
  /-- Are only the named entities generated? -/
  noDependencies : Bool
  /-- Do import paths carry the extension `.ts`? -/
  extension : Bool
  base : Option Text
  /-- The scope of the names in the base directory. -/
  scope : Option Text
  logLevel : Text
  deriving DecidableEq, Repr

/-- The output directory if none is given. -/
def defaultOutput : Text := "./types".toList

/-- The log level if none is given. -/
def defaultLogLevel : Text := "info".toList

/-- Why the words of a command line mean nothing, or ask for something else. -/
inductive UsageError where
  | missingSource
  | unknownArgument
  | invalidValue
  | repeated
  | unexpectedValue
  | help
  | version
  deriving DecidableEq, Repr

/-- The options with a value. -/
inductive Setting where
  | output
  | base
  | scope
  | logLevel
  deriving DecidableEq, Repr

/-- The options without a value. -/
inductive Switch where
  | noDependencies
  | extension
  | help
  | version
  deriving DecidableEq, Repr

/-- Is the value of the option a path? Paths are not empty. -/
def Setting.isPath : Setting → Bool
  | output => true
  | base => true
  | _ => false

/-- The names after two dashes. -/
def longNames : List (Text × (Setting ⊕ Switch)) :=
  [ ("output".toList, .inl .output), ("base-dir".toList, .inl .base),
    ("namespace-prefix".toList, .inl .scope), ("log-level".toList, .inl .logLevel),
    ("no-dependencies".toList, .inr .noDependencies),
    ("add-ts-extension-to-imports".toList, .inr .extension),
    ("help".toList, .inr .help), ("version".toList, .inr .version) ]

/-- The letters after one dash. -/
def shortNames : List (Char × (Setting ⊕ Switch)) :=
  [('o', .inl .output), ('b', .inl .base), ('p', .inl .scope), ('h', .inr .help),
    ('V', .inr .version)]

/-! ## Reading words -/

/-- What was read last and is not settled yet. -/
inductive Pending where
  | nothing
  | source (word : Text)
  /-- An option, with its value unless that is still to come. -/
  | setting (s : Setting) (value : Option Text)
  deriving DecidableEq, Repr

/-- How far the words are read. -/
structure State where
  source : Option Text
  settings : List (Setting × Text)
  switches : List Switch
  pending : Pending
  /-- Was there a word that is no option? -/
  sourceSeen : Bool
  /-- Was there a `--`? -/
  optionsEnded : Bool
  deriving DecidableEq, Repr

/-- No word is read yet. -/
def start : State := ⟨none, [], [], .nothing, false, false⟩

/-- Notes the value of an option, which may be given once. -/
def assign (st : State) (s : Setting) (value : Text) : Except UsageError State :=
  if (st.settings.lookup s).isSome then .error .repeated
  else if s.isPath && value.isEmpty then .error .invalidValue
  else .ok { st with settings := (s, value) :: st.settings }

/-- Settles what was read last. -/
def settle (st : State) : Except UsageError State :=
  let settled := { st with pending := .nothing }
  match st.pending with
  | .nothing => .ok settled
  | .source word => .ok { settled with source := some word }
  | .setting _ none => .error .invalidValue
  | .setting s (some value) => assign settled s value

/-- An option with a value, in the same word or to come. -/
def takeSetting (st : State) (s : Setting) (attached : Option Text) : Except UsageError State := do
  let st ← settle st
  match attached with
  | some value => assign st s value
  | none => return { st with pending := .setting s none }

/-- An option without a value, which may be given once. -/
def takeSwitch (st : State) (s : Switch) : Except UsageError State := do
  let st ← settle st
  match s with
  | .help => .error .help
  | .version => .error .version
  | s => if s ∈ st.switches then .error .repeated else return { st with switches := s :: st.switches }

/-- A word that is no option. -/
def takeSource (st : State) (word : Text) : Except UsageError State := do
  if st.sourceSeen then .error .unknownArgument
  let st ← settle st
  return { st with pending := .source word, sourceSeen := true }

/-- A word that starts with two dashes, without them. -/
def takeLong (st : State) (word : Text) : Except UsageError State :=
  let attached :=
    match word.dropWhile (· != '=') with
    | [] => none
    | _ :: value => some value
  match longNames.lookup (word.takeWhile (· != '=')) with
  | none => .error .unknownArgument
  | some (.inl s) => takeSetting st s attached
  | some (.inr s) => if attached.isSome then .error .unexpectedValue else takeSwitch st s

/-- A word that starts with one dash: its letter, and what follows it. -/
def takeShort (st : State) (letter : Char) (rest : Text) : Except UsageError State :=
  match shortNames.lookup letter with
  | none => .error .unknownArgument
  | some (.inl s) =>
    takeSetting st s
      (match rest with
        | [] => none
        | '=' :: value => some value
        | value => some value)
  | some (.inr s) => takeSwitch st s

/-- What a word does. -/
def step (st : State) (word : Text) : Except UsageError State :=
  if st.optionsEnded then takeSource st word
  else
    match word with
    | ['-', '-'] => .ok { st with optionsEnded := true }
    | '-' :: '-' :: rest => takeLong st rest
    | '-' :: letter :: rest => takeShort st letter rest
    | word =>
      match st.pending with
      | .setting s none => .ok { st with pending := .setting s (some word) }
      | _ => takeSource st word

/-- What the words mean once all of them are read. -/
def finish (st : State) : Except UsageError Arguments := do
  let st ← settle st
  match st.source with
  | none => .error .missingSource
  | some source =>
    return { source
             output := (st.settings.lookup .output).getD defaultOutput
             noDependencies := st.switches.contains .noDependencies
             extension := st.switches.contains .extension
             base := st.settings.lookup .base
             scope := st.settings.lookup .scope
             logLevel := (st.settings.lookup .logLevel).getD defaultLogLevel }

/-- Reads the words of a command line. -/
def parse (words : List Text) : Except UsageError Arguments := do
  finish (← words.foldlM step start)

end DeclGen.CommandLine
