import OcCompiler.Path

/-!
The command line, read from left to right. An option whose value is a word of its own, and the input file, are settled
only when the next option comes or the words are over.
-/

namespace OcCompiler

inductive Listing where
  | tokens
  | tree
  | symbols
  | oil
deriving DecidableEq, Repr, Inhabited

def Listing.ending : Listing → String
  | .tokens => "tok"
  | .tree => "ast"
  | .symbols => "sym"
  | .oil => "oil"

inductive Wanted where
  | only (listing : Listing)
  | all
deriving DecidableEq, Repr, Inhabited

namespace Wanted

def ending : Wanted → String
  | .only listing => listing.ending
  | .all => ""

def ofWord? : String → Option Wanted
  | "tok" => some (.only .tokens)
  | "ast" => some (.only .tree)
  | "sym" => some (.only .symbols)
  | "oil" => some (.only .oil)
  | "all" => some .all
  | _ => none

end Wanted

structure MacroDef where
  name : String
  value : Option String
deriving DecidableEq, Repr, Inhabited

def MacroDef.ofWord (word : String) : MacroDef :=
  let name := String.ofList (word.toList.takeWhile (· ≠ '='))
  match word.toList.dropWhile (· ≠ '=') with
  | [] => ⟨name, none⟩
  | _ :: value => ⟨name, some (String.ofList value)⟩

inductive UsageError where
  | missingInput
  | unknownArgument
  | invalidValue
  | repeated
  | valueForFlag
  | helpRequested
deriving DecidableEq, Repr, Inhabited

inductive Flag where
  | dumpTokens
  | dumpTree
  | verbose
  | help
deriving DecidableEq, Repr, Inhabited

inductive ValueOption where
  | outDir
  | define
  | emit
deriving DecidableEq, Repr, Inhabited

inductive Switch where
  | flag (f : Flag)
  | option (o : ValueOption)
deriving DecidableEq, Repr, Inhabited

def Switch.ofLong? : String → Option Switch
  | "out-dir" => some (.option .outDir)
  | "define" => some (.option .define)
  | "emit" => some (.option .emit)
  | "dump-tokens" => some (.flag .dumpTokens)
  | "dump-parser" => some (.flag .dumpTree)
  | "verbose" => some (.flag .verbose)
  | "help" => some (.flag .help)
  | _ => none

def Switch.ofShort? : Char → Option Switch
  | 'o' => some (.option .outDir)
  | 'D' => some (.option .define)
  | 'l' => some (.flag .dumpTokens)
  | 'y' => some (.flag .dumpTree)
  | 'v' => some (.flag .verbose)
  | 'h' => some (.flag .help)
  | _ => none

structure Settings where
  input : Option String := none
  outDir : Option String := none
  defines : List MacroDef := []
  emit : List Wanted := []
  dumpTokens : Bool := false
  dumpTree : Bool := false
  verbose : Bool := false
deriving DecidableEq, Repr, Inhabited

namespace Settings

def setFlag (s : Settings) : Flag → Except UsageError Settings
  | .dumpTokens => if s.dumpTokens then .error .repeated else .ok { s with dumpTokens := true }
  | .dumpTree => if s.dumpTree then .error .repeated else .ok { s with dumpTree := true }
  | .verbose => if s.verbose then .error .repeated else .ok { s with verbose := true }
  | .help => .error .helpRequested

def setOption (s : Settings) (value : String) : ValueOption → Except UsageError Settings
  | .outDir =>
    if s.outDir.isSome then .error .repeated
    else if value = "" then .error .invalidValue
    else .ok { s with outDir := some value }
  | .define => .ok { s with defines := s.defines ++ [.ofWord value] }
  | .emit =>
    match Wanted.ofWord? value with
    | some wanted => .ok { s with emit := s.emit ++ [wanted] }
    | none => .error .invalidValue

def setInput (s : Settings) (value : String) : Except UsageError Settings :=
  if value = "" then .error .invalidValue else .ok { s with input := some value }

end Settings

inductive Pending where
  | option (o : ValueOption) (value : Option String)
  | input (value : String)
deriving DecidableEq, Repr, Inhabited

structure Reading where
  settings : Settings := {}
  pending : Option Pending := none
  inputSeen : Bool := false
  optionsOver : Bool := false
deriving DecidableEq, Repr, Inhabited

namespace Reading

def settle (r : Reading) : Except UsageError Reading :=
  match r.pending with
  | none => .ok r
  | some (.input value) => do return { r with settings := ← r.settings.setInput value, pending := none }
  | some (.option _ none) => .error .invalidValue
  | some (.option o (some value)) => do
    return { r with settings := ← r.settings.setOption value o, pending := none }

def flag (r : Reading) (f : Flag) : Except UsageError Reading := do
  let r ← r.settle
  return { r with settings := ← r.settings.setFlag f }

def option (r : Reading) (o : ValueOption) (attached : Option String) : Except UsageError Reading := do
  let r ← r.settle
  match attached with
  | some value => return { r with settings := ← r.settings.setOption value o }
  | none => return { r with pending := some (.option o none) }

/-- A word that starts with two dashes, without them. A value may follow an equals sign. -/
def long (r : Reading) (word : List Char) : Except UsageError Reading :=
  let value := match word.dropWhile (· ≠ '=') with
    | [] => none
    | _ :: value => some (String.ofList value)
  match Switch.ofLong? (String.ofList (word.takeWhile (· ≠ '='))) with
  | some (.option o) => r.option o value
  | some (.flag f) => if value.isSome then .error .valueForFlag else r.flag f
  | none => .error .unknownArgument

def attached? : List Char → Option String
  | [] => none
  | '=' :: value => some (String.ofList value)
  | value => some (String.ofList value)

def cluster (r : Reading) : List Char → Except UsageError Reading
  | [] => .ok r
  | letter :: rest =>
    match Switch.ofShort? letter with
    | some (.option o) => r.option o (attached? rest)
    | some (.flag f) => do (← r.flag f).cluster rest
    | none => .error .unknownArgument

def plain (r : Reading) (word : String) : Except UsageError Reading :=
  match r.optionsOver, r.pending with
  | false, some (.option o none) => .ok { r with pending := some (.option o (some word)) }
  | _, _ =>
    if r.inputSeen then .error .unknownArgument
    else do return { ← r.settle with pending := some (.input word), inputSeen := true }

def word (r : Reading) (word : String) : Except UsageError Reading :=
  if r.optionsOver then r.plain word
  else
    match word.toList with
    | ['-'] => r.plain word
    | ['-', '-'] => .ok { r with optionsOver := true }
    | '-' :: '-' :: name => r.long name
    | '-' :: letters => r.cluster letters
    | _ => r.plain word

end Reading

structure Request where
  input : String
  outDir : String := "."
  defines : List MacroDef := []
  dumpTokens : Bool := false
  dumpTree : Bool := false
  verbose : Bool := false
  emit : List Wanted := [.all]
deriving DecidableEq, Repr, Inhabited

namespace Request

def ofSettings (s : Settings) (input : String) : Request where
  input
  outDir := s.outDir.getD "."
  defines := s.defines
  dumpTokens := s.dumpTokens
  dumpTree := s.dumpTree
  verbose := s.verbose
  emit := if s.emit.isEmpty then [.all] else s.emit

def ofWords (words : List String) : Except UsageError Request := do
  let r ← (← words.foldlM Reading.word {}).settle
  match r.settings.input with
  | some input => return ofSettings r.settings input
  | none => throw .missingInput

def wants (r : Request) (wanted : Wanted) : Bool := r.emit.contains .all || r.emit.contains wanted

def listingPath (r : Request) (listing : Listing) : String :=
  Path.join r.outDir (Path.baseName r.input ++ "." ++ listing.ending)

end Request

end OcCompiler
