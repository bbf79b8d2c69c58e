import OcCompiler.CommandLine
import OcCompiler.Compilation
import OcCompiler.FileSystem

/-!
A run of the compiler: the source is read and compiled, and the wanted listings are written one after the other. What a
run is going to write is a value of its own, made before anything is written.
-/

namespace OcCompiler

/-- Why a run did not succeed. -/
inductive RunError where
  | usage (e : UsageError)
  | badSuffix (path : String)
  | file (path : String) (e : FileError)
  | syntaxError (e : SyntaxError)
  | failed (count : Nat)

namespace RunError

def message : RunError → String
  | .usage _ => ""
  | .badSuffix path => path ++ ": source file name must end in .oc"
  | .file path e => path ++ ": " ++ e.message
  | .syntaxError e => e.message
  | .failed count => "compilation failed with " ++ count.repr ++ " errors"

end RunError

/-- What a compilation shows and what is to be written after it. -/
structure Plan where
  echo : String := ""
  log : Log := #[]
  writes : List (String × String) := []
  syntaxError : Option SyntaxError := none

namespace Plan

def listings (c : Compilation) : List (Listing × Option String) :=
  [(.tokens, some c.tokenListing), (.tree, c.decoratedTree?), (.symbols, c.symbolListing?), (.oil, c.oilText?)]

def echoOf (r : Request) (c : Compilation) : String :=
  (if r.dumpTokens then c.tokenListing else "") ++ (if r.dumpTree then c.rawTree?.getD "" else "")

def writesOf (r : Request) (c : Compilation) : List (String × String) :=
  (listings c).filterMap fun (listing, text?) =>
    if r.wants (.only listing) then text?.map (r.listingPath listing, ·) else none

def ofCompilation (r : Request) (c : Compilation) : Plan where
  echo := echoOf r c
  log := c.log
  writes := if c.syntaxError?.isSome then [] else writesOf r c
  syntaxError := c.syntaxError?

def ofText (r : Request) (text : String) : Except Fault Plan := do
  return ofCompilation r (← Compilation.ofText r.input text .emit)

def conclude (p : Plan) (written : Except RunError (List String)) : Except RunError (List String) :=
  match p.syntaxError with
  | some e => .error (.syntaxError e)
  | none => do
    let paths ← written
    if p.log.isEmpty then return paths else throw (.failed p.log.size)

end Plan

namespace FileSystem

def writeAll (fs : FileSystem) : List (String × String) → Except RunError (List String) × FileSystem
  | [] => (.ok [], fs)
  | (path, text) :: rest =>
    match fs.write path text with
    | .error e => (.error (.file path e), fs)
    | .ok fs =>
      let (outcome, fs) := fs.writeAll rest
      (outcome.map (path :: ·), fs)

end FileSystem

structure Report where
  outcome : Except RunError (List String)
  echo : String := ""
  log : Option Log := none
  files : FileSystem

namespace Report

def ofRequest (r : Request) (fs : FileSystem) : Except Fault Report :=
  match fs.read r.input with
  | .error e => .ok { outcome := .error (.file r.input e), log := some #[], files := fs }
  | .ok text => do
    let plan ← Plan.ofText r text
    let (written, files) := fs.writeAll plan.writes
    return { outcome := plan.conclude written, echo := plan.echo, log := some plan.log, files }

end Report

def Request.checked (words : List String) : Except RunError Request := do
  let r ← (Request.ofWords words).mapError RunError.usage
  if Path.isSource r.input then return r else throw (.badSuffix r.input)

def Report.ofWords (words : List String) (fs : FileSystem) : Except Fault Report :=
  match Request.checked words with
  | .error e => .ok { outcome := .error e, files := fs }
  | .ok r => Report.ofRequest r fs

end OcCompiler
