import OcCompiler.Execution

/-! The command line program: runs on the files of the system what the other modules work out. -/

namespace OcCompiler

def errorNumber (code : UInt32) : Nat := min code.toNat (0 - code).toNat

def FileError.ofSystem (e : IO.Error) : FileError :=
  match e with
  | .noFileOrDirectory .. => .missing
  | .inappropriateType _ code _ => if errorNumber code = 21 then .isDirectory else .notDirectory
  | .invalidArgument _ code _ => if errorNumber code = 36 then .nameTooLong else .other (toString e)
  | .permissionDenied .. => .denied
  | _ => .other (toString e)

def readText (path : String) : IO (Except FileError String) := do
  try return FileSystem.textOf (← IO.FS.readBinFile path)
  catch e => return .error (.ofSystem e)

def writeFiles : List (String × String) → IO (Except RunError (List String))
  | [] => return .ok []
  | (path, text) :: rest => do
    try
      IO.FS.writeFile path text
      return (← writeFiles rest).map (path :: ·)
    catch e => return .error (.file path (.ofSystem e))

def execute (words : List String) : IO Execution := do
  match Request.checked words with
  | .error e => return .closing e
  | .ok request =>
    match ← readText request.input with
    | .error e => return .closing (.file request.input e)
    | .ok text =>
      match Plan.ofText request text with
      | .error f => return .ofFault f
      | .ok plan => return .ofOutcome plan.echo plan.log (plan.conclude (← writeFiles plan.writes))

end OcCompiler

def main (words : List String) : IO UInt32 := do
  let e ← OcCompiler.execute words
  (← IO.getStdout).putStr e.stdout
  (← IO.getStderr).putStr e.stderr
  return e.status.toUInt32
