import OcCompiler.Run

/-!
The program as seen from outside: an exit status and two streams of text. The status is 0 for success or help, 1 for
an error, 2 for a command line that was not understood and 101 for a fault.
-/

namespace OcCompiler

structure Execution where
  status : Nat := 0
  stdout : String := ""
  stderr : String := ""

namespace Execution

def usageText : String :=
  "Usage: occ [OPTIONS] <FILE.oc>\n\n" ++
  "  -o, --out-dir <DIR>          directory for the listings\n" ++
  "  -D, --define <NAME[=VALUE]>  macro definition\n" ++
  "  -l, --dump-tokens            show the tokens\n" ++
  "  -y, --dump-parser            show the tree\n" ++
  "      --emit <LISTING>         tok, ast, sym, oil or all\n" ++
  "  -v, --verbose                say more\n" ++
  "  -h, --help                   show this text\n"

def closing : RunError → Execution
  | .usage .helpRequested => { stdout := usageText }
  | .usage _ => { status := 2, stderr := usageText }
  | .failed _ => { status := 1 }
  | e => { status := 1, stderr := e.message ++ "\n" }

def ofOutcome (echo : String) (log : Log) (outcome : Except RunError (List String)) : Execution :=
  let shown := echo ++ log.render Log.programName
  match outcome with
  | .ok _ => { stderr := shown }
  | .error e =>
    let last := closing e
    { last with stderr := shown ++ last.stderr }

def ofReport (r : Report) : Execution := ofOutcome r.echo (r.log.getD #[]) r.outcome

def ofFault (f : Fault) : Execution := { status := 101, stderr := f.message ++ "\n" }

def ofWords (words : List String) (fs : FileSystem) : Execution × FileSystem :=
  match Report.ofWords words fs with
  | .ok r => (ofReport r, r.files)
  | .error f => (ofFault f, fs)

end Execution

end OcCompiler
