/-
  Treewalk/Main.lean
  ==================
  **The command line**: a conversation at a prompt.

      treewalk [FILE] [--max-call-depth N]

  A file that is given is run first.
-/
import Treewalk.Transcript

namespace Treewalk

structure Options where
  file : Option String
  calls : Int
  deriving DecidableEq, Repr

/-- The options when nothing is asked for. -/
def Options.standard : Options := ⟨none, Limits.standard.calls⟩

def Options.read? (options : Options) : List String → Option Options
  | [] => some options
  | "--max-call-depth" :: count :: rest =>
    match count.toInt? with
    | some calls => { options with calls := calls }.read? rest
    | none => none
  | word :: rest =>
    if word.startsWith "-" || options.file.isSome then none
    else { options with file := some word }.read? rest

/-- Talks with the input until it ends or takes its leave. -/
partial def converse (limits : Limits) (input output : IO.FS.Stream) (m : Machine) : IO Unit := do
  output.putStr Transcript.prompt
  output.flush
  let line ← input.getLine
  if line.isEmpty then
    output.putStrLn ""
  else
    match Transcript.intent line with
    | .leave => return
    | .pass => converse limits input output m
    | .run =>
      let typed := if line.endsWith "\n" then (line.dropEnd 1).copy else line
      let (shown, m) := Transcript.respond limits m typed
      output.putStr shown
      converse limits input output m

/-- Runs the file that is asked for, and then talks with the standard input. -/
def talk (options : Options) : IO Unit := do
  let limits := Limits.ofCalls options.calls
  let output ← IO.getStdout
  let content ← options.file.mapM fun file => IO.FS.readFile file
  let (shown, m) := Transcript.opening limits content
  output.putStr shown
  converse limits (← IO.getStdin) output m

end Treewalk

def main (args : List String) : IO UInt32 := do
  match Treewalk.Options.standard.read? args with
  | some options =>
    Treewalk.talk options
    return 0
  | none =>
    (← IO.getStderr).putStrLn "usage: treewalk [FILE] [--max-call-depth N]"
    return 2
