/-
  Treewalk/Transcript.lean
  ========================
  **Transcripts** of a conversation at a prompt.

  Each line is run in the one scope of the conversation, and its value or
  error is answered.  A blank line is passed over, and a line with the word
  `exit` alone ends the conversation, as the end of the input does.
-/
import Treewalk.Interpreter
import Treewalk.Text.LineEnd

namespace Treewalk.Transcript

def prompt : String := ">> "

/-- The word that ends a conversation. -/
def farewell : String := "exit"

inductive Intent where
  | leave
  | pass
  | run
  deriving DecidableEq, Repr

def intent (line : String) : Intent :=
  let words := Text.trim line.toList
  if words = farewell.toList then .leave
  else if words.isEmpty then .pass
  else .run

/-- The answer to a text, a line of its own. -/
def answer (result : Except Error Value) : String :=
  match result with
  | .ok v => v.display ++ "\n"
  | .error e => "error: " ++ e.report ++ "\n"

def respond (limits : Limits) (m : Machine) (text : String) : String × Machine :=
  let (result, m) := m.runText limits 0 text
  (answer result, m)

/-- All that is shown while lines are typed. -/
def converse (limits : Limits) (m : Machine) : List String → String
  | [] => prompt ++ "\n"
  | line :: rest =>
    match intent line with
    | .leave => prompt
    | .pass => prompt ++ converse limits m rest
    | .run =>
      let (shown, m) := respond limits m line
      prompt ++ shown ++ converse limits m rest

/-- A file as a program text. -/
def ofFile (content : String) : String := String.ofList (Text.unifyLineEnds content.toList)

/-- Runs the file that a conversation starts with, if there is one. -/
def opening (limits : Limits) (file : Option String) : String × Machine :=
  match file with
  | some content => respond limits .new (ofFile content)
  | none => ("", .new)

/-- All that is shown in a conversation. -/
def text (limits : Limits) (file : Option String) (lines : List String) : String :=
  let (shown, m) := opening limits file
  shown ++ converse limits m lines

end Treewalk.Transcript
