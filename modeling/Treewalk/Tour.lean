/-
  Treewalk/Tour.lean
  ==================
  **A tour of the language**: samples, each with its tokens, its statements,
  its value and what it binds, or with the error it runs into.
-/
import Treewalk.Interpreter

namespace Treewalk.Tour

def samples : List String :=
  ["5",
   "-1 + 1",
   "4 + 6 * 3",
   "(4 + 6) * 3",
   "7 / 2; -7 / 2",
   "!5 == false",
   "let a = 1; let b = 2; let c = a + b; c",
   "let max = fn(x, y) \x7b if (x > y) \x7b x \x7d else \x7b y \x7d \x7d; max(3, 8)",
   "let adder = fn(x) \x7b fn(y) \x7b x + y \x7d \x7d; adder(2)(40)",
   "let fact = fn(n) \x7b if (n < 2) \x7b return 1; \x7d n * fact(n - 1) \x7d; fact(20)",
   "let 名前 = 10; 名前 * 2",
   "5 + true",
   "let x 5;",
   "foo_bar"]

/-- A text filled up from the left. -/
def padLeft (width : Nat) (text : String) : String :=
  String.ofList (List.replicate (width - text.length) ' ') ++ text

/-- The lines that number the statements of a program. -/
def numbered (p : Program) : List String :=
  p.mapIdx fun i stmt => " " ++ padLeft 2 (toString (i + 1)) ++ ": " ++ stmt.print

def equation (b : String × Value) : String := b.1 ++ " = " ++ b.2.display

def outcomeLines (outcome : Outcome) : List String :=
  match outcome.result with
  | .error e => ["runtime error: " ++ e.report]
  | .ok v =>
    ["result: " ++ v.display,
     "bindings: " ++ commaSeparated (outcome.bindings.map equation)]

def meaning (sample : String) : List String :=
  match parse sample with
  | .error e => [e.report]
  | .ok p =>
    ("ast:\n" ++ "\n".intercalate (numbered p)) :: outcomeLines (runProgram .standard p)

def stop (sample : String) : List String :=
  ["==========",
   "code: " ++ Text.quoted sample,
   "tokens: " ++ " ".intercalate ((tokenize sample).map (·.token.display))] ++ meaning sample

def text : String := String.join ((samples.flatMap stop).map (· ++ "\n"))

end Treewalk.Tour
