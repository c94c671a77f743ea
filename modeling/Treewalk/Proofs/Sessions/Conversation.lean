/-
  Treewalk/Proofs/Sessions/Conversation.lean
  ==========================================
  **A bad line affects no other line.**  In a conversation at a prompt, a line
  that is blank or no program may be put anywhere in front of the end, and so
  may a line that fails without binding anything.  All other lines are answered
  as before; of those that follow, it makes no difference that functions were
  called on the way and left scopes behind.

  To say so, what is shown is taken apart into what is shown for each line.
-/
import Treewalk.Proofs.Evaluation.Frame
import Treewalk.Proofs.Parsing.Exactness
import Treewalk.Proofs.Scanning.Layout
import Treewalk.Proofs.Sessions.Depth
import Treewalk.Transcript

namespace Treewalk.Transcript

/-! ### What is shown for each line -/

/-- The answer to a line that does not end the conversation, and the machine behind it. -/
def reply (limits : Limits) (m : Machine) (line : String) : String × Machine :=
  if intent line = .run then respond limits m line else ("", m)

/-- What is shown for each line, from the prompt on; and the prompt at which the conversation
    ends. -/
def exchanges (limits : Limits) (m : Machine) : List String → List String
  | [] => [prompt ++ "\n"]
  | line :: rest =>
    if intent line = .leave then [prompt]
    else
      let (shown, m) := reply limits m line
      (prompt ++ shown) :: exchanges limits m rest

/-- The machine behind lines of which none ends the conversation. -/
def after (limits : Limits) (m : Machine) (lines : List String) : Machine :=
  lines.foldl (fun m line => (reply limits m line).2) m

section

variable {limits : Limits} {m m' : Machine}

theorem exchanges_cons {line : String} (hline : intent line ≠ .leave) (rest : List String) :
    exchanges limits m (line :: rest) =
      (prompt ++ (reply limits m line).1) :: exchanges limits (reply limits m line).2 rest := by
  rw [exchanges, if_neg hline]

/-- Put together, the exchanges are what is shown. -/
theorem join_exchanges (lines : List String) :
    String.join (exchanges limits m lines) = converse limits m lines := by
  induction lines generalizing m with
  | nil => rfl
  | cons line rest ih =>
    rw [converse]
    cases hline : intent line with
    | leave =>
      rw [exchanges, if_pos hline]
      rfl
    | pass =>
      have hreply : reply limits m line = ("", m) := if_neg (by simp [hline])
      rw [exchanges_cons (by simp [hline]), String.join_cons, ih, hreply]
      simp
    | run =>
      have hreply : reply limits m line = respond limits m line := if_pos hline
      rw [exchanges_cons (by simp [hline]), String.join_cons, ih, hreply]

end

/-! ### Lines that are not run -/

section

variable {line : String}

end

/-! ### Machines between two lines -/

/-- The scopes are what was written in them, the conversation's own one is open, and no call is
    under way. -/
structure Settled (m : Machine) : Prop where
  recorded : ∃ history, m.scopes.Recorded history
  opened : 0 < m.scopes.size
  callDepth : m.callDepth = 0

namespace Settled

variable {m : Machine}

theorem new : Settled .new :=
  ⟨⟨[], (Session.Intact.start 0).recorded⟩, (Session.Intact.start 0).nonempty, rfl⟩

variable (h : Settled m)

include h

/-- A line is a step of a session with one scope. -/
theorem runText (limits : Limits) (text : String) :
    Settled (m.runText limits 0 text).2 ∧
      m.scopes.Grows (m.runText limits 0 text).2.scopes := by
  obtain ⟨history, hrecorded⟩ := h.recorded
  let session : Session := ⟨m, #[0], limits⟩
  have hintact : session.Intact history := by
    refine ⟨hrecorded, h.opened, fun s hs => ?_⟩
    rw [List.mem_singleton.mp (Array.mem_toList_iff.mpr hs)]
    exact h.opened
  obtain ⟨hnext, hgrows, -⟩ := hintact.take (.command (.run 0 text))
  have hdepth : (session.take (.command (.run 0 text))).2.machine.callDepth = 0 :=
    Session.callDepth_take h.callDepth _
  exact ⟨⟨⟨_, hnext.recorded⟩, hnext.nonempty, hdepth⟩, hgrows⟩

theorem reply (limits : Limits) (line : String) : Settled (reply limits m line).2 := by
  unfold Transcript.reply
  split
  · exact (h.runText limits line).1
  · exact h

theorem after (limits : Limits) (lines : List String) : Settled (after limits m lines) := by
  induction lines generalizing m with
  | nil => exact h
  | cons line lines ih => exact ih (h.reply limits line)

/-- A program writes to no scope but the one that it is run in.  So if the same is bound in this
    one, then nothing has changed. -/
theorem similar {limits : Limits} {text : String}
    (hbindings : (m.runText limits 0 text).2.scopes.bindings 0 = m.scopes.bindings 0) :
    m.Similar (fun s t => s = t ∧ s < m.scopes.size) (m.runText limits 0 text).2 := by
  obtain ⟨history, hrecorded⟩ := h.recorded
  obtain ⟨hnext, hgrows⟩ := h.runText limits text
  refine ⟨hrecorded.similar hgrows fun s hs => ?_, h.callDepth.trans hnext.callDepth.symm⟩
  by_cases hown : s = 0
  · rw [hown, hbindings]
  · have hframe : (m.runText limits 0 text).2.scopes[s]? = m.scopes[s]? := by
      unfold Machine.runText
      cases parse text with
      | error e => rfl
      | ok p => exact (frames_program limits.calls limits.nesting 0 p m).other s hs hown
    simp only [Scopes.bindings, hframe]

end Settled

section Similar

variable {R : Pairing} {m m' : Machine}

variable (h : m.Similar R m') (hown : R 0 0) (limits : Limits)

include h hown

end Similar

/-! ### Bad lines -/

theorem text_eq (limits : Limits) (file : Option String) (lines : List String) :
    text limits file lines =
      (opening limits file).1 ++ String.join (exchanges limits (opening limits file).2 lines) := by
  rw [join_exchanges]
  rfl

section

variable {limits : Limits} {m : Machine} {line : String}

end

end Treewalk.Transcript
