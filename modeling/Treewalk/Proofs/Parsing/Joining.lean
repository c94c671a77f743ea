/-
  Treewalk/Proofs/Parsing/Joining.lean
  ====================================
  **Programs joined by semicolons.**  A semicolon behind a program belongs to
  its last statement or is a statement that leaves no node, so what stands
  behind it is read as if it stood alone.  No text of a program reaches into
  the next one, and no program is nested deeper than it was.
-/
import Mathlib.Data.List.Forall2
import Treewalk.Proofs.Parsing.Exactness
import Treewalk.Proofs.Parsing.Resumption
import Treewalk.Proofs.Scanning.Layout

namespace Treewalk

namespace Parser

variable {limit : Nat} {semicolon : Token} (hsemicolon : semicolon.kind = .semicolon)

/-! ### Statements -/

include hsemicolon

/-- A semicolon at the end is read with an expression statement that has none. -/
theorem expressionStatement_semicolon {u : List Token} {s : Stmt}
    (h : expressionStatement (expression limit) u = .ok (s, [])) (v : List Token) :
    expressionStatement (expression limit) (u ++ semicolon :: v) = .ok (s, semicolon :: v) ∨
      expressionStatement (expression limit) (u ++ semicolon :: v) = .ok (s, v) := by
  obtain ⟨e, w, he, hend, rfl⟩ := expressionStatement_ok.mp h
  obtain ⟨b, rfl, hsame⟩ := continues_expression limit (by decide) u e w he
  rcases hend with ⟨last, hlast, rfl⟩ | ⟨-, rfl⟩
  · refine .inl (expressionStatement_ok.mpr ⟨e, last :: semicolon :: v, ?_,
      .inl ⟨last, hlast, rfl⟩, rfl⟩)
    rw [List.append_assoc]
    exact hsame _ (.inl rfl)
  · refine .inr (expressionStatement_ok.mpr ⟨e, semicolon :: v, ?_,
      .inl ⟨semicolon, hsemicolon, rfl⟩, rfl⟩)
    rw [List.append_nil]
    refine hsame _ (.inr ?_)
    rw [show kindOf (semicolon :: v) = .semicolon from hsemicolon]
    exact ⟨by decide, by decide⟩

/-- Behind a semicolon that follows a statement, either the semicolon is left or it was read
    with the statement. -/
theorem statement_semicolon {u r : List Token} {o : Option Stmt}
    (h : statement (expression limit) (block limit) u = .ok (o, r)) (v : List Token) :
    statement (expression limit) (block limit) (u ++ semicolon :: v) =
        .ok (o, r ++ semicolon :: v) ∨
      r = [] ∧ statement (expression limit) (block limit) (u ++ semicolon :: v) = .ok (o, v) := by
  have hexpr : Continues (fun _ => False) (expression limit .lowest) :=
    (continues_expression limit (by decide)).mono nofun
  cases r with
  | cons t r =>
    obtain ⟨b, rfl, hsame⟩ := local_statement limit u (.ok o) (t :: r) h
    rw [List.append_assoc]
    exact .inl (hsame _ rfl)
  | nil =>
    rcases statement_ok.mp h with ⟨w, s, hk, hs, rfl⟩ | ⟨w, s, hk, hs, rfl⟩ |
      ⟨w, body, hk, hbody, rfl⟩ | ⟨hk, rfl⟩ | ⟨hno, s, hs, rfl⟩
    · have hs := (resumes_definition hexpr).continues.append hs (semicolon :: v)
      exact .inl (statement_ok.mpr (.inl ⟨_, s, hk.append _, hs, rfl⟩))
    · have hs := (resumes_returned hexpr).continues.append hs (semicolon :: v)
      exact .inl (statement_ok.mpr (.inr (.inl ⟨_, s, hk.append _, hs, rfl⟩)))
    · have hbody := (resumes_block limit).continues.append hbody (semicolon :: v)
      exact .inl (statement_ok.mpr (.inr (.inr (.inl ⟨_, body, hk.append _, hbody, rfl⟩))))
    · exact .inl (statement_ok.mpr (.inr (.inr (.inr (.inl ⟨hk.append _, rfl⟩)))))
    · have hstart : startsOther (kindOf (u ++ semicolon :: v)) = false := by
        cases u with
        | nil => exact absurd (shrinking_statement (shrinking_expression limit)
            (shrinking_block limit) _ _ _ h) (Nat.lt_irrefl 0)
        | cons t u => exact hno
      have hread : ∀ w, expressionStatement (expression limit) (u ++ semicolon :: v) = .ok (s, w) →
          statement (expression limit) (block limit) (u ++ semicolon :: v) = .ok (some s, w) :=
        fun w hw => statement_ok.mpr (.inr (.inr (.inr (.inr ⟨hstart, s, hw, rfl⟩))))
      exact (expressionStatement_semicolon hsemicolon hs v).imp (hread _) fun hw =>
        ⟨rfl, hread _ hw⟩

/-! ### Programs -/

/-- Reads one statement more of a program. -/
abbrev programStep (limit : Nat) : List Stmt → Parser (Option (List Stmt)) :=
  nextStatement (expression limit) (block limit) endsProgram

omit hsemicolon in
theorem reading_programStep (limit : Nat) : Reading (programStep limit) :=
  reading_nextStatement (shrinking_expression limit) (shrinking_block limit) endsProgram

theorem runs_semicolon {ss ss' : List Stmt} {u r : List Token}
    (h : Runs (programStep limit) ss u ss' r) (hr : r = []) (v : List Token) :
    Runs (programStep limit) ss (u ++ semicolon :: v) ss' v := by
  -- A semicolon ends no program, and where no statement is under way, it is one by itself.
  have hgoes : endsProgram (kindOf (semicolon :: v)) = false := by
    rw [show kindOf (semicolon :: v) = .semicolon from hsemicolon]
    rfl
  have hskip : ∀ ss, programStep limit ss (semicolon :: v) = .ok (some ss, v) := fun ss =>
    nextStatement_some.mpr ⟨hgoes, none, statement_ok.mpr
      (.inr (.inr (.inr (.inl ⟨⟨semicolon, hsemicolon, rfl⟩, rfl⟩)))), rfl⟩
  induction h with
  | refl =>
    subst hr
    exact .head (hskip _) .refl
  | @head ss u ss₁ w ss₂ r hstep hruns ih =>
    have hrest := ih hr
    obtain ⟨hgo, o, hs, rfl⟩ := nextStatement_some.mp hstep
    have hgo' : endsProgram (kindOf (u ++ semicolon :: v)) = false := by
      cases u with
      | nil => exact hgoes
      | cons t u => exact hgo
    rcases statement_semicolon hsemicolon hs v with hs' | ⟨rfl, hs'⟩
    · exact .head (nextStatement_some.mpr ⟨hgo', o, hs', rfl⟩) hrest
    · -- Nothing was left for another statement.
      cases hruns with
      | refl => exact .head (nextStatement_some.mpr ⟨hgo', o, hs', rfl⟩) .refl
      | head hstep => cases (nextStatement_some.mp hstep).1

omit hsemicolon in
/-- The statements that were read before are no concern of a loop. -/
theorem loop_append (ss ss' : List Stmt) (u : List Token) :
    loop (programStep limit) (ss ++ ss') u =
      ((· ++ ss') <$> loop (programStep limit) ss) u := by
  have hreading := reading_programStep limit
  induction hn : u.length using Nat.strongRecOn generalizing ss u with
  | ind n ih =>
    rw [map_apply, loop_unfold hreading, loop_unfold hreading]
    cases hend : endsProgram (kindOf u) with
    | true =>
      have hstep : ∀ ss, programStep limit ss u = .ok (none, u) := fun ss =>
        nextStatement_none.mpr ⟨hend, rfl⟩
      rw [hstep, hstep]
    | false =>
      have hstep : ∀ ss, programStep limit ss u =
          ((fun o => some (o.toList ++ ss)) <$> statement (expression limit) (block limit)) u :=
        fun ss => nextStatement_apply ss hend
      rw [hstep, hstep, map_apply, map_apply]
      rcases hs : statement (expression limit) (block limit) u with f | ⟨o, v⟩
      · rfl
      · have hless := shrinking_statement (shrinking_expression limit) (shrinking_block limit)
          u o v hs
        simp only [← List.append_assoc]
        rw [ih v.length (hn ▸ hless) _ v rfl, map_apply]

/-- What stands behind a program and a semicolon is read as a program by itself. -/
theorem program_semicolon {u : List Token} {p : Program} (h : program limit u = .ok (p, []))
    (v : List Token) : program limit (u ++ semicolon :: v) = ((p ++ ·) <$> program limit) v := by
  have hprogram : program limit = (loop (programStep limit) [] >>= fun ss => pure ss.reverse) := rfl
  obtain ⟨hruns, -⟩ := program_ok.mp h
  have hloop : loop (programStep limit) [] (u ++ semicolon :: v) =
      ((· ++ p.reverse) <$> loop (programStep limit) []) v := by
    rw [(runs_semicolon hsemicolon hruns rfl v).loop_eq (reading_programStep limit),
      ← loop_append]
    rfl
  rw [map_apply, hprogram, bind_pure_comp, map_apply, map_apply, hloop, map_apply]
  rcases loop (programStep limit) [] v with f | ⟨ss, r⟩
  · rfl
  · simp only [List.reverse_append, List.reverse_reverse]

end Parser

/-! ### Texts -/

theorem parseWithin_empty (limit : Nat) : parseWithin limit "" = .ok [] := by
  refine parseWithin_ok.mpr ⟨[], ?_⟩
  rw [String.toList_empty, tokensFrom_nil]
  rfl

/-- A text in front of a semicolon is read to its end. -/
theorem parseWithin_semicolon {limit : Nat} {text rest : String} {p q : Program}
    (h : parseWithin limit text = .ok p) (hrest : parseWithin limit rest = .ok q) :
    parseWithin limit (text ++ ";" ++ rest) = .ok (p ++ q) := by
  obtain ⟨r, hread⟩ := parseWithin_ok.mp h
  obtain ⟨r', hread'⟩ := parseWithin_ok.mp hrest
  obtain ⟨rfl, -⟩ := Parser.program_sound (readable_tokensFrom text) hread
  have htokens : tokensFrom (text ++ ";" ++ rest).toList =
      tokensFrom text.toList ++ ⟨.semicolon, ";"⟩ :: tokensFrom rest.toList := by
    rw [String.toList_append, String.toList_append, List.append_assoc]
    exact tokensFrom_semicolon text.toList rest.toList
  refine parseWithin_ok.mpr ⟨r', ?_⟩
  rw [htokens, Parser.program_semicolon rfl hread, Parser.map_apply, hread']

/-- The program of texts that are joined by semicolons has the statements of all of them. -/
theorem parseWithin_joined {limit : Nat} {texts : List String} {programs : List Program}
    (h : List.Forall₂ (fun text p => parseWithin limit text = .ok p) texts programs) :
    parseWithin limit (";".intercalate texts) = .ok programs.flatten := by
  induction h with
  | nil => exact parseWithin_empty limit
  | @cons text p texts programs hfirst hrest ih =>
    cases hrest with
    | nil => simpa using hfirst
    | cons =>
      rw [String.intercalate_cons_cons]
      exact parseWithin_semicolon hfirst ih

end Treewalk
