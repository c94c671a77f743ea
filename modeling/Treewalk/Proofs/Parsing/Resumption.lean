/-
  Treewalk/Proofs/Parsing/Resumption.lean
  =======================================
  **What has been read may be followed by something else.**  A parser that
  succeeds does the same with other tokens behind those that it has read, if
  the first of them stops it too.  Most parsers end with a token that they
  read, and then anything may follow.  An expression ends in front of any token
  that neither carries it on nor goes on with a choice.

  So a semicolon may be put behind a program, and another program behind the
  semicolon; both are read as they were.
-/
import Treewalk.Proofs.Parsing.Locality

namespace Treewalk.Parser

variable {α β : Type} {Q Q' : Kind → Prop}

/-! ### Parsers and what follows -/

/-- The parser succeeds in the same way when the tokens that it left are replaced by others, of
    which the first is the same or of a kind in `Q`. -/
def Continues (Q : Kind → Prop) (p : Parser α) : Prop :=
  ∀ u a r, p u = .ok (a, r) →
    ∃ b, u = b ++ r ∧ ∀ t, t.head? = r.head? ∨ Q (kindOf t) → p (b ++ t) = .ok (a, t)

/-- And it has read at least one token. -/
structure Resumes (Q : Kind → Prop) (p : Parser α) : Prop where
  continues : Continues Q p
  shrinking : Shrinking p

theorem kindOf_eq_of_head? {t u : List Token} (h : t.head? = u.head?) : kindOf t = kindOf u := by
  cases t <;> cases u <;> cases h <;> rfl

/-- The last part of a sequence is followed by what follows the sequence, and so are the parts
    before it if it has read nothing. -/
theorem head?_append_or {b r t : List Token} (h : t.head? = r.head? ∨ Q (kindOf t))
    (hQ : b = [] → ∀ k, Q k → Q' k) :
    (b ++ t).head? = (b ++ r).head? ∨ Q' (kindOf (b ++ t)) := by
  cases b with
  | nil => exact h.imp_right (hQ rfl _)
  | cons => exact .inl rfl

namespace Continues

theorem ofLocal {p : Parser α} (h : Local p) : Continues (fun _ => False) p := by
  intro u a r hu
  obtain ⟨b, rfl, hsame⟩ := h u (.ok a) r hu
  exact ⟨b, rfl, fun t ht => hsame t (ht.resolve_right id)⟩

theorem mono {p : Parser α} (h : Continues Q' p) (hQ : ∀ k, Q k → Q' k) : Continues Q p := by
  intro u a r hu
  obtain ⟨b, rfl, hsame⟩ := h u a r hu
  exact ⟨b, rfl, fun t ht => hsame t (ht.imp_right (hQ _))⟩

theorem pure (a : α) : Continues Q (pure a : Parser α) := by
  intro u a' r hu
  obtain ⟨rfl, rfl⟩ := pure_ok.mp hu
  exact ⟨[], rfl, fun _ _ => rfl⟩

theorem length_le {p : Parser α} (h : Continues Q p) {u r : List Token} {a : α}
    (hu : p u = .ok (a, r)) : r.length ≤ u.length := by
  obtain ⟨b, rfl, -⟩ := h u a r hu
  rw [List.length_append]
  exact Nat.le_add_left _ _

/-- Where anything may follow, anything may be put behind. -/
theorem append {p : Parser α} (h : Continues (fun _ => True) p) {u r : List Token} {a : α}
    (hu : p u = .ok (a, r)) (v : List Token) : p (u ++ v) = .ok (a, r ++ v) := by
  obtain ⟨b, rfl, hsame⟩ := h u a r hu
  rw [List.append_assoc]
  exact hsame (r ++ v) (.inr trivial)

theorem bind {p : Parser α} {next : α → Parser β} (h : Continues Q' p)
    (hnext : ∀ a, Continues Q (next a))
    (hQ : ∀ a, (∀ k, Q k → Q' k) ∨ Shrinking (next a)) : Continues Q (p >>= next) := by
  intro u c r hu
  obtain ⟨a, v, hp, hc⟩ := bind_ok.mp hu
  obtain ⟨b, rfl, hsame⟩ := h u a v hp
  obtain ⟨b', rfl, hsame'⟩ := hnext a v c r hc
  refine ⟨b ++ b', (List.append_assoc ..).symm, fun t ht => ?_⟩
  have hread : b' = [] → ∀ k, Q k → Q' k := by
    rintro rfl
    exact (hQ a).resolve_right fun hshrinking => Nat.lt_irrefl _ (hshrinking _ c r hc)
  rw [List.append_assoc]
  exact bind_ok.mpr ⟨a, b' ++ t, hsame _ (head?_append_or ht hread), hsame' t ht⟩

theorem map {p : Parser α} (f : α → β) (h : Continues Q p) : Continues Q (f <$> p) := by
  rw [← bind_pure_comp]
  exact h.bind (fun a => .pure (f a)) fun _ => .inl fun _ => id

theorem ifAccept {k : Kind} (hk : k ≠ .eof) {p q : Parser α} (hp : Continues Q p)
    (hq : Continues Q q) (hQ : (∀ k', Q k' → k' ≠ k) ∨ Shrinking q) :
    Continues Q (do if ← accept k then p else q) := by
  intro u a r hu
  rw [ifAccept_apply] at hu
  by_cases hkind : kindOf u = k
  · rw [if_pos hkind] at hu
    obtain ⟨t₀, ht₀, htail⟩ := starts_of_kindOf hk hkind
    obtain ⟨b, hb, hsame⟩ := hp _ a r hu
    refine ⟨t₀ :: b, htail.trans (congrArg (t₀ :: ·) hb), fun t ht => ?_⟩
    rw [ifAccept_apply, if_pos (show kindOf (t₀ :: b ++ t) = k from ht₀)]
    exact hsame t ht
  · rw [if_neg hkind] at hu
    obtain ⟨b, rfl, hsame⟩ := hq _ a r hu
    refine ⟨b, rfl, fun t ht => ?_⟩
    have hother : kindOf (b ++ t) ≠ k := by
      cases b with
      | cons => exact hkind
      | nil =>
        rcases ht with ht | ht
        · rw [List.nil_append, kindOf_eq_of_head? ht]
          exact hkind
        · refine (hQ.resolve_right fun hshrinking => ?_) _ ht
          exact Nat.lt_irrefl _ (hshrinking _ a r hu)
    rw [ifAccept_apply, if_neg hother]
    exact hsame t ht

theorem loop {step : α → Parser (Option α)} (hreading : Reading step)
    (h : ∀ a, Continues Q (step a)) (a : α) : Continues Q (loop step a) := by
  intro u c r hu
  obtain ⟨v, hruns, hend⟩ := (loop_ok hreading).mp hu
  induction hruns with
  | @refl a u =>
    obtain ⟨b, rfl, hsame⟩ := h a u none r hend
    exact ⟨b, rfl, fun t ht => (loop_ok hreading).mpr ⟨b ++ t, .refl, hsame t ht⟩⟩
  | @head a u a' v c w hstep hruns ih =>
    have hv := (loop_ok hreading).mpr ⟨w, hruns, hend⟩
    obtain ⟨b', rfl, hsame'⟩ := ih hv hend
    obtain ⟨b, rfl, hsame⟩ := h a u (some a') _ hstep
    refine ⟨b ++ b', (List.append_assoc ..).symm, fun t ht => ?_⟩
    have hfirst := hsame (b' ++ t) (head?_append_or ht fun _ _ => id)
    rw [List.append_assoc, loop_unfold hreading, hfirst]
    exact hsame' t ht

end Continues

namespace Resumes

theorem mono {p : Parser α} (h : Resumes Q' p) (hQ : ∀ k, Q k → Q' k) : Resumes Q p :=
  ⟨h.continues.mono hQ, h.shrinking⟩

/-- What follows matters to the last part only, which has read a token. -/
theorem behind {p : Parser α} {next : α → Parser β} (h : Continues (fun _ => False) p)
    (hnext : ∀ a, Resumes Q (next a)) : Resumes Q (p >>= next) := by
  refine ⟨h.bind (fun a => (hnext a).continues) fun a => .inr (hnext a).shrinking, ?_⟩
  intro u c r hu
  obtain ⟨a, v, hread, hc⟩ := bind_ok.mp hu
  exact Nat.lt_of_lt_of_le ((hnext a).shrinking v c r hc) (h.length_le hread)

theorem bind {p : Parser α} {next : α → Parser β} (h : Resumes Q' p)
    (hnext : ∀ a, Continues Q (next a)) (hQ : ∀ k, Q k → Q' k) : Resumes Q (p >>= next) := by
  refine ⟨h.continues.bind hnext fun _ => .inl hQ, fun u c r hu => ?_⟩
  obtain ⟨a, v, hread, hc⟩ := bind_ok.mp hu
  exact Nat.lt_of_le_of_lt ((hnext a).length_le hc) (h.shrinking u a v hread)

theorem map {p : Parser α} (f : α → β) (h : Resumes Q p) : Resumes Q (f <$> p) := by
  rw [← bind_pure_comp]
  exact h.bind (fun a => .pure (f a)) fun _ => id

/-- A token of a known kind may be followed by anything. -/
theorem expect (k : Kind) : Resumes Q (expect k) := by
  refine ⟨fun u x r hu => ?_, shrinking_expect k⟩
  obtain ⟨t, hk, hx, rfl⟩ := expect_ok.mp hu
  exact ⟨[t], rfl, fun w _ => expect_ok.mpr ⟨t, hk, hx, rfl⟩⟩

theorem skip (k : Kind) : Resumes Q (discard (Parser.expect k) : Parser PUnit) :=
  (expect k).map _

theorem ending (k : Kind) (a : α) :
    Resumes Q (discard (Parser.expect k) >>= fun _ => Pure.pure a : Parser α) :=
  (skip k).bind (fun _ => .pure a) fun _ => id

theorem ifAccept {k : Kind} (hk : k ≠ .eof) {p q : Parser α} (hp : Continues Q p)
    (hq : Resumes Q q) : Resumes Q (do if ← accept k then p else q) := by
  refine ⟨hp.ifAccept hk hq.continues (.inr hq.shrinking), fun u a r hu => ?_⟩
  rw [ifAccept_apply] at hu
  by_cases hkind : kindOf u = k
  · rw [if_pos hkind] at hu
    have hlength := hp.length_le hu
    have htail := (starts_of_kindOf hk hkind).length
    omega
  · rw [if_neg hkind] at hu
    exact hq.shrinking u a r hu

end Resumes

/-! ### Pieces -/

/-- A token of this kind ends an expression that is read at the precedence `p`. -/
def Stops (p : Precedence) (k : Kind) : Prop := k.precedence ≤ p ∧ k ≠ .elseWord

theorem Stops.mono {p q : Precedence} (h : p ≤ q) (k : Kind) (hk : Stops p k) : Stops q k :=
  ⟨Precedence.le_trans hk.1 h, hk.2⟩

section Pieces

variable {expr : Precedence → Parser Expr} {block : Parser Block}

theorem resumes_commaSeparated {item : Parser α} (hitem : Continues (fun _ => False) item)
    (hshrinking : Shrinking item) : Resumes Q (commaSeparated item) := by
  refine .ifAccept (by decide) (.pure []) (.behind hitem fun first => .behind ?_ fun reversed =>
    .ending .rightParen reversed.reverse)
  refine Continues.loop (reading_nextItem hshrinking) (fun xs => ?_) [first]
  have hnext : Continues (fun _ => False) (item >>= fun x => pure (some (x :: xs))) :=
    hitem.bind (fun x => .pure _) fun _ => .inl fun _ => id
  exact .ifAccept (by decide) hnext (.pure none) (.inl nofun)

section

variable (hexpr : Continues (fun _ => False) (expr .lowest))

include hexpr

theorem resumes_group : Resumes Q (group expr) :=
  .behind hexpr fun e => .ending .rightParen e

theorem resumes_definition : Resumes Q (definition expr) :=
  .behind (Resumes.expect .ident).continues fun x =>
    .behind (Resumes.skip .assign).continues fun _ =>
      .behind hexpr fun e => .ending .semicolon (Stmt.define x e)

theorem resumes_returned : Resumes Q (returned expr) :=
  .ifAccept (by decide) (.pure _) (.behind hexpr fun e => .ending .semicolon (Stmt.ret e))

end

section

variable (hblock : ∀ {Q}, Resumes Q block)

include hblock

theorem resumes_function : Resumes Q (function block) := by
  have hparams : Resumes (fun _ => False) (commaSeparated (expect .ident)) :=
    resumes_commaSeparated (Resumes.expect .ident).continues (shrinking_expect .ident)
  exact .behind (Resumes.skip .leftParen).continues fun _ =>
    .behind hparams.continues fun params => .behind (Resumes.skip .leftBrace).continues fun _ =>
      hblock.bind (fun body => .pure (Expr.fn params body)) fun _ => id

/-- Behind a choice a second block may still follow. -/
theorem resumes_choice (hexpr : Continues (fun _ => False) (expr .lowest))
    (hQ : ∀ k, Q k → k ≠ .elseWord) : Resumes Q (choice expr block) := by
  refine .behind (Resumes.skip .leftParen).continues fun _ => .behind hexpr fun test =>
    .behind (Resumes.skip .rightParen).continues fun _ =>
      .behind (Resumes.skip .leftBrace).continues fun _ => hblock.bind (fun body => ?_) fun _ => id
  have hother : Resumes Q (discard (expect .leftBrace) >>= fun _ => block >>= fun other =>
      pure (Expr.cond test body (some other))) :=
    .behind (Resumes.skip .leftBrace).continues fun _ =>
      hblock.bind (fun other => .pure _) fun _ => id
  exact .ifAccept (by decide) hother.continues (.pure _) (.inl hQ)

variable (hexpr : ∀ p ≤ .unary, Continues (Stops p) (expr p))

include hexpr

theorem resumes_operand (hshrinking : ∀ p, Shrinking (expr p)) :
    Resumes (Stops .unary) (operand expr block) := by
  have hlowest : Continues (fun _ => False) (expr .lowest) :=
    (hexpr .lowest (by decide)).mono nofun
  have hform : ∀ {form : (Precedence → Parser Expr) → Parser Block → Parser Expr} {t : Token},
      OperandForm t form → Continues (Stops .unary) (form expr block) := by
    intro form t hform
    cases hform with
    | ident | int | yes | no => exact .pure _
    | unary => exact (hexpr .unary (by decide)).map _
    | group => exact (resumes_group hlowest).continues
    | choice => exact (resumes_choice hblock hlowest fun _ hk => hk.2).continues
    | function => exact (resumes_function hblock).continues
  refine ⟨fun u e r hu => ?_, fun u e r hu =>
    (operand_ok.mp hu).length_lt hshrinking (hblock (Q := fun _ => False)).shrinking⟩
  cases u with
  | nil => cases hu
  | cons t u =>
    rcases operand_cons t with ⟨form, ht, hread⟩ | ⟨error, -, hfail⟩
    · rw [hread] at hu
      obtain ⟨b, rfl, hsame⟩ := hform ht u e r hu
      refine ⟨t :: b, rfl, fun w hw => ?_⟩
      rw [List.cons_append, hread]
      exact hsame w hw
    · rw [hfail] at hu
      cases hu

omit hblock in
theorem continues_carryOn (hshrinking : ∀ p, Shrinking (expr p)) {p : Precedence}
    (left : Expr) : Continues (Stops p) (carryOn expr p left) := by
  rintro u (_ | e) r hu
  · obtain ⟨hp, rfl⟩ := carryOn_none.mp hu
    refine ⟨[], rfl, fun t ht => carryOn_none.mpr ⟨?_, rfl⟩⟩
    rcases ht with ht | ht
    · rwa [List.nil_append, kindOf_eq_of_head? ht]
    · exact ht.1
  · obtain ⟨t, v, rfl, hp, ⟨hk, right, hright, rfl⟩ | ⟨hk, args, hargs, rfl⟩⟩ :=
      carryOn_some.mp hu
    · have hlt := Kind.precedence_lt_unary_of_operator hk
      obtain ⟨b, rfl, hsame⟩ := hexpr _ (Precedence.le_of_lt hlt) v right r hright
      refine ⟨t :: b, rfl, fun w hw => carryOn_some.mpr ⟨t, b ++ w, rfl, hp, ?_⟩⟩
      exact .inl ⟨hk, right, hsame w (hw.imp_right (Stops.mono (Precedence.le_of_lt hp) _)), rfl⟩
    · have hlist : Resumes (Stops p) (commaSeparated (expr .lowest)) :=
        resumes_commaSeparated ((hexpr .lowest (by decide)).mono nofun) (hshrinking .lowest)
      obtain ⟨b, rfl, hsame⟩ := hlist.continues v args r hargs
      refine ⟨t :: b, rfl, fun w hw => carryOn_some.mpr ⟨t, b ++ w, rfl, hp, ?_⟩⟩
      exact .inr ⟨hk, args, hsame w hw, rfl⟩

end

end Pieces

/-! ### Expressions and blocks -/

theorem resumes_block (limit : Nat) : Resumes Q (block limit) := by
  cases limit with
  | zero => exact ⟨nofun, nofun⟩
  | succ limit =>
    exact .behind (.ofLocal (local_statements limit endsBlock)) fun body =>
      .ending .rightBrace body

/-- What ends an expression may be replaced by anything else that ends it. -/
theorem continues_expression (limit : Nat) {p : Precedence} (hp : p ≤ .unary) :
    Continues (Stops p) (expression limit p) := by
  induction limit generalizing p with
  | zero => nofun
  | succ limit ih =>
    have hexpr : ∀ p ≤ .unary, Continues (Stops p) (expression limit p) := fun p hp => ih hp
    have hshrinking := shrinking_expression limit
    have hoperand := resumes_operand (resumes_block limit) hexpr hshrinking
    exact hoperand.continues.bind (fun left => .loop (reading_carryOn hshrinking p)
      (continues_carryOn hexpr hshrinking) left) fun _ => .inl (Stops.mono hp)

end Treewalk.Parser
