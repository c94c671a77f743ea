/-
  Treewalk/Proofs/Parsing/Viability.lean
  ======================================
  **Completing what a parser has read.**  Where a parser fails, other tokens
  can be put in place of those that it has not read, so that it succeeds.  How
  this is done for composed parsers follows from their parts: what has failed
  is completed, and what would have come then is added as shortly as possible.

  The kinds of tokens that a completion `starts` with, and those that it
  `follows` up to, are kept for each parser.  They say when two completions can
  stand one behind the other.
-/
import Treewalk.Proofs.Parsing.Outcome
import Treewalk.Proofs.Scanning.Layout

namespace Treewalk.Parser

variable {α β : Type} {starts starts' follows follows' : Kind → Prop}

/-- With some tokens put behind `b`, the parser reads `b` and all of these, and stops at a token
    that `follows`.  If `b` is empty, what is put there `starts` as it should. -/
def Completable (starts follows : Kind → Prop) (p : Parser α) (b : List Token) : Prop :=
  ∃ c a, (∀ t ∈ c, t.Scanned) ∧ ∀ t, follows (kindOf t) →
    (b = [] → starts (kindOf (c ++ t))) ∧ p (b ++ (c ++ t)) = .ok (a, t)

/-- What `p` has read of `u`, `p'` reads too: as it is, where `p` succeeds, and after it has been
    completed, where `p` fails. -/
structure ViableOn (starts follows : Kind → Prop) (p p' : Parser α) (u : List Token) : Prop where
  ok {a r} : p u = .ok (a, r) → ∃ b, u = b ++ r ∧ (b = [] → ∀ k, follows k → starts k) ∧
    ∀ t, kindOf t = kindOf r ∨ follows (kindOf t) → p' (b ++ t) = .ok (a, t)
  error {e r} : p u = .error ⟨e, r⟩ → e ≠ .tooDeep → ∃ b, u = b ++ r ∧
    Completable starts follows p' b

/-- `p'` reads what `p` has read, of whatever tokens, and can be given something to read where
    there is nothing. -/
structure Viable (starts follows : Kind → Prop) (p p' : Parser α) : Prop where
  on (u : List Token) : ViableOn starts follows p p' u
  fill : Completable starts follows p' []

/-- Whether there is something in front or not, the next token is of a kind that was met. -/
theorem met_append {t r : List Token} (b : List Token)
    (h : b = [] → kindOf t = kindOf r ∨ follows (kindOf t)) :
    kindOf (b ++ t) = kindOf (b ++ r) ∨ follows (kindOf (b ++ t)) := by
  cases b with
  | nil => exact h rfl
  | cons => exact .inl rfl

/-! ### Decisions by the next token -/

section Decisions

variable {p p' q q' : Parser α}

/-- A parser that answers without reading, by the kind of the next token. -/
theorem ViableOn.answer {P : Kind → Prop} {a : α} {u : List Token} (hu : P (kindOf u))
    (hfollows : ∀ k, follows k → P k) (hp : ∀ v, P (kindOf v) → p v = .ok (a, v))
    (hp' : ∀ v, P (kindOf v) → p' v = .ok (a, v)) : ViableOn follows follows p p' u where
  ok h := by
    obtain ⟨rfl, rfl⟩ : a = _ ∧ u = _ := by simpa using (hp u hu).symm.trans h
    refine ⟨[], rfl, fun _ _ hk => hk, fun t ht => hp' t ?_⟩
    rcases ht with ht | ht
    · rwa [ht]
    · exact hfollows _ ht
  error h := by
    rw [hp u hu] at h
    cases h

/-- A parser that refuses the first token is completed from nothing. -/
theorem ViableOn.refuse {e : SyntaxError} {u : List Token} (h : p u = .error ⟨e, u⟩)
    (hfill : Completable starts follows p' []) : ViableOn starts follows p p' u where
  ok hu := by
    rw [h] at hu
    cases hu
  error hu _ := by
    obtain ⟨rfl, rfl⟩ : e = _ ∧ u = _ := by simpa using h.symm.trans hu
    exact ⟨[], rfl, hfill⟩

/-- A parser may be exchanged for one that does the same by the kind of the next token. -/
theorem Completable.congr {P : Kind → Prop} {b : List Token} (h : Completable starts follows q b)
    (hb : b ≠ [] → P (kindOf b)) (hstarts : ∀ k, starts k → P k)
    (hp : ∀ v, P (kindOf v) → p v = q v) : Completable starts follows p b := by
  obtain ⟨c, a, hc, hq⟩ := h
  refine ⟨c, a, hc, fun t ht => ⟨(hq t ht).1, ?_⟩⟩
  rw [hp]
  · exact (hq t ht).2
  · cases b with
    | nil => exact hstarts _ ((hq t ht).1 rfl)
    | cons s b => exact hb (List.cons_ne_nil s b)

theorem ViableOn.congr {P : Kind → Prop} {u : List Token} (h : ViableOn starts follows q q' u)
    (hu : P (kindOf u)) (hstarts : ∀ k, starts k → P k) (hp : ∀ v, P (kindOf v) → p v = q v)
    (hp' : ∀ v, P (kindOf v) → p' v = q' v) : ViableOn starts follows p p' u where
  ok hok := by
    obtain ⟨b, rfl, hempty, hq⟩ := h.ok ((hp u hu).symm.trans hok)
    refine ⟨b, rfl, hempty, fun t ht => ?_⟩
    rw [hp']
    · exact hq t ht
    · rcases met_append b (fun hb => ht.imp_right (hempty hb _)) with hkind | hkind
      · rwa [hkind]
      · exact hstarts _ hkind
  error herror he := by
    obtain ⟨b, rfl, hb⟩ := h.error ((hp u hu).symm.trans herror) he
    refine ⟨b, rfl, hb.congr ?_ hstarts hp'⟩
    intro hne
    obtain ⟨s, b, rfl⟩ := List.exists_cons_of_ne_nil hne
    exact hu

/-- A token that is read can stand in front of anything. -/
theorem ViableOn.read {t : Token} {v : List Token} (h : ViableOn starts follows q q' v)
    (hread : ∀ v, p (t :: v) = q v) (hread' : ∀ v, p' (t :: v) = q' v) :
    ViableOn starts' follows p p' (t :: v) where
  ok hu := by
    obtain ⟨b, rfl, -, hq⟩ := h.ok ((hread v).symm.trans hu)
    exact ⟨t :: b, rfl, nofun, fun w hw => (hread' (b ++ w)).trans (hq w hw)⟩
  error hu he := by
    obtain ⟨b, rfl, c, a, hc, hq⟩ := h.error ((hread v).symm.trans hu) he
    exact ⟨t :: b, rfl, c, a, hc, fun w hw => ⟨nofun, (hread' (b ++ (c ++ w))).trans (hq w hw).2⟩⟩

end Decisions

/-! ### Composed parsers -/

theorem Viable.pure (a : α) : Viable follows follows (pure a : Parser α) (Pure.pure a) where
  on _ := .answer trivial (fun _ _ => trivial) (fun _ _ => rfl) fun _ _ => rfl
  fill := ⟨[], a, nofun, fun _ ht => ⟨fun _ => ht, rfl⟩⟩

theorem Completable.bind {p : Parser α} {next : α → Parser β} {b : List Token}
    (h : Completable starts follows p b) (hnext : ∀ a, Completable starts' follows' (next a) [])
    (hmeet : ∀ k, starts' k → follows k) : Completable starts follows' (p >>= next) b := by
  obtain ⟨c, a, hc, hp⟩ := h
  obtain ⟨c', a', hc', hn⟩ := hnext a
  refine ⟨c ++ c', a', ?_, fun t ht => ?_⟩
  · intro s hs
    rcases List.mem_append.mp hs with hs | hs
    · exact hc s hs
    · exact hc' s hs
  · obtain ⟨hstart, hn⟩ := hn t ht
    obtain ⟨hstart', hp⟩ := hp (c' ++ t) (hmeet _ (hstart rfl))
    rw [List.append_assoc]
    refine ⟨hstart', ?_⟩
    rw [bind_apply, hp]
    exact hn

/-- Two parsers follow each other when the second one starts with what the first one ends at. -/
theorem Viable.bind {p p' : Parser α} {next next' : α → Parser β}
    (h : Viable starts follows p p') (hnext : ∀ a, Viable starts' follows' (next a) (next' a))
    (hmeet : ∀ k, starts' k → follows k) :
    Viable starts follows' (p >>= next) (p' >>= next') where
  fill := h.fill.bind (fun a => (hnext a).fill) hmeet
  on u := by
    constructor
    · intro b' r hu
      obtain ⟨a, v, hp, hn⟩ := bind_ok.mp hu
      obtain ⟨b, rfl, hempty, hp⟩ := (h.on u).ok hp
      obtain ⟨c, rfl, hempty', hn⟩ := ((hnext a).on v).ok hn
      refine ⟨b ++ c, (List.append_assoc _ _ _).symm, ?_, fun t ht => ?_⟩
      · intro hnil k hk
        obtain ⟨hb, hc⟩ := List.append_eq_nil_iff.mp hnil
        exact hempty hb k (hmeet k (hempty' hc k hk))
      · rw [List.append_assoc, bind_apply, hp (c ++ t)]
        · exact hn t ht
        · refine met_append c fun hc => ?_
          exact ht.imp_right fun hk => hmeet _ (hempty' hc _ hk)
    · intro e r hu he
      rcases bind_error.mp hu with hp | ⟨a, v, hp, hn⟩
      · obtain ⟨b, rfl, hb⟩ := (h.on u).error hp he
        exact ⟨b, rfl, hb.bind (fun a => (hnext a).fill) hmeet⟩
      · obtain ⟨b, rfl, hempty, hp⟩ := (h.on u).ok hp
        obtain ⟨b', rfl, c, a', hc, hn⟩ := ((hnext a).on v).error hn he
        refine ⟨b ++ b', (List.append_assoc _ _ _).symm, c, a', hc, fun t ht => ?_⟩
        obtain ⟨hstart, hn⟩ := hn t ht
        constructor
        · intro hnil
          obtain ⟨hb, hb'⟩ := List.append_eq_nil_iff.mp hnil
          exact hempty hb _ (hmeet _ (hstart hb'))
        · rw [List.append_assoc, bind_apply, hp (b' ++ (c ++ t))]
          · exact hn
          · exact met_append b' fun hb' => .inr (hmeet _ (hstart hb'))

/-- Anything can stand behind a parser that reads up to a token of its own. -/
theorem Viable.andThen {p p' : Parser α} {next next' : α → Parser β}
    (h : Viable starts (fun _ => True) p p')
    (hnext : ∀ a, Viable starts' follows' (next a) (next' a)) :
    Viable starts follows' (p >>= next) (p' >>= next') :=
  h.bind hnext fun _ _ => trivial

theorem Viable.map {p p' : Parser α} (f : α → β) (h : Viable starts follows p p') :
    Viable starts follows (f <$> p) (f <$> p') := by
  rw [← bind_pure_comp, ← bind_pure_comp]
  exact h.bind (fun a => .pure (f a)) fun _ hk => hk

theorem Viable.expect {k : Kind} (hk : k ≠ .eof) :
    Viable (· = k) (fun _ => True) (expect k) (Parser.expect k) := by
  have hread : ∀ {t : Token}, t.kind = k → ∀ v,
      Parser.expect k (t :: v) = (Pure.pure t.text : Parser String) v := by
    intro t ht v
    simp only [Parser.expect, ht, if_true, pure_apply]
  have hfill : Completable (· = k) (fun _ => True) (Parser.expect k) [] := by
    obtain ⟨t, ht, rfl⟩ := exists_scanned hk
    refine ⟨[t], t.text, ?_, fun v _ => ⟨fun _ => rfl, hread rfl v⟩⟩
    simpa using ht
  refine ⟨fun u => ?_, hfill⟩
  cases u with
  | nil => exact .refuse rfl hfill
  | cons t u =>
    by_cases ht : t.kind = k
    · exact ((Viable.pure t.text).on u).read (hread ht) (hread ht)
    · refine .refuse (e := .unexpected k t.kind) ?_ hfill
      simp only [Parser.expect, ht, if_false]

theorem Viable.skip {k : Kind} (hk : k ≠ .eof) :
    Viable (· = k) (fun _ => True) (discard (Parser.expect k) : Parser PUnit)
      (discard (Parser.expect k)) :=
  (Viable.expect hk).map _

/-- A token that may be there decides between two parsers, unless the second one starts with
    it. -/
theorem Viable.ifAccept {k : Kind} (hk : k ≠ .eof) {p p' q q' : Parser α}
    (hp : Viable starts' follows p p') (hq : Viable starts follows q q') (hno : ¬ starts k) :
    Viable starts follows (do if ← accept k then p else q)
      (do if ← Parser.accept k then p' else q') := by
  have helse : ∀ (p q : Parser α) v, kindOf v ≠ k →
      (do if ← Parser.accept k then p else q : Parser α) v = q v := by
    intro p q v hv
    rw [ifAccept_apply, if_neg hv]
  have hne : ∀ k', starts k' → k' ≠ k := by
    rintro _ hk' rfl
    exact hno hk'
  refine ⟨fun u => ?_, hq.fill.congr (fun h => absurd rfl h) hne (helse p' q')⟩
  by_cases hu : kindOf u = k
  · obtain ⟨t, ht, hcons⟩ := starts_of_kindOf hk hu
    have hread : ∀ (p q : Parser α) v,
        (do if ← Parser.accept k then p else q : Parser α) (t :: v) = p v := by
      intro p q v
      rw [ifAccept_apply]
      exact if_pos ht
    rw [hcons]
    exact (hp.on u.tail).read (hread p q) (hread p' q')
  · exact (hq.on u).congr hu hne (helse p q) (helse p' q')

theorem Viable.accept {k : Kind} (hk : k ≠ .eof) (hno : ¬ follows k) :
    Viable follows follows (accept k) (Parser.accept k) := by
  have hstay : ∀ t, kindOf t ≠ k → Parser.accept k t = .ok (false, t) := by
    intro t ht
    rw [accept_apply, if_neg ht]
  have hne : ∀ k', follows k' → k' ≠ k := by
    rintro _ hk' rfl
    exact hno hk'
  refine ⟨fun u => ?_, [], false, nofun, fun t ht => ⟨fun _ => ht, hstay t (hne _ ht)⟩⟩
  by_cases hu : kindOf u = k
  · obtain ⟨t, ht, hcons⟩ := starts_of_kindOf hk hu
    have hread : ∀ v, Parser.accept k (t :: v) = (Pure.pure true : Parser Bool) v := by
      intro v
      rw [accept_apply]
      exact if_pos ht
    rw [hcons]
    exact ((Viable.pure true).on u.tail).read hread hread
  · exact .answer hu hne hstay hstay

theorem Viable.mono {p p' : Parser α} (h : Viable starts follows p p')
    (hf : ∀ k, follows' k → follows k) : Viable starts follows' p p' := by
  have hmono : ∀ {b}, Completable starts follows p' b → Completable starts follows' p' b :=
    fun ⟨c, a, hc, hp⟩ => ⟨c, a, hc, fun t ht => hp t (hf _ ht)⟩
  refine ⟨fun u => ⟨?_, ?_⟩, hmono h.fill⟩
  · intro a r hu
    obtain ⟨b, rfl, hempty, hp⟩ := (h.on u).ok hu
    exact ⟨b, rfl, fun hb k hk => hempty hb k (hf k hk), fun t ht => hp t (ht.imp_right (hf _))⟩
  · intro e r hu he
    obtain ⟨b, rfl, hb⟩ := (h.on u).error hu he
    exact ⟨b, rfl, hmono hb⟩

/-! ### Loops -/

/-- Steps that are taken on some tokens are taken on them whatever follows. -/
theorem Runs.append {step step' : α → Parser (Option α)}
    (hstep : ∀ a u, ViableOn follows follows (step a) (step' a) u) {a b : α} {u v : List Token}
    (h : Runs step a u b v) :
    ∃ w, u = w ++ v ∧ ∀ t, kindOf t = kindOf v ∨ follows (kindOf t) →
      Runs step' a (w ++ t) b t := by
  induction h with
  | refl => exact ⟨[], rfl, fun t _ => .refl⟩
  | @head a u _ _ _ v hfirst _ ih =>
    obtain ⟨w, rfl, hruns⟩ := ih
    obtain ⟨w', rfl, -, hfirst⟩ := (hstep a u).ok hfirst
    refine ⟨w' ++ w, (List.append_assoc _ _ _).symm, fun t ht => ?_⟩
    rw [List.append_assoc]
    exact .head (hfirst (w ++ t) (met_append w fun _ => ht)) (hruns t ht)

/-- A loop whose steps end where it may end. -/
theorem Viable.loop {step step' : α → Parser (Option α)} (hreading : Reading step)
    (hreading' : Reading step') (hstep : ∀ a u, ViableOn follows follows (step a) (step' a) u)
    (hends : ∀ a t, follows (kindOf t) → step' a t = .ok (none, t)) (a : α) :
    Viable follows follows (loop step a) (loop step' a) where
  fill := ⟨[], a, nofun, fun t ht => ⟨fun _ => ht,
    (loop_ok hreading').mpr ⟨t, .refl, hends a t ht⟩⟩⟩
  on u := by
    constructor
    · intro b r hu
      obtain ⟨v, hruns, hend⟩ := (loop_ok hreading).mp hu
      obtain ⟨w, rfl, hruns'⟩ := hruns.append hstep
      obtain ⟨w', rfl, -, hend⟩ := (hstep b v).ok hend
      refine ⟨w ++ w', (List.append_assoc _ _ _).symm, fun _ _ hk => hk, fun t ht => ?_⟩
      rw [List.append_assoc]
      exact (loop_ok hreading').mpr ⟨w' ++ t, hruns' _ (met_append w' fun _ => ht), hend t ht⟩
    · intro e r hu he
      obtain ⟨b, v, hruns, hstop⟩ := (loop_error hreading).mp hu
      obtain ⟨w, rfl, hruns'⟩ := hruns.append hstep
      obtain ⟨w', rfl, c, o, hc, hstop⟩ := (hstep b v).error hstop he
      refine ⟨w ++ w', (List.append_assoc _ _ _).symm, c, o.getD b, hc, fun t ht => ?_⟩
      obtain ⟨hstart, hstop⟩ := hstop t ht
      constructor
      · intro hnil
        exact hstart (List.append_eq_nil_iff.mp hnil).2
      · have hsteps := hruns' (w' ++ (c ++ t)) (met_append w' fun hw => .inr (hstart hw))
        rw [List.append_assoc, hsteps.loop_eq hreading', loop_unfold hreading', hstop]
        cases o with
        | none => rfl
        | some x => exact (loop_ok hreading').mpr ⟨t, .refl, hends x t ht⟩

/-! ### Items between parentheses -/

theorem Viable.nextItem {item item' : Parser α} (h : Viable starts follows item item')
    (hclose : follows .rightParen) (xs : List α) :
    Viable (· = .rightParen) (· = .rightParen) (nextItem item xs) (nextItem item' xs) := by
  have hone : Viable starts (· = .rightParen) (item >>= fun x => Pure.pure (some (x :: xs)))
      (item' >>= fun x => Pure.pure (some (x :: xs))) := by
    refine h.bind (fun x => .pure (some (x :: xs))) ?_
    rintro _ rfl
    exact hclose
  exact hone.ifAccept (by decide) (.pure none) (by decide)

/-- Items can be completed where the closing parenthesis may follow each of them. -/
theorem Viable.commaSeparated {item item' : Parser α} (hitem : Shrinking item)
    (hitem' : Shrinking item') (h : Viable starts follows item item')
    (hclose : follows .rightParen) (hno : ¬ starts .rightParen) :
    Viable starts (fun _ => True) (commaSeparated item) (commaSeparated item') := by
  have hloop : ∀ first, Viable (· = .rightParen) (· = .rightParen)
      (Parser.loop (Parser.nextItem item) [first])
      (Parser.loop (Parser.nextItem item') [first]) := by
    intro first
    refine .loop (reading_nextItem hitem) (reading_nextItem hitem')
      (fun xs => (h.nextItem hclose xs).on) ?_ [first]
    intro xs t ht
    exact nextItem_none.mpr ⟨by rw [ht]; decide, rfl⟩
  have hend : ∀ xs : List α, Viable (· = .rightParen) (fun _ => True)
      (discard (Parser.expect .rightParen) >>= fun _ => Pure.pure xs.reverse : Parser (List α))
      (discard (Parser.expect .rightParen) >>= fun _ => Pure.pure xs.reverse) :=
    fun xs => (Viable.skip (by decide)).andThen fun _ => .pure xs.reverse
  refine (Viable.pure []).ifAccept (by decide) (h.bind (fun first =>
    (hloop first).bind hend fun _ hk => hk) ?_) hno
  rintro _ rfl
  exact hclose

end Treewalk.Parser
