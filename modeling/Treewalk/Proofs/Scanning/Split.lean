/-
  Treewalk/Proofs/Scanning/Split.lean
  ===================================
  **A text has one split into tokens**, and the scan finds it.

  A split is described by what can be seen of the tokens and the text together:
  every token is a piece of the text at its place, pieces do not overlap, and
  what lies outside of them is blank.  A number or a word is a whole run of its
  class, so no part of a run can be a token, and `=` or `!` is a token of its
  own only if no second `=` follows.  Nothing in the description says in which
  order the text is read.

  Reading it from left to right settles everything: the first character that is
  not blank must start a token, and together with what follows it settles which.
  That a run does not go on to the left is the one property that the next token
  does not show; the scan keeps it as an invariant of its cursor.
-/
import Treewalk.Proofs.Scanning.Layout

namespace Treewalk

open Text

/-! ### Splits -/

/-- The offset behind a token. -/
def Placed.finish (t : Placed) : Nat := t.start + t.token.text.toList.length

/-- The operators and delimiters, of one and of two characters. -/
def Kind.symbols : List (String × Kind) :=
  [("=", assign), ("+", plus), ("-", minus), ("!", bang), ("*", asterisk), ("/", slash),
   ("<", less), (">", greater), (",", comma), (";", semicolon), ("(", leftParen),
   (")", rightParen), ("\x7b", leftBrace), ("\x7d", rightBrace), ("==", equal), ("!=", notEqual)]

/-- A word is of its own kind if it is a keyword, and an identifier otherwise. -/
def Kind.Names (k : Kind) (word : String) : Prop :=
  (word, k) ∈ keywords ∨ k = ident ∧ word ∉ keywords.map (·.1)

/-- The characters of the token are of the class, and those next to it on both sides are not. -/
structure IsRun (cs : List Char) (isMember : Char → Bool) (t : Placed) : Prop where
  members : ∀ c ∈ t.token.text.toList, isMember c = true
  before : ∀ i c, i + 1 = t.start → cs[i]? = some c → isMember c = false
  behind : ∀ c, cs[t.finish]? = some c → isMember c = false

/-- The ways in which a token can stand in a text. -/
inductive Fits (cs : List Char) (t : Placed) : Prop where
  | number : t.token.kind = .int → IsRun cs Char.isDigit t → Fits cs t
  | word : t.token.kind.Names t.token.text → IsRun cs isWord t → Fits cs t
  | symbol : (t.token.text, t.token.kind) ∈ Kind.symbols →
      (t.token.kind = .assign ∨ t.token.kind = .bang → cs[t.finish]? ≠ some '=') → Fits cs t
  /-- A character that belongs to no class. -/
  | illegal {c : Char} : t.token = ⟨.illegal, String.ofList [c]⟩ → isBlank c = false →
      c.isDigit = false → isWord c = false → String.ofList [c] ∉ Kind.symbols.map (·.1) → Fits cs t

/-- The token is not empty, is found in the text where it starts, and fits there. -/
structure IsPiece (cs : List Char) (t : Placed) : Prop where
  nonempty : t.token.text.toList ≠ []
  lexeme : (cs.drop t.start).take t.token.text.toList.length = t.token.text.toList
  fits : Fits cs t

/-- The tokens split up what the text has from the offset `k` on: each is a piece of it, none of
    it is repeated, and whatever is in no token is blank. -/
structure IsSplit (cs : List Char) (k : Nat) (tokens : List Placed) : Prop where
  pieces : ∀ t ∈ tokens, k ≤ t.start ∧ IsPiece cs t
  increasing : tokens.Pairwise fun t u => t.start < u.start
  apart : tokens.Pairwise fun t u => t.finish ≤ u.start
  blank : ∀ i c, k ≤ i → cs[i]? = some c → (∀ t ∈ tokens, ¬ (t.start ≤ i ∧ i < t.finish)) →
    isBlank c = true

/-- A split of the whole text, with the end token behind it and nowhere else. -/
def IsTokenization (text : String) (tokens : List Placed) : Prop :=
  ∃ body, tokens = body ++ [⟨.eof, text.length⟩] ∧ (∀ t ∈ body, t.token.kind ≠ .eof) ∧
    IsSplit text.toList 0 body

/-! ### Cutting off one token -/

theorem Kind.names_ofWord (word : String) : (Kind.ofWord word).Names word := by
  unfold Kind.ofWord
  cases hlookup : Kind.keywords.lookup word with
  | none =>
    refine .inr ⟨rfl, fun hmem => ?_⟩
    obtain ⟨⟨x, k⟩, hk, rfl⟩ := List.mem_map.mp hmem
    have hall : ∀ p ∈ Kind.keywords, Kind.keywords.lookup p.1 ≠ none := by decide
    exact hall _ hk hlookup
  | some k =>
    obtain ⟨before, after, hkeywords, -⟩ := List.lookup_eq_some_iff.mp hlookup
    exact .inl (by simp [hkeywords])

theorem Kind.Names.eq_ofWord {k : Kind} {word : String} (h : k.Names word) :
    k = Kind.ofWord word := by
  rcases h with hmem | ⟨rfl, hnone⟩
  · have hall : ∀ p ∈ Kind.keywords, p.2 = Kind.ofWord p.1 := by decide
    exact hall _ hmem
  · rcases Kind.names_ofWord word with hmem | ⟨hident, -⟩
    · exact absurd (List.mem_map_of_mem (f := (·.1)) hmem) hnone
    · exact hident.symm

/-- The symbols are the two of two characters and those characters that have a kind. -/
theorem Kind.mem_symbols_iff {s : String} {k : Kind} :
    (s, k) ∈ symbols ↔ (∃ c, s = String.ofList [c] ∧ ofChar? c = some k) ∨
      s = "==" ∧ k = equal ∨ s = "!=" ∧ k = notEqual := by
  constructor
  · intro h
    have hall : ∀ p ∈ symbols, (p.1 = String.ofList [p.1.toList.headD ' '] ∧
        ofChar? (p.1.toList.headD ' ') = some p.2) ∨
        p.1 = "==" ∧ p.2 = equal ∨ p.1 = "!=" ∧ p.2 = notEqual := by decide
    rcases hall _ h with hsingle | hdoubled
    · exact .inl ⟨_, hsingle⟩
    · exact .inr hdoubled
  · rintro (⟨c, rfl, hc⟩ | ⟨rfl, rfl⟩ | ⟨rfl, rfl⟩)
    · unfold ofChar? at hc
      split at hc <;> cases hc <;> decide
    · decide
    · decide

theorem Kind.ofChar?_eq_none_iff {c : Char} :
    ofChar? c = none ↔ String.ofList [c] ∉ symbols.map (·.1) := by
  constructor
  · intro hnone hmem
    obtain ⟨⟨s, k⟩, hk, hs⟩ := List.mem_map.mp hmem
    rcases mem_symbols_iff.mp hk with ⟨d, rfl, hd⟩ | ⟨rfl, -⟩ | ⟨rfl, -⟩
    · have hcd : [d] = [c] := String.ofList_injective hs
      cases hcd
      cases hnone.symm.trans hd
    · have hlength := congrArg (·.toList.length) hs
      simp at hlength
    · have hlength := congrArg (·.toList.length) hs
      simp at hlength
  · intro hnone
    cases hc : ofChar? c with
    | none => rfl
    | some k =>
      have hmem := mem_symbols_iff.mpr (.inl ⟨c, rfl, hc⟩)
      exact absurd (List.mem_map.mpr ⟨_, hmem, rfl⟩) hnone

/-! ### Pieces of a text -/

theorem getElem?_of_drop {cs tail : List Char} {j : Nat} {c : Char} (h : cs.drop j = c :: tail) :
    cs[j]? = some c := by
  rw [← List.head?_drop, h]
  rfl

theorem Placed.drop_finish {cs rest : List Char} {t : Placed}
    (h : cs.drop t.start = t.token.text.toList ++ rest) : cs.drop t.finish = rest := by
  rw [Placed.finish, ← List.drop_drop, h, List.drop_left]

/-- A lexeme that is not altered is in front of what lies behind the token. -/
theorem Placed.drop_start {cs : List Char} {t : Placed}
    (h : (cs.drop t.start).take t.token.text.toList.length = t.token.text.toList) :
    cs.drop t.start = t.token.text.toList ++ cs.drop t.finish := by
  conv => lhs; rw [← List.take_append_drop t.token.text.toList.length (cs.drop t.start)]
  rw [h, List.drop_drop, Placed.finish]

/-- The characters at the offsets of a token are those of its text. -/
theorem Placed.mem_text {cs rest : List Char} {t : Placed} {i : Nat} {c : Char}
    (h : cs.drop t.start = t.token.text.toList ++ rest) (hstart : t.start ≤ i)
    (hfinish : i < t.finish) (hc : cs[i]? = some c) : c ∈ t.token.text.toList := by
  obtain ⟨n, rfl⟩ := Nat.exists_eq_add_of_le hstart
  have hn : n < t.token.text.toList.length := by
    simp only [Placed.finish] at hfinish
    omega
  rw [← List.getElem?_drop, h, List.getElem?_append_left hn] at hc
  exact List.mem_of_getElem? hc

/-! ### The token at the front -/

/-- No run goes on from one side of the offset to the other. -/
def Parted (cs : List Char) (k : Nat) : Prop :=
  ∀ i d c, i + 1 = k → cs[i]? = some d → cs[k]? = some c →
    (d.isDigit = true → c.isDigit = false) ∧ (isWord d = true → isWord c = false)

theorem parted_zero (cs : List Char) : Parted cs 0 := by
  intro i d c hi
  omega

theorem symbols_classes : ∀ p ∈ Kind.symbols, ∀ c ∈ p.1.toList,
    isBlank c = false ∧ isWord c = false ∧ c.isDigit = false := by
  have hall : Kind.symbols.all (fun p => p.1.toList.all fun c =>
      !isBlank c && (!isWord c && !c.isDigit)) = true := by decide
  simpa [List.all_eq_true] using hall

/-- A token that has a character of a run is the whole of it. -/
theorem Fits.apart {cs : List Char} {t : Placed} (h : Fits cs t) {d c : Char}
    (hd : d ∈ t.token.text.toList) (hc : cs[t.finish]? = some c) :
    (d.isDigit = true → c.isDigit = false) ∧ (isWord d = true → isWord c = false) := by
  cases h with
  | number _ hrun =>
    have hdigit := hrun.members d hd
    exact ⟨fun _ => hrun.behind c hc, fun hword => by simp [isWord_of_isDigit hdigit] at hword⟩
  | word _ hrun =>
    have hword := hrun.members d hd
    refine ⟨fun hdigit => ?_, fun _ => hrun.behind c hc⟩
    simp [isDigit_of_isWord hword] at hdigit
  | symbol hmem _ =>
    obtain ⟨-, hword, hdigit⟩ := symbols_classes _ hmem d hd
    simp [hword, hdigit]
  | illegal htoken _ hdigit hword _ =>
    rw [htoken] at hd
    obtain rfl := by simpa using hd
    simp [hword, hdigit]

theorem Fits.parted {cs rest : List Char} {t : Placed} (h : Fits cs t)
    (hne : t.token.text.toList ≠ []) (hpiece : cs.drop t.start = t.token.text.toList ++ rest) :
    Parted cs t.finish := by
  intro i d c hi hd hc
  have hlength : 0 < t.token.text.toList.length := List.length_pos_iff.mpr hne
  have hstart : t.start ≤ i := by
    simp only [Placed.finish] at hi
    omega
  exact h.apart (Placed.mem_text hpiece hstart (by omega) hd) hc

theorem Kind.single_of_ofChar? {c : Char} {k : Kind} (h : ofChar? c = some k)
    (hk : k = assign ∨ k = bang) : c = '=' ∨ c = '!' := by
  unfold ofChar? at h
  split at h <;> cases h <;> simp at hk ⊢

/-- A run that is cut off as long as it can be is a whole one, if it does not begin earlier. -/
theorem isRun_cut {cs tail : List Char} {t : Placed} {p : Char → Bool} {c : Char} (hc : p c = true)
    (htext : t.token.text.toList = c :: tail.takeWhile p)
    (hbefore : ∀ i d, i + 1 = t.start → cs[i]? = some d → p d = false)
    (hbehind : cs[t.finish]? = (tail.dropWhile p).head?) : IsRun cs p t := by
  refine ⟨?_, hbefore, ?_⟩
  · rw [htext]
    exact Cut.forall_mem_run hc tail
  · intro d hd
    have hstop := List.head?_dropWhile_not p tail
    rw [← hbehind, hd] at hstop
    simpa using hstop

/-- The token that is cut off fits where it stands, if no run goes on into it. -/
theorem fits_first {cs tail : List Char} {k : Nat} {c : Char} (hrest : cs.drop k = c :: tail)
    (hblank : isBlank c = false) (hparted : Parted cs k) :
    Fits cs ⟨(Cut.first c tail).token, k⟩ := by
  have hpiece : cs.drop k =
      (Cut.first c tail).token.text.toList ++ (Cut.first c tail).rest := by
    rw [hrest, Cut.token, String.toList_ofList, Cut.lexeme_append_rest_first]
  have hbehind : cs[(⟨(Cut.first c tail).token, k⟩ : Placed).finish]? =
      (Cut.first c tail).rest.head? := by
    rw [← List.head?_drop, Placed.drop_finish hpiece]
  have hfront : cs[k]? = some c := getElem?_of_drop hrest
  have hform := Cut.form_first c tail
  generalize Cut.first c tail = cut at hform hbehind ⊢
  cases hform with
  | doubled hkind =>
    refine .symbol (Kind.mem_symbols_iff.mpr (.inr ?_)) fun hsingle => ?_
    · rcases hkind with ⟨rfl, rfl⟩ | ⟨rfl, rfl⟩
      · exact .inl ⟨rfl, rfl⟩
      · exact .inr ⟨rfl, rfl⟩
    · rcases hkind with ⟨-, rfl⟩ | ⟨-, rfl⟩ <;> simp [Cut.token] at hsingle
  | symbol hkind hnext =>
    refine .symbol (Kind.mem_symbols_iff.mpr (.inl ⟨c, rfl, hkind⟩)) fun hsingle => ?_
    rw [hbehind]
    exact hnext (Kind.single_of_ofChar? hkind hsingle)
  | number hdigit =>
    refine .number rfl (isRun_cut hdigit String.toList_ofList (fun i d hi hd => ?_) hbehind)
    cases hd' : d.isDigit with
    | false => rfl
    | true => exact absurd hdigit (by simp [(hparted i d c hi hd hfront).1 hd'])
  | word hword =>
    refine .word (Kind.names_ofWord _)
      (isRun_cut hword String.toList_ofList (fun i d hi hd => ?_) hbehind)
    cases hd' : isWord d with
    | false => rfl
    | true => exact absurd hword (by simp [(hparted i d c hi hd hfront).2 hd'])
  | illegal hnone hdigit hword =>
    exact .illegal rfl hblank hdigit hword (Kind.ofChar?_eq_none_iff.mp hnone)

/-- No other token fits there. -/
theorem Fits.eq_first {cs xs : List Char} {t : Placed} {c : Char} (h : Fits cs t)
    (htext : t.token.text.toList = c :: xs) :
    isBlank c = false ∧
      Cut.first c (xs ++ cs.drop t.finish) = ⟨t.token.kind, c :: xs, cs.drop t.finish⟩ := by
  have hhead : ∀ d, d ∈ (cs.drop t.finish).head? → cs[t.finish]? = some d := by
    intro d hd
    rwa [List.head?_drop] at hd
  have hmem : ∀ d ∈ xs, d ∈ t.token.text.toList := by
    intro d hd
    rw [htext]
    exact List.mem_cons_of_mem c hd
  have hc : c ∈ t.token.text.toList := by
    rw [htext]
    exact List.mem_cons_self
  cases h with
  | number hk hrun =>
    have hdigit := hrun.members c hc
    refine ⟨isBlank_of_isDigit hdigit, ?_⟩
    rw [(Cut.Form.number hdigit).eq_first, Cut.run_append c _
      (fun d hd => hrun.members d (hmem d hd)) (fun d hd => hrun.behind d (hhead d hd)), hk]
  | word hk hrun =>
    have hword := hrun.members c hc
    refine ⟨isBlank_of_isWord hword, ?_⟩
    rw [(Cut.Form.word hword).eq_first, Cut.run_append c _
      (fun d hd => hrun.members d (hmem d hd)) (fun d hd => hrun.behind d (hhead d hd)),
      hk.eq_ofWord, ← htext, String.ofList_toList]
  | symbol hsymbol hsingle =>
    refine ⟨(symbols_classes _ hsymbol c hc).1, ?_⟩
    rcases Kind.mem_symbols_iff.mp hsymbol with ⟨d, hd, hk⟩ | ⟨hd, hk⟩ | ⟨hd, hk⟩
    · rw [hd, String.toList_ofList] at htext
      cases htext
      refine (Cut.Form.symbol hk fun hc => ?_).eq_first
      rw [List.nil_append, List.head?_drop]
      apply hsingle
      rcases hc with rfl | rfl
      · exact .inl (Option.some.inj hk).symm
      · exact .inr (Option.some.inj hk).symm
    · rw [hd] at htext
      cases htext
      rw [hk]
      rfl
    · rw [hd] at htext
      cases htext
      rw [hk]
      rfl
  | @illegal d htoken hblank hdigit hword hnone =>
    rw [htoken, String.toList_ofList] at htext
    cases htext
    refine ⟨hblank, ?_⟩
    rw [htoken]
    exact (Cut.Form.illegal (Kind.ofChar?_eq_none_iff.mpr hnone) hdigit hword).eq_first

/-! ### Splits from left to right -/

theorem IsPiece.drop_start {cs : List Char} {t : Placed} (h : IsPiece cs t) :
    cs.drop t.start = t.token.text.toList ++ cs.drop t.finish :=
  Placed.drop_start h.lexeme

theorem IsPiece.start_lt_finish {cs : List Char} {t : Placed} (h : IsPiece cs t) :
    t.start < t.finish := by
  have hlength := List.length_pos_iff.mpr h.nonempty
  simp only [Placed.finish]
  omega

/-- A token starts with a character that is not blank, and this and what follows it settle which
    token it is. -/
theorem IsPiece.front {cs : List Char} {t : Placed} (h : IsPiece cs t) :
    ∃ c tail, cs.drop t.start = c :: tail ∧ isBlank c = false ∧
      t.token = (Cut.first c tail).token := by
  obtain ⟨c, xs, htext⟩ := List.exists_cons_of_ne_nil h.nonempty
  obtain ⟨hc, hfirst⟩ := h.fits.eq_first htext
  refine ⟨c, xs ++ cs.drop t.finish, ?_, hc, ?_⟩
  · rw [h.drop_start, htext, List.cons_append]
  · rw [hfirst, Cut.token, ← htext, String.ofList_toList]

/-- All characters of the text from one offset up to another are blank. -/
def BlankUpTo (cs : List Char) (k j : Nat) : Prop :=
  ∀ i c, k ≤ i → i < j → cs[i]? = some c → isBlank c = true

theorem isSplit_nil_iff {cs : List Char} {k : Nat} :
    IsSplit cs k [] ↔ ∀ i c, k ≤ i → cs[i]? = some c → isBlank c = true := by
  constructor
  · intro h i c hi hc
    exact h.blank i c hi hc nofun
  · intro h
    exact ⟨nofun, .nil, .nil, fun i c hi hc _ => h i c hi hc⟩

theorem isSplit_cons_iff {cs : List Char} {k : Nat} {t : Placed} {ts : List Placed} :
    IsSplit cs k (t :: ts) ↔
      k ≤ t.start ∧ BlankUpTo cs k t.start ∧ IsPiece cs t ∧ IsSplit cs t.finish ts := by
  constructor
  · intro h
    obtain ⟨⟨hk, hpiece⟩, hpieces⟩ := List.forall_mem_cons.mp h.pieces
    obtain ⟨hfirst, hapart⟩ := List.pairwise_cons.mp h.apart
    have hless := hpiece.start_lt_finish
    refine ⟨hk, ?_, hpiece, ?_, h.increasing.of_cons, hapart, ?_⟩
    · intro i c hi hstart hc
      refine h.blank i c hi hc (List.forall_mem_cons.mpr ⟨fun hin => ?_, fun u hu hin => ?_⟩)
      · omega
      · have hu := hfirst u hu
        omega
    · intro u hu
      exact ⟨hfirst u hu, (hpieces u hu).2⟩
    · intro i c hi hc hout
      refine h.blank i c (by omega) hc (List.forall_mem_cons.mpr ⟨fun hin => ?_, hout⟩)
      omega
  · rintro ⟨hk, hblank, hpiece, h⟩
    have hless := hpiece.start_lt_finish
    refine ⟨List.forall_mem_cons.mpr ⟨⟨hk, hpiece⟩, fun u hu => ?_⟩, ?_, ?_, ?_⟩
    · obtain ⟨hu, hpiece'⟩ := h.pieces u hu
      exact ⟨by omega, hpiece'⟩
    · refine List.pairwise_cons.mpr ⟨fun u hu => ?_, h.increasing⟩
      have hu := (h.pieces u hu).1
      omega
    · exact List.pairwise_cons.mpr ⟨fun u hu => (h.pieces u hu).1, h.apart⟩
    · intro i c hi hc hout
      obtain ⟨hfirst, hout⟩ := List.forall_mem_cons.mp hout
      by_cases hstart : i < t.start
      · exact hblank i c hi hstart hc
      · exact h.blank i c (by omega) hc hout

/-! ### The scan -/

/-- The cursor at an offset of a text. -/
def Cursor.atOffset (cs : List Char) (k : Nat) : Cursor := ⟨k, cs.drop k⟩

theorem Cursor.collect_append (before : List Placed) (c : Cursor) :
    (c.collect before).1 = before.reverse ++ (c.collect []).1 := by
  unfold Cursor.collect
  split
  · simp
  · next t c' h =>
    have hless := Cursor.length_rest_next? h
    rw [Cursor.collect_append (t :: before) c', Cursor.collect_append [t] c']
    simp
termination_by c.rest.length

theorem Cursor.collect_cons {c c' : Cursor} {t : Placed} (h : c.next? = some (t, c')) :
    (c.collect []).1 = t :: (c'.collect []).1 := by
  conv => lhs; unfold Cursor.collect
  split
  · next hnone => cases h.symm.trans hnone
  · next u d hsome =>
    cases h.symm.trans hsome
    exact Cursor.collect_append [t] c'

theorem Cursor.skipBlanks_atOffset (cs : List Char) (k : Nat) :
    ∃ j, k ≤ j ∧ (Cursor.atOffset cs k).skipBlanks = .atOffset cs j ∧ BlankUpTo cs k j ∧
      ∀ c, cs[j]? = some c → isBlank c = false := by
  let blanks := (cs.drop k).takeWhile isBlank
  have hparts : blanks ++ (cs.drop k).dropWhile isBlank = cs.drop k :=
    List.takeWhile_append_dropWhile
  have hrest : cs.drop (k + blanks.length) = (cs.drop k).dropWhile isBlank := by
    rw [← List.drop_drop, ← hparts, List.drop_left, hparts]
  refine ⟨k + blanks.length, Nat.le_add_right _ _, ?_, ?_, ?_⟩
  · simp only [Cursor.atOffset, hrest]
    rfl
  · intro i c hi hless hc
    obtain ⟨n, rfl⟩ := Nat.exists_eq_add_of_le hi
    rw [← List.getElem?_drop, ← hparts, List.getElem?_append_left (by omega)] at hc
    exact List.all_eq_true.mp List.all_takeWhile c (List.mem_of_getElem? hc)
  · intro c hc
    have hstop := List.head?_dropWhile_not isBlank (cs.drop k)
    rw [← hrest, List.head?_drop, hc] at hstop
    simpa using hstop

/-- Blanks are in no run, so none goes on behind them. -/
theorem Parted.skip {cs : List Char} {k j : Nat} (h : Parted cs k) (hk : k ≤ j)
    (hblank : BlankUpTo cs k j) : Parted cs j := by
  intro i d c hi hd hc
  by_cases hsame : j = k
  · subst hsame
    exact h i d c hi hd hc
  · have hd := hblank i d (by omega) (by omega) hd
    constructor
    · intro hdigit
      simp [isBlank_of_isDigit hdigit] at hd
    · intro hword
      simp [isWord_of_isBlank hd] at hword

/-- Whatever split there is, its first token is the one that is cut off next. -/
theorem IsPiece.eq_first {cs tail : List Char} {k j : Nat} {c : Char} {t : Placed}
    (h : IsPiece cs t) (hk : k ≤ t.start) (hblank : BlankUpTo cs k t.start) (hj : k ≤ j)
    (hblank' : BlankUpTo cs k j) (hrest : cs.drop j = c :: tail) (hc : isBlank c = false) :
    t = ⟨(Cut.first c tail).token, j⟩ := by
  obtain ⟨d, tail', hdrop, hd, htoken⟩ := h.front
  -- Both offsets are the first one that has no blank.
  have hsame : t.start = j := by
    rcases Nat.lt_trichotomy t.start j with hless | heq | hless
    · simp [hblank' t.start d hk hless (getElem?_of_drop hdrop)] at hd
    · exact heq
    · simp [hblank j c hj hless (getElem?_of_drop hrest)] at hc
  rw [hsame, hrest] at hdrop
  obtain ⟨rfl, rfl⟩ := List.cons.inj hdrop
  rw [← htoken, ← hsame]

theorem isPiece_first {cs tail : List Char} {k : Nat} {c : Char} (hrest : cs.drop k = c :: tail)
    (hblank : isBlank c = false) (hparted : Parted cs k) :
    IsPiece cs ⟨(Cut.first c tail).token, k⟩ := by
  have htext : (Cut.first c tail).token.text.toList ++ (Cut.first c tail).rest = c :: tail := by
    rw [Cut.token, String.toList_ofList, Cut.lexeme_append_rest_first]
  refine ⟨?_, ?_, fits_first hrest hblank hparted⟩
  · obtain ⟨xs, hlexeme, -⟩ := Cut.first_again c tail
    rw [Cut.token, String.toList_ofList, hlexeme]
    exact List.cons_ne_nil c xs
  · rw [hrest, ← htext, List.take_left]

/-- A cursor goes on behind the token that is cut off. -/
theorem Cursor.next?_atOffset {cs tail : List Char} {k j : Nat} {c : Char}
    (hskip : (Cursor.atOffset cs k).skipBlanks = .atOffset cs j) (hrest : cs.drop j = c :: tail) :
    (Cursor.atOffset cs k).next? =
      some (⟨(Cut.first c tail).token, j⟩,
        .atOffset cs (⟨(Cut.first c tail).token, j⟩ : Placed).finish) := by
  let t : Placed := ⟨(Cut.first c tail).token, j⟩
  have hpiece : cs.drop t.start = t.token.text.toList ++ (Cut.first c tail).rest := by
    show cs.drop j = (Cut.first c tail).token.text.toList ++ _
    rw [hrest, Cut.token, String.toList_ofList, Cut.lexeme_append_rest_first]
  have hbehind : Cursor.atOffset cs t.finish =
      ⟨j + (Cut.first c tail).lexeme.length, (Cut.first c tail).rest⟩ := by
    rw [Cursor.atOffset, Placed.drop_finish hpiece]
    simp only [Placed.finish, t, Cut.token, String.toList_ofList]
  rw [hbehind, Cursor.next?_eq_some_iff, hskip]
  exact ⟨c, tail, hrest, rfl, rfl⟩

theorem Cursor.collect_nil {c : Cursor} (h : c.next? = none) : (c.collect []).1 = [] := by
  unfold Cursor.collect
  split
  · rfl
  · next u d hsome => cases h.symm.trans hsome

/-- Where only blanks are left, nothing is to be split. -/
theorem isSplit_iff_nil {cs : List Char} {k : Nat}
    (hblank : ∀ i c, k ≤ i → cs[i]? = some c → isBlank c = true) {ts : List Placed} :
    IsSplit cs k ts ↔ ts = [] := by
  constructor
  · intro h
    cases ts with
    | nil => rfl
    | cons t ts =>
      obtain ⟨hk, -, hpiece, -⟩ := isSplit_cons_iff.mp h
      obtain ⟨c, tail, hdrop, hc, -⟩ := hpiece.front
      simp [hblank t.start c hk (getElem?_of_drop hdrop)] at hc
  · rintro rfl
    exact isSplit_nil_iff.mpr hblank

/-- Where a token is cut off next, it is the first of every split. -/
theorem isSplit_iff_first {cs tail : List Char} {k j : Nat} {c : Char} (hparted : Parted cs k)
    (hk : k ≤ j) (hblank : BlankUpTo cs k j) (hrest : cs.drop j = c :: tail)
    (hc : isBlank c = false) {ts : List Placed} :
    IsSplit cs k ts ↔ ∃ ts', ts = ⟨(Cut.first c tail).token, j⟩ :: ts' ∧
      IsSplit cs (⟨(Cut.first c tail).token, j⟩ : Placed).finish ts' := by
  have hfirst := isPiece_first hrest hc (hparted.skip hk hblank)
  constructor
  · intro h
    cases ts with
    | nil =>
      have hall := isSplit_nil_iff.mp h j c hk (getElem?_of_drop hrest)
      simp [hall] at hc
    | cons t ts =>
      obtain ⟨ht, hblank', hpiece, h⟩ := isSplit_cons_iff.mp h
      obtain rfl := hpiece.eq_first ht hblank' hk hblank hrest hc
      exact ⟨ts, rfl, h⟩
  · rintro ⟨ts', rfl, h⟩
    exact isSplit_cons_iff.mpr ⟨hk, hblank, hfirst, h⟩

/-- The scan finds every split, and finds one. -/
theorem isSplit_iff_collect {cs : List Char} {k : Nat} (hparted : Parted cs k)
    {ts : List Placed} : IsSplit cs k ts ↔ ts = ((Cursor.atOffset cs k).collect []).1 := by
  induction hn : cs.length - k using Nat.strongRecOn generalizing k ts with
  | ind n ih =>
    obtain ⟨j, hk, hskip, hblank, hstop⟩ := Cursor.skipBlanks_atOffset cs k
    cases hrest : cs.drop j with
    | nil =>
      have hnone : (Cursor.atOffset cs k).next? = none := by
        rw [Cursor.next?_eq_none_iff, hskip]
        exact hrest
      rw [Cursor.collect_nil hnone]
      refine isSplit_iff_nil fun i c hi hc => ?_
      by_cases hless : i < j
      · exact hblank i c hi hless hc
      · have hout : cs[i]? = none := by
          rw [List.getElem?_eq_none_iff]
          have hlength := List.drop_eq_nil_iff.mp hrest
          omega
        cases hout.symm.trans hc
    | cons c tail =>
      have hc : isBlank c = false := hstop c (getElem?_of_drop hrest)
      have hfirst := isPiece_first hrest hc (hparted.skip hk hblank)
      have hless : j < (⟨(Cut.first c tail).token, j⟩ : Placed).finish := hfirst.start_lt_finish
      have hlength := congrArg List.length hrest
      rw [List.length_drop, List.length_cons] at hlength
      rw [isSplit_iff_first hparted hk hblank hrest hc,
        Cursor.collect_cons (Cursor.next?_atOffset hskip hrest)]
      have hrec := fun ts => @ih (cs.length - _) (by omega)
        _ (hfirst.fits.parted hfirst.nonempty hfirst.drop_start) ts rfl
      simp only [hrec, exists_eq_right]

/-! ### Whole texts -/

theorem isSplit_iff_scan {text : String} {ts : List Placed} :
    IsSplit text.toList 0 ts ↔ ts = scan text :=
  isSplit_iff_collect (parted_zero _)

/-- **Longest pieces.**  The tokens of a text, with the end token behind them, are the one and
    only way to split it up. -/
theorem tokenization_unique (text : String) (tokens : List Placed) :
    IsTokenization text tokens ↔ tokens = tokenize text := by
  rw [tokenize_eq]
  constructor
  · rintro ⟨body, rfl, -, hsplit⟩
    rw [isSplit_iff_scan.mp hsplit]
  · rintro rfl
    refine ⟨scan text, rfl, fun t ht => ?_, isSplit_iff_scan.mpr rfl⟩
    have htoken : t.token ∈ tokensFrom text.toList := by
      rw [← map_token_scan]
      exact List.mem_map.mpr ⟨t, ht, rfl⟩
    exact (wellFormed_of_mem_tokensFrom _ _ htoken).ne_eof

end Treewalk
