/-
  Treewalk/Proofs/Evaluation/History.lean
  =======================================
  **What an evaluation writes.**  The trace of an evaluation tells every write
  of it: names that are defined, and parameters that are bound when a call
  enters the body of its function.  What a scope binds is what was written
  there last.

  This needs an order on scopes.  Every scope is older than those inside it,
  and a value holds only scopes that are open, so a scope just opened is one
  in which nothing was written before.  How many scopes are open is the stage
  that an evaluation has come to.  It never gets lower, and what may be held at
  one stage may be held at all later ones.
-/
import Treewalk.Proofs.Evaluation.Reach
import Treewalk.Proofs.Evaluation.Trace

namespace Treewalk

/-! ### Links between scopes -/

namespace Scopes

/-- The scope directly around another one. -/
def outer? (scopes : Scopes) (s : ScopeId) : Option ScopeId :=
  (scopes[s]?.getD .empty).around.head?

theorem outer?_eq (scopes : Scopes) (s : ScopeId) :
    scopes.outer? s = (scopes.chain s).tail.head? := rfl

/-- A scope sees itself alone, or what some scope sees that was opened earlier. -/
def LinkedAt (scopes : Scopes) (s : ScopeId) : Prop :=
  scopes.chain s = [s] ∨ ∃ t < s, scopes.chain s = s :: scopes.chain t

def Linked (scopes : Scopes) : Prop := ∀ s, scopes.LinkedAt s

/-- No scope is closed, and every scope keeps those around it. -/
structure Grows (scopes scopes' : Scopes) : Prop where
  size_le : scopes.size ≤ scopes'.size
  chain : ∀ s < scopes.size, scopes'.chain s = scopes.chain s

variable {scopes scopes' scopes'' : Scopes} {s t : ScopeId}

theorem bindings_eq_nil (hs : scopes.size ≤ s) : scopes.bindings s = [] := by
  rw [bindings, Array.getElem?_eq_none hs]
  rfl

theorem chain_eq_singleton (hs : scopes.size ≤ s) : scopes.chain s = [s] := by
  rw [chain, Array.getElem?_eq_none hs]
  rfl

namespace Grows

theorem refl (scopes : Scopes) : scopes.Grows scopes := ⟨Nat.le_refl _, fun _ _ => rfl⟩

theorem trans (h : scopes.Grows scopes') (h' : scopes'.Grows scopes'') :
    scopes.Grows scopes'' := by
  refine ⟨Nat.le_trans h.size_le h'.size_le, fun s hs => ?_⟩
  rw [h'.chain s (Nat.lt_of_lt_of_le hs h.size_le), h.chain s hs]

theorem bind (scopes : Scopes) (s : ScopeId) (x : String) (v : Value) :
    scopes.Grows (scopes.bind s x v) :=
  ⟨Nat.le_of_eq (size_bind ..).symm, fun _ _ => chain_bind ..⟩

theorem enclose (scopes : Scopes) (s : ScopeId) (b : Bindings) :
    scopes.Grows (scopes.enclose s b) := by
  refine ⟨size_enclose scopes s b ▸ Nat.le_succ _, fun t ht => ?_⟩
  rw [chain_enclose, if_neg (Nat.ne_of_lt ht)]

theorem push (scopes : Scopes) (scope : Scope) : scopes.Grows (scopes.push scope) := by
  refine ⟨?_, fun t ht => ?_⟩
  · rw [Array.size_push]
    exact Nat.le_succ _
  · simp only [Scopes.chain, Array.getElem?_push, if_neg (Nat.ne_of_lt ht)]

end Grows

namespace Linked

theorem outer_lt (h : scopes.Linked) (ht : scopes.outer? s = some t) : t < s := by
  rw [outer?_eq] at ht
  rcases h s with hchain | ⟨u, hu, hchain⟩
  · rw [hchain] at ht
    cases ht
  · rw [hchain] at ht
    cases ht
    exact hu

/-- What can be seen from a scope is the scope, and what can be seen from the one around it. -/
theorem chain_eq (h : scopes.Linked) (s : ScopeId) :
    scopes.chain s = s :: ((scopes.outer? s).map scopes.chain).getD [] := by
  rw [outer?_eq]
  rcases h s with hchain | ⟨u, -, hchain⟩ <;> rw [hchain] <;> rfl

/-- Looking a name up follows the links outward. -/
theorem find?_eq (h : scopes.Linked) (s : ScopeId) (x : String) : scopes.find? s x =
    ((scopes.bindings s).lookup x).or ((scopes.outer? s).bind fun t => scopes.find? t x) := by
  rw [find?, h.chain_eq, List.findSome?_cons]
  cases (scopes.bindings s).lookup x with
  | some v => rfl
  | none => cases scopes.outer? s <;> rfl

theorem le_of_mem_chain (h : scopes.Linked) (ht : t ∈ scopes.chain s) : t ≤ s := by
  induction s using Nat.strongRecOn with
  | ind s ih =>
    rcases h s with hchain | ⟨u, hu, hchain⟩ <;> rw [hchain] at ht
    · exact Nat.le_of_eq (List.mem_singleton.mp ht)
    · rcases List.mem_cons.mp ht with rfl | ht
      · exact Nat.le_refl _
      · exact Nat.le_trans (ih u hu ht) (Nat.le_of_lt hu)

/-- A scope that is seen is older than those seen before it, so none is seen twice. -/
theorem pairwise_chain (h : scopes.Linked) (s : ScopeId) :
    (scopes.chain s).Pairwise fun t u => u < t := by
  induction s using Nat.strongRecOn with
  | ind s ih =>
    rcases h s with hchain | ⟨u, hu, hchain⟩ <;> rw [hchain]
    · exact List.pairwise_singleton _ _
    · refine List.pairwise_cons.mpr ⟨fun t ht => ?_, ih u hu⟩
      exact Nat.lt_of_le_of_lt (h.le_of_mem_chain ht) hu

/-- It is enough to look at scopes that are new. -/
theorem grow (h : scopes.Linked) (hgrows : scopes.Grows scopes')
    (hnew : ∀ t, scopes.size ≤ t → scopes'.LinkedAt t) : scopes'.Linked := by
  intro t
  by_cases ht : t < scopes.size
  · rcases h t with hchain | ⟨u, hu, hchain⟩
    · exact .inl ((hgrows.chain t ht).trans hchain)
    · refine .inr ⟨u, hu, ?_⟩
      rw [hgrows.chain t ht, hgrows.chain u (Nat.lt_trans hu ht), hchain]
  · exact hnew t (Nat.le_of_not_lt ht)

theorem bind (h : scopes.Linked) (s : ScopeId) (x : String) (v : Value) :
    (scopes.bind s x v).Linked :=
  h.grow (.bind ..) fun _ ht =>
    .inl (chain_eq_singleton (Nat.le_trans (Nat.le_of_eq (size_bind ..)) ht))

theorem enclose (h : scopes.Linked) (hs : s < scopes.size) (b : Bindings) :
    (scopes.enclose s b).Linked := by
  refine h.grow (.enclose ..) fun t ht => ?_
  rcases Nat.eq_or_lt_of_le ht with rfl | ht
  · refine .inr ⟨s, hs, ?_⟩
    rw [chain_enclose, if_pos rfl, chain_enclose, if_neg (Nat.ne_of_lt hs)]
  · exact .inl (chain_eq_singleton (Nat.le_trans (Nat.le_of_eq (size_enclose ..)) ht))

theorem push (h : scopes.Linked) (b : Bindings) : Scopes.Linked (scopes.push ⟨b, []⟩) := by
  refine h.grow (.push ..) fun t ht => .inl ?_
  rcases Nat.eq_or_lt_of_le ht with rfl | ht
  · simp [Scopes.chain]
  · exact chain_eq_singleton (Nat.le_trans (Nat.le_of_eq (Array.size_push ..)) ht)

end Linked

end Scopes

/-! ### Values and scopes -/

/-- The value holds no scope but the first `n`. -/
def Value.Below (n : Nat) (v : Value) : Prop := ∀ t, v.scope? = some t → t < n

namespace Value.Below

variable {n k : Nat} {v : Value}

theorem mono (h : v.Below n) (hn : n ≤ k) : v.Below k :=
  fun t ht => Nat.lt_of_lt_of_le (h t ht) hn

theorem unwrap (h : v.Below n) : v.unwrap.Below n := by
  cases v <;> exact h

theorem ofScalar (h : v.Scalar) : v.Below n := by
  cases v with
  | int | bool | null => nofun
  | returned | fn => exact h.elim

end Value.Below

/-! ### Histories -/

/-- Where a value was written: in a scope, under a name. -/
abbrev Write := (ScopeId × String) × Value

/-- What was written, the latest first. -/
abbrev History := List Write

theorem History.lookup_cons (s t : ScopeId) (x y : String) (v : Value) (history : History) :
    List.lookup (t, y) (((s, x), v) :: history) =
      if t = s ∧ y = x then some v else history.lookup (t, y) := by
  by_cases h : t = s ∧ y = x
  · obtain ⟨rfl, rfl⟩ := h
    simp
  · have hne : (t, y) ≠ (s, x) := fun heq => h (Prod.mk.inj heq)
    rw [List.lookup_cons, beq_false_of_ne hne, if_neg h]

/-- Writes to one scope are seen in this scope only. -/
theorem History.lookup_map (pairs : List (String × Value)) (s t : ScopeId) (x : String) :
    (pairs.map fun p => ((s, p.1), p.2)).lookup (t, x) =
      if t = s then pairs.lookup x else none := by
  induction pairs with
  | nil => simp
  | cons p pairs ih =>
    rw [List.map_cons, History.lookup_cons, Bindings.lookup_cons, ih]
    by_cases ht : t = s <;> simp [ht]

/-- Nothing was written in the scope under the name. -/
def History.Untouched (history : History) (s : ScopeId) (x : String) : Prop :=
  ∀ w ∈ history, w.1 ≠ (s, x)

/-- The value is what was written last in the scope under the name. -/
def History.Latest (history : History) (s : ScopeId) (x : String) (v : Value) : Prop :=
  ∃ later earlier, history = later ++ ((s, x), v) :: earlier ∧ History.Untouched later s x

theorem History.lookup_eq_none_iff {history : History} {s : ScopeId} {x : String} :
    history.lookup (s, x) = none ↔ history.Untouched s x := by
  rw [List.lookup_eq_none_iff]
  exact forall₂_congr fun w _ => bne_iff_ne.trans ne_comm

theorem History.lookup_eq_some_iff {history : History} {s : ScopeId} {x : String} {v : Value} :
    history.lookup (s, x) = some v ↔ history.Latest s x v := by
  rw [List.lookup_eq_some_iff]
  refine exists₂_congr fun later earlier => and_congr_right fun _ => ?_
  exact forall₂_congr fun w _ => bne_iff_ne.trans ne_comm

/-- Of parameters with the same name the last one is bound. -/
theorem Bindings.lookup_parameters (names : List String) (values : List Value) (x : String) :
    (Eval.parameters names values).lookup x = (names.zip values).reverse.lookup x := by
  suffices hfold : ∀ (pairs : List (String × Value)) (b : Bindings),
      (pairs.foldl (fun b p => b.set p.1 p.2) b).lookup x =
        (pairs.reverse.lookup x).or (b.lookup x) from
    (hfold _ []).trans (Option.or_none ..)
  intro pairs
  induction pairs with
  | nil => exact fun b => rfl
  | cons p pairs ih =>
    intro b
    rw [List.foldl_cons, ih, lookup_set, List.reverse_cons, List.lookup_append, Option.or_assoc,
      lookup_cons]
    by_cases hx : x = p.1 <;> simp [hx]

/-- The scopes are linked, what they bind holds open scopes only, and it is what was written
    there last. -/
structure Scopes.Recorded (scopes : Scopes) (history : History) : Prop where
  linked : scopes.Linked
  holds : ∀ s, (scopes.bindings s).All (Value.Below scopes.size)
  lookup : ∀ s x, (scopes.bindings s).lookup x = history.lookup (s, x)

namespace Scopes.Recorded

variable {scopes : Scopes} {history : History} {s : ScopeId}

/-- Nothing was written in a scope that is not opened yet. -/
theorem lookup_unopened (h : scopes.Recorded history) (hs : scopes.size ≤ s) (x : String) :
    history.lookup (s, x) = none := by
  rw [← h.lookup, bindings_eq_nil hs]
  rfl

theorem bind (h : scopes.Recorded history) (hs : s < scopes.size) (x : String) {v : Value}
    (hv : v.Below scopes.size) :
    (scopes.bind s x v).Recorded (((s, x), v) :: history) := by
  refine ⟨h.linked.bind s x v, fun t => ?_, fun t y => ?_⟩
  · rw [size_bind, bindings_bind]
    split
    · exact (h.holds t).set x hv
    · exact h.holds t
  · rw [bindings_bind, History.lookup_cons, ← h.lookup]
    by_cases ht : t = s
    · rw [if_pos ⟨ht.symm, ht ▸ hs⟩, Bindings.lookup_set]
      by_cases hy : y = x <;> simp [ht, hy]
    · rw [if_neg fun hts => ht hts.1.symm, if_neg fun hts => ht hts.1]

theorem enclose (h : scopes.Recorded history) (hs : s < scopes.size) (names : List String)
    {values : List Value} (hvalues : ∀ v ∈ values, v.Below scopes.size) :
    (scopes.enclose s (Eval.parameters names values)).Recorded
      ((names.zip values).reverse.map (fun p => ((scopes.size, p.1), p.2)) ++ history) := by
  have hmono : ∀ v : Value, v.Below scopes.size → v.Below (scopes.size + 1) :=
    fun _ hv => hv.mono (Nat.le_succ _)
  refine ⟨h.linked.enclose hs _, fun t => ?_, fun t x => ?_⟩
  · rw [size_enclose, bindings_enclose]
    split
    · exact Bindings.all_parameters names fun v hv => hmono v (hvalues v hv)
    · exact fun x v hx => hmono v (h.holds t x v hx)
  · rw [bindings_enclose, List.lookup_append, History.lookup_map]
    by_cases ht : t = scopes.size
    · rw [if_pos ht, if_pos ht, Bindings.lookup_parameters,
        h.lookup_unopened (Nat.le_of_eq ht.symm), Option.or_none]
    · rw [if_neg ht, if_neg ht, Option.none_or, h.lookup]

theorem push (h : scopes.Recorded history) : Scopes.Recorded (scopes.push .empty) history := by
  have hbindings : ∀ t, Scopes.bindings (scopes.push .empty) t = scopes.bindings t := by
    intro t
    by_cases ht : t = scopes.size
    · rw [bindings_eq_nil (Nat.le_of_eq ht.symm), ht]
      simp [Scopes.bindings, Scope.empty]
    · simp [Scopes.bindings, Array.getElem?_push, ht]
  refine ⟨h.linked.push [], fun t => ?_, fun t x => ?_⟩
  · rw [hbindings, Array.size_push]
    exact fun x v hx => (h.holds t x v hx).mono (Nat.le_succ _)
  · rw [hbindings, h.lookup]

theorem find? (h : scopes.Recorded history) {x : String} {v : Value}
    (hv : scopes.find? s x = some v) : v.Below scopes.size := by
  obtain ⟨t, -, hlookup⟩ := List.exists_of_findSome?_eq_some hv
  exact h.holds t x v hlookup

/-- A name has the value that was written last in the nearest scope in which it was ever
    written. -/
theorem find?_eq_some_iff (h : scopes.Recorded history) {x : String} {v : Value} :
    scopes.find? s x = some v ↔ ∃ near t far, scopes.chain s = near ++ t :: far ∧
      (∀ u ∈ near, history.Untouched u x) ∧ history.Latest t x v := by
  simp only [Scopes.find?, List.findSome?_eq_some_iff, h.lookup, History.lookup_eq_some_iff,
    History.lookup_eq_none_iff]
  exact exists₃_congr fun near t far => and_congr_right fun _ => and_comm

theorem find?_eq_none_iff (h : scopes.Recorded history) {x : String} :
    scopes.find? s x = none ↔ ∀ t ∈ scopes.chain s, history.Untouched t x := by
  simp only [Scopes.find?, List.findSome?_eq_none_iff, h.lookup, History.lookup_eq_none_iff]

end Scopes.Recorded

/-! ### Writes of an evaluation -/

/-- The names and values of a call, if its application is what began last. -/
def passed : List Moment → List (String × Value)
  | ⟨.begins (.application (.fn params _ _) args), _⟩ :: _ => params.zip args
  | _ => []

/-- What an event writes, given the moments before it.  A call writes its arguments from left to
    right when it enters the body of its function. -/
def Event.writes (earlier : List Moment) : Event → History
  | .binds s x v => [((s, x), v)]
  | .enters s _ => (passed earlier).reverse.map fun p => ((s, p.1), p.2)
  | _ => []

def writes : List Moment → History
  | [] => []
  | moment :: earlier => moment.event.writes earlier ++ writes earlier

/-- The end of a part is about the values that its beginning is about, and its own. -/
theorem Event.values_ends (part : Part) (v : Value) :
    (Event.ends part v).values = (Event.begins part).values ++ [v] := by
  cases part <;> rfl

/-- What is bound is what was written last, before the trace was started or in the course of it,
    and no event is about a scope that was not open by then. -/
structure Trace.Faithful (base : History) (t : Trace) : Prop where
  recorded : t.machine.scopes.Recorded (writes t.moments ++ base)
  moments : ∀ moment ∈ t.moments, ∀ v ∈ moment.event.values,
    v.Below moment.machine.scopes.size

/-- The outcome of a computation that starts with these scopes: a faithful trace is left, and the
    result is fit for its stage. -/
structure Recording {α : Type} (base : History) (P : Nat → α → Prop) (scopes : Scopes)
    (outcome : Except Fault α × Trace) : Prop where
  faithful : Trace.Faithful base outcome.2
  grows : scopes.Grows outcome.2.machine.scopes
  result : ∀ a, outcome.1 = .ok a → P outcome.2.machine.scopes.size a

/-- From the stage `n` on, the computation keeps traces faithful. -/
def Records {α : Type} (base : History) (n : Nat) (P : Nat → α → Prop) (c : Traced α) : Prop :=
  ∀ t, Trace.Faithful base t → n ≤ t.machine.scopes.size →
    Recording base P t.machine.scopes (c t)

variable {α β : Type} {base : History} {n : Nat} {P : Nat → α → Prop} {Q : Nat → β → Prop}

theorem Recording.bind {scopes : Scopes} {t : Trace} {c : Traced α} {next : α → Traced β}
    (h : Recording base P scopes (c t))
    (hnext : ∀ a t', Trace.Faithful base t' → P t'.machine.scopes.size a →
      scopes.Grows t'.machine.scopes → Recording base Q t'.machine.scopes (next a t')) :
    Recording base Q scopes ((c >>= next) t) := by
  rw [Eval.bind_apply]
  rcases hc : c t with ⟨f | a, t'⟩ <;> rw [hc] at h
  · exact ⟨h.faithful, h.grows, nofun⟩
  · have hrest := hnext a t' h.faithful (h.result a rfl) h.grows
    exact ⟨hrest.faithful, h.grows.trans hrest.grows, hrest.result⟩

namespace Trace.Faithful

variable {t : Trace}

theorem start {m : Machine} (h : m.scopes.Recorded base) : Trace.Faithful base (.start m) :=
  ⟨h, nofun⟩

/-- An event that writes nothing is kept. -/
theorem note (h : t.Faithful base) (event : Event) (hwrites : event.writes t.moments = [])
    (hvalues : ∀ v ∈ event.values, v.Below t.machine.scopes.size) :
    Trace.Faithful base { t with moments := ⟨event, t.machine⟩ :: t.moments } := by
  refine ⟨?_, List.forall_mem_cons.mpr ⟨hvalues, h.moments⟩⟩
  rw [writes, hwrites]
  exact h.recorded

end Trace.Faithful

namespace Records

theorem pure {a : α} (h : ∀ k, n ≤ k → P k a) : Records base n P (pure a) := by
  intro t ht hn
  refine ⟨ht, .refl _, fun a' ha => ?_⟩
  cases ha
  exact h _ hn

theorem pureValue {v : Value} (h : v.Below n) : Records base n Value.Below (Pure.pure v) :=
  .pure fun _ hk => h.mono hk

theorem throw (f : Fault) : Records base n P (throw f) := fun _ ht _ => ⟨ht, .refl _, nofun⟩

theorem ofResult {r : Except Fault α} (h : ∀ k a, r = .ok a → P k a) :
    Records base n P (Traced.lift (Eval.ofResult r)) :=
  fun _ ht _ => ⟨ht, .refl _, h _⟩

theorem read (s : ScopeId) (x : String) :
    Records base n Value.Below (Traced.lift (Eval.read s x)) := by
  intro t ht _
  simp only [Traced.lift, Eval.read]
  cases hfind : t.machine.scopes.find? s x with
  | none => exact ⟨ht, .refl _, nofun⟩
  | some v =>
    refine ⟨ht, .refl _, fun v' hv => ?_⟩
    cases hv
    exact ht.recorded.find? hfind

theorem bind {c : Traced α} {next : α → Traced β} (h : Records base n P c)
    (hnext : ∀ k a, n ≤ k → P k a → Records base k Q (next a)) :
    Records base n Q (c >>= next) :=
  fun t ht hn => (h t ht hn).bind fun a t' ht' ha hgrows =>
    hnext t'.machine.scopes.size a (Nat.le_trans hn hgrows.size_le) ha t' ht' (Nat.le_refl _)

theorem note {event : Event} {c : Traced α} (hwrites : ∀ earlier, event.writes earlier = [])
    (hvalues : ∀ v ∈ event.values, v.Below n) (h : Records base n P c) :
    Records base n P (Traced.note event >>= fun _ => c) :=
  fun _ ht hn => h _ (ht.note event (hwrites _) fun v hv => (hvalues v hv).mono hn) hn

/-- The body of a part may rely on what began last. -/
theorem spanning_of_last (part : Part) {c : Traced Value}
    (hvalues : ∀ v ∈ (Event.begins part).values, v.Below n)
    (h : ∀ t, Trace.Faithful base t → n ≤ t.machine.scopes.size →
      (∃ m earlier, t.moments = ⟨.begins part, m⟩ :: earlier) →
      Recording base Value.Below t.machine.scopes (c t)) :
    Records base n Value.Below (Traced.spanning part c) := by
  intro t ht hn
  have hbegins := ht.note (.begins part) rfl fun v hv => (hvalues v hv).mono hn
  refine (h _ hbegins hn ⟨_, _, rfl⟩).bind fun v t' ht' hv hgrows => ?_
  have hends : ∀ w ∈ (Event.ends part v).values, w.Below t'.machine.scopes.size := by
    rw [Event.values_ends]
    refine List.forall_mem_append.mpr ⟨fun w hw => ?_, List.forall_mem_singleton.mpr hv⟩
    exact (hvalues w hw).mono (Nat.le_trans hn hgrows.size_le)
  exact Records.note (fun _ => rfl) hends (.pureValue hv) t' ht' (Nat.le_refl _)

theorem spanning (part : Part) {c : Traced Value}
    (hvalues : ∀ v ∈ (Event.begins part).values, v.Below n) (h : Records base n Value.Below c) :
    Records base n Value.Below (Traced.spanning part c) :=
  .spanning_of_last part hvalues fun t ht hn _ => h t ht hn

theorem define {s : ScopeId} (hs : s < n) (x : String) {v : Value} (hv : v.Below n) :
    Records base n Value.Below (do
      Traced.lift (Eval.bind s x v)
      Traced.note (.binds s x v)
      return .null) := by
  intro t ht hn
  have hbind := ht.recorded.bind (Nat.lt_of_lt_of_le hs hn) x (hv.mono hn)
  refine ⟨⟨hbind, List.forall_mem_cons.mpr ⟨?_, ht.moments⟩⟩, .bind .., fun w hw => ?_⟩
  · refine List.forall_mem_singleton.mpr (hv.mono ?_)
    exact Nat.le_trans hn (Nat.le_of_eq (Scopes.size_bind ..).symm)
  · cases hw
    nofun

theorem endingCalls {c : Traced α} (h : Records base n P c) :
    Records base n P (Traced.endingCalls c) := by
  intro t ht hn
  obtain ⟨hfaithful, hgrows, hresult⟩ := h t ht hn
  exact ⟨⟨hfaithful.recorded, hfaithful.moments⟩, hgrows, hresult⟩

theorem carry {c : Traced Value} {next : Value → Traced Value} (h : Records base n Value.Below c)
    (hnext : ∀ k v, n ≤ k → v.Below k → Records base k Value.Below (next v)) :
    Records base n Value.Below (c >>= fun v => Traced.unlessReturned v next) := by
  refine h.bind fun k v hk hv => ?_
  cases v with
  | returned v => exact .pureValue hv
  | int | bool | null | fn => exact hnext k _ hk hv

theorem unwrap {c : Traced Value} (h : Records base n Value.Below c) :
    Records base n Value.Below (c >>= fun v => Pure.pure v.unwrap) :=
  h.bind fun _ _ _ hv => .pureValue hv.unwrap

end Records

/-! ### Pieces of the evaluator -/

section Pieces

variable {eval : ScopeId → Expr → Traced Value}

mutual
theorem records_statement (heval : ∀ n s e, s < n → Records base n Value.Below (eval s e))
    {n : Nat} {s : ScopeId} (hs : s < n) :
    ∀ stmt : Stmt, Records base n Value.Below (Traced.statement eval s stmt)
  | .empty => .pureValue (.ofScalar trivial)
  | .define x e =>
    (heval n s e hs).carry fun _ _ hk hv => .define (Nat.lt_of_lt_of_le hs hk) x hv
  | .ret e => (heval n s e hs).carry fun _ _ _ hv => .pureValue hv
  | .expr e => heval n s e hs
  | .block body =>
    .spanning (.sequence body) nofun (records_statements heval hs body (.ofScalar trivial))
termination_by structural stmt => stmt

theorem records_statements (heval : ∀ n s e, s < n → Records base n Value.Below (eval s e))
    {n : Nat} {s : ScopeId} (hs : s < n) :
    ∀ (body : List Stmt) {last : Value}, last.Below n →
      Records base n Value.Below (Traced.statements eval s body last)
  | [], _, hlast => .pureValue hlast
  | stmt :: rest, _, _ =>
    have hstmt := records_statement heval hs stmt
    (Records.spanning (.statement stmt) nofun hstmt).carry fun _ _ hk hv =>
      records_statements heval (Nat.lt_of_lt_of_le hs hk) rest hv
termination_by structural body => body
end

variable (heval : ∀ n s e, s < n → Records base n Value.Below (eval s e)) {s : ScopeId}

include heval

theorem records_block (hs : s < n) (body : Block) :
    Records base n Value.Below (Traced.block eval s body) :=
  .spanning (.sequence body) nofun (records_statements heval hs body (.ofScalar trivial))

theorem records_withArguments (hs : s < n) (es : List Expr) {next : List Value → Traced Value}
    (hnext : ∀ k vs, n ≤ k → (∀ v ∈ vs, v.Below k) → Records base k Value.Below (next vs)) :
    Records base n Value.Below (Traced.withArguments eval s es next) := by
  induction es generalizing n next with
  | nil => exact hnext n [] (Nat.le_refl _) nofun
  | cons e es ih =>
    refine (heval n s e hs).carry fun k v hk hv => ?_
    refine ih (Nat.lt_of_lt_of_le hs hk) fun j vs hj hvs => ?_
    exact hnext j (v :: vs) (Nat.le_trans hk hj) (List.forall_mem_cons.mpr ⟨hv.mono hj, hvs⟩)

/-- A call writes its arguments in a scope in which nothing was written before. -/
theorem recording_call {t : Trace} (ht : t.Faithful base) {params : List String} {body : Block}
    {captured : ScopeId} {args : List Value} {m : Machine} {earlier : List Moment}
    (hlast : t.moments = ⟨.begins (.application (.fn params body captured) args), m⟩ :: earlier)
    (hcaptured : captured < t.machine.scopes.size)
    (hargs : ∀ v ∈ args, v.Below t.machine.scopes.size) :
    Recording base Value.Below t.machine.scopes ((do
      let s ← Traced.lift (Eval.enclose captured (Eval.parameters params args))
      let v ← Traced.withinCall do
        Traced.note (.enters s body)
        Traced.block eval s body
      return v.unwrap) t) := by
  -- The trace behind the write, on which the body is evaluated in the scope just opened.
  let s := t.machine.scopes.size
  let inner : Machine :=
    ⟨t.machine.scopes.enclose captured (Eval.parameters params args), t.machine.callDepth + 1⟩
  have hinner : Trace.Faithful base ⟨inner, ⟨.enters s body, inner⟩ :: t.moments⟩ := by
    refine ⟨?_, List.forall_mem_cons.mpr ⟨nofun, ht.moments⟩⟩
    have hopened := ht.recorded.enclose hcaptured params hargs
    have hpassed : passed t.moments = params.zip args := by
      rw [hlast]
      rfl
    rw [writes, Event.writes, hpassed, List.append_assoc]
    exact hopened
  have hs : s < inner.scopes.size := Nat.lt_of_lt_of_eq (Nat.lt_succ_self _)
    (Scopes.size_enclose ..).symm
  have hbody := records_block heval hs body _ hinner (Nat.le_refl _)
  have hcall : Recording base Value.Below t.machine.scopes
      (Traced.withinCall (do
        Traced.note (.enters s body)
        Traced.block eval s body) ⟨{ t.machine with scopes := inner.scopes }, t.moments⟩) :=
    ⟨⟨hbody.faithful.recorded, hbody.faithful.moments⟩,
      (Scopes.Grows.enclose ..).trans hbody.grows, hbody.result⟩
  exact hcall.bind fun v t' ht' hv _ => Records.pureValue hv.unwrap t' ht' (Nat.le_refl _)

theorem records_apply (limit : Int) {f : Value} {args : List Value} (hf : f.Below n)
    (hargs : ∀ v ∈ args, v.Below n) :
    Records base n Value.Below (Traced.apply eval limit f args) := by
  have hvalues : ∀ v ∈ f :: args, v.Below n := List.forall_mem_cons.mpr ⟨hf, hargs⟩
  refine .spanning_of_last (.application f args) hvalues fun t ht hn hlast => ?_
  cases f with
  | int | bool | null | returned => exact Records.throw _ t ht hn
  | fn params body captured =>
    simp only
    split
    · exact Records.throw _ t ht hn
    · rw [Eval.bind_apply]
      simp only [Traced.lift, Eval.callDepth]
      split
      · exact Records.throw _ t ht hn
      · obtain ⟨m, earlier, hmoments⟩ := hlast
        exact recording_call heval ht hmoments (Nat.lt_of_lt_of_le (hf captured rfl) hn)
          fun v hv => (hargs v hv).mono hn

theorem records_choose (hs : s < n) {test : Value} (htest : test.Below n) (body : Block)
    (other : Option Block) :
    Records base n Value.Below (Traced.choose eval s test body other) := by
  refine .note (fun _ => rfl) (List.forall_mem_singleton.mpr htest) ?_
  have htruth : Records base n (fun _ _ => True) (Traced.lift (Eval.ofResult test.truth)) :=
    .ofResult fun _ _ _ => trivial
  refine htruth.bind fun k b hk _ => ?_
  have hs := Nat.lt_of_lt_of_le hs hk
  cases b with
  | true => exact records_block heval hs body
  | false =>
    cases other with
    | some other => exact records_block heval hs other
    | none => exact .pureValue (.ofScalar trivial)

theorem records_step (limit : Int) (hs : s < n) (e : Expr) :
    Records base n Value.Below (Traced.step eval limit s e) := by
  cases e with
  | empty | int | bool => exact .pureValue (.ofScalar trivial)
  | ident x => exact .read s x
  | fn params body =>
    refine .pureValue fun t ht => ?_
    cases ht
    exact hs
  | unary op e =>
    refine (heval n s e hs).carry fun k v _ hv => ?_
    refine .note (fun _ => rfl) (List.forall_mem_singleton.mpr hv) ?_
    exact .ofResult fun _ w hw => .ofScalar (scalar_unary hw)
  | binary l op r =>
    refine (heval n s l hs).carry fun k v hk hv => ?_
    refine (heval k s r (Nat.lt_of_lt_of_le hs hk)).carry fun j w hj hw => ?_
    refine .note (fun _ => rfl) (List.forall_mem_cons.mpr
      ⟨hv.mono hj, List.forall_mem_singleton.mpr hw⟩) ?_
    exact .ofResult fun _ u hu => .ofScalar (scalar_binary hu)
  | cond test body other =>
    refine (heval n s test hs).carry fun k v hk hv => ?_
    exact records_choose heval (Nat.lt_of_lt_of_le hs hk) hv body other
  | call callee args =>
    refine (heval n s callee hs).carry fun k f hk hf => ?_
    refine records_withArguments heval (Nat.lt_of_lt_of_le hs hk) args fun j vs hj hvs => ?_
    exact records_apply heval limit (hf.mono hj) hvs

end Pieces

/-! ### Whole evaluations -/

theorem records_expression (base : History) (limit : Int) (allowance : Nat) {n : Nat}
    {s : ScopeId} (hs : s < n) (e : Expr) :
    Records base n Value.Below (Traced.expression limit allowance s e) := by
  induction allowance generalizing n s e with
  | zero => exact .spanning (.expression e) nofun (.throw _)
  | succ allowance ih =>
    exact .spanning (.expression e) nofun (records_step (fun _ _ e hs => ih hs e) limit hs e)

theorem records_program (base : History) (limit : Int) (allowance : Nat) {n : Nat} {s : ScopeId}
    (hs : s < n) (p : Program) :
    Records base n Value.Below (Traced.program limit allowance s p) :=
  (records_block (fun _ _ e hs => records_expression base limit allowance hs e) hs p).endingCalls
    |>.unwrap

end Treewalk
