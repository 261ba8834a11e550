import FilterQuery.Proofs.Numerals
import FilterQuery.Proofs.Parsing
import FilterQuery.Proofs.Yields

/-!
Semantic errors. Every literal of a draft stands in the text, one after the other and each once.
An integer is at fault if its value leaves the range of 64 bits, a decimal if it cannot be read,
and nothing else is ever at fault.
-/
namespace FilterQuery

open Grammar Number Scanner Result

/-- The texts stand in `cs`, one after the other. -/
def InOrder : List (List Char) → List Char → Prop
  | [], _ => True
  | t :: ts, cs => ∃ before rest, cs = before ++ (t ++ rest) ∧ InOrder ts rest

namespace InOrder

theorem before {ts : List (List Char)} {cs : List Char} (h : InOrder ts cs) (ds : List Char) :
    InOrder ts (ds ++ cs) := by
  cases ts with
  | nil => trivial
  | cons t ts =>
    obtain ⟨before, rest, rfl, hrest⟩ := h
    exact ⟨ds ++ before, rest, by rw [List.append_assoc], hrest⟩

theorem append {ts us : List (List Char)} {cs ds : List Char} (h : InOrder ts cs)
    (h' : InOrder us ds) : InOrder (ts ++ us) (cs ++ ds) := by
  induction ts generalizing cs with
  | nil => exact h'.before cs
  | cons t ts ih =>
    obtain ⟨before, rest, rfl, hrest⟩ := h
    exact ⟨before, rest ++ ds, by simp only [List.append_assoc], ih hrest⟩

end InOrder

namespace Literal

/-- The text of a number. -/
def numeral? : Literal → Option (List Char)
  | integer text | decimal text => some text.toList
  | _ => none

/-- The text of an integer is digits, perhaps with a minus sign, and that of a decimal has a point
between them. -/
def IsSpelled : Literal → Prop
  | integer text => ∃ sign ds, text.toList = sign ++ ds ∧ (sign = [] ∨ sign = ['-']) ∧ ds ≠ [] ∧
      ∀ c ∈ ds, c.isDigit = true
  | decimal text => ∃ sign ds fs, text.toList = sign ++ (ds ++ '.' :: fs) ∧
      (sign = [] ∨ sign = ['-']) ∧ (ds ≠ [] ∧ ∀ c ∈ ds, c.isDigit = true) ∧
        fs ≠ [] ∧ ∀ c ∈ fs, c.isDigit = true
  | _ => True

/-- The integer that a text with or without a minus sign denotes. -/
def valueOfInteger : List Char → Int
  | '-' :: ds => -valueOf ds
  | ds => valueOf ds

/-- What is wrong with a literal, by its value. -/
def complaint? : Literal → Option SemanticError
  | integer text =>
    let n := valueOfInteger text.toList
    if n < -2 ^ 63 then some (.integer text .tooSmall)
    else if 2 ^ 63 - 1 < n then some (.integer text .tooLarge)
    else none
  | decimal text =>
    match Decimal.read text.toList with
    | .ok _ => none
    | .error fault => some (.decimal text fault)
  | _ => none

theorem fault?_eq_complaint? {l : Literal} (hl : l.IsSpelled) : l.fault? = l.complaint? := by
  match l, hl with
  | null, _ | bool _, _ | string _, _ => rfl
  | decimal text, _ =>
    simp only [fault?, convert, complaint?]
    cases Decimal.read text.toList <;> rfl
  | integer text, ⟨sign, ds, htext, hsign, hne, hds⟩ =>
    have hreach : Integer.reach = 2 ^ 63 := rfl
    rcases hsign with rfl | rfl
    · have hvalue : valueOfInteger ds = valueOf ds := by
        cases ds with
        | nil => exact absurd rfl hne
        | cons c cs =>
          have hc : c.isDigit = true := hds c (List.mem_cons_self ..)
          unfold valueOfInteger
          split <;> simp_all
      simp only [fault?, convert, complaint?, htext, List.nil_append,
        Integer.read_nonnegative hne hds, hvalue]
      by_cases hrange : valueOf ds ≤ Integer.reach - 1
      · rw [if_pos hrange, if_neg (by omega), if_neg (by omega)]
      · rw [if_neg hrange, if_neg (by omega), if_pos (by omega)]
    · simp only [fault?, convert, complaint?, htext, List.cons_append, List.nil_append,
        Integer.read_negative hne hds, valueOfInteger]
      by_cases hrange : valueOf ds ≤ Integer.reach
      · rw [if_pos hrange, if_neg (by omega), if_neg (by omega)]
      · rw [if_neg hrange, if_pos (by omega)]

end Literal

namespace Grammar

/-! ## The literals of a match -/

/-- The literals in what a symbol denotes, from left to right. -/
def Symbol.literals : {α : Type} → Symbol α → α → List Literal
  | _, grammar, d | _, expression, d | _, logicExpression, d | _, notExpression, d
  | _, compareExpression, d | _, compareInExpression, d | _, predicateExpression, d
  | _, betweenExpression, d | _, primaryExpression, d | _, argument, d | _, reference, d
  | _, value, d => d.literals
  | _, argumentList, ds => Draft.literalsOfAll ds
  | _, array, ls => ls
  | _, literal, l => [l]
  | _, identifier, _ | _, compare, _ | _, logic, _ | _, test, _ => []

/-- The literals are spelled in the text, in their order. -/
structure Spelled (ls : List Literal) (text : List Char) : Prop where
  spelled : ∀ l ∈ ls, l.IsSpelled
  inOrder : InOrder (ls.filterMap Literal.numeral?) text

theorem Spelled.append {ls ms : List Literal} {t u : List Char} (h : Spelled ls t)
    (h' : Spelled ms u) : Spelled (ls ++ ms) (t ++ u) := by
  refine ⟨fun l hl => (List.mem_append.mp hl).elim (h.spelled l) (h'.spelled l), ?_⟩
  rw [List.filterMap_append]
  exact h.inOrder.append h'.inOrder

def SpelledIn : Property := fun _ s text a => Spelled (s.literals a) text

namespace Peg

variable {α β γ : Type}

/-- What the expression matches spells the literals in what it denotes. -/
def Carries (p : Peg α) (lits : α → List Literal) : Prop :=
  ∀ ⦃room : Room⦄ ⦃text : List Char⦄ ⦃a : α⦄, p.Yields (@SpelledIn) room text a →
    Spelled (lits a) text

namespace Carries

variable {lits : α → List Literal} {lits' : β → List Literal} {k : γ → List Literal}

theorem none (p : Peg α) : p.Carries fun _ => [] := fun _ _ _ _ => ⟨by simp, trivial⟩

theorem seq {f : α → β → γ} {p : Peg α} {q : Peg β} (hp : p.Carries lits) (hq : q.Carries lits')
    (hlits : ∀ a b, k (f a b) = lits a ++ lits' b) : (Peg.seq f p q).Carries k := by
  rintro room _ _ ⟨t, u, a, b, rfl, ht, hu, rfl⟩
  exact hlits a b ▸ (hp ht).append (hq hu)

theorem before {p : Peg α} {q : Peg β} (hq : q.Carries lits') : (p.before q).Carries lits' :=
  seq (none p) hq fun _ _ => rfl

theorem followedBy {p : Peg α} {q : Peg β} (hp : p.Carries lits) : (p.followedBy q).Carries lits :=
  seq hp (none q) fun a _ => (List.append_nil (lits a)).symm

theorem map {f : α → β} {p : Peg α} (hp : p.Carries lits) (hlits : ∀ a, lits' (f a) = lits a) :
    (p.map f).Carries lits' :=
  seq hp (none (.pure ())) fun a _ => (hlits a).trans (List.append_nil (lits a)).symm

theorem choice {p q : Peg α} (hp : p.Carries lits) (hq : q.Carries lits) :
    (Peg.choice p q).Carries lits := fun _ _ _ h => h.elim (@hp _ _ _) (@hq _ _ _)

theorem deeper {p : Peg α} (hp : p.Carries lits) : p.deeper.Carries lits :=
  fun _ _ _ ⟨_, _, h⟩ => hp h

theorem call (s : Symbol α) : (Peg.call s).Carries s.literals := fun _ _ _ h => h

theorem optional {p : Peg α} (hp : p.Carries lits) :
    p.optional.Carries fun o => o.elim [] lits :=
  choice (hp.map fun _ => rfl) fun _ _ _ ⟨_, ha⟩ => ha ▸ ⟨by simp, trivial⟩

theorem many {p : Peg α} (hp : p.Carries lits) : p.many.Carries fun as => as.flatMap lits := by
  rintro room _ _ ⟨parts, rfl, hparts, rfl⟩
  induction parts with
  | nil => exact ⟨by simp, trivial⟩
  | cons part parts ih =>
    have hpart := hp (hparts part (List.mem_cons_self ..))
    exact hpart.append (ih fun other hother => hparts other (List.mem_cons_of_mem part hother))

theorem commaList {p : Peg α} (hp : p.Carries lits) :
    p.commaList.Carries fun as => as.flatMap lits := by
  refine map (optional (seq (k := fun as => as.flatMap lits) hp
    (followedBy (many (before (before (before hp))))) fun _ _ => rfl)) ?_
  rintro (- | as) <;> rfl

end Carries

/-! ## The symbols -/

/-- A literal that is no number is not spelled by digits. -/
theorem carries_word {p : Peg α} {f : α → Literal}
    (hf : ∀ a, (f a).numeral? = Option.none ∧ (f a).IsSpelled) :
    (p.map f).Carries fun l => [l] := by
  rintro room _ _ ⟨t, u, a, -, rfl, -, -, rfl⟩
  exact ⟨by simpa using (hf a).2, by simp [(hf a).1, InOrder]⟩

theorem carries_number : Peg.number.Carries fun l => [l] := by
  rintro room _ _ ⟨t, _, sign, body, rfl, hsign, ⟨u, v, whole, fraction, rfl, hwhole, hrest, rfl⟩, rfl⟩
  obtain ⟨rfl, hsign⟩ := yields_sign hsign
  obtain ⟨rfl, hne, hdigits⟩ := yields_whole hwhole
  rcases hrest with ⟨v, w, a, -, rfl, hfraction, ⟨rfl, -⟩, rfl⟩ | ⟨rfl, rfl⟩
  · obtain ⟨rfl, fs, rfl, hne', hfs⟩ := yields_fraction hfraction
    refine ⟨?_, [], [], by simp, trivial⟩
    simpa [Literal.IsSpelled] using ⟨t, u, fs, rfl, hsign, ⟨hne, hdigits⟩, hne', hfs⟩
  · refine ⟨?_, [], [], by simp, trivial⟩
    simpa [Literal.IsSpelled] using ⟨t, u, rfl, hsign, hne, hdigits⟩

end Peg

open Peg

theorem foldLeft_literals {make : Draft → Operator → Draft → Draft}
    (hmake : ∀ l op r, (make l op r).literals = l.literals ++ r.literals) (d : Draft)
    (parts : List (Operator × Draft)) :
    (Draft.foldLeft make d parts).literals =
      d.literals ++ parts.flatMap fun part => part.2.literals := by
  induction parts generalizing d with
  | nil => simp [Draft.foldLeft]
  | cons part parts ih =>
    have hrest := ih (make d part.1 part.2)
    simp only [Draft.foldLeft, List.foldl_cons] at hrest ⊢
    simp [hrest, hmake]

theorem carries_chain {make : Draft → Operator → Draft → Draft} {p : Peg Draft} {q : Peg Operator}
    (hp : p.Carries Draft.literals)
    (hmake : ∀ l op r, (make l op r).literals = l.literals ++ r.literals) :
    (Peg.seq (Draft.foldLeft make) p (Peg.many (Peg.pair q p))).Carries Draft.literals :=
  .seq hp (.many (.seq (k := fun part => part.2.literals) (.none q) hp fun _ _ => rfl))
    (foldLeft_literals hmake)

theorem carries_bounds :
    Peg.bounds.Carries fun bounds => bounds.1.literals ++ bounds.2.literals :=
  .choice (.seq (.call .value) (.before (.before (.before (.call .value)))) fun _ _ => rfl)
    (.before (.before (.seq (.call .value)
      (.before (.before (.before (.followedBy (.call .value))))) fun _ _ => rfl)))

theorem carries_bracketed (opening closing : String) :
    (Peg.bracketed opening closing).Carries id := by
  intro room text ls h
  have hlist := Peg.Carries.commaList (Peg.Carries.call .literal)
  have hcarried := Peg.Carries.before (p := Peg.text opening)
    (.before (p := Peg.gap) (.followedBy (q := .before Peg.gap (Peg.text closing)) hlist)) h
  have hself : ls.flatMap (Symbol.literals .literal) = ls := List.flatMap_singleton' ls
  exact hself ▸ hcarried

/-- The body of every symbol passes on the literals of the symbols in it. -/
theorem body_carries {α : Type} (s : Symbol α) : s.body.Carries s.literals := by
  cases s with
  | grammar => exact .before (.followedBy (.call .expression))
  | expression => exact .call .logicExpression
  | logicExpression => exact carries_chain (.call .notExpression) fun _ _ _ => rfl
  | notExpression =>
    exact .choice (.call .compareExpression)
      (.map (.before (.before (.before (.call .compareExpression)))) fun _ => rfl)
  | compareExpression => exact carries_chain (.call .compareInExpression) fun _ _ _ => rfl
  | compareInExpression =>
    refine .seq (.call .predicateExpression) (.optional (.before (.seq (.none _)
      (.before (.call .array)) (k := fun part => part.2) fun _ _ => rfl))) ?_
    rintro d (- | part)
    · exact (List.append_nil d.literals).symm
    · rfl
  | predicateExpression =>
    refine .seq (.call .betweenExpression) (.optional (.call .test)) ?_
    rintro d (- | op)
    · exact (List.append_nil d.literals).symm
    · exact (List.append_nil d.literals).symm
  | betweenExpression =>
    refine .seq (.call .primaryExpression) (.optional (.before (.seq (.none _)
      (.before carries_bounds)
      (k := fun part => part.2.1.literals ++ part.2.2.literals) fun _ _ => rfl))) ?_
    rintro d (- | part)
    · exact (List.append_nil d.literals).symm
    · rfl
  | primaryExpression =>
    refine .choice (.map (.before (.before (.followedBy (.deeper (.call .expression)))))
      fun _ => rfl) (.choice (.call .value) (.choice (.seq (.none _) (.call .argumentList)
      fun _ _ => rfl) (.call .reference)))
  | argumentList =>
    intro room text ds h
    have hlist := Peg.Carries.commaList (Peg.Carries.call .argument)
    have hcarried := Peg.Carries.before (p := Peg.text "(") (.before (p := Peg.gap)
      (.followedBy (q := .before Peg.gap (Peg.text ")")) (.deeper hlist))) h
    have hall : Symbol.literals .argumentList ds = ds.flatMap Draft.literals :=
      Draft.literalsOfAll_eq_flatMap ds
    rw [hall]
    exact hcarried
  | argument => exact .call .expression
  | reference =>
    refine .map (.none _) ?_
    rintro ⟨head, - | steps⟩ <;> rfl
  | identifier | compare | logic | test => exact .none _
  | value => exact .choice (.map (.call .literal) fun _ => rfl) (.map (.call .array) fun _ => rfl)
  | array => exact .choice (carries_bracketed _ _) (carries_bracketed _ _)
  | literal =>
    have hword : ∀ (w : String) (l : Literal), l.numeral? = none ∧ l.IsSpelled →
        (Peg.map (fun _ => l) (Peg.exactWord w)).Carries fun l => [l] := fun _ _ hl =>
      carries_word fun _ => hl
    exact .choice (hword _ _ ⟨rfl, trivial⟩) <| .choice (hword _ _ ⟨rfl, trivial⟩) <|
      .choice (hword _ _ ⟨rfl, trivial⟩) <| .choice (hword _ _ ⟨rfl, trivial⟩) <|
      .choice (hword _ _ ⟨rfl, trivial⟩) <| .choice (hword _ _ ⟨rfl, trivial⟩) <|
      .choice (carries_word fun _ => ⟨rfl, trivial⟩) carries_number

/-- What the grammar derives has its literals spelled in the text, in order. -/
theorem Reads.spelled {α : Type} {room : Room} {s : Symbol α} {cs rest : List Char} {a : α}
    (h : Reads room (.call s) cs (matched a rest)) : Spelled (s.literals a) cs := by
  obtain ⟨text, rfl, htext⟩ :=
    h.yields (G := SpelledIn) (fun _ hs => body_carries _ hs) rfl
  have hend : InOrder [] rest := trivial
  exact ⟨htext.spelled, by simpa using htext.inOrder.append hend⟩

end Grammar

/-! ## The errors of a parse -/

theorem Draft.faults_eq_complaints {d : Draft} {text : List Char} (h : Spelled d.literals text) :
    d.faults = d.literals.filterMap Literal.complaint? :=
  List.filterMap_congr fun l hl => Literal.fault?_eq_complaint? (h.spelled l hl)

/-- A parse has exactly the errors of the bad literals, in the order in which these stand in the
text; it ends with the first one. If it ends otherwise there are none. -/
theorem parse_semanticErrors (q : String) :
    (∀ residual, (parseOutcome q).result ≠ .error (.unfinished residual)) ∧
      ((∀ e, (parseOutcome q).result ≠ .error (.semantic e)) →
        (parseOutcome q).semanticErrors = []) ∧
      ∀ e, (parseOutcome q).result = .error (.semantic e) →
        (parseOutcome q).semanticErrors.head? = some e ∧
        ∃ d, Derives q d ∧
          (parseOutcome q).semanticErrors = d.literals.filterMap Literal.complaint? ∧
          InOrder (d.literals.filterMap Literal.numeral?) q.toList := by
  rcases parseWithin_reads nestingLimit q with
    ⟨-, hnone, offset, position, hresult⟩ | ⟨-, hnone, offset, position, rule, near, hresult⟩ |
    ⟨d, hmatched, herrors, hverdict⟩
  · have herror : (parseOutcome q).result = _ := hresult
    have hempty : (parseOutcome q).semanticErrors = [] := hnone
    simp [herror, hempty]
  · have herror : (parseOutcome q).result = _ := hresult
    have hempty : (parseOutcome q).semanticErrors = [] := hnone
    simp [herror, hempty]
  · have hresult : (parseOutcome q).result = d.verdict := hverdict
    have hfaulty : (parseOutcome q).semanticErrors = d.faults := herrors
    have hspelled : Spelled d.literals q.toList := hmatched.spelled
    rw [hresult, hfaulty, Draft.verdict]
    cases hfaults : d.faults with
    | nil => simp
    | cons e es =>
      refine ⟨by simp, fun h => absurd rfl (h e), fun e' he' => ?_⟩
      simp only [Except.error.injEq, ParseError.semantic.injEq] at he'
      refine ⟨by simp [he'], d, hmatched.unlimited (by simp), ?_, hspelled.inOrder⟩
      rw [← hfaults, Draft.faults_eq_complaints hspelled]

end FilterQuery
