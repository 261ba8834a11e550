import FilterQuery.Proofs.Leaves

/-!
Readings with more text behind. An expression is stable at a text if what it reads there is what
it reads with more text behind. Where the added text begins with a character that the expression
does not have in any of its classes, its end is as good as the end of the text. Only gaps and
strings are not of this kind, since a comment or a string that is still open goes on.
-/
namespace FilterQuery.Grammar

open Scanner Result

/-- The same result with more text left. -/
def Result.append {α : Type} : Result α → List Char → Result α
  | matched a rest, more => matched a (rest ++ more)
  | halted h, _ => halted h

/-- Whatever the expression reads at the start of the text, it reads with more behind as well. -/
def Peg.Stable {α : Type} (room : Room) (p : Peg α) (cs more : List Char) : Prop :=
  ∀ ⦃o : Result α⦄, Reads room p cs o → Reads room p (cs ++ more) (o.append more)

/-- No class of characters in the expression has this one. There are no calls in it. -/
def Peg.avoids (c : Char) : {α : Type} → Peg α → Bool
  | _, never | _, pure _ => true
  | _, char ok _ => !ok c
  | _, seq _ p q => p.avoids c && q.avoids c
  | _, choice p q => p.avoids c && q.avoids c
  | _, star _ p => p.avoids c
  | _, absent p _ => p.avoids c
  | _, guard p _ => p.avoids c
  | _, deeper _ | _, call _ => false

variable {α β γ : Type} {room : Room} {p : Peg α} {q : Peg β} {cs rest more : List Char} {c : Char}

/-- The end of the text and a character that is not in any class are the same to an expression. -/
theorem Reads.append {o : Result α} (h : Reads room p cs o) (hp : p.avoids c = true) :
    Reads room p (cs ++ c :: more) (o.append (c :: more)) := by
  induction h with
  | never => exact .never _ _
  | pure => exact .pure _ _ _
  | char hc => exact .char hc
  | charOther hc => exact .charOther hc
  | charEnd => exact .charOther (by simpa [Peg.avoids] using hp)
  | seq hp' hq ihp ihq =>
    simp only [Peg.avoids, Bool.and_eq_true] at hp
    exact .seq (ihp hp.1) (ihq hp.2)
  | seqLeft hp' ihp =>
    simp only [Peg.avoids, Bool.and_eq_true] at hp
    exact .seqLeft (ihp hp.1)
  | seqRight hp' hq ihp ihq =>
    simp only [Peg.avoids, Bool.and_eq_true] at hp
    exact .seqRight (ihp hp.1) (ihq hp.2)
  | choiceLeft hp' ihp =>
    simp only [Peg.avoids, Bool.and_eq_true] at hp
    exact .choiceLeft (ihp hp.1)
  | choiceRight hp' hq ihp ihq =>
    simp only [Peg.avoids, Bool.and_eq_true] at hp
    exact .choiceRight (ihp hp.1) (ihq hp.2)
  | choiceDeep hp' ihp =>
    simp only [Peg.avoids, Bool.and_eq_true] at hp
    exact .choiceDeep (ihp hp.1)
  | starEnd hp' ihp => exact .starEnd (ihp hp)
  | starMore hp' hq ihp ihq => exact .starMore (ihp hp) (ihq hp)
  | starDeep hp' ihp => exact .starDeep (ihp hp)
  | absent hp' ihp => exact .absent (ihp hp)
  | absentPresent hp' ihp => exact .absentPresent (ihp hp)
  | absentDeep hp' ihp => exact .absentDeep (ihp hp)
  | guard hp' ha ihp => exact .guard (ihp hp) ha
  | guardOther hp' ha ihp => exact .guardOther (ihp hp) ha
  | guardHalt hp' ihp => exact .guardHalt (ihp hp)
  | deeper | noRoom | call => simp [Peg.avoids] at hp

namespace Peg.Stable

theorem of_avoids (hp : p.avoids c = true) : p.Stable room cs (c :: more) := fun _ h => h.append hp

theorem seq {f : α → β → γ} (hp : p.Stable room cs more)
    (hq : ∀ {a mid}, Reads room p cs (matched a mid) → q.Stable room mid more) :
    (Peg.seq f p q).Stable room cs more := by
  intro o h
  cases h with
  | seq hp' hq' => exact .seq (hp hp') (hq hp' hq')
  | seqLeft hp' => exact .seqLeft (hp hp')
  | seqRight hp' hq' => exact .seqRight (hp hp') (hq hp' hq')

theorem map {f : α → β} (hp : p.Stable room cs more) : (p.map f).Stable room cs more :=
  seq hp fun _ _ h => by
    cases h
    exact .pure _ _ _

theorem choice {q : Peg α} (hp : p.Stable room cs more) (hq : q.Stable room cs more) :
    (Peg.choice p q).Stable room cs more := by
  intro o h
  cases h with
  | choiceLeft hp' => exact .choiceLeft (hp hp')
  | choiceRight hp' hq' => exact .choiceRight (hp hp') (hq hq')
  | choiceDeep hp' => exact .choiceDeep (hp hp')

theorem call {s : Symbol α} (hs : s.body.Stable room cs more) :
    (Peg.call s).Stable room cs more := by
  intro o h
  cases h with
  | call hs' => exact .call (hs hs')

end Peg.Stable

/-! ## Literals -/

/-- The text begins with a quote that is not closed. -/
def OpensQuote (cs : List Char) : Prop :=
  ∃ quote body, cs = quote :: body ∧ (quote = '\'' ∨ quote = '"') ∧ quote ∉ body

theorem quotedBy_stable {quote : Char} (hopen : ∀ body, cs = quote :: body → quote ∈ body)
    (hc : (c == quote) = false) : (Peg.quotedBy quote).Stable room cs (c :: more) := by
  intro o h
  cases cs with
  | nil =>
    have hnone : Reads room (Peg.quotedBy quote) [] (halted .failed) := .seqLeft (.charEnd _ _ _)
    rw [h.unique hnone]
    exact .quotedBy_other hc
  | cons d body =>
    by_cases hd : d = quote
    · subst hd
      obtain ⟨content, others, hbody, hcontent⟩ := List.eq_append_cons_of_mem (hopen body rfl)
      have hrun : ∀ tail, Reads room (Peg.quotedBy d) (d :: content ++ d :: tail)
          (matched (String.ofList content) tail) := fun tail => .quotedBy_run hcontent
      have htext : d :: body = d :: content ++ d :: others := by simp [hbody]
      rw [htext] at h ⊢
      rw [h.unique (hrun others), List.append_assoc]
      exact hrun (others ++ c :: more)
    · have hother : (d == quote) = false := beq_eq_false_iff_ne.mpr hd
      rw [h.unique (.quotedBy_other hother)]
      exact .quotedBy_other hother

/-- A string is read the same with more text behind, unless its quote is still open. -/
theorem quoted_stable (hopen : ¬ OpensQuote cs) (hsingle : (c == '\'') = false)
    (hdouble : (c == '"') = false) : Peg.quoted.Stable room cs (c :: more) := by
  have hclosed : ∀ quote, quote = '\'' ∨ quote = '"' →
      ∀ body, cs = quote :: body → quote ∈ body := by
    intro quote hquote body hcs
    by_contra hbody
    exact hopen ⟨quote, body, hcs, hquote, hbody⟩
  exact .choice (quotedBy_stable (hclosed _ (Or.inl rfl)) hsingle)
    (quotedBy_stable (hclosed _ (Or.inr rfl)) hdouble)

/-- A literal is read the same with more text behind. -/
theorem literal_stable (hopen : ¬ OpensQuote cs) (hc : c ∈ enders) :
    (Peg.call .literal).Stable room cs (c :: more) := by
  have hquotes : enders.all (fun c => c != '\'' && c != '"') = true := by decide
  have hwords : ∀ word ∈ literalWords, enders.all ((Peg.exactWord word).avoids ·) = true := by
    decide
  have hnumber : enders.all (Peg.number.avoids ·) = true := by decide
  have hword : ∀ word ∈ literalWords, ∀ l : Literal,
      (Peg.map (fun _ => l) (Peg.exactWord word)).Stable room cs (c :: more) :=
    fun word hword l => .map (.of_avoids (List.all_eq_true.mp (hwords word hword) c hc))
  obtain ⟨hsingle, hdouble⟩ : (c == '\'') = false ∧ (c == '"') = false := by
    simpa using List.all_eq_true.mp hquotes c hc
  exact .call <|
    .choice (hword "null" (by decide) .null) <|
    .choice (hword "NULL" (by decide) .null) <|
    .choice (hword "true" (by decide) (.bool true)) <|
    .choice (hword "TRUE" (by decide) (.bool true)) <|
    .choice (hword "false" (by decide) (.bool false)) <|
    .choice (hword "FALSE" (by decide) (.bool false)) <|
    .choice (.map (quoted_stable hopen hsingle hdouble)) (.of_avoids (List.all_eq_true.mp hnumber c hc))

end FilterQuery.Grammar
