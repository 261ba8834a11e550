import FilterQuery.Proofs.Conformance

/-!
How the texts of expressions begin. Past a gap, what an expression reads begins with a character
that neither closes a bracket nor separates elements. This also holds of an expression that was
given up because of the nesting limit.
-/
namespace FilterQuery.Grammar

open Scanner Result

/-- The text past a gap. -/
def ahead (cs : List Char) : List Char := (Terminal.splitGap false cs).2

/-- Past a gap there is more text, and it does not begin with a closing parenthesis or comma. -/
def GoesOn (cs : List Char) : Prop := ∃ c rest, ahead cs = c :: rest ∧ c ≠ ')' ∧ c ≠ ','

/-- The characters that may begin a gap, close a bracket or separate elements. -/
def loose : List Char := [' ', '\t', '\n', '\r', '-', '/', ')', ',']

def isFirm (c : Char) : Bool := !loose.contains c

/-- A class of characters without a loose one is firm. -/
theorem isFirm_of {c : Char} (ok : Char → Bool) (hloose : loose.all (!ok ·) = true)
    (hc : ok c = true) : isFirm c = true := by
  by_contra hfirm
  have hmem : c ∈ loose := by simpa [isFirm] using hfirm
  have hno := List.all_eq_true.mp hloose c hmem
  simp [hc] at hno

theorem splitGap_idem (inComment : Bool) (cs : List Char) :
    Terminal.splitGap false (Terminal.splitGap inComment cs).2 =
      ([], (Terminal.splitGap inComment cs).2) := by
  fun_induction Terminal.splitGap inComment cs with
  | case1 => rfl
  | case2 inComment c cs hcomment gap rest hsplit ih => simpa [hsplit] using ih
  | case3 inComment c cs hcomment hblank gap rest hsplit ih => simpa [hsplit] using ih
  | case4 inComment c cs hcomment hblank =>
    have hopens : Terminal.opensComment (c :: cs) = false := by
      cases inComment with
      | false => simpa using hcomment
      | true => simp_all [Terminal.isBlankChar]
    simp [Terminal.splitGap, hopens, hblank]

theorem opensComment_eq_false {c : Char} (hdash : c ≠ '-') (hslash : c ≠ '/') (cs : List Char) :
    Terminal.opensComment (c :: cs) = false := by
  unfold Terminal.opensComment
  split <;> simp_all

/-- A dash without a second one is no comment. -/
theorem opensComment_dash {cs : List Char} (hcs : Terminal.startsWith (· == '-') cs = false) :
    Terminal.opensComment ('-' :: cs) = false := by
  unfold Terminal.opensComment
  split <;> simp_all [Terminal.startsWith]

/-- A character that is no blank and opens no comment ends a gap. -/
theorem splitGap_solid {c : Char} (hblank : Terminal.isBlankChar c = false) (hdash : c ≠ '-')
    (hslash : c ≠ '/') (cs : List Char) : Terminal.splitGap false (c :: cs) = ([], c :: cs) := by
  simp [Terminal.splitGap, opensComment_eq_false hdash hslash cs, hblank]

theorem ahead_solid {c : Char} (hblank : Terminal.isBlankChar c = false) (hdash : c ≠ '-')
    (hslash : c ≠ '/') (cs : List Char) : ahead (c :: cs) = c :: cs := by
  rw [ahead, splitGap_solid hblank hdash hslash]

theorem ahead_dash {cs : List Char} (hcs : Terminal.startsWith (· == '-') cs = false) :
    ahead ('-' :: cs) = '-' :: cs := by
  simp [ahead, Terminal.splitGap, opensComment_dash hcs, Terminal.isBlankChar, Terminal.isBreak]

theorem ahead_ahead (cs : List Char) : ahead (ahead cs) = ahead cs := by
  rw [ahead, ahead, splitGap_idem]

theorem ahead_firm {c : Char} (hc : isFirm c = true) (cs : List Char) :
    ahead (c :: cs) = c :: cs := by
  simp only [isFirm, loose, List.contains_cons, List.contains_nil, Bool.or_false,
    Bool.not_eq_true', Bool.or_eq_false_iff, beq_eq_false_iff_ne] at hc
  exact ahead_solid (by simp [Terminal.isBlankChar, Terminal.isBreak, hc]) hc.2.2.2.2.1
    hc.2.2.2.2.2.1 cs

theorem goesOn_firm {c : Char} (hc : isFirm c = true) (cs : List Char) : GoesOn (c :: cs) := by
  refine ⟨c, cs, ahead_firm hc cs, ?_, ?_⟩
  · rintro rfl
    simp [isFirm, loose] at hc
  · rintro rfl
    simp [isFirm, loose] at hc

theorem goesOn_ahead {cs : List Char} : GoesOn (ahead cs) ↔ GoesOn cs := by
  rw [GoesOn, GoesOn, ahead_ahead]

/-- Only where the text goes on can the expression do anything but fail. -/
def Peg.Opens {α : Type} (p : Peg α) : Prop :=
  ∀ ⦃room : Room⦄ ⦃cs : List Char⦄ ⦃o : Result α⦄,
    Reads room p cs o → o ≠ halted .failed → GoesOn cs

namespace Peg.Opens

variable {α β γ : Type}

theorem char {ok : Char → Bool} {f : Char → α} (hok : ∀ c, ok c = true → isFirm c = true) :
    (Peg.char ok f).Opens := by
  intro room cs o h ho
  cases h with
  | char hc => exact goesOn_firm (hok _ hc) _
  | charOther | charEnd => exact absurd rfl ho

theorem seqLeft {f : α → β → γ} {p : Peg α} {q : Peg β} (hp : p.Opens) :
    (Peg.seq f p q).Opens := by
  intro room cs o h ho
  cases h with
  | seq hp' hq' => exact hp hp' (by simp)
  | seqLeft hp' => exact hp hp' (by simpa using ho)
  | seqRight hp' hq' => exact hp hp' (by simp)

theorem gapBefore {p : Peg α} (hp : p.Opens) : (Peg.before Peg.gap p).Opens := by
  intro room cs o h ho
  cases h with
  | seq hgap hp' =>
    cases hgap.unique (.gap cs)
    exact goesOn_ahead.mp (hp hp' (by simp))
  | seqLeft hgap => cases hgap.unique (.gap cs)
  | seqRight hgap hp' =>
    cases hgap.unique (.gap cs)
    exact goesOn_ahead.mp (hp hp' (by simpa using ho))

theorem choice {p q : Peg α} (hp : p.Opens) (hq : q.Opens) : (Peg.choice p q).Opens := by
  intro room cs o h ho
  cases h with
  | choiceLeft hp' => exact hp hp' (by simp)
  | choiceRight hp' hq' => exact hq hq' ho
  | choiceDeep hp' => exact hp hp' (by simp)

theorem firstOf {ps : List (Peg α)} (hps : ∀ p ∈ ps, p.Opens) : (Peg.firstOf ps).Opens := by
  fun_induction Peg.firstOf ps with
  | case1 =>
    intro room cs o h ho
    cases h
    exact absurd rfl ho
  | case2 p => exact hps p (List.mem_singleton_self p)
  | case3 p ps hne ih =>
    exact choice (hps p (List.mem_cons_self ..)) (ih fun q hq => hps q (List.mem_cons_of_mem p hq))

theorem guard {p : Peg α} {ok : α → Bool} (hp : p.Opens) : (Peg.guard p ok).Opens := by
  intro room cs o h ho
  cases h with
  | guard hp' _ => exact hp hp' (by simp)
  | guardOther hp' _ => exact hp hp' (by simp)
  | guardHalt hp' => exact hp hp' (by simpa using ho)

theorem call {s : Symbol α} (hs : s.body.Opens) : (Peg.call s).Opens := by
  intro room cs o h ho
  cases h with
  | call hs' => exact hs hs' ho

/-- A pattern opens as its first character does. -/
theorem likeness {same : Char → Char → Bool} {ps : List Char}
    (hps : ∃ p ∈ ps.head?, ∀ c, same p c = true → isFirm c = true) :
    (Peg.likeness same ps).Opens := by
  obtain ⟨p, hhead, hp⟩ := hps
  obtain ⟨rest, rfl⟩ : ∃ rest, ps = p :: rest := by
    cases ps <;> simp_all
  exact seqLeft (char hp)

end Peg.Opens

/-! ## The parts of the grammar -/

/-- A spelling that begins with a firm character, or with a letter in either case. -/
def Spelling.opensFirmly : Spelling → Bool
  | symbol text => text.toList.head?.any isFirm
  | phrase [] => false
  | phrase (word :: _) => word.toList.head?.any (·.toLower.isAlpha)

theorem slots_openFirmly : ∀ slot ∈ [Slot.compare, .logic], ∀ s ∈ slot, s.opensFirmly := by
  decide

theorem text_opens {t : String} (ht : t.toList.head?.any isFirm = true) : (Peg.text t).Opens := by
  obtain ⟨p, hhead, hp⟩ := (Option.any_eq_true _ _).mp ht
  exact .likeness ⟨p, hhead, fun c hc => eq_of_beq hc ▸ hp⟩

theorem keyword_opens {word : String} (hw : word.toList.head?.any (·.toLower.isAlpha) = true) :
    (Peg.keyword word).Opens := by
  obtain ⟨p, hhead, hp⟩ := (Option.any_eq_true _ _).mp hw
  refine .seqLeft (.likeness ⟨p, hhead, fun c hc => ?_⟩)
  exact isFirm_of (·.toLower.isAlpha) (by decide) (eq_of_beq hc ▸ hp)

theorem spelling_opens {s : Spelling} (hs : s.opensFirmly) : s.peg.Opens := by
  match s, hs with
  | .symbol text, hs => exact .seqLeft (text_opens hs)
  | .phrase [word], hs => exact .seqLeft (keyword_opens hs)
  | .phrase (word :: _ :: _), hs => exact .seqLeft (.seqLeft (keyword_opens hs))

theorem operator_opens {slot : Slot} (hslot : ∀ s ∈ slot, s.opensFirmly) :
    (Peg.before Peg.gap (Peg.followedBy slot.peg Peg.gap)).Opens := by
  refine .gapBefore (.seqLeft (.firstOf fun p hp => ?_))
  obtain ⟨s, hs, rfl⟩ := List.mem_map.mp hp
  exact spelling_opens (hslot s hs)

theorem quotedBy_opens {quote : Char} (hq : isFirm quote = true) : (Peg.quotedBy quote).Opens :=
  .seqLeft (.char fun _ hc => eq_of_beq hc ▸ hq)

theorem whole_opens {α β : Type} {f : List Char → α → β} {q : Peg α} {room : Room}
    {cs : List Char} {o : Result β} (h : Reads room (.seq f Peg.whole q) cs o)
    (ho : o ≠ halted .failed) : ∃ d rest, cs = d :: rest ∧ d.isDigit = true := by
  by_contra hnone
  have hsplit : Terminal.splitWhole cs = none := by
    cases cs with
    | nil => rfl
    | cons d rest =>
      have hd : d.isDigit = false := by simpa using fun hd => hnone ⟨d, rest, rfl, hd⟩
      have hzero : (d == '0') = false := by
        refine beq_eq_false_iff_ne.mpr ?_
        rintro rfl
        simp at hd
      simp [Terminal.splitWhole, hd, hzero]
  exact ho (h.unique (.seqLeft (.whole_failed hsplit)))

theorem ne_dash_of_isDigit {d : Char} (hd : d.isDigit = true) : d ≠ '-' := by
  rintro rfl
  simp at hd

/-- A number may begin with a dash, but no second dash follows it. -/
theorem number_opens : Peg.number.Opens := by
  intro room cs o h ho
  obtain ⟨d, rest, hrest, hd⟩ :
      ∃ d rest, (Terminal.splitSign cs).2 = d :: rest ∧ d.isDigit = true := by
    cases h with
    | seq hsign hbody =>
      cases hsign.unique (.sign cs)
      exact whole_opens hbody (by simp)
    | seqLeft hsign => cases hsign.unique (.sign cs)
    | seqRight hsign hbody =>
      cases hsign.unique (.sign cs)
      exact whole_opens hbody (by simpa using ho)
  unfold Terminal.splitSign at hrest
  split at hrest
  · next cs =>
    dsimp only at hrest
    subst hrest
    have hsecond : d ≠ '-' := ne_dash_of_isDigit hd
    exact ⟨'-', d :: rest, ahead_dash (beq_eq_false_iff_ne.mpr hsecond), by decide, by decide⟩
  · dsimp only at hrest
    exact hrest ▸ goesOn_firm (isFirm_of Char.isDigit (by decide) hd) _

theorem literal_opens : (Peg.call .literal).Opens := by
  have hword : ∀ {w : String} {l : Literal}, w.toList.head?.any isFirm = true →
      (Peg.map (fun _ => l) (Peg.exactWord w)).Opens := fun hw =>
    .seqLeft (.seqLeft (text_opens hw))
  refine .call ?_
  exact .choice (hword (by decide)) <| .choice (hword (by decide)) <|
    .choice (hword (by decide)) <| .choice (hword (by decide)) <|
    .choice (hword (by decide)) <| .choice (hword (by decide)) <|
    .choice (.seqLeft (.choice (quotedBy_opens (by decide)) (quotedBy_opens (by decide))))
      number_opens

theorem array_opens : (Peg.call .array).Opens :=
  .call (.choice (.seqLeft (text_opens (by decide))) (.seqLeft (text_opens (by decide))))

theorem value_opens : (Peg.call .value).Opens :=
  .call (.choice (.seqLeft literal_opens) (.seqLeft array_opens))

theorem identifier_opens : (Peg.call .identifier).Opens :=
  .call (.seqLeft (.guard (.seqLeft (.char fun _ => isFirm_of Char.isAlpha (by decide)))))

theorem primary_opens : (Peg.call .primaryExpression).Opens :=
  .call (.choice (.seqLeft (.seqLeft (text_opens (by decide)))) <| .choice value_opens <|
    .choice (.seqLeft identifier_opens) (.call (.seqLeft (.seqLeft identifier_opens))))

theorem expression_opens : (Peg.call .expression).Opens := by
  have hcompare : (Peg.call .compareExpression).Opens :=
    .call (.seqLeft (.call (.seqLeft (.call (.seqLeft (.call (.seqLeft primary_opens)))))))
  exact .call (.call (.seqLeft (.call (.choice hcompare
    (.seqLeft (.gapBefore (.seqLeft (keyword_opens (by decide)))))))))

end FilterQuery.Grammar
