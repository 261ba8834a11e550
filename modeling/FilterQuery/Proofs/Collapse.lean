import FilterQuery.Proofs.Nesting
import FilterQuery.Proofs.Spellings
import FilterQuery.Proofs.Traits

/-!
Blanks and comments are interchangeable. A text is collapsed by putting one blank for every run of
blanks and comments outside of strings. The grammar is blind to this: whatever an expression reads
at the start of a text, it reads at the start of the collapsed text, and what remains is collapsed
as well. So the outcome of a parse is that of the collapsed query.
-/
namespace FilterQuery.Grammar

open Scanner Result

/-- The character belongs to a run of blanks and comments. -/
def Mode.inGap : Mode → Char → List Char → Bool
  | code, c, cs => Terminal.isBlankChar c || Terminal.opensComment (c :: cs)
  | comment, _, _ => true
  | quoted _, _, _ => false

/-- One blank for each run of blanks and comments, and every other character as it is. The first
argument tells whether the text begins inside of a run. -/
def collapseFrom : Bool → Mode → List Char → List Char
  | _, _, [] => []
  | inRun, mode, c :: cs =>
    if mode.inGap c cs then
      if inRun then collapseFrom true (mode.after c cs) cs
      else ' ' :: collapseFrom true (mode.after c cs) cs
    else c :: collapseFrom false (mode.after c cs) cs

def collapse (cs : List Char) : List Char := collapseFrom false .code cs

/-- The same result with a collapsed text left. -/
def Result.collapse {α : Type} : Result α → Result α
  | matched a rest => matched a (Grammar.collapse rest)
  | halted h => halted h

/-- Whatever the expression reads in a text, it reads in the collapsed text. -/
def Peg.Blind {α : Type} (room : Room) (p : Peg α) : Prop :=
  ∀ ⦃cs : List Char⦄ ⦃o : Result α⦄, Reads room p cs o → Reads room p (collapse cs) o.collapse

variable {α β γ : Type} {room : Room} {p : Peg α} {q : Peg β} {c quote : Char}
  {cs content : List Char}

/-! ## Collapsed texts -/

theorem collapseFrom_cons {inRun : Bool} {mode : Mode} (h : mode.inGap c cs = false) :
    collapseFrom inRun mode (c :: cs) = c :: collapseFrom false (mode.after c cs) cs :=
  if_neg (Bool.eq_false_iff.mp h)

/-- Where a run goes on, nothing is put for the rest of it. -/
theorem collapseFrom_run (inComment : Bool) (cs : List Char) :
    collapseFrom true (commentMode inComment) cs =
      collapse (Terminal.splitGap inComment cs).2 := by
  fun_induction Terminal.splitGap inComment cs with
  | case1 => rfl
  | case2 inComment c cs hcomment gap rest hsplit ih =>
    have hgap : (commentMode inComment).inGap c cs = true := by
      cases inComment with
      | true => rfl
      | false => exact Bool.or_eq_true_iff.mpr (Or.inr hcomment)
    rw [hsplit] at ih
    rw [collapseFrom, if_pos hgap, if_pos rfl, (after_comment hcomment).1, ih]
  | case3 inComment c cs hcomment hblank gap rest hsplit ih =>
    have hgap : (commentMode inComment).inGap c cs = true := by
      cases inComment with
      | true => rfl
      | false => exact Bool.or_eq_true_iff.mpr (Or.inl hblank)
    rw [hsplit] at ih
    rw [collapseFrom, if_pos hgap, if_pos rfl, (after_blank hcomment hblank).1, ih]
  | case4 inComment c cs hcomment hblank =>
    cases inComment with
    | true => simp_all [Terminal.isBlankChar]
    | false =>
      have hgap : Mode.inGap .code c cs = false := by
        simpa [Mode.inGap, hblank] using hcomment
      exact (collapseFrom_cons hgap).trans (collapseFrom_cons hgap).symm

theorem collapse_inGap (h : Mode.inGap .code c cs = true) :
    collapse (c :: cs) = ' ' :: collapse (ahead (c :: cs)) := by
  have hrun : collapseFrom true .code (c :: cs) = collapse (ahead (c :: cs)) :=
    collapseFrom_run false (c :: cs)
  rw [collapseFrom, if_pos h, if_pos rfl] at hrun
  rw [collapse, collapseFrom, if_pos h, if_neg (by decide), hrun]

theorem collapse_cons (h : Mode.inGap .code c cs = false) :
    collapse (c :: cs) = c :: collapseFrom false (Mode.after .code c cs) cs := collapseFrom_cons h

theorem inGap_iff : Mode.inGap .code c cs = false ↔
    Terminal.isBlankChar c = false ∧ Terminal.opensComment (c :: cs) = false :=
  Bool.or_eq_false_iff

/-- A character with which no gap and no string begins. -/
theorem collapse_copied (hgap : Mode.inGap .code c cs = false)
    (hquote : (c == '\'' || c == '"') = false) : collapse (c :: cs) = c :: collapse cs := by
  have hafter : Mode.after .code c cs = .code := by
    simp [Mode.after, (inGap_iff.mp hgap).2, hquote]
  rw [collapse_cons hgap, hafter, collapse]

theorem collapse_other (hc : c ∉ turns) (cs : List Char) :
    collapse (c :: cs) = c :: collapse cs := by
  simp only [turns, List.mem_cons, List.not_mem_nil, or_false, not_or] at hc
  obtain ⟨hspace, htab, hnewline, hreturn, hdash, hslash, hsingle, hdouble⟩ := hc
  refine collapse_copied (inGap_iff.mpr ⟨?_, opensComment_eq_false hdash hslash cs⟩) ?_
  · simp [Terminal.isBlankChar, Terminal.isBreak, hspace, htab, hnewline, hreturn]
  · simp [hsingle, hdouble]

/-- The first character stays, or a blank is put for it. -/
theorem collapse_head (c : Char) (cs : List Char) :
    ∃ d rest, collapse (c :: cs) = d :: rest ∧ (d = c ∨ d = ' ') := by
  cases hgap : Mode.inGap .code c cs with
  | true => exact ⟨' ', _, collapse_inGap hgap, Or.inr rfl⟩
  | false => exact ⟨c, _, collapse_cons hgap, Or.inl rfl⟩

theorem startsWith_collapse {ok : Char → Bool} (hblank : ok ' ' = false)
    (h : Terminal.startsWith ok cs = false) : Terminal.startsWith ok (collapse cs) = false := by
  cases cs with
  | nil => rfl
  | cons c cs =>
    obtain ⟨d, rest, heq, rfl | rfl⟩ := collapse_head c cs
    · rw [heq]
      exact h
    · rw [heq]
      exact hblank

theorem collapse_quote (hquote : quote = '\'' ∨ quote = '"') (cs : List Char) :
    collapse (quote :: cs) = quote :: collapseFrom false (.quoted quote) cs := by
  have hgap : Mode.inGap .code quote cs = false := by
    rcases hquote with rfl | rfl <;> rfl
  rw [collapse_cons hgap, (after_quote hquote).1]

theorem collapse_content (h : quote ∉ content) (rest : List Char) :
    collapseFrom false (.quoted quote) (content ++ quote :: rest) =
      content ++ quote :: collapse rest := by
  induction content with
  | nil => simp [collapseFrom, collapse, Mode.inGap, Mode.after]
  | cons c content ih =>
    obtain ⟨hc, hcontent⟩ : quote ≠ c ∧ quote ∉ content := by simpa using h
    have hafter : Mode.after (.quoted quote) c (content ++ quote :: rest) = .quoted quote :=
      if_neg (by simpa using Ne.symm hc)
    rw [List.cons_append, collapseFrom_cons rfl, hafter, ih hcontent, List.cons_append]

/-- A string is copied together with its quotes. -/
theorem collapse_quoted (hquote : quote = '\'' ∨ quote = '"') (h : quote ∉ content)
    (rest : List Char) : collapse (quote :: content ++ quote :: rest) =
      quote :: content ++ quote :: collapse rest := by
  rw [List.cons_append, collapse_quote hquote, collapse_content h, List.cons_append]

theorem collapseFrom_open (h : quote ∉ cs) : collapseFrom false (.quoted quote) cs = cs := by
  induction cs with
  | nil => rfl
  | cons c cs ih =>
    obtain ⟨hc, hcs⟩ : quote ≠ c ∧ quote ∉ cs := by simpa using h
    have hafter : Mode.after (.quoted quote) c cs = .quoted quote :=
      if_neg (by simpa using Ne.symm hc)
    rw [collapseFrom_cons rfl, hafter, ih hcs]

/-! ## Gaps -/

/-- A character that begins no gap has nothing before it to skip. -/
theorem splitGap_eq_iff : Terminal.splitGap false (c :: cs) = ([], c :: cs) ↔
    Mode.inGap .code c cs = false := by
  rw [inGap_iff]
  constructor
  · intro h
    by_cases hopens : Terminal.opensComment (c :: cs) = true
    · simp [Terminal.splitGap, hopens] at h
    · by_cases hblank : Terminal.isBlankChar c = true
      · simp [Terminal.splitGap, hopens, hblank] at h
      · exact ⟨Bool.eq_false_iff.mpr hblank, Bool.eq_false_iff.mpr hopens⟩
  · rintro ⟨hblank, hopens⟩
    simp [Terminal.splitGap, hblank, hopens]

/-- No comment comes about by collapsing the text after a character. -/
theorem opensComment_collapse (h : Terminal.opensComment (c :: cs) = false) :
    Terminal.opensComment (c :: collapse cs) = false := by
  cases cs with
  | nil => exact h
  | cons d ds =>
    obtain ⟨e, rest, heq, rfl | rfl⟩ := collapse_head d ds
    · rw [heq]
      unfold Terminal.opensComment at h ⊢
      split <;> simp_all
    · rw [heq]
      unfold Terminal.opensComment
      split <;> simp_all

/-- Nor does a gap come about at the start. -/
theorem splitGap_collapse (h : Terminal.splitGap false cs = ([], cs)) :
    Terminal.splitGap false (collapse cs) = ([], collapse cs) := by
  cases cs with
  | nil => rfl
  | cons c cs =>
    have hgap := splitGap_eq_iff.mp h
    obtain ⟨hblank, hopens⟩ := inGap_iff.mp hgap
    rw [collapse_cons hgap, splitGap_eq_iff, inGap_iff]
    refine ⟨hblank, ?_⟩
    by_cases hquote : c = '\'' ∨ c = '"'
    · rcases hquote with rfl | rfl <;> rfl
    · have hafter : Mode.after .code c cs = .code := by
        obtain ⟨hsingle, hdouble⟩ := not_or.mp hquote
        simp [Mode.after, hopens, hsingle, hdouble]
      rw [hafter]
      exact opensComment_collapse hopens

theorem ahead_collapse (cs : List Char) : ahead (collapse cs) = collapse (ahead cs) := by
  -- Past the gap no second one begins, so only the one blank that was put has to be passed.
  have hrest : ahead (collapse (ahead cs)) = collapse (ahead cs) := by
    exact congrArg Prod.snd (splitGap_collapse (splitGap_idem false cs))
  cases cs with
  | nil => rfl
  | cons c cs =>
    cases hgap : Mode.inGap .code c cs with
    | true => rw [collapse_inGap hgap, ahead_blank, hrest]
    | false =>
      have hsolid : ahead (c :: cs) = c :: cs := by rw [ahead, splitGap_eq_iff.mpr hgap]
      rwa [hsolid] at hrest ⊢

theorem gap_blind : Peg.gap.Blind room := by
  intro cs o h
  cases h.unique (.gap cs)
  rw [Result.collapse, ← ahead, ← ahead_collapse]
  exact .gap _

theorem someGap_blind : Peg.someGap.Blind room := by
  intro cs o h
  rcases Reads.gapStep room cs with ⟨hnone, -⟩ | ⟨mid, hsome, hrest, -, hstep⟩
  · cases h.unique (.someGap_failed hnone)
    exact .someGap_failed (splitGap_collapse hnone)
  · cases h.unique (.seq hstep (.gap mid))
    cases cs with
    | nil => exact absurd rfl hsome
    | cons c cs =>
      have hgap : Mode.inGap .code c cs = true := by
        by_contra hgap
        exact hsome (congrArg Prod.fst (splitGap_eq_iff.mpr (eq_false_of_ne_true hgap)))
      rw [Result.collapse, ← hrest, ← ahead, ← ahead_ahead, ← ahead_collapse, collapse_inGap hgap]
      exact .someGap_blank _

/-! ## Putting expressions together -/

theorem seq_blind {f : α → β → γ} (hp : p.Blind room) (hq : q.Blind room) :
    (Peg.seq f p q).Blind room := by
  intro cs o h
  cases h with
  | seq hp' hq' => exact .seq (hp hp') (hq hq')
  | seqLeft hp' => exact .seqLeft (hp hp')
  | seqRight hp' hq' => exact .seqRight (hp hp') (hq hq')

theorem choice_blind {q : Peg α} (hp : p.Blind room) (hq : q.Blind room) :
    (Peg.choice p q).Blind room := by
  intro cs o h
  cases h with
  | choiceLeft hp' => exact .choiceLeft (hp hp')
  | choiceRight hp' hq' => exact .choiceRight (hp hp') (hq hq')
  | choiceDeep hp' => exact .choiceDeep (hp hp')

theorem rounds_collapse {as : List α} {mid : List Char} (hp : p.Blind room)
    (h : Rounds room p cs as mid) : Rounds room p (collapse cs) as (collapse mid) := by
  induction h with
  | none cs => exact .none _
  | more hfirst h ih => exact .more (hp hfirst) ih

theorem star_blind {f : List α → β} (hp : p.Blind room) : (Peg.star f p).Blind room := by
  intro cs o h
  -- The rounds are the same in both texts, and so is what halts the one after them.
  obtain ⟨as, mid, halt, hrounds, hhalt, rfl⟩ := h.rounds
  have hstar := (rounds_collapse hp hrounds).star f (hp hhalt)
  cases halt with
  | failed => exact hstar
  | tooDeep => exact hstar

/-- An expression without turns reads characters that are copied. -/
theorem plain_blind (hp : p.isPlain = true) : p.Blind room := by
  replace hp : ∀ t ∈ turns, p.avoids t = true := List.all_eq_true.mp hp
  induction p with
  | never =>
    rintro cs o ⟨⟩
    exact .never _ _
  | pure a =>
    rintro cs o ⟨⟩
    exact .pure _ _ _
  | char ok f =>
    have hblank : ok ' ' = false := by simpa [Peg.avoids] using hp ' ' (by decide)
    intro cs o h
    cases h with
    | @char _ _ _ _ c _ hc =>
      have hother : c ∉ turns := fun hturn => by simpa [Peg.avoids, hc] using hp c hturn
      rw [collapse_other hother]
      exact .char hc
    | charOther hc => exact .char_failed (startsWith_collapse hblank hc)
    | charEnd => exact .charEnd _ _ _
  | seq f p q ihp ihq =>
    simp only [Peg.avoids, Bool.and_eq_true, forall₂_and] at hp
    exact seq_blind (ihp hp.1) (ihq hp.2)
  | choice p q ihp ihq =>
    simp only [Peg.avoids, Bool.and_eq_true, forall₂_and] at hp
    exact choice_blind (ihp hp.1) (ihq hp.2)
  | star f p ih => exact star_blind (ih hp)
  | absent p b ih =>
    intro cs o h
    cases h with
    | absent hp' => exact .absent (ih hp hp')
    | absentPresent hp' => exact .absentPresent (ih hp hp')
    | absentDeep hp' => exact .absentDeep (ih hp hp')
  | guard p ok ih =>
    intro cs o h
    cases h with
    | guard hp' ha => exact .guard (ih hp hp') ha
    | guardOther hp' ha => exact .guardOther (ih hp hp') ha
    | guardHalt hp' => exact .guardHalt (ih hp hp')
  | deeper | call => simpa [Peg.avoids] using hp ' ' (by decide)

/-! ## Tokens -/

theorem quotedBy_blind (hquote : quote = '\'' ∨ quote = '"') :
    (Peg.quotedBy quote).Blind room := by
  intro cs o h
  cases cs with
  | nil =>
    cases h.unique (.seqLeft (.charEnd _ _ _))
    exact h
  | cons c cs =>
    by_cases hc : c = quote
    · subst hc
      by_cases hmem : c ∈ cs
      · obtain ⟨content, rest, rfl, hcontent⟩ := List.eq_append_cons_of_mem hmem
        have hrun : ∀ tail, Reads room (Peg.quotedBy c) (c :: content ++ c :: tail)
            (matched (String.ofList content) tail) := fun tail => .quotedBy_run hcontent
        cases h.unique (hrun rest)
        rw [← List.cons_append, collapse_quoted hquote hcontent]
        exact hrun (collapse rest)
      · cases h.unique (.quotedBy_unclosed hmem)
        rw [collapse_quote hquote, collapseFrom_open hmem]
        exact .quotedBy_unclosed hmem
    · have hother : Terminal.startsWith (· == quote) (c :: cs) = false :=
        beq_eq_false_iff_ne.mpr hc
      cases h.unique (.seqLeft (.char_failed hother))
      refine .seqLeft (.char_failed (startsWith_collapse ?_ hother))
      rcases hquote with rfl | rfl <;> rfl

/-- A comment and the blank that is put for it are alike to what can read neither. -/
theorem blind_of_comment (hdashes : ∀ cs, Reads room p ('-' :: '-' :: cs) (halted .failed))
    (hslashes : ∀ cs, Reads room p ('/' :: '/' :: cs) (halted .failed))
    (hblank : ∀ cs, Reads room p (' ' :: cs) (halted .failed))
    (hother : ∀ cs o, Terminal.opensComment cs = false → Reads room p cs o →
      Reads room p (collapse cs) o.collapse) : p.Blind room := by
  intro cs o h
  cases hopens : Terminal.opensComment cs with
  | false => exact hother cs o hopens h
  | true =>
    have hfailed : Reads room p cs (halted .failed) := by
      unfold Terminal.opensComment at hopens
      split at hopens
      · exact hdashes _
      · exact hslashes _
      · cases hopens
    cases h.unique hfailed
    cases cs with
    | nil => cases hopens
    | cons c cs =>
      rw [collapse_inGap (Bool.or_eq_true_iff.mpr (Or.inr hopens))]
      exact hblank _

/-- The dash of a sign is copied, unless it is the first one of a comment. -/
theorem splitSign_collapse (h : Terminal.opensComment cs = false) :
    Terminal.splitSign (collapse cs) =
      ((Terminal.splitSign cs).1, collapse (Terminal.splitSign cs).2) := by
  cases cs with
  | nil => rfl
  | cons c cs =>
    by_cases hdash : c = '-'
    · subst hdash
      rw [collapse_copied (inGap_iff.mpr ⟨rfl, h⟩) rfl]
      rfl
    · have hsame : ∀ {ds}, Terminal.startsWith (· == '-') ds = false →
          Terminal.splitSign ds = ([], ds) := by
        intro ds hds
        unfold Terminal.splitSign
        split <;> simp_all [Terminal.startsWith]
      have hother : Terminal.startsWith (· == '-') (c :: cs) = false :=
        beq_eq_false_iff_ne.mpr hdash
      rw [hsame hother, hsame (startsWith_collapse rfl hother)]

/-- What is known of the first part leaves the reading to the second. -/
theorem seq_collapse {f : α → β → γ} {o : Result γ} {a : α} {mid cs' : List Char}
    (h : Reads room (.seq f p q) cs o) (hp : Reads room p cs (matched a mid))
    (hp' : Reads room p cs' (matched a (collapse mid))) (hq : q.Blind room) :
    Reads room (.seq f p q) cs' o.collapse := by
  cases h with
  | seq hfirst hread =>
    cases hfirst.unique hp
    exact .seq hp' (hq hread)
  | seqLeft hfirst => cases hfirst.unique hp
  | seqRight hfirst hread =>
    cases hfirst.unique hp
    exact .seqRight hp' (hq hread)

theorem number_blind : Peg.number.Blind room := by
  have hbody : (Peg.pair Peg.whole (Peg.optional Peg.fraction)).isPlain = true := by decide
  refine blind_of_comment (fun _ => .seqRight (.sign _) (.seqLeft (.whole_failed rfl)))
    (fun _ => .number_failed rfl) (fun _ => .number_failed rfl) fun cs o hopens h => ?_
  have hsign : Reads room Peg.sign (collapse cs) _ := .sign (collapse cs)
  rw [splitSign_collapse hopens] at hsign
  exact seq_collapse h (.sign cs) hsign (plain_blind hbody)

theorem arrow_blind : (Peg.text "->").Blind room := by
  have hhead : (Peg.likeness (· == ·) ['>']).isPlain = true := by decide
  refine blind_of_comment (fun _ => .seqRight (.char rfl) (.seqLeft (.charOther rfl)))
    (fun _ => .seqLeft (.charOther rfl)) (fun _ => .seqLeft (.charOther rfl))
    fun cs o hopens h => ?_
  by_cases hdash : ∃ ds, cs = '-' :: ds
  · obtain ⟨ds, rfl⟩ := hdash
    rw [collapse_copied (inGap_iff.mpr ⟨rfl, hopens⟩) rfl]
    exact seq_collapse h (.char rfl) (.char rfl) (plain_blind hhead)
  · have hnone : Terminal.startsWith ('-' == ·) cs = false := by
      cases cs with
      | nil => rfl
      | cons c cs => exact beq_eq_false_iff_ne.mpr fun heq => hdash ⟨cs, heq ▸ rfl⟩
    cases h.unique (.seqLeft (.char_failed hnone))
    exact .seqLeft (.char_failed (startsWith_collapse rfl hnone))

theorem quoted_blind : Peg.quoted.Blind room :=
  choice_blind (quotedBy_blind (Or.inl rfl)) (quotedBy_blind (Or.inr rfl))

theorem endOfText_blind : Peg.endOfText.Blind room := by
  intro cs o h
  cases cs with
  | nil =>
    cases h.unique (.absent (.charEnd _ _ _))
    exact h
  | cons c cs =>
    cases h.unique (.absentPresent (.char rfl))
    obtain ⟨d, rest, heq, -⟩ := collapse_head c cs
    rw [heq]
    exact .absentPresent (.char rfl)

/-! ## The grammar -/

theorem blind_pervades : Trait.Pervades @Peg.Blind where
  plain := plain_blind
  gap := @gap_blind
  someGap := @someGap_blind
  quoted := @quoted_blind
  number := @number_blind
  arrow := @arrow_blind
  endOfText := @endOfText_blind
  seq := seq_blind
  choice := choice_blind
  star := star_blind
  deeper hp _ _ h := by
    cases h with
    | deeper hroom hp' => exact .deeper hroom (hp _ hroom hp')
    | noRoom hroom => exact .noRoom hroom
  call hp _ _ h := by
    cases h with
    | call hp' => exact .call (hp hp')

end FilterQuery.Grammar

namespace FilterQuery

open Grammar

/-- The query with one blank for every run of blanks and comments outside of its strings. -/
def collapsed (q : String) : String := String.ofList (collapse q.toList)

/-- A parse depends on the collapsed query alone, apart from the places that its errors name. -/
theorem parse_collapsed (q : String) :
    (∃ t, parse q = .ok t ∧ parse (collapsed q) = .ok t) ∨
    (∃ e, parse q = .error (.semantic e) ∧ parse (collapsed q) = .error (.semantic e) ∧
      (parseOutcome q).semanticErrors = (parseOutcome (collapsed q)).semanticErrors) ∨
    ((∃ offset position rule near,
        parse q = .error (.syntaxError offset position rule near)) ∧
      ∃ offset position rule near,
        parse (collapsed q) = .error (.syntaxError offset position rule near)) ∨
    ((∃ limit offset position, parse q = .error (.tooDeep limit offset position)) ∧
      ∃ limit offset position, parse (collapsed q) = .error (.tooDeep limit offset position)) := by
  have hreads : ∀ {o}, Reads (.limited nestingLimit) (.call .grammar) q.toList o →
      Reads (.limited nestingLimit) (.call .grammar) (collapsed q).toList o.collapse := fun h => by
    rw [collapsed, String.toList_ofList]
    exact blind_pervades.grammar nestingLimit h
  rcases parseWithin_reads nestingLimit q with ⟨hread, -⟩ | ⟨hread, -⟩ | ⟨d, hread, -⟩
  · have hread' := hreads hread
    exact Or.inr <| Or.inr <| Or.inr ⟨⟨_, hread.parse_tooDeep⟩, ⟨_, hread'.parse_tooDeep⟩⟩
  · have hread' := hreads hread
    exact Or.inr <| Or.inr <| Or.inl ⟨hread.parse_failed, hread'.parse_failed⟩
  · obtain ⟨hparse, herrors⟩ := hread.parse_matched
    obtain ⟨hparse', herrors'⟩ := (hreads hread).parse_matched
    rw [hparse, hparse', herrors, herrors', Draft.verdict]
    cases d.faults with
    | nil => exact Or.inl ⟨d.build, rfl, rfl⟩
    | cons e es => exact Or.inr (Or.inl ⟨e, rfl, rfl, rfl⟩)

/-- One blank stands for the line break, the comments and the blanks around them. -/
example : collapsed "a -- b\n\t// 'c\n = 'd  --e' --" = "a = 'd  --e' " := by decide

end FilterQuery
