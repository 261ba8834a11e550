import FilterQuery.Proofs.Reads
import FilterQuery.Scanner.Split
import Mathlib.Data.List.Basic
import Mathlib.Data.Nat.Init
import Mathlib.Tactic.ByContra

/-!
Terminals read as the grammar says. Each scanner finds itself exactly where its expression of the
grammar matches, leaves the same text behind, and gives the value that the expression denotes.
-/
namespace FilterQuery.Grammar

open Scanner Result

/-- The terminal reads as the expression does, with values related by `f`. -/
structure Obeys {α β : Type} (t : Terminal α) (p : Peg β) (f : α → β) : Prop where
  splits : Terminal.Splits t
  found : ∀ {room : Room} {cs lexeme rest : List Char} {a : α},
    t cs = .found a lexeme rest → Reads room p cs (matched (f a) rest)
  missing : ∀ {room : Room} {cs passed : List Char},
    t cs = .missing passed → Reads room p cs (halted .failed)

/-- What a terminal obeys is never given up for its depth. -/
theorem Obeys.total {α β : Type} {t : Terminal α} {p : Peg β} {f : α → β} (h : Obeys t p f)
    (room : Room) (cs : List Char) :
    (∃ b rest, Reads room p cs (matched b rest)) ∨ Reads room p cs (halted .failed) := by
  cases hread : t cs with
  | found a lexeme rest => exact Or.inl ⟨f a, rest, h.found hread⟩
  | missing passed => exact Or.inr (h.missing hread)

/-- What the expression reads, the terminal finds. -/
theorem Obeys.found_of_reads {α β : Type} {t : Terminal α} {p : Peg β} {f : α → β}
    (h : Obeys t p f) {room : Room} {cs rest : List Char} {b : β}
    (hread : Reads room p cs (matched b rest)) :
    ∃ a lexeme, t cs = .found a lexeme rest ∧ f a = b ∧ lexeme ++ rest = cs := by
  cases hfound : t cs with
  | missing passed => cases (h.missing hfound).unique hread
  | found a lexeme rest' =>
    cases (h.found hfound).unique hread
    exact ⟨a, lexeme, rfl, rfl, h.splits _ _ _ _ hfound⟩

namespace Reads

variable {α β γ : Type} {room : Room} {cs mid rest : List Char}

theorem map {p : Peg α} {a : α} (f : α → β) (h : Reads room p cs (matched a rest)) :
    Reads room (p.map f) cs (matched (f a) rest) := .seq h (.pure _ _ _)

theorem optionalSome {p : Peg α} {a : α} (h : Reads room p cs (matched a rest)) :
    Reads room p.optional cs (matched (some a) rest) := .choiceLeft (h.map some)

theorem optionalNone {p : Peg α} (h : Reads room p cs (halted .failed)) :
    Reads room p.optional cs (matched none cs) := .choiceRight (.seqLeft h) (.pure _ _ _)

/-- A repeated character takes the longest run. -/
theorem starChars (f : List Char → β) (ok : Char → Bool) (cs : List Char) :
    Reads room (.star f (Peg.oneChar ok)) cs
      (matched (f (cs.takeWhile ok)) (cs.dropWhile ok)) := by
  induction cs generalizing f with
  | nil => exact .starEnd (.charEnd _ _ _)
  | cons c cs ih =>
    by_cases hc : ok c = true
    · have htake : (c :: cs).takeWhile ok = c :: cs.takeWhile ok := by simp [hc]
      have hdrop : (c :: cs).dropWhile ok = cs.dropWhile ok := by simp [hc]
      rw [htake, hdrop]
      exact .starMore (.char hc) (ih fun as => f (c :: as))
    · have htake : (c :: cs).takeWhile ok = [] := by simp [hc]
      have hdrop : (c :: cs).dropWhile ok = c :: cs := by simp [hc]
      rw [htake, hdrop]
      exact .starEnd (.charOther (by simpa using hc))

theorem likeness_some {same : Char → Char → Bool} {ps lexeme : List Char}
    (h : Terminal.stripBy same ps cs = some (lexeme, rest)) :
    Reads room (Peg.likeness same ps) cs (matched () rest) := by
  induction ps generalizing cs lexeme with
  | nil =>
    simp only [Terminal.stripBy, Option.some.injEq, Prod.mk.injEq] at h
    obtain ⟨-, rfl⟩ := h
    exact .pure _ _ _
  | cons p ps ih =>
    cases cs with
    | nil => simp [Terminal.stripBy] at h
    | cons c cs =>
      simp only [Terminal.stripBy] at h
      split at h
      · next hc =>
        obtain ⟨⟨l, r⟩, hstrip, heq⟩ := Option.map_eq_some_iff.1 h
        simp only [Prod.mk.injEq] at heq
        obtain ⟨-, rfl⟩ := heq
        exact .seq (.char hc) (ih hstrip)
      · simp at h

theorem likeness_none {same : Char → Char → Bool} {ps : List Char}
    (h : Terminal.stripBy same ps cs = none) :
    Reads room (Peg.likeness same ps) cs (halted .failed) := by
  induction ps generalizing cs with
  | nil => simp [Terminal.stripBy] at h
  | cons p ps ih =>
    cases cs with
    | nil => exact .seqLeft (.charEnd _ _ _)
    | cons c cs =>
      simp only [Terminal.stripBy] at h
      split at h
      · next hc => exact .seqRight (.char hc) (ih (Option.map_eq_none_iff.1 h))
      · next hc => exact .seqLeft (.charOther (by simpa using hc))

theorem wordEnd (h : Terminal.startsWith Terminal.isIdentifierChar cs = false) :
    Reads room Peg.wordEnd cs (matched () cs) := by
  cases cs with
  | nil => exact .absent (.charEnd _ _ _)
  | cons c cs => exact .absent (.charOther h)

theorem wordEnd_failed (h : Terminal.startsWith Terminal.isIdentifierChar cs = true) :
    Reads room Peg.wordEnd cs (halted .failed) := by
  cases cs with
  | nil => simp [Terminal.startsWith] at h
  | cons c cs => exact .absentPresent (.char h)

end Reads

/-! ## Words -/

theorem literal_obeys (text : String) : Obeys (Terminal.literal text) (Peg.text text) id where
  splits := Terminal.literal_splits text
  found h := by
    simp only [Terminal.literal] at h
    split at h
    · next hstrip =>
      injection h with _ _ hr
      exact hr ▸ .likeness_some hstrip
    · simp at h
  missing h := by
    simp only [Terminal.literal] at h
    split at h
    · simp at h
    · next hstrip => exact .likeness_none hstrip

theorem wordBy_obeys (same : Char → Char → Bool) (word : String) :
    Obeys (Terminal.wordBy same word)
      (Peg.followedBy (Peg.likeness same word.toList) Peg.wordEnd) fun _ => () where
  splits := Terminal.wordBy_splits same word
  found h := by
    simp only [Terminal.wordBy] at h
    split at h
    · next hstrip =>
      split at h
      · simp at h
      · next hend =>
        injection h with _ _ hr
        subst hr
        exact .seq (.likeness_some hstrip) (.wordEnd (by simpa using hend))
    · simp at h
  missing h := by
    simp only [Terminal.wordBy] at h
    split at h
    · next hstrip =>
      split at h
      · next hend => exact .seqRight (.likeness_some hstrip) (.wordEnd_failed hend)
      · simp at h
    · next hstrip => exact .seqLeft (.likeness_none hstrip)

theorem exactWord_obeys (word : String) :
    Obeys (Terminal.exactWord word) (Peg.exactWord word) fun _ => () :=
  wordBy_obeys (· == ·) word

theorem keyword_obeys (word : String) :
    Obeys (Terminal.keyword word) (Peg.keyword word) fun _ => () :=
  wordBy_obeys Terminal.sameLetter word

/-! ## Gaps -/

/-- What is split off agrees with the pattern as far as the likeness goes. -/
theorem stripBy_map {same : Char → Char → Bool} (f : Char → Char)
    (hsame : ∀ {p c : Char}, same p c = true → f p = f c) {ps cs lexeme rest : List Char}
    (h : Terminal.stripBy same ps cs = some (lexeme, rest)) : lexeme.map f = ps.map f := by
  induction ps generalizing cs lexeme with
  | nil => simp_all [Terminal.stripBy]
  | cons p ps ih =>
    cases cs with
    | nil => simp [Terminal.stripBy] at h
    | cons c cs =>
      simp only [Terminal.stripBy] at h
      split at h
      · next hc =>
        obtain ⟨⟨l, r⟩, hstrip, heq⟩ := Option.map_eq_some_iff.1 h
        simp only [Prod.mk.injEq] at heq
        obtain ⟨rfl, rfl⟩ := heq
        rw [List.map_cons, List.map_cons, ih hstrip, hsame hc]
      · simp at h

theorem stripBy_exact {ps cs lexeme rest : List Char}
    (h : Terminal.stripBy (· == ·) ps cs = some (lexeme, rest)) : ps ++ rest = cs := by
  have hlexeme : lexeme = ps := by simpa using stripBy_map id eq_of_beq h
  exact hlexeme ▸ Terminal.stripBy_append h

/-- In a comment nothing counts before the line breaks. -/
theorem splitGap_true_rest (cs : List Char) :
    (Terminal.splitGap true cs).2 =
      (Terminal.splitGap false (cs.dropWhile (!Terminal.isBreak ·))).2 := by
  induction cs with
  | nil => rfl
  | cons c cs ih =>
    by_cases hc : Terminal.isBreak c = true
    · have hopens : Terminal.opensComment (c :: cs) = false := by
        simp only [Terminal.isBreak, Bool.or_eq_true, beq_iff_eq] at hc
        rcases hc with rfl | rfl <;> rfl
      simp [Terminal.splitGap, hc, hopens]
    · simp [Terminal.splitGap, hc, ih]

namespace Reads

variable {room : Room} {c : Char} {cs : List Char}

theorem comment_failed (h : Terminal.opensComment cs = false) :
    Reads room Peg.comment cs (halted .failed) := by
  have hnone : ∀ t : String, (∀ rest, Terminal.opensComment (t.toList ++ rest) = true) →
      Terminal.stripBy (· == ·) t.toList cs = none := by
    intro t ht
    by_contra hsome
    obtain ⟨⟨lexeme, rest⟩, hstrip⟩ := Option.ne_none_iff_exists'.mp hsome
    rw [← stripBy_exact hstrip, ht rest] at h
    simp at h
  exact .seqLeft (.choiceRight (.likeness_none (hnone "--" fun _ => rfl))
    (.likeness_none (hnone "//" fun _ => rfl)))

theorem comment (h : Terminal.opensComment cs = true) :
    ∃ d rest, cs = d :: d :: rest ∧ Terminal.isBreak d = false ∧
      Reads room Peg.comment cs (matched () (rest.dropWhile (!Terminal.isBreak ·))) := by
  unfold Terminal.opensComment at h
  split at h
  · next rest =>
    have hdashes : Terminal.stripBy (· == ·) "--".toList ('-' :: '-' :: rest) =
      some (['-', '-'], rest) := by simp [Terminal.stripBy]
    exact ⟨'-', rest, rfl, rfl,
      .seq (.choiceLeft (.likeness_some hdashes)) (.starChars _ _ _)⟩
  · next rest =>
    have hdashes : Terminal.stripBy (· == ·) "--".toList ('/' :: '/' :: rest) = none := by
      simp [Terminal.stripBy]
    have hslashes : Terminal.stripBy (· == ·) "//".toList ('/' :: '/' :: rest) =
      some (['/', '/'], rest) := by simp [Terminal.stripBy]
    exact ⟨'/', rest, rfl, rfl,
      .seq (.choiceRight (.likeness_none hdashes) (.likeness_some hslashes)) (.starChars _ _ _)⟩
  · simp at h

/-- A gap is empty, or begins with a blank or a comment. -/
theorem gapStep (room : Room) (cs : List Char) :
    (Terminal.splitGap false cs = ([], cs) ∧
      Reads room (.choice Peg.blank Peg.comment) cs (halted .failed)) ∨
    ∃ mid, (Terminal.splitGap false cs).1 ≠ [] ∧
      (Terminal.splitGap false cs).2 = (Terminal.splitGap false mid).2 ∧
      mid.length < cs.length ∧
      Reads room (.choice Peg.blank Peg.comment) cs (matched () mid) := by
  cases cs with
  | nil => exact Or.inl ⟨rfl, .choiceRight (.charEnd _ _ _) (comment_failed rfl)⟩
  | cons c cs =>
    by_cases hopens : Terminal.opensComment (c :: cs) = true
    · obtain ⟨d, rest, heq, hd, hcomment⟩ := @comment room (c :: cs) hopens
      injection heq with hc hcs
      subst hc hcs
      have hblank : Terminal.isBlankChar c = false := by
        simp only [Terminal.opensComment] at hopens
        split at hopens <;> simp_all [Terminal.isBlankChar, Terminal.isBreak]
      have hle := (List.dropWhile_suffix (l := rest) (!Terminal.isBreak ·)).length_le
      refine Or.inr ⟨rest.dropWhile (!Terminal.isBreak ·), ?_, ?_, ?_,
        .choiceRight (.charOther hblank) hcomment⟩
      · simp [Terminal.splitGap, hopens]
      · simp [Terminal.splitGap, hopens, hd, splitGap_true_rest]
      · simp only [List.length_cons]
        omega
    · by_cases hblank : Terminal.isBlankChar c = true
      · refine Or.inr ⟨cs, ?_, ?_, ?_, .choiceLeft (.char hblank)⟩
        · simp [Terminal.splitGap, hopens, hblank]
        · simp [Terminal.splitGap, hopens, hblank]
        · simp
      · refine Or.inl ⟨?_, .choiceRight (.charOther (by simpa using hblank))
          (comment_failed (by simpa using hopens))⟩
        simp [Terminal.splitGap, hopens, hblank]

/-- The longest run of blanks and comments. -/
theorem gap (cs : List Char) :
    Reads room Peg.gap cs (matched () (Terminal.splitGap false cs).2) := by
  induction hn : cs.length using Nat.strong_induction_on generalizing cs with
  | h n ih =>
    rcases gapStep room cs with ⟨hsplit, hfailed⟩ | ⟨mid, -, hsplit, hshort, hstep⟩
    · rw [hsplit]
      exact .starEnd hfailed
    · rw [hsplit]
      exact .starMore hstep (ih mid.length (by omega) mid rfl)

end Reads

theorem gap_obeys : Obeys Terminal.gap Peg.gap id where
  splits := Terminal.gap_splits
  found {_ cs _ _ _} h := by
    simp only [Terminal.gap, Reading.found.injEq] at h
    obtain ⟨-, -, rfl⟩ := h
    exact .gap cs
  missing h := by simp [Terminal.gap] at h

theorem someGap_obeys : Obeys Terminal.someGap Peg.someGap id where
  splits := Terminal.someGap_splits
  found {room cs _ _ _} h := by
    simp only [Terminal.someGap] at h
    rcases Reads.gapStep room cs with ⟨hsplit, -⟩ | ⟨mid, -, hsplit, -, hstep⟩
    · simp [hsplit] at h
    · split at h
      · simp at h
      · next heq =>
        injection h with _ _ hr
        subst hr
        rw [heq] at hsplit
        dsimp only at hsplit
        rw [hsplit]
        exact .seq hstep (.gap mid)
  missing {room cs _} h := by
    simp only [Terminal.someGap] at h
    rcases Reads.gapStep room cs with ⟨-, hfailed⟩ | ⟨mid, hnonempty, -⟩
    · exact .seqLeft hfailed
    · split at h
      · next heq => simp [heq] at hnonempty
      · simp at h

theorem endOfText_obeys : Obeys Terminal.endOfText Peg.endOfText id where
  splits := Terminal.endOfText_splits
  found {_ cs _ _ _} h := by
    cases cs with
    | nil =>
      injection h with _ _ hr
      exact hr ▸ .absent (.charEnd _ _ _)
    | cons c cs => simp [Terminal.endOfText] at h
  missing {_ cs _} h := by
    cases cs with
    | nil => simp [Terminal.endOfText] at h
    | cons c cs => exact .absentPresent (.char rfl)

/-! ## Terminals made of terminals -/

theorem Obeys.map {α β γ : Type} {t : Terminal α} {p : Peg β} {f : α → β} (h : Obeys t p f)
    (g : α → γ) (f' : γ → β) (hg : ∀ a, f' (g a) = f a) : Obeys (t.map g) p f' where
  splits := Terminal.map_splits g h.splits
  found ht := by
    simp only [Terminal.map] at ht
    split at ht
    · next hfound =>
      injection ht with ha _ hr
      subst ha hr
      rw [hg]
      exact h.found hfound
    · simp at ht
  missing ht := by
    simp only [Terminal.map] at ht
    split at ht
    · simp at ht
    · next hmissing => exact h.missing hmissing

theorem Obeys.mapped {α β γ : Type} {t : Terminal α} {p : Peg β} {f : α → β} (ht : Obeys t p f)
    (g : β → γ) : Obeys t (p.map g) fun a => g (f a) :=
  ⟨ht.splits, fun h => (ht.found h).map g, fun h => .seqLeft (ht.missing h)⟩

theorem Obeys.before {α β : Type} {t : Terminal α} {u : α → Terminal β} {p q : Peg Unit}
    (ht : Obeys t p fun _ => ()) (hu : ∀ a, Obeys (u a) q fun _ => ()) :
    Obeys (t.followedBy u) (p.before q) fun _ => () where
  splits := Terminal.followedBy_splits ht.splits fun a => (hu a).splits
  found h := by
    simp only [Terminal.followedBy] at h
    split at h
    · simp at h
    · next hfirst =>
      split at h
      · simp at h
      · next hsecond =>
        injection h with _ _ hr
        subst hr
        exact .seq (ht.found hfirst) ((hu _).found hsecond)
  missing h := by
    simp only [Terminal.followedBy] at h
    split at h
    · next hfirst => exact .seqLeft (ht.missing hfirst)
    · next hfirst =>
      split at h
      · next hsecond => exact .seqRight (ht.found hfirst) ((hu _).missing hsecond)
      · simp at h

theorem phrase_obeys (words : List String) :
    Obeys (Terminal.phrase words) (Peg.phrase words) fun _ => () := by
  fun_induction Terminal.phrase words with
  | case1 =>
    refine ⟨Terminal.phrase_splits [], ?_, ?_⟩
    · intro _ _ _ _ _ h
      injection h with _ _ hr
      exact hr ▸ .pure _ _ _
    · intro _ _ _ h
      simp at h
  | case2 word => exact keyword_obeys word
  | case3 word words hwords ih =>
    have hphrase : Peg.phrase (word :: words) =
        (Peg.keyword word).before (Peg.someGap.before (Peg.phrase words)) := by
      cases words with
      | nil => simp at hwords
      | cons => rfl
    rw [hphrase]
    refine (keyword_obeys word).before fun first => ?_
    exact someGap_obeys.before fun _ => ih.map _ _ fun _ => rfl

/-! ## Names, strings and numbers -/

theorem name_obeys : Obeys Terminal.identifier Peg.name id where
  splits := Terminal.identifier_splits
  found {_ cs _ _ _} h := by
    unfold Terminal.identifier at h
    split at h
    · simp at h
    · split at h
      · next hletter =>
        dsimp only at h
        split at h
        · simp at h
        · next hnot =>
          injection h with ha _ hr
          subst ha hr
          refine .map String.ofList (.guard (.seq (.char hletter) (.starChars _ _ _)) ?_)
          exact (Bool.not_eq_true' _).mpr (beq_eq_false_iff_ne.mpr hnot)
      · simp at h
  missing {_ cs _} h := by
    unfold Terminal.identifier at h
    split at h
    · exact .seqLeft (.guardHalt (.seqLeft (.charEnd _ _ _)))
    · split at h
      · next hletter =>
        dsimp only at h
        split at h
        · next hnot =>
          refine .seqLeft (.guardOther (.seq (.char hletter) (.starChars _ _ _)) ?_)
          exact (Bool.not_eq_false' _).mpr (beq_iff_eq.mpr hnot)
        · simp at h
      · next hletter =>
        exact .seqLeft (.guardHalt (.seqLeft (.charOther (by simpa using hletter))))

namespace Reads

variable {room : Room} {c q : Char} {cs rest : List Char}

theorem quotedBy_other (h : (c == q) = false) :
    Reads room (Peg.quotedBy q) (c :: cs) (halted .failed) := .seqLeft (.charOther h)

theorem quotedBy_open (h : cs.dropWhile (· != q) = []) :
    Reads room (Peg.quotedBy q) (q :: cs) (halted .failed) := by
  refine .seqRight (.char (by simp)) (.seqRight (.map String.ofList (.starChars id _ _)) ?_)
  rw [h]
  exact .charEnd _ _ _

theorem quotedBy_closed (h : cs.dropWhile (· != q) = c :: rest) :
    Reads room (Peg.quotedBy q) (q :: cs)
      (matched (String.ofList (cs.takeWhile (· != q))) rest) := by
  have hclose : (c == q) = true := by
    have hstop := List.head?_dropWhile_not (· != q) cs
    rw [h] at hstop
    simpa using hstop
  refine .seq (.char (by simp)) (.seq (b := c) (.map String.ofList (.starChars id _ _)) ?_)
  rw [h]
  exact .char hclose

end Reads

theorem quoted_obeys : Obeys Terminal.quoted Peg.quoted id where
  splits := Terminal.quoted_splits
  found {room cs _ _ _} h := by
    unfold Terminal.quoted at h
    split at h
    · simp at h
    · next q cs =>
      split at h
      · next hq =>
        split at h
        · simp at h
        · next close others hdrop =>
          injection h with ha _ hr
          subst ha hr
          have hclosed : Reads room (Peg.quotedBy q) (q :: cs) _ := .quotedBy_closed hdrop
          simp only [Bool.or_eq_true, beq_iff_eq] at hq
          rcases hq with rfl | rfl
          · exact .choiceLeft hclosed
          · exact .choiceRight (.quotedBy_other rfl) hclosed
      · simp at h
  missing {room cs _} h := by
    unfold Terminal.quoted at h
    split at h
    · exact .choiceRight (.seqLeft (.charEnd _ _ _)) (.seqLeft (.charEnd _ _ _))
    · next q cs =>
      split at h
      · next hq =>
        split at h
        · next hdrop =>
          have hopen : Reads room (Peg.quotedBy q) (q :: cs) _ := .quotedBy_open hdrop
          simp only [Bool.or_eq_true, beq_iff_eq] at hq
          rcases hq with rfl | rfl
          · exact .choiceRight hopen (.quotedBy_other rfl)
          · exact .choiceRight (.quotedBy_other rfl) hopen
        · simp at h
      · next hq =>
        simp only [Bool.or_eq_true, not_or, Bool.not_eq_true] at hq
        exact .choiceRight (.quotedBy_other hq.1) (.quotedBy_other hq.2)

/-- The literal that a number stands for. -/
def numeralLiteral : Terminal.Numeral → Literal
  | .integer text => .integer (String.ofList text)
  | .decimal text => .decimal (String.ofList text)

namespace Reads

variable {room : Room} {cs rest : List Char}

theorem sign (cs : List Char) :
    Reads room Peg.sign cs (matched (Terminal.splitSign cs).1 (Terminal.splitSign cs).2) := by
  unfold Terminal.splitSign
  split
  · exact .map Option.toList (.optionalSome (.char rfl))
  · next hsign =>
    refine .map Option.toList (.optionalNone ?_)
    cases cs with
    | nil => exact .charEnd _ _ _
    | cons c cs =>
      refine .charOther (beq_eq_false_iff_ne.mpr ?_)
      rintro rfl
      exact hsign cs rfl

theorem whole {text : List Char} (h : Terminal.splitWhole cs = some (text, rest)) :
    Reads room Peg.whole cs (matched text rest) := by
  unfold Terminal.splitWhole at h
  split at h
  · simp at h
  · split at h
    · next hzero =>
      simp only [Option.some.injEq, Prod.mk.injEq] at h
      obtain ⟨rfl, rfl⟩ := h
      rw [eq_of_beq hzero]
      exact .choiceLeft (.map _ (.char rfl))
    · next hzero =>
      split at h
      · next hdigit =>
        simp only [Terminal.splitDigits, hdigit, List.takeWhile_cons_of_pos,
          List.dropWhile_cons_of_pos, Option.some.injEq, Prod.mk.injEq] at h
        obtain ⟨rfl, rfl⟩ := h
        exact .choiceRight (.seqLeft (.charOther (by simpa using hzero)))
          (.seq (.char hdigit) (.starChars id _ _))
      · simp at h

theorem whole_failed (h : Terminal.splitWhole cs = none) :
    Reads room Peg.whole cs (halted .failed) := by
  unfold Terminal.splitWhole at h
  split at h
  · exact .choiceRight (.seqLeft (.charEnd _ _ _)) (.seqLeft (.charEnd _ _ _))
  · split at h
    · simp at h
    · next hzero =>
      split at h
      · simp at h
      · next hdigit =>
        exact .choiceRight (.seqLeft (.charOther (by simpa using hzero)))
          (.seqLeft (.charOther (by simpa using hdigit)))

theorem fraction {text : List Char} (h : Terminal.splitFraction cs = some (text, rest)) :
    Reads room Peg.fraction cs (matched text rest) := by
  unfold Terminal.splitFraction at h
  split at h
  · next cs =>
    split at h
    · next hdigit =>
      simp only [Terminal.splitDigits, Option.some.injEq, Prod.mk.injEq] at h
      obtain ⟨rfl, rfl⟩ := h
      cases cs with
      | nil => simp [Terminal.startsWith] at hdigit
      | cons d ds =>
        have hd : d.isDigit = true := hdigit
        rw [List.takeWhile_cons_of_pos hd, List.dropWhile_cons_of_pos hd]
        exact .seq (.char rfl) (.seq (.char hd) (.starChars id _ _))
    · simp at h
  · simp at h

theorem fraction_failed (h : Terminal.splitFraction cs = none) :
    Reads room Peg.fraction cs (halted .failed) := by
  unfold Terminal.splitFraction at h
  split at h
  · next cs =>
    split at h
    · simp at h
    · next hdigit =>
      refine .seqRight (.char rfl) (.seqLeft ?_)
      cases cs with
      | nil => exact .charEnd _ _ _
      | cons d ds => exact .charOther (by simpa [Terminal.startsWith] using hdigit)
  · next hpoint =>
    cases cs with
    | nil => exact .seqLeft (.charEnd _ _ _)
    | cons c cs =>
      refine .seqLeft (.charOther (beq_eq_false_iff_ne.mpr ?_))
      rintro rfl
      exact hpoint cs rfl

end Reads

theorem number_obeys : Obeys Terminal.number Peg.number numeralLiteral where
  splits := Terminal.number_splits
  found {_ cs _ _ _} h := by
    simp only [Terminal.number] at h
    split at h
    · simp at h
    · next hwhole =>
      split at h
      · next hfraction =>
        injection h with ha _ hr
        subst ha hr
        rw [numeralLiteral, List.append_assoc]
        exact .seq (.sign cs) (.seq (.whole hwhole) (.optionalSome (.fraction hfraction)))
      · next hfraction =>
        injection h with ha _ hr
        subst ha hr
        exact .seq (.sign cs) (.seq (.whole hwhole) (.optionalNone (.fraction_failed hfraction)))
  missing {_ cs _} h := by
    simp only [Terminal.number] at h
    split at h
    · next hwhole => exact .seqRight (.sign cs) (.seqLeft (.whole_failed hwhole))
    · split at h <;> simp at h

end FilterQuery.Grammar
