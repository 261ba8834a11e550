import FilterQuery.Proofs.Spellings

/-!
Where spellings stand. A symbol stands at the start of a text that begins with it, a phrase where
its words come in any letter case and with any gaps between them. The terminal of a spelling finds
it exactly there.
-/
namespace FilterQuery.Grammar

open Scanner Terminal

variable {c d : Char} {g x cs raw lexeme rest : List Char}

/-! ## Gaps -/

/-- Blanks and comments, each comment with the break that ends its line. -/
inductive IsGap : List Char → Prop where
  | nil : IsGap []
  | blank {c : Char} {g : List Char} : isBlankChar c = true → IsGap g → IsGap (c :: g)
  | comment {d br : Char} {body g : List Char} : d = '-' ∨ d = '/' →
      (∀ c ∈ body, isBreak c = false) → isBreak br = true → IsGap g →
      IsGap (d :: d :: (body ++ br :: g))

theorem isBlankChar_of_isBreak (h : isBreak c = true) : isBlankChar c = true := by
  simp [isBlankChar, h]

theorem isBlankChar_cases (h : isBlankChar c = true) :
    c = ' ' ∨ c = '\t' ∨ c = '\n' ∨ c = '\r' := by
  simpa [isBlankChar, isBreak, or_assoc] using h

theorem not_isIdentifierChar_of_isBlankChar (h : isBlankChar c = true) :
    isIdentifierChar c = false := by
  rcases isBlankChar_cases h with rfl | rfl | rfl | rfl <;> decide

theorem not_opensComment_of_isBlankChar (h : isBlankChar c = true) (cs : List Char) :
    opensComment (c :: cs) = false := by
  rcases isBlankChar_cases h with rfl | rfl | rfl | rfl <;>
    exact opensComment_eq_false (by decide) (by decide) cs

theorem opensComment_cases (h : opensComment (c :: cs) = true) :
    (c = '-' ∨ c = '/') ∧ ∃ tail, cs = c :: tail := by
  unfold opensComment at h
  split at h
  · next heq =>
    cases heq
    exact ⟨Or.inl rfl, _, rfl⟩
  · next heq =>
    cases heq
    exact ⟨Or.inr rfl, _, rfl⟩
  · cases h

theorem opensComment_twice (h : d = '-' ∨ d = '/') (cs : List Char) :
    opensComment (d :: d :: cs) = true := by
  rcases h with rfl | rfl <;> rfl

theorem not_isBreak_of_opener (h : d = '-' ∨ d = '/') : isBreak d = false := by
  rcases h with rfl | rfl <;> decide

/-! How a gap is split off, character by character. -/

theorem splitGap_opener (h : opensComment (c :: cs) = true) :
    splitGap false (c :: cs) = (c :: (splitGap true cs).1, (splitGap true cs).2) := by
  simp [splitGap, h]

theorem splitGap_blank (h : isBlankChar c = true) :
    splitGap false (c :: cs) = (c :: (splitGap false cs).1, (splitGap false cs).2) := by
  simp [splitGap, not_opensComment_of_isBlankChar h, h]

theorem splitGap_stop (hopens : opensComment (c :: cs) = false) (hblank : isBlankChar c = false) :
    splitGap false (c :: cs) = ([], c :: cs) := by
  simp [splitGap, hopens, hblank]

theorem splitGap_inside (h : isBreak c = false) :
    splitGap true (c :: cs) = (c :: (splitGap true cs).1, (splitGap true cs).2) := by
  simp [splitGap, h]

theorem splitGap_break (h : isBreak c = true) :
    splitGap true (c :: cs) = (c :: (splitGap false cs).1, (splitGap false cs).2) := by
  simp [splitGap, h, isBlankChar_of_isBreak h]

/-- A comment goes on to the first break. -/
theorem splitGap_comment {body : List Char} {br : Char} (hbody : ∀ c ∈ body, isBreak c = false)
    (hbr : isBreak br = true) (hcs : splitGap false cs = (g, x)) :
    splitGap true (body ++ br :: cs) = (body ++ br :: g, x) := by
  induction body with
  | nil => rw [List.nil_append, splitGap_break hbr, hcs, List.nil_append]
  | cons c body ih =>
    obtain ⟨hc, hbody⟩ := List.forall_mem_cons.mp hbody
    rw [List.cons_append, splitGap_inside hc, ih hbody, List.cons_append]

namespace IsGap

theorem split (h : IsGap g) (hx : splitGap false x = ([], x)) :
    splitGap false (g ++ x) = (g, x) := by
  induction h with
  | nil => exact hx
  | blank hc _ ih => rw [List.cons_append, splitGap_blank hc, ih]
  | @comment d br body g hd hbody hbr _ ih =>
    have hcomment := splitGap_comment hbody hbr ih
    rw [List.cons_append, List.cons_append, List.append_assoc, List.cons_append,
      splitGap_opener (opensComment_twice hd _), splitGap_inside (not_isBreak_of_opener hd),
      hcomment]

/-- No name goes on in a gap. -/
theorem bounds (h : IsGap g) (hne : g ≠ []) (x : List Char) :
    startsWith isIdentifierChar (g ++ x) = false := by
  cases h with
  | nil => exact absurd rfl hne
  | blank hc _ => exact not_isIdentifierChar_of_isBlankChar hc
  | comment hd _ _ _ => rcases hd with rfl | rfl <;> rfl

end IsGap

/-- What is split off as a gap is one, unless the text ends with it. In a comment the split goes on
behind the next break. -/
theorem isGap_splitGap (cs : List Char) :
    ((splitGap false cs).2 ≠ [] → IsGap (splitGap false cs).1) ∧
      ((splitGap true cs).2 ≠ [] → ∃ body br g, (∀ c ∈ body, isBreak c = false) ∧
        isBreak br = true ∧ IsGap g ∧ (splitGap true cs).1 = body ++ br :: g) := by
  induction cs with
  | nil => exact ⟨fun h => absurd rfl h, fun h => absurd rfl h⟩
  | cons c cs ih =>
    obtain ⟨ihgap, ihcomment⟩ := ih
    constructor
    · intro hrest
      by_cases hopens : opensComment (c :: cs) = true
      · rw [splitGap_opener hopens] at hrest ⊢
        obtain ⟨hc, tail, rfl⟩ := opensComment_cases hopens
        obtain ⟨body, br, g, hbody, hbr, hg, hsplit⟩ := ihcomment hrest
        -- the comment scan begins with the second character of the opener, which is no break
        rw [splitGap_inside (not_isBreak_of_opener hc)] at hsplit ⊢
        cases body with
        | nil =>
          have hfirst : c = br := (List.cons.inj hsplit).1
          rw [← hfirst, not_isBreak_of_opener hc] at hbr
          cases hbr
        | cons d body =>
          obtain ⟨rfl, htail⟩ := List.cons.inj hsplit
          rw [htail]
          exact .comment hc (fun d hd => hbody d (List.mem_cons_of_mem c hd)) hbr hg
      · by_cases hblank : isBlankChar c = true
        · rw [splitGap_blank hblank] at hrest ⊢
          exact .blank hblank (ihgap hrest)
        · rw [splitGap_stop (by simpa using hopens) (by simpa using hblank)]
          exact .nil
    · intro hrest
      by_cases hbreak : isBreak c = true
      · rw [splitGap_break hbreak] at hrest ⊢
        exact ⟨[], c, _, by simp, hbreak, ihgap hrest, rfl⟩
      · have hc : isBreak c = false := by simpa using hbreak
        rw [splitGap_inside hc] at hrest ⊢
        obtain ⟨body, br, g, hbody, hbr, hg, hsplit⟩ := ihcomment hrest
        exact ⟨c :: body, br, g, List.forall_mem_cons.mpr ⟨hc, hbody⟩, hbr, hg,
          congrArg (List.cons c) hsplit⟩

/-! ## Words -/

/-- The words in any ASCII case, with gaps between them that are not empty. -/
inductive Spells : List String → List Char → Prop where
  | last {w : String} {text : List Char} : text.map Char.toLower = w.toList.map Char.toLower →
      Spells [w] text
  | more {w v : String} {ws : List String} {text g others : List Char} :
      text.map Char.toLower = w.toList.map Char.toLower → IsGap g → g ≠ [] →
      Spells (v :: ws) others → Spells (w :: v :: ws) (text ++ (g ++ others))

/-- The spelling stands as `lexeme` before `rest`: a symbol as it is, a phrase in any case and with
any gaps, and not as the beginning of a longer word. -/
def Spelling.Stands : Spelling → List Char → List Char → Prop
  | symbol text, lexeme, _ => lexeme = text.toList
  | phrase words, lexeme, rest => Spells words lexeme ∧ startsWith isIdentifierChar rest = false

theorem stripBy_of_sameLetters {ps : List Char}
    (h : lexeme.map Char.toLower = ps.map Char.toLower) (rest : List Char) :
    stripBy sameLetter ps (lexeme ++ rest) = some (lexeme, rest) := by
  induction ps generalizing lexeme with
  | nil =>
    rw [List.map_eq_nil_iff.mp h]
    rfl
  | cons p ps ih =>
    obtain ⟨c, cs, rfl, hc, hcs⟩ := List.map_eq_cons_iff.mp h
    have hsame : sameLetter p c = true := beq_iff_eq.mpr hc.symm
    rw [List.cons_append, stripBy, if_pos hsame, ih hcs, Option.map_some]

theorem literal_found_iff {text : String} {u : Unit} :
    Terminal.literal text cs = .found u lexeme rest ↔
      lexeme ++ rest = cs ∧ lexeme = text.toList := by
  constructor
  · intro h
    have hsplits := literal_splits text _ _ _ _ h
    simp only [Terminal.literal] at h
    split at h
    · next hstrip =>
      cases h
      exact ⟨hsplits, by simpa using stripBy_map id eq_of_beq hstrip⟩
    · cases h
  · rintro ⟨rfl, rfl⟩
    simp [Terminal.literal, stripBy_self]

theorem keyword_found_iff {w : String} : keyword w cs = .found raw lexeme rest ↔
    raw = lexeme ∧ lexeme ++ rest = cs ∧
      lexeme.map Char.toLower = w.toList.map Char.toLower ∧
      startsWith isIdentifierChar rest = false := by
  constructor
  · intro h
    have hsplits := wordBy_splits sameLetter w _ _ _ _ h
    simp only [keyword, wordBy] at h
    split at h
    · next hstrip =>
      split at h
      · cases h
      · next hend =>
        cases h
        exact ⟨rfl, hsplits, stripBy_map Char.toLower eq_of_beq hstrip, by simpa using hend⟩
    · cases h
  · rintro ⟨rfl, rfl, hletters, hend⟩
    simp [keyword, wordBy, stripBy_of_sameLetters hletters, hend]

theorem followedBy_found_iff {α β : Type} {p : Terminal α} {q : α → Terminal β} {b : β} :
    p.followedBy q cs = .found b lexeme rest ↔ ∃ a first mid last, p cs = .found a first mid ∧
      q a mid = .found b last rest ∧ lexeme = first ++ last := by
  simp only [followedBy]
  constructor
  · intro h
    split at h
    · cases h
    · next a first mid hp =>
      split at h
      · cases h
      · next hq =>
        cases h
        exact ⟨a, first, mid, _, hp, hq, rfl⟩
  · rintro ⟨a, first, mid, last, hp, hq, rfl⟩
    simp [hp, hq]

theorem map_found_iff {α β : Type} {t : Terminal α} {f : α → β} {b : β} :
    t.map f cs = .found b lexeme rest ↔ ∃ a, t cs = .found a lexeme rest ∧ f a = b := by
  simp only [Terminal.map]
  cases t cs with
  | found a lexeme rest =>
    constructor
    · intro h
      cases h
      exact ⟨a, rfl, rfl⟩
    · rintro ⟨_, h, rfl⟩
      cases h
      rfl
  | missing passed => simp

theorem someGap_found_iff {u : Unit} :
    someGap cs = .found u lexeme rest ↔ splitGap false cs = (lexeme, rest) ∧ lexeme ≠ [] := by
  cases hsplit : splitGap false cs with
  | mk g tail =>
    cases g with
    | nil =>
      simp only [someGap, hsplit, Prod.mk.injEq]
      constructor
      · intro h
        cases h
      · rintro ⟨⟨hnil, -⟩, hne⟩
        exact absurd hnil.symm hne
    | cons c g =>
      simp only [someGap, hsplit, Prod.mk.injEq]
      constructor
      · intro h
        cases h
        exact ⟨⟨rfl, rfl⟩, List.cons_ne_nil c g⟩
      · rintro ⟨⟨rfl, rfl⟩, -⟩
        rfl

section

open Spelling

variable {w v : String} {ws vs : List String}

theorem isIdentifierChar_of_sameLetters (hw : isWord w = true)
    (h : lexeme.map Char.toLower = w.toList.map Char.toLower) :
    ∀ c ∈ lexeme, isIdentifierChar c = true := by
  intro c hc
  obtain ⟨d, hd, hcase⟩ := List.mem_map.mp (h ▸ List.mem_map_of_mem (f := Char.toLower) hc)
  rw [← isIdentifierChar_toLower, ← hcase, isIdentifierChar_toLower]
  simp only [isWord, Bool.and_eq_true, List.all_eq_true] at hw
  exact hw.2 d hd

theorem ne_nil_of_sameLetters (hw : isWord w = true)
    (h : lexeme.map Char.toLower = w.toList.map Char.toLower) : lexeme ≠ [] := by
  rintro rfl
  have hnil : w.toList = [] := List.map_eq_nil_iff.mp h.symm
  simp [isWord, hnil] at hw

theorem Spells.head (h : Spells (w :: ws) lexeme) (hw : isWord w = true) :
    ∃ c cs, lexeme = c :: cs ∧ isIdentifierChar c = true := by
  obtain ⟨text, others, rfl, hletters⟩ : ∃ text others, lexeme = text ++ others ∧
      text.map Char.toLower = w.toList.map Char.toLower := by
    cases h with
    | last hletters => exact ⟨_, [], (List.append_nil _).symm, hletters⟩
    | more hletters _ _ _ => exact ⟨_, _, rfl, hletters⟩
  obtain ⟨c, cs, rfl⟩ := List.exists_cons_of_ne_nil (ne_nil_of_sameLetters hw hletters)
  exact ⟨c, cs ++ others, rfl, isIdentifierChar_of_sameLetters hw hletters c (by simp)⟩

theorem splitGap_identifierChar (hc : isIdentifierChar c = true) (cs : List Char) :
    splitGap false (c :: cs) = ([], c :: cs) := by
  refine splitGap_solid ?_ ?_ ?_ cs
  · apply Bool.eq_false_iff.mpr
    intro hblank
    simp [not_isIdentifierChar_of_isBlankChar hblank] at hc
  · rintro rfl
    exact absurd hc (by decide)
  · rintro rfl
    exact absurd hc (by decide)

theorem phrase_cons_found_iff : Terminal.phrase (w :: v :: ws) cs = .found raw lexeme rest ↔
    ∃ text mid g tail others last, keyword w cs = .found text text mid ∧
      splitGap false mid = (g, tail) ∧ g ≠ [] ∧
        Terminal.phrase (v :: ws) tail = .found others last rest ∧
          raw = text ++ ' ' :: others ∧ lexeme = text ++ (g ++ last) := by
  have hphrase : Terminal.phrase (w :: v :: ws) = (keyword w).followedBy fun first =>
      someGap.followedBy fun _ =>
        (Terminal.phrase (v :: ws)).map fun others => first ++ ' ' :: others := rfl
  simp only [hphrase, followedBy_found_iff, map_found_iff, someGap_found_iff]
  constructor
  · rintro ⟨a, text, mid, _, hword, ⟨-, g, tail, last, ⟨hgap, hne⟩, ⟨others, hothers, rfl⟩, rfl⟩, rfl⟩
    obtain ⟨rfl, -⟩ := keyword_found_iff.mp hword
    exact ⟨a, mid, g, tail, others, last, hword, hgap, hne, hothers, rfl, rfl⟩
  · rintro ⟨text, mid, g, tail, others, last, hword, hgap, hne, hothers, rfl, rfl⟩
    exact ⟨text, text, mid, _, hword, ⟨(), g, tail, last, ⟨hgap, hne⟩, ⟨others, hothers, rfl⟩, rfl⟩,
      rfl⟩

theorem keyword_of_phrase_found (h : Terminal.phrase (w :: ws) cs = .found raw lexeme rest) :
    ∃ raw lexeme rest, keyword w cs = .found raw lexeme rest := by
  cases ws with
  | nil => exact ⟨raw, lexeme, rest, h⟩
  | cons v ws =>
    obtain ⟨text, mid, -, -, -, -, hword, -⟩ := phrase_cons_found_iff.mp h
    exact ⟨text, text, mid, hword⟩

/-- The terminal of a phrase finds it where it stands and nowhere else. -/
theorem phrase_found_iff (hws : ∀ u ∈ w :: ws, isWord u = true) :
    (∃ raw, Terminal.phrase (w :: ws) cs = .found raw lexeme rest) ↔
      lexeme ++ rest = cs ∧ Spells (w :: ws) lexeme ∧
        startsWith isIdentifierChar rest = false := by
  induction ws generalizing w cs lexeme with
  | nil =>
    have hphrase : Terminal.phrase [w] = keyword w := rfl
    simp only [hphrase, keyword_found_iff]
    constructor
    · rintro ⟨raw, -, hsplit, hletters, hend⟩
      exact ⟨hsplit, .last hletters, hend⟩
    · rintro ⟨hsplit, hspells, hend⟩
      cases hspells with
      | last hletters => exact ⟨lexeme, rfl, hsplit, hletters, hend⟩
  | cons v ws ih =>
    obtain ⟨hw, hws⟩ := List.forall_mem_cons.mp hws
    have hv : isWord v = true := hws v (List.mem_cons_self ..)
    constructor
    · rintro ⟨raw, h⟩
      obtain ⟨text, mid, g, tail, b, others, hword, hgap, hne, hothers, -, rfl⟩ :=
        phrase_cons_found_iff.mp h
      obtain ⟨-, rfl, hletters, -⟩ := keyword_found_iff.mp hword
      obtain ⟨rfl, hspells, hend⟩ := (ih hws).mp ⟨b, hothers⟩
      have hmid : g ++ (others ++ rest) = mid := by
        have happend := splitGap_append false mid
        rwa [hgap] at happend
      have hg : IsGap g := by
        obtain ⟨c, cs, hcs, -⟩ := hspells.head hv
        have hisgap := (isGap_splitGap mid).1
        rw [hgap] at hisgap
        exact hisgap (by simp [hcs])
      refine ⟨?_, .more hletters hg hne hspells, hend⟩
      rw [List.append_assoc, List.append_assoc, hmid]
    · rintro ⟨rfl, hspells, hend⟩
      cases hspells with
      | @more _ _ _ text g others hletters hg hne hothers =>
        obtain ⟨b, hb⟩ := (ih hws).mpr ⟨rfl, hothers, hend⟩
        obtain ⟨c, cs, rfl, hc⟩ := hothers.head hv
        have hgap : splitGap false (g ++ ((c :: cs) ++ rest)) = (g, (c :: cs) ++ rest) :=
          hg.split (splitGap_identifierChar hc _)
        have hword : keyword w (text ++ (g ++ (c :: cs)) ++ rest) =
            .found text text (g ++ ((c :: cs) ++ rest)) :=
          keyword_found_iff.mpr ⟨rfl, by simp, hletters, hg.bounds hne _⟩
        exact ⟨_, phrase_cons_found_iff.mpr ⟨text, _, g, _, b, c :: cs, hword, hgap, hne, hb, rfl,
          rfl⟩⟩

end

/-! ## Spellings -/

namespace Spelling

variable {s : Spelling}

/-- A spelling is found where it stands and nowhere else. -/
theorem found_iff (hs : s.isRegular = true) : (∃ raw, s.terminal cs = .found raw lexeme rest) ↔
    lexeme ++ rest = cs ∧ s.Stands lexeme rest := by
  match s, hs with
  | symbol text, _ =>
    have hterminal : (symbol text).terminal = (Terminal.literal text).map fun _ => text.toList := rfl
    simp only [hterminal, map_found_iff, literal_found_iff]
    exact ⟨fun ⟨_, _, h, _⟩ => h, fun h => ⟨_, (), h, rfl⟩⟩
  | phrase (w :: ws), hs => exact phrase_found_iff (by simp_all [isRegular])

end Spelling

end FilterQuery.Grammar
