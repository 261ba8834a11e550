import FilterQuery.Proofs.SmallLetters
import FilterQuery.Proofs.Spellings
import Mathlib.Data.List.TakeWhile

/-!
The normal form of operator spellings. A folded spelling has no capitals, no spaces at its ends and
single blanks inside, and folding leaves such a text as it is; so the code and the symbol of an
operator stand for the operator. Spellings that differ only in ASCII case and in the width and kind
of their spaces have one folded form.
-/
namespace FilterQuery

open Text

variable {c d : Char} {cs cs' ds ds' ws ws' before before' : List Char} {inRun : Bool}

abbrev AllSpaces (ws : List Char) : Prop := ∀ c ∈ ws, isSpace c = true

/-! ## Trimmed texts -/

/-- Neither end of the text is a space. -/
structure IsTrimmed (cs : List Char) : Prop where
  head : ∀ c ∈ cs.head?, isSpace c = false
  last : ∀ c ∈ cs.getLast?, isSpace c = false

theorem trimStart_of_head (h : ∀ c ∈ cs.head?, isSpace c = false) : trimStart cs = cs := by
  cases cs with
  | nil => rfl
  | cons c cs =>
    have hc : isSpace c = false := h c rfl
    rw [trimStart, List.dropWhile_cons, hc, if_neg Bool.false_ne_true]

theorem head_trimStart (cs : List Char) : ∀ c ∈ (trimStart cs).head?, isSpace c = false := by
  induction cs with
  | nil => simp [trimStart]
  | cons c cs ih =>
    by_cases hc : isSpace c = true
    · simpa [trimStart, hc] using ih
    · simp [trimStart, hc]

theorem trimStart_append (hws : AllSpaces ws) (cs : List Char) :
    trimStart (ws ++ cs) = trimStart cs :=
  List.dropWhile_append_of_pos hws

theorem trimEnd_append (hws : AllSpaces ws) (cs : List Char) : trimEnd (cs ++ ws) = trimEnd cs := by
  have hreverse : AllSpaces ws.reverse := fun c hc => hws c (List.mem_reverse.mp hc)
  rw [trimEnd, List.reverse_append, trimStart_append hreverse, trimEnd]

/-- Spaces around a text are trimmed with those at its ends. -/
theorem trim_append (hws : AllSpaces ws) (hws' : AllSpaces ws') (cs : List Char) :
    trim (ws ++ cs ++ ws') = trim cs := by
  rw [trim, List.append_assoc, trimStart_append hws, trimStart, List.dropWhile_append]
  split
  · next hblank =>
    have hnil : trimStart cs = [] := List.isEmpty_iff.mp hblank
    have hnil' : ws'.dropWhile isSpace = [] := List.dropWhile_eq_nil_iff.mpr hws'
    rw [trim, hnil, hnil']
  · exact trimEnd_append hws' _

theorem IsTrimmed.trim_eq (h : IsTrimmed cs) : trim cs = cs := by
  have hlast : trimStart cs.reverse = cs.reverse := trimStart_of_head (by simpa using h.last)
  rw [trim, trimStart_of_head h.head, trimEnd, hlast, List.reverse_reverse]

theorem isTrimmed_trim (cs : List Char) : IsTrimmed (trim cs) where
  head := by
    obtain ⟨spaces, hspaces⟩ := List.dropWhile_suffix (l := (trimStart cs).reverse) isSpace
    have hsplit : trim cs ++ spaces.reverse = trimStart cs := by
      have hreverse := congrArg List.reverse hspaces
      rwa [List.reverse_append, List.reverse_reverse] at hreverse
    intro c hc
    refine head_trimStart cs c ?_
    rw [← hsplit]
    exact List.mem_head?_append_of_mem_head? hc
  last := by
    have hhead := head_trimStart (trimStart cs).reverse
    simpa [trim, trimEnd] using hhead

/-! ## Folding a folded text -/

theorem squeezeFrom_concat (hc : isSpace c = false) (cs : List Char) :
    squeezeFrom inRun (cs ++ [c]) = squeezeFrom inRun cs ++ [c] := by
  induction cs generalizing inRun with
  | nil => simp [squeezeFrom, hc]
  | cons d ds ih =>
    rw [List.cons_append, squeezeFrom, squeezeFrom, ih, ih]
    split
    · split <;> rfl
    · rfl

theorem squeezeFrom_squeezeFrom (cs : List Char) :
    squeezeFrom inRun (squeezeFrom inRun cs) = squeezeFrom inRun cs := by
  have hblank : isSpace ' ' = true := by decide
  induction cs generalizing inRun with
  | nil => rfl
  | cons c cs ih =>
    by_cases hc : isSpace c = true
    · cases inRun <;> simp [squeezeFrom, hc, hblank, ih]
    · simp [squeezeFrom, hc, ih]

theorem mem_squeezeFrom (h : d ∈ squeezeFrom inRun cs) : d = ' ' ∨ d ∈ cs := by
  induction cs generalizing inRun with
  | nil => cases h
  | cons c cs ih =>
    have hlater : ∀ {inRun}, d ∈ squeezeFrom inRun cs → d = ' ' ∨ d ∈ c :: cs := fun hd =>
      (ih hd).imp_right (List.mem_cons_of_mem c)
    rw [squeezeFrom] at h
    split at h
    · split at h
      · exact hlater h
      · exact (List.mem_cons.mp h).elim Or.inl hlater
    · exact (List.mem_cons.mp h).elim (fun hd => Or.inr (by simp [hd])) hlater

theorem IsTrimmed.squeeze (h : IsTrimmed cs) : IsTrimmed (squeeze cs) where
  head := by
    cases cs with
    | nil => simp [Text.squeeze, squeezeFrom]
    | cons c cs =>
      have hc : isSpace c = false := h.head c rfl
      simp [Text.squeeze, squeezeFrom, hc]
  last := by
    rcases cs.eq_nil_or_concat with rfl | ⟨ds, d, rfl⟩
    · simp [Text.squeeze, squeezeFrom]
    · have hd : isSpace d = false := h.last d (by simp)
      simpa [Text.squeeze, squeezeFrom_concat hd] using hd

theorem lowerFrom_concat (before cs : List Char) (c : Char) :
    ∃ small before', lowerFrom before (cs ++ [c]) = small ++ lowerAt before' c [] := by
  induction cs generalizing before with
  | nil => exact ⟨[], before, by rw [List.nil_append, lowerFrom_cons, lowerFrom]; simp⟩
  | cons d ds ih =>
    obtain ⟨small, before', hsmall⟩ := ih (d :: before)
    refine ⟨lowerAt before d (ds ++ [c]) ++ small, before', ?_⟩
    rw [List.cons_append, lowerFrom_cons, hsmall, List.append_assoc]

theorem IsTrimmed.lowercase (h : IsTrimmed cs) : IsTrimmed (lowercase cs) where
  head := by
    cases cs with
    | nil => simp [Text.lowercase, lowerFrom]
    | cons c cs =>
      rw [Text.lowercase, lowerFrom_cons, List.head?_append_of_ne_nil _ lowerAt_ne_nil]
      intro d hd
      rw [(lowerAt_settled (List.mem_of_head? hd)).2]
      exact h.head c rfl
  last := by
    rcases cs.eq_nil_or_concat with rfl | ⟨ds, c, rfl⟩
    · simp [Text.lowercase, lowerFrom]
    · obtain ⟨small, before, hsmall⟩ := lowerFrom_concat [] ds c
      rw [Text.lowercase, List.concat_eq_append, hsmall,
        List.getLast?_append_of_ne_nil _ lowerAt_ne_nil]
      intro d hd
      rw [(lowerAt_settled (List.mem_of_getLast? hd)).2]
      exact h.last c (by simp)

/-- A text with neither capitals nor spaces too many is its own folded form. -/
theorem Operator.fold_fold (raw : List Char) : fold (fold raw) = fold raw := by
  have htrimmed : IsTrimmed (fold raw) := (isTrimmed_trim raw).lowercase.squeeze
  have hsmall : ∀ c ∈ fold raw, IsSmall c := by
    intro c hc
    rcases mem_squeezeFrom hc with rfl | hc
    · exact isSmall_of_isSpace (by decide)
    · exact isSmall_of_mem_lowerFrom hc
  calc fold (fold raw) = squeeze (lowercase (fold raw)) := by rw [fold, htrimmed.trim_eq]
    _ = squeeze (fold raw) := by rw [lowercase, lowerFrom_of_isSmall hsmall]
    _ = fold raw := squeezeFrom_squeezeFrom _

/-! ## Texts that are spelled alike -/

/-- The texts differ only in ASCII case and in the spaces that each run consists of. -/
inductive Alike : List Char → List Char → Prop where
  | nil : Alike [] []
  | letter {c c' : Char} {cs cs' : List Char} : c.toLower = c'.toLower → Alike cs cs' →
      Alike (c :: cs) (c' :: cs')
  | run {ws ws' cs cs' : List Char} : ws ≠ [] → ws' ≠ [] → AllSpaces ws → AllSpaces ws' →
      Alike cs cs' → Alike (ws ++ cs) (ws' ++ cs')

/-- The texts differ only so and in the spaces around them. -/
inductive Respelled : List Char → List Char → Prop where
  | around {lead trail lead' trail' cs cs' : List Char} : AllSpaces lead → AllSpaces trail →
      AllSpaces lead' → AllSpaces trail' → Alike cs cs' →
      Respelled (lead ++ cs ++ trail) (lead' ++ cs' ++ trail')

theorem isSpace_of_toLower {c' : Char} (h : c.toLower = c'.toLower) : isSpace c = isSpace c' := by
  rw [← (toLower_settled c).2.2.1, h, (toLower_settled c').2.2.1]

theorem meetsCased_toLower (c : Char) (cs : List Char) :
    meetsCased (c.toLower :: cs) = meetsCased (c :: cs) := by
  obtain ⟨hignorable, hcased, -⟩ := toLower_settled c
  rw [meetsCased, meetsCased, hignorable, hcased]

theorem meetsCased_spaces (hws : ws ≠ []) (hall : AllSpaces ws) (cs : List Char) :
    meetsCased (ws ++ cs) = false := by
  obtain ⟨w, ws, rfl⟩ := List.exists_cons_of_ne_nil hws
  exact meetsCased_of_isSpace (hall w (List.mem_cons_self ..)) (ws ++ cs)

theorem lowerFrom_spaces (hws : AllSpaces ws) (before cs : List Char) :
    lowerFrom before (ws ++ cs) = ws ++ lowerFrom (ws.reverse ++ before) cs := by
  induction ws generalizing before with
  | nil => rfl
  | cons w ws ih =>
    obtain ⟨hw, hws⟩ := List.forall_mem_cons.mp hws
    rw [List.cons_append, lowerFrom_cons, lowerAt_of_isSmall (isSmall_of_isSpace hw), ih hws,
      List.reverse_cons, List.append_assoc]
    rfl

/-- A run of spaces leaves one blank, or none where the run has begun before. -/
theorem squeezeFrom_spaces (hne : ws ≠ []) (hws : AllSpaces ws) (cs : List Char) :
    squeezeFrom inRun (ws ++ cs) = (if inRun then [] else [' ']) ++ squeezeFrom true cs := by
  induction ws generalizing inRun with
  | nil => exact absurd rfl hne
  | cons w ws ih =>
    obtain ⟨hw, hws⟩ := List.forall_mem_cons.mp hws
    have hrest : squeezeFrom true (ws ++ cs) = squeezeFrom true cs := by
      by_cases hnil : ws = []
      · rw [hnil, List.nil_append]
      · exact ih hnil hws
    rw [List.cons_append, squeezeFrom, if_pos hw, hrest]
    split <;> rfl

theorem squeezeFrom_append_congr
    (h : ∀ {inRun}, squeezeFrom inRun cs = squeezeFrom inRun cs') (ds : List Char) :
    squeezeFrom inRun (ds ++ cs) = squeezeFrom inRun (ds ++ cs') := by
  induction ds generalizing inRun with
  | nil => exact h
  | cons d ds ih => rw [List.cons_append, List.cons_append, squeezeFrom, squeezeFrom, ih, ih]

namespace Alike

theorem refl (cs : List Char) : Alike cs cs := by
  induction cs with
  | nil => exact .nil
  | cons c cs ih => exact .letter rfl ih

theorem append (h : Alike cs cs') (h' : Alike ds ds') : Alike (cs ++ ds) (cs' ++ ds') := by
  induction h with
  | nil => exact h'
  | letter hc _ ih => exact .letter hc ih
  | run hws hws' hall hall' _ ih =>
    rw [List.append_assoc, List.append_assoc]
    exact .run hws hws' hall hall' ih

theorem reverse (h : Alike cs cs') : Alike cs.reverse cs'.reverse := by
  induction h with
  | nil => exact .nil
  | letter hc _ ih =>
    rw [List.reverse_cons, List.reverse_cons]
    exact ih.append (.letter hc .nil)
  | @run ws ws' _ _ hws hws' hall hall' _ ih =>
    rw [List.reverse_append, List.reverse_append, ← ws.reverse.append_nil,
      ← ws'.reverse.append_nil]
    refine ih.append (.run ?_ ?_ ?_ ?_ .nil)
    · simpa using hws
    · simpa using hws'
    · exact fun c hc => hall c (List.mem_reverse.mp hc)
    · exact fun c hc => hall' c (List.mem_reverse.mp hc)

theorem trimStart (h : Alike cs cs') : Alike (trimStart cs) (trimStart cs') := by
  induction h with
  | nil => exact .nil
  | @letter c c' _ _ hc htail ih =>
    rw [Text.trimStart, Text.trimStart, List.dropWhile_cons, List.dropWhile_cons,
      ← isSpace_of_toLower hc]
    split
    · exact ih
    · exact .letter hc htail
  | run _ _ hall hall' _ ih => rwa [trimStart_append hall, trimStart_append hall']

theorem trim (h : Alike cs cs') : Alike (trim cs) (trim cs') := h.trimStart.reverse.trimStart.reverse

theorem meetsCased_eq (h : Alike cs cs') : meetsCased cs = meetsCased cs' := by
  induction h with
  | nil => rfl
  | @letter c c' _ _ hc _ ih => rw [← meetsCased_toLower, hc, meetsCased_toLower, meetsCased, ih, meetsCased]
  | run hws hws' hall hall' _ ih => rw [meetsCased_spaces hws hall, meetsCased_spaces hws' hall']

/-- Between surroundings that are alike a letter becomes the same, whatever its ASCII case. -/
theorem lowerAt_eq {c' : Char} (h : Alike cs cs') (hc : c.toLower = c'.toLower)
    (hbefore : meetsCased before = meetsCased before') :
    lowerAt before c cs = lowerAt before' c' cs' := by
  rw [← (toLower_settled c).2.2.2, hc, lowerAt, hbefore, h.meetsCased_eq, ← lowerAt,
    (toLower_settled c').2.2.2]

/-- What was passed counts only as far as the next sigma sees it. -/
theorem squeezeFrom_eq (h : Alike cs cs') (hbefore : meetsCased before = meetsCased before') :
    squeezeFrom inRun (lowerFrom before cs) = squeezeFrom inRun (lowerFrom before' cs') := by
  induction h generalizing before before' inRun with
  | nil => rfl
  | @letter c c' _ _ hc htail ih =>
    have hnext : meetsCased (c :: before) = meetsCased (c' :: before') := by
      rw [← meetsCased_toLower, hc, meetsCased_toLower, meetsCased, hbefore, meetsCased]
    rw [lowerFrom_cons, lowerFrom_cons, htail.lowerAt_eq hc hbefore]
    exact squeezeFrom_append_congr (ih hnext) _
  | @run ws ws' _ _ hws hws' hall hall' _ ih =>
    have hreverse : meetsCased (ws.reverse ++ before) = meetsCased (ws'.reverse ++ before') := by
      rw [meetsCased_spaces (by simpa using hws) (fun c hc => hall c (List.mem_reverse.mp hc)),
        meetsCased_spaces (by simpa using hws') (fun c hc => hall' c (List.mem_reverse.mp hc))]
    rw [lowerFrom_spaces hall, lowerFrom_spaces hall', squeezeFrom_spaces hws hall,
      squeezeFrom_spaces hws' hall', ih hreverse]

end Alike

theorem Grammar.Spelling.operator_eq (s : Grammar.Spelling) :
    s.operator = .ofSpelling (String.ofList s.text) := by
  cases s with
  | symbol text => rw [operator, Spelling.text, String.ofList_toList]
  | phrase words => rfl

namespace Operator

theorem fold_respelled (h : Respelled cs cs') : fold cs = fold cs' := by
  obtain ⟨hlead, htrail, hlead', htrail', halike⟩ := h
  rw [fold, fold, trim_append hlead htrail, trim_append hlead' htrail']
  exact halike.trim.squeezeFrom_eq rfl

/-! ## The operator of a spelling -/

theorem spellings_known : ∀ entry ∈ spellings, entry.2 ∈ known := by
  decide +kernel

/-- An operator read from a text is a known one, or it has the folded text for its code. -/
theorem ofFolded_cases (text : String) : ofFolded text ∈ known ∨ ofFolded text = other text := by
  cases hlookup : spellings.lookup text with
  | none => exact Or.inr (by rw [ofFolded, hlookup]; rfl)
  | some op =>
    obtain ⟨entries, entries', hspellings, -⟩ := List.lookup_eq_some_iff.mp hlookup
    have hmem : (text, op) ∈ spellings := by
      rw [hspellings]
      simp
    exact Or.inl (by rw [ofFolded, hlookup]; exact spellings_known _ hmem)

/-- An operator that was read is read again from its code and from its symbol. -/
theorem ofSpelling_spell (raw : String) (style : Style) :
    ofSpelling (String.ofList ((ofSpelling raw).spell style)) = ofSpelling raw := by
  rcases ofFolded_cases (String.ofList (fold raw.toList)) with hknown | hother
  · obtain ⟨-, htext, hoperator⟩ := Grammar.spelling_known hknown style
    rw [← ofSpelling] at htext hoperator
    rw [← htext, ← Grammar.Spelling.operator_eq, hoperator]
  · rw [← ofSpelling] at hother
    have hcode : (ofSpelling raw).spell style = fold raw.toList := by
      rw [hother]
      cases style <;> exact String.toList_ofList
    rw [hcode, ofSpelling, String.toList_ofList, fold_fold, ofSpelling]

/-- The normal form is normal itself; an operator is read again from its code and from its symbol;
and neither ASCII case nor the spaces around a spelling nor those that a run inside it consists of
matter to the normal form. -/
theorem normalize_canonical (raw : String) :
    normalize (normalize raw) = normalize raw ∧
      ofSpelling (ofSpelling raw).code = ofSpelling raw ∧
      ofSpelling (ofSpelling raw).symbol = ofSpelling raw ∧
      ∀ raw' : String, Respelled raw.toList raw'.toList → normalize raw = normalize raw' := by
  have hcode : ofSpelling (ofSpelling raw).code = ofSpelling raw := by
    have hword := ofSpelling_spell raw .word
    rwa [spell, String.ofList_toList] at hword
  have hsymbol : ofSpelling (ofSpelling raw).symbol = ofSpelling raw := by
    have hmark := ofSpelling_spell raw .symbol
    rwa [spell, String.ofList_toList] at hmark
  refine ⟨?_, hcode, hsymbol, fun raw' h => ?_⟩
  · rw [normalize, normalize, hcode]
  · rw [normalize, normalize, ofSpelling, ofSpelling, fold_respelled h]

/-- A capital sigma before a run of spaces closes its word, of whatever spaces the run consists. -/
theorem normalize_canonical_sigma :
    Respelled " ΟΔΟΣ \t TO".toList "ΟΔΟΣ to\n".toList ∧
      normalize " ΟΔΟΣ \t TO" = normalize "ΟΔΟΣ to\n" ∧
      normalize " ΟΔΟΣ \t TO" = "οδος to" := by
  have hto : Alike "TO".toList "to".toList := .letter (by decide) (.letter (by decide) .nil)
  have hbody : Alike ("ΟΔΟΣ".toList ++ (" \t ".toList ++ "TO".toList))
      ("ΟΔΟΣ".toList ++ (" ".toList ++ "to".toList)) :=
    (Alike.refl _).append (.run (by decide) (by decide) (List.all_eq_true.mp (by decide))
      (List.all_eq_true.mp (by decide)) hto)
  have hspelled : Respelled " ΟΔΟΣ \t TO".toList "ΟΔΟΣ to\n".toList :=
    @Respelled.around [' '] [] [] ['\n'] _ _ (List.all_eq_true.mp (by decide))
      (List.all_eq_true.mp rfl) (List.all_eq_true.mp rfl) (List.all_eq_true.mp (by decide)) hbody
  exact ⟨hspelled, (normalize_canonical _).2.2.2 _ hspelled, by decide +kernel⟩

end Operator

end FilterQuery
