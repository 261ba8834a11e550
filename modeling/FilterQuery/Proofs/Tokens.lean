import FilterQuery.Node.Render
import FilterQuery.Proofs.Numerals
import FilterQuery.Proofs.Soundness

/-!
Canonical leaves are read back. Names, numbers, strings and arrays are read in full and no further,
provided that what comes next can end a token.
-/
namespace FilterQuery.Grammar

open Number Scanner Result

/-- The characters that come after tokens in canonical text. -/
def enders : List Char := [' ', ')', ',', ']']

/-- The text can come after a token. -/
def EndsToken (tail : List Char) : Prop := ∀ c ∈ tail.head?, c ∈ enders

variable {room : Room} {cs rest tail : List Char}

theorem EndsToken.startsWith (h : EndsToken tail) (ok : Char → Bool)
    (hok : enders.all (!ok ·) = true) : Terminal.startsWith ok tail = false := by
  cases tail with
  | nil => rfl
  | cons c cs =>
    have hc := List.all_eq_true.mp hok c (h c rfl)
    simpa [Terminal.startsWith] using hc

theorem EndsToken.not_identifierChar (h : EndsToken tail) :
    Terminal.startsWith Terminal.isIdentifierChar tail = false := h.startsWith _ (by decide)

theorem endsToken_cons {c : Char} (hc : c ∈ enders) : EndsToken (c :: cs) := by
  rintro d ⟨⟩
  exact hc

/-! ## Runs of characters -/

theorem takeWhile_none {ok : Char → Bool} (hrest : Terminal.startsWith ok rest = false) :
    rest.takeWhile ok = [] ∧ rest.dropWhile ok = rest := by
  cases rest with
  | nil => exact ⟨rfl, rfl⟩
  | cons c cs =>
    have hc : ¬ ok c = true := by simpa [Terminal.startsWith] using hrest
    exact ⟨List.takeWhile_cons_of_neg hc, List.dropWhile_cons_of_neg hc⟩

theorem takeWhile_run {ok : Char → Bool} (hcs : ∀ c ∈ cs, ok c = true)
    (hrest : Terminal.startsWith ok rest = false) :
    (cs ++ rest).takeWhile ok = cs ∧ (cs ++ rest).dropWhile ok = rest := by
  obtain ⟨htake, hdrop⟩ := takeWhile_none hrest
  rw [List.takeWhile_append_of_pos hcs, List.dropWhile_append_of_pos hcs, htake, hdrop,
    List.append_nil]
  exact ⟨rfl, rfl⟩

theorem Reads.starRun {β : Type} (f : List Char → β) {ok : Char → Bool}
    (hcs : ∀ c ∈ cs, ok c = true) (hrest : Terminal.startsWith ok rest = false) :
    Reads room (.star f (Peg.oneChar ok)) (cs ++ rest) (matched (f cs) rest) := by
  obtain ⟨htake, hdrop⟩ := takeWhile_run hcs hrest
  have hstar : Reads room _ _ _ := .starChars f ok (cs ++ rest)
  rwa [htake, hdrop] at hstar

/-! ## Words -/

theorem isIdentifierChar_toLower (c : Char) :
    Terminal.isIdentifierChar c.toLower = Terminal.isIdentifierChar c := by
  cases hc : isAscii c with
  | false => rw [toLower_of_not_isAscii hc]
  | true =>
    obtain ⟨n, hn, rfl⟩ := eq_ofNat_of_isAscii hc
    have hall : ∀ n < 128, Terminal.isIdentifierChar (Char.ofNat n).toLower =
        Terminal.isIdentifierChar (Char.ofNat n) := by
      decide
    exact hall n hn

/-- A word is found only where the run of characters of a name is like it. -/
theorem Reads.wordBy_failed {same : Char → Char → Bool} (f : Char → Char)
    (hsame : ∀ {p c : Char}, same p c = true → f p = f c)
    (hf : ∀ c, Terminal.isIdentifierChar (f c) = Terminal.isIdentifierChar c) {word : String}
    (hword : word.toList.all Terminal.isIdentifierChar = true)
    (hne : (cs.takeWhile Terminal.isIdentifierChar).map f ≠ word.toList.map f) :
    Reads room (Peg.followedBy (Peg.likeness same word.toList) Peg.wordEnd) cs
      (halted .failed) := by
  cases hread : Terminal.wordBy same word cs with
  | missing passed => exact (wordBy_obeys same word).missing hread
  | found a lexeme rest =>
    simp only [Terminal.wordBy] at hread
    split at hread
    · next l r hstrip =>
      split at hread
      · simp at hread
      · next hend =>
        have halike := stripBy_map f hsame hstrip
        have hl : ∀ c ∈ l, Terminal.isIdentifierChar c = true := by
          intro c hc
          obtain ⟨d, hd, hfd⟩ := List.mem_map.mp (halike ▸ List.mem_map_of_mem (f := f) hc)
          rw [← hf, ← hfd, hf]
          exact List.all_eq_true.mp hword d hd
        have hrun := (takeWhile_run hl (by simpa using hend)).1
        rw [Terminal.stripBy_append hstrip] at hrun
        exact absurd (hrun ▸ halike) hne
    · simp at hread

theorem Reads.exactWord_failed {word : String}
    (hword : word.toList.all Terminal.isIdentifierChar = true)
    (hne : cs.takeWhile Terminal.isIdentifierChar ≠ word.toList) :
    Reads room (Peg.exactWord word) cs (halted .failed) :=
  .wordBy_failed id eq_of_beq (fun _ => rfl) hword (by simpa using hne)

theorem Reads.keyword_failed {word : String}
    (hword : word.toList.all Terminal.isIdentifierChar = true)
    (hne : (cs.takeWhile Terminal.isIdentifierChar).map Char.toLower ≠
      word.toList.map Char.toLower) :
    Reads room (Peg.keyword word) cs (halted .failed) :=
  .wordBy_failed Char.toLower eq_of_beq isIdentifierChar_toLower hword hne

theorem stripBy_sameLetter (ps rest : List Char) :
    Terminal.stripBy Terminal.sameLetter ps (ps ++ rest) = some (ps, rest) := by
  induction ps with
  | nil => rfl
  | cons p ps ih => simp [Terminal.stripBy, Terminal.sameLetter, ih]

theorem Reads.keyword {word : String}
    (hrest : Terminal.startsWith Terminal.isIdentifierChar rest = false) :
    Reads room (Peg.keyword word) (word.toList ++ rest) (matched () rest) :=
  .seq (.likeness_some (stripBy_sameLetter _ _)) (.wordEnd hrest)

/-! ## Names -/

theorem name_identifierChars {name : String} (hname : IsName name) :
    name.toList.all Terminal.isIdentifierChar = true := by
  obtain ⟨c, cs, hletters, hc, hcs⟩ := hname.letters
  have hfirst : Terminal.isIdentifierChar c = true := by
    simp [Terminal.isIdentifierChar, Char.isAlphanum, hc]
  simpa [hletters, hfirst] using hcs

theorem Reads.name {name : String} (hname : IsName name)
    (htail : Terminal.startsWith Terminal.isIdentifierChar tail = false) :
    Reads room (.call .identifier) (name.toList ++ tail) (matched name tail) := by
  obtain ⟨⟨c, cs, hletters, hc, hcs⟩, hnot⟩ := hname
  have hguard : (!Peg.isNot (c :: cs)) = true := by
    rw [hletters] at hnot
    simpa [Peg.isNot, imp_iff_not_or] using hnot
  have hread : Reads room Peg.name (c :: cs ++ tail) (matched (String.ofList (c :: cs)) tail) :=
    .map String.ofList (.guard (.seq (.char hc) (.starRun id hcs htail)) hguard)
  rw [← hletters, String.ofList_toList] at hread
  exact .call hread

/-- The word `not` is no name. -/
theorem Reads.not_name : Reads room (.call .identifier) ("not ".toList ++ cs) (halted .failed) := by
  have hmissing : Terminal.identifier ("not ".toList ++ cs) = .missing [] := by
    simp [Terminal.identifier, Terminal.isIdentifierChar]
  exact .call (name_obeys.missing hmissing)

theorem Reads.name_failed (h : Terminal.startsWith Char.isAlpha cs = false) :
    Reads room (.call .identifier) cs (halted .failed) := by
  refine .call (.seqLeft (.guardHalt (.seqLeft ?_)))
  cases cs with
  | nil => exact .charEnd _ _ _
  | cons c cs => exact .charOther h

/-! ## Gaps -/

theorem ahead_blank (cs : List Char) : ahead (' ' :: cs) = ahead cs := by
  simp [ahead, Terminal.splitGap, Terminal.opensComment, Terminal.isBlankChar]

theorem Reads.pastGap {α : Type} {p : Peg α} {o : Result α} (h : Reads room p (ahead cs) o) :
    Reads room (Peg.before Peg.gap p) cs o := by
  cases o with
  | matched a rest => exact .seq (.gap cs) h
  | halted halt => exact .seqRight (.gap cs) h

/-- No gap begins with the text. -/
def Solid (cs : List Char) : Prop := ∀ rest, ahead (cs ++ rest) = cs ++ rest

theorem Solid.append (h : Solid cs) (ds : List Char) : Solid (cs ++ ds) := by
  intro rest
  rw [List.append_assoc, h]

theorem solid_firm {c : Char} (hc : isFirm c = true) (cs : List Char) : Solid (c :: cs) :=
  fun rest => ahead_firm hc (cs ++ rest)

/-- A dash with no second one after it. -/
theorem solid_negative {d : Char} (hd : d ≠ '-') (cs : List Char) : Solid ('-' :: d :: cs) := by
  intro rest
  exact ahead_dash (beq_eq_false_iff_ne.mpr hd)

/-! ## Numbers -/

theorem Reads.char_failed {α : Type} {ok : Char → Bool} {f : Char → α}
    (h : Terminal.startsWith ok cs = false) : Reads room (.char ok f) cs (halted .failed) := by
  cases cs with
  | nil => exact .charEnd _ _ _
  | cons c cs => exact .charOther h

/-- A sign or none, and the digits of a whole number. -/
structure IsWhole (sign ds : List Char) : Prop where
  sign : sign = [] ∨ sign = ['-']
  starts : StartsWhole ds
  digits : ∀ c ∈ ds, c.isDigit = true

namespace IsWhole

variable {sign ds : List Char} (h : IsWhole sign ds)

include h

theorem head : ∃ c cs, ds = c :: cs ∧ c.isDigit = true := by
  obtain ⟨-, rfl | ⟨c, cs, rfl, hc, -⟩, -⟩ := h
  · exact ⟨'0', [], rfl, rfl⟩
  · exact ⟨c, cs, rfl, hc⟩

theorem readsSign (rest : List Char) :
    Reads room Peg.sign (sign ++ (ds ++ rest)) (matched sign (ds ++ rest)) := by
  obtain ⟨c, cs, hds, hc⟩ := h.head
  rcases h.sign with rfl | rfl
  · have hnone : Reads room (Peg.oneChar (· == '-')) (ds ++ rest) (halted .failed) := by
      rw [hds]
      refine .charOther (beq_eq_false_iff_ne.mpr ?_)
      rintro rfl
      simp at hc
    exact .map Option.toList (.optionalNone hnone)
  · exact .map Option.toList (.optionalSome (.char rfl))

theorem readsWhole (hrest : Terminal.startsWith Char.isDigit rest = false) :
    Reads room Peg.whole (ds ++ rest) (matched ds rest) := by
  have hdigits := h.digits
  rcases h.starts with rfl | ⟨c, cs, rfl, hc, hne⟩
  · exact .choiceLeft (.map (fun c => [c]) (.char rfl))
  · exact .choiceRight (.seqLeft (.charOther (beq_eq_false_iff_ne.mpr hne)))
      (.seq (.char hc) (.starRun id (fun d hd => hdigits d (List.mem_cons_of_mem c hd)) hrest))

theorem solid : Solid (sign ++ ds) := by
  obtain ⟨c, cs, rfl, hc⟩ := h.head
  rcases h.sign with rfl | rfl
  · exact solid_firm (isFirm_of Char.isDigit (by decide) hc) cs
  · exact solid_negative (ne_dash_of_isDigit hc) cs

theorem reads_integer (htail : EndsToken tail) :
    Reads room Peg.number (sign ++ (ds ++ tail))
      (matched (.integer (String.ofList (sign ++ ds))) tail) :=
  .seq (h.readsSign tail) (.seq (h.readsWhole (htail.startsWith _ (by decide)))
    (.optionalNone (.seqLeft (.char_failed (htail.startsWith _ (by decide))))))

theorem reads_decimal {fs : List Char} (hfs : ∀ c ∈ fs, c.isDigit = true) (hne : fs ≠ [])
    (htail : EndsToken tail) :
    Reads room Peg.number (sign ++ (ds ++ ('.' :: fs ++ tail)))
      (matched (.decimal (String.ofList (sign ++ (ds ++ '.' :: fs)))) tail) := by
  obtain ⟨f, fs, rfl⟩ := List.exists_cons_of_ne_nil hne
  obtain ⟨hf, hfs⟩ := List.forall_mem_cons.mp hfs
  have hwhole : Reads room Peg.whole (ds ++ '.' :: f :: (fs ++ tail)) _ := h.readsWhole rfl
  exact .seq (h.readsSign _) (.seq hwhole (.optionalSome (.seq (.char rfl)
    (.seq (.char hf) (.starRun id hfs (htail.startsWith _ (by decide)))))))

end IsWhole

theorem isWhole_integer (n : Int64) :
    ∃ sign ds, Integer.spell n = sign ++ ds ∧ IsWhole sign ds := by
  have hdigits : ∀ c ∈ digits n.toInt.natAbs, c.isDigit = true :=
    fun c => Integer.isDigit_of_mem_digits
  unfold Integer.spell
  split
  · exact ⟨['-'], _, rfl, Or.inr rfl, Integer.digits_cases _, hdigits⟩
  · exact ⟨[], _, rfl, Or.inl rfl, Integer.digits_cases _, hdigits⟩

theorem isWhole_decimal (d : Decimal) (hd : 1 ≤ d.scale) :
    ∃ sign ds fs, d.spell = sign ++ (ds ++ '.' :: fs) ∧ IsWhole sign ds ∧
      (∀ c ∈ fs, c.isDigit = true) ∧ fs ≠ [] := by
  have hdigits : ∀ c ∈ d.whole ++ d.fraction, c.isDigit = true := fun c hc =>
    d.isDigit_of_mem_padded (d.whole_append_fraction ▸ hc)
  have hwhole : ∀ c ∈ d.whole, c.isDigit = true := fun c hc =>
    hdigits c (List.mem_append_left _ hc)
  have hfraction : ∀ c ∈ d.fraction, c.isDigit = true := fun c hc =>
    hdigits c (List.mem_append_right _ hc)
  have hne : d.fraction ≠ [] := by
    intro hnil
    have hlength := d.length_fraction
    simp only [hnil, List.length_nil] at hlength
    omega
  unfold Decimal.spell
  rw [d.spell_eq hd]
  split
  · exact ⟨['-'], _, _, rfl, ⟨Or.inr rfl, d.whole_cases, hwhole⟩, hfraction, hne⟩
  · exact ⟨[], _, _, rfl, ⟨Or.inl rfl, d.whole_cases, hwhole⟩, hfraction, hne⟩

end FilterQuery.Grammar
