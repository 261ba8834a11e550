import FilterQuery.Proofs.Tokens

/-!
Canonical values are read back. A value is the literal, or the array of literals, that its text
spells; decimals need a digit after the point, since a number without a point is an integer.
-/
namespace FilterQuery

open Grammar Number

namespace Value

/-- The literal that spells a scalar. -/
def literal : Value → Literal
  | int n => .integer (String.ofList (Integer.spell n))
  | decimal d => .decimal (String.ofList d.spell)
  | bool b => .bool b
  | string s => .string s
  | null | array _ => .null

/-- The draft of a value that is spelled canonically. -/
def draft : Value → Draft
  | array es => .array (es.map literal)
  | v => .literal v.literal

/-- The value can be written: it is a scalar, and a decimal has a digit after the point. -/
def IsPlain (v : Value) : Prop := v.IsScalar ∧ ∀ d ∈ v.decimals, 1 ≤ d.scale

theorem IsPlain.convert_literal {v : Value} (hv : v.IsPlain) : v.literal.convert = .ok v := by
  obtain ⟨hscalar, hplaces⟩ := hv
  cases v with
  | int n => simp [literal, Literal.convert, Integer.read_spell]
  | decimal d =>
    have hread := d.read_spell (hplaces d (by simp [decimals]))
    simp [literal, Literal.convert, hread]
  | bool b | string s | null => rfl
  | array es => exact hscalar.elim

theorem literal_value {v : Value} (hv : v.IsPlain) : v.literal.value = v := by
  rw [Literal.value, hv.convert_literal]

theorem mem_decimalsOfAll {es : List Value} {d : Decimal} :
    d ∈ decimalsOfAll es ↔ ∃ e ∈ es, d ∈ e.decimals := by
  induction es with
  | nil => simp [decimalsOfAll]
  | cons e es ih => simp [decimalsOfAll, ih]

/-- A flat value is a scalar or an array of scalars. -/
theorem flat_cases {v : Value} (hv : v.IsFlat) (hplaces : ∀ d ∈ v.decimals, 1 ≤ d.scale) :
    (v.IsPlain ∧ v.draft = .literal v.literal) ∨ ∃ es, v = .array es ∧ ∀ e ∈ es, e.IsPlain := by
  cases v with
  | array es =>
    refine Or.inr ⟨es, rfl, fun e he => ⟨hv e he, fun d hd => hplaces d ?_⟩⟩
    exact mem_decimalsOfAll.mpr ⟨e, he, hd⟩
  | int | decimal | bool | string | null => exact Or.inl ⟨⟨hv, hplaces⟩, rfl⟩

/-- The elements after the first, each behind a comma. -/
theorem spellRest_eq (vs : List Value) : spellRest vs = vs.flatMap fun v => ", ".toList ++ v.spell := by
  induction vs with
  | nil => rfl
  | cons v vs ih => rw [spellRest, ih, List.flatMap_cons]

end Value

namespace Grammar

open Scanner Result

variable {room : Room} {cs tail : List Char}

/-! ## Lists -/

/-- Elements with a comma and a blank between them. -/
def joined {α : Type} (spell : α → List Char) : List α → List Char
  | [] => []
  | x :: xs => spell x ++ xs.flatMap fun x => ", ".toList ++ spell x

variable {α β : Type} {p : Peg α} {spell : β → List Char} {denote : β → α} {xs : List β}
  {close : Char} {rest : List Char}

theorem Reads.text (t : String) (rest : List Char) :
    Reads room (Peg.text t) (t.toList ++ rest) (matched () rest) :=
  .likeness_some (stripBy_self _ _)

theorem Reads.text_failed {t : String} {c : Char} (ht : t.toList.head? = some c)
    (hcs : Terminal.startsWith (c == ·) cs = false) :
    Reads room (Peg.text t) cs (halted .failed) := by
  obtain ⟨ds, hletters⟩ : ∃ ds, t.toList = c :: ds := by
    cases hletters : t.toList <;> simp_all
  rw [Peg.text, hletters]
  exact .seqLeft (.char_failed hcs)

theorem ahead_close (hclose : close = ')' ∨ close = ']') (rest : List Char) :
    ahead (close :: rest) = close :: rest := by
  rcases hclose with rfl | rfl
  · exact ahead_solid (by decide) (by decide) (by decide) rest
  · exact ahead_solid (by decide) (by decide) (by decide) rest

theorem Reads.oneText {t : String} {c : Char} (ht : t.toList = [c]) :
    Reads room (Peg.text t) (c :: rest) (matched () rest) := by
  rw [Peg.text, ht]
  exact .seq (.char (beq_self_eq_true c)) (.pure _ _ _)

theorem Reads.closing {t : String} (hclose : close = ')' ∨ close = ']') (ht : t.toList = [close]) :
    Reads room (Peg.before Peg.gap (Peg.text t)) (close :: rest) (matched () rest) := by
  refine .pastGap ?_
  rw [ahead_close hclose]
  exact .oneText ht

theorem others_head (spell : β → List Char) (xs : List β) (close : Char) (rest : List Char) :
    ∃ d ds, (xs.flatMap fun x => ", ".toList ++ spell x) ++ close :: rest = d :: ds ∧
      (d = ',' ∨ d = close) := by
  cases xs with
  | nil => exact ⟨close, rest, rfl, Or.inr rfl⟩
  | cons x xs => exact ⟨',', _, rfl, Or.inl rfl⟩

/-- The elements after the first are read up to the bracket that closes the list. -/
theorem Reads.othersJoined {γ : Type} (f : List α → γ) (rest : List Char) (hclose : close = ')' ∨ close = ']')
    (hsolid : ∀ x ∈ xs, Solid (spell x))
    (hp : ∀ x ∈ xs, ∀ {d ds}, d = ',' ∨ d = close →
      Reads room p (spell x ++ d :: ds) (matched (denote x) (d :: ds))) :
    Reads room (.star f (Peg.before Peg.gap (Peg.before (Peg.text ",") (Peg.before Peg.gap p))))
      ((xs.flatMap fun x => ", ".toList ++ spell x) ++ close :: rest)
      (matched (f (xs.map denote)) (close :: rest)) := by
  induction xs generalizing f with
  | nil =>
    refine .starEnd (.pastGap (.seqLeft ?_))
    rw [List.flatMap_nil, List.nil_append, ahead_close hclose]
    rcases hclose with rfl | rfl
    · exact .text_failed rfl rfl
    · exact .text_failed rfl rfl
  | cons x xs ih =>
    obtain ⟨hsolid, hsolids⟩ := List.forall_mem_cons.mp hsolid
    obtain ⟨hx, hxs⟩ := List.forall_mem_cons.mp hp
    have hothers := ih (fun as => f (denote x :: as)) hsolids hxs
    have htext : ((x :: xs).flatMap fun x => ", ".toList ++ spell x) ++ close :: rest =
        ',' :: ' ' ::
          (spell x ++ ((xs.flatMap fun x => ", ".toList ++ spell x) ++ close :: rest)) := by
      simp
    rw [htext]
    refine .starMore (.pastGap ?_) hothers
    rw [ahead_solid (by decide) (by decide) (by decide)]
    refine .seq (.oneText rfl) (.pastGap ?_)
    rw [ahead_blank, hsolid]
    obtain ⟨d, ds, hmid, hd⟩ := others_head spell xs close rest
    rw [hmid]
    exact hx hd

theorem ahead_joined (hclose : close = ')' ∨ close = ']') (hsolid : ∀ x ∈ xs, Solid (spell x)) :
    ahead (joined spell xs ++ close :: rest) = joined spell xs ++ close :: rest := by
  cases xs with
  | nil => exact ahead_close hclose rest
  | cons x xs =>
    obtain ⟨hx, -⟩ := List.forall_mem_cons.mp hsolid
    exact hx.append _ _

/-- A list is read up to the bracket that closes it. -/
theorem Reads.commaJoined (hclose : close = ')' ∨ close = ']')
    (hsolid : ∀ x ∈ xs, Solid (spell x))
    (hp : ∀ x ∈ xs, ∀ {d ds}, d = ',' ∨ d = close →
      Reads room p (spell x ++ d :: ds) (matched (denote x) (d :: ds)))
    (hnone : Reads room p (close :: rest) (halted .failed)) :
    Reads room p.commaList (joined spell xs ++ close :: rest)
      (matched (xs.map denote) (close :: rest)) := by
  cases xs with
  | nil => exact .map _ (.optionalNone (.seqLeft hnone))
  | cons x xs =>
    obtain ⟨-, hsolids⟩ := List.forall_mem_cons.mp hsolid
    obtain ⟨hx, hxs⟩ := List.forall_mem_cons.mp hp
    have hothers := Reads.othersJoined id rest hclose hsolids hxs
    obtain ⟨d, ds, hmid, hd⟩ := others_head spell xs close rest
    have hfirst : Reads room p (spell x ++
        ((xs.flatMap fun x => ", ".toList ++ spell x) ++ close :: rest)) _ := hmid ▸ hx hd
    have hend : Reads room (Peg.before Peg.gap (Peg.optional (Peg.text ","))) (close :: rest)
        (matched none (close :: rest)) := by
      refine .pastGap ?_
      rw [ahead_close hclose]
      rcases hclose with rfl | rfl
      · exact .optionalNone (.text_failed rfl rfl)
      · exact .optionalNone (.text_failed rfl rfl)
    have hlist := Reads.map (Option.getD · []) (.optionalSome
      (.seq (f := fun a as => a :: as) hfirst (.seq (f := fun as _ => as) hothers hend)))
    rw [joined, List.append_assoc]
    exact hlist

/-! ## Literals -/

/-- The characters with which a literal begins that is no word. -/
def opensLiteral (c : Char) : Bool := c == '\'' || c == '"' || c == '-' || c.isDigit

/-- The characters with which a value begins that is no word. -/
def opensValue (c : Char) : Bool := opensLiteral c || c == '[' || c == '('

theorem startsWith_mono {ok wide : Char → Bool} (h : Terminal.startsWith wide cs = false)
    (hwide : ∀ c, ok c = true → wide c = true) : Terminal.startsWith ok cs = false := by
  cases cs with
  | nil => rfl
  | cons c cs => exact Bool.eq_false_iff.mpr fun hc => by simp [Terminal.startsWith, hwide c hc] at h

/-- What is read as a literal once the literal words are ruled out. -/
theorem Reads.literal_last {o : Result Literal}
    (hwords : ∀ w ∈ literalWords, cs.takeWhile Terminal.isIdentifierChar ≠ w.toList)
    (h : Reads room (.choice (Peg.map .string Peg.quoted) Peg.number) cs o) :
    Reads room (.call .literal) cs o := by
  have hletters : ∀ w ∈ literalWords, w.toList.all Terminal.isIdentifierChar = true := by decide
  have hfailed : ∀ w ∈ literalWords, Reads room (Peg.exactWord w) cs (halted .failed) :=
    fun w hw => .exactWord_failed (hletters w hw) (hwords w hw)
  exact .call <|
    .choiceRight (.seqLeft (hfailed "null" (by decide))) <|
    .choiceRight (.seqLeft (hfailed "NULL" (by decide))) <|
    .choiceRight (.seqLeft (hfailed "true" (by decide))) <|
    .choiceRight (.seqLeft (hfailed "TRUE" (by decide))) <|
    .choiceRight (.seqLeft (hfailed "false" (by decide))) <|
    .choiceRight (.seqLeft (hfailed "FALSE" (by decide))) h

theorem Reads.quoted_failed (h : Terminal.startsWith (fun c => c == '\'' || c == '"') cs = false) :
    Reads room Peg.quoted cs (halted .failed) :=
  .choiceRight (.seqLeft (.char_failed (startsWith_mono h (by simp +contextual))))
    (.seqLeft (.char_failed (startsWith_mono h (by simp +contextual))))

theorem Reads.number_failed (h : Terminal.startsWith (fun c => c == '-' || c.isDigit) cs = false) :
    Reads room Peg.number cs (halted .failed) := by
  have hdash : Terminal.startsWith (· == '-') cs = false :=
    startsWith_mono h (by simp +contextual)
  have hdigit : Terminal.startsWith Char.isDigit cs = false :=
    startsWith_mono h (by simp +contextual)
  have hzero : Terminal.startsWith (· == '0') cs = false :=
    startsWith_mono hdigit fun c hc => eq_of_beq hc ▸ rfl
  exact .seqRight (.map Option.toList (.optionalNone (.char_failed hdash)))
    (.seqLeft (.choiceRight (.seqLeft (.char_failed hzero)) (.seqLeft (.char_failed hdigit))))

theorem Reads.literal_failed
    (hwords : ∀ w ∈ literalWords, cs.takeWhile Terminal.isIdentifierChar ≠ w.toList)
    (h : Terminal.startsWith opensLiteral cs = false) :
    Reads room (.call .literal) cs (halted .failed) :=
  .literal_last hwords <|
    .choiceRight (.seqLeft (.quoted_failed (startsWith_mono h (by simp +contextual [opensLiteral]))))
      (.number_failed (startsWith_mono h (by simp +contextual [opensLiteral])))

/-- A text that does not begin with a letter begins with no literal word. -/
theorem no_literalWord (h : Terminal.startsWith Char.isAlpha cs = false) :
    ∀ w ∈ literalWords, cs.takeWhile Terminal.isIdentifierChar ≠ w.toList := by
  have hletter : ∀ w ∈ literalWords, Terminal.startsWith Char.isAlpha w.toList = true := by decide
  intro w hw heq
  have hstart := hletter w hw
  rw [← heq] at hstart
  cases cs with
  | nil => simp [Terminal.startsWith] at hstart
  | cons c cs =>
    by_cases hc : Terminal.isIdentifierChar c = true
    · rw [List.takeWhile_cons_of_pos hc] at hstart
      exact absurd (hstart.symm.trans h) (by decide)
    · simp [hc, Terminal.startsWith] at hstart

theorem not_isAlpha_of_isDigit {c : Char} (hc : c.isDigit = true) : c.isAlpha = false := by
  simp only [Char.isDigit, Bool.and_eq_true, decide_eq_true_eq, ge_iff_le,
    UInt32.le_iff_toNat_le] at hc
  unfold Char.isAlpha Char.isUpper Char.isLower
  simp [UInt32.le_iff_toNat_le] at hc ⊢
  omega

/-- A number is no other literal. -/
theorem Reads.literal_number {l : Literal} {sign ds : List Char} (hwhole : IsWhole sign ds)
    (h : Reads room Peg.number (sign ++ (ds ++ cs)) (matched l tail)) :
    Reads room (.call .literal) (sign ++ (ds ++ cs)) (matched l tail) := by
  obtain ⟨d, ds, rfl, hd⟩ := hwhole.head
  have hnotAlpha := not_isAlpha_of_isDigit hd
  have hnotQuote : d ≠ '\'' ∧ d ≠ '"' := by
    constructor <;>
      · rintro rfl
        simp at hd
  rcases hwhole.sign with rfl | rfl
  · exact .literal_last (no_literalWord hnotAlpha)
      (.choiceRight (.seqLeft (.quoted_failed (by simpa [Terminal.startsWith] using hnotQuote))) h)
  · exact .literal_last (no_literalWord rfl) (.choiceRight (.seqLeft (.quoted_failed rfl)) h)

theorem Reads.quotedBy_run {quote : Char} {s : List Char} (hs : quote ∉ s) :
    Reads room (Peg.quotedBy quote) (quote :: s ++ quote :: tail)
      (matched (String.ofList s) tail) := by
  have hcontent : ∀ c ∈ s, (c != quote) = true := by
    intro c hc
    have hne : c ≠ quote := fun heq => hs (heq ▸ hc)
    simpa using hne
  have hrun : Reads room (Peg.many (Peg.oneChar (· != quote))) (s ++ quote :: tail)
      (matched s (quote :: tail)) := .starRun id hcontent (by simp [Terminal.startsWith])
  exact .seq (.char (by simp)) (.seq (.map String.ofList hrun) (.char (by simp)))

theorem Reads.quoted_spell {s : List Char} (hs : '\'' ∉ s ∨ '"' ∉ s) :
    Reads room Peg.quoted (Value.spellString s ++ tail) (matched (String.ofList s) tail) := by
  unfold Value.spellString Value.quoteFor
  by_cases hsingle : '\'' ∈ s
  · have hdouble : '"' ∉ s := hs.resolve_left fun h => h hsingle
    simp only [List.contains_iff_mem.mpr hsingle, if_true, List.append_assoc]
    exact .choiceRight (.quotedBy_other rfl) (.quotedBy_run hdouble)
  · have hcontains : s.contains '\'' = false := by simpa using hsingle
    simp only [hcontains, Bool.false_eq_true, if_false, List.append_assoc]
    exact .choiceLeft (.quotedBy_run hsingle)

/-- The run of characters of a name is the word itself. -/
theorem takeWhile_word {w : String} (hw : w.toList.all Terminal.isIdentifierChar = true)
    (htail : Terminal.startsWith Terminal.isIdentifierChar tail = false) :
    (w.toList ++ tail).takeWhile Terminal.isIdentifierChar = w.toList :=
  (takeWhile_run (List.all_eq_true.mp hw) htail).1

/-- A scalar is read back. -/
theorem Reads.scalar {v : Value} (hv : v.IsPlain) (htail : EndsToken tail) :
    Reads room (.call .literal) (v.spell ++ tail) (matched v.literal tail) := by
  obtain ⟨hscalar, hplaces⟩ := hv
  have hend := htail.not_identifierChar
  cases v with
  | null => exact .call (.choiceLeft (.map _ (.exactWord hend)))
  | bool b =>
    have hother : ∀ {w w' : String}, w.toList.all Terminal.isIdentifierChar = true →
        w'.toList.all Terminal.isIdentifierChar = true → w.toList ≠ w'.toList →
        Reads room (Peg.exactWord w') (w.toList ++ tail) (halted .failed) := fun hw hw' hne =>
      .exactWord_failed hw' (by rwa [takeWhile_word hw hend])
    cases b with
    | true =>
      exact .call <|
        .choiceRight (.seqLeft (hother (by decide) (by decide) (by decide))) <|
        .choiceRight (.seqLeft (hother (by decide) (by decide) (by decide))) <|
        .choiceLeft (.map _ (.exactWord hend))
    | false =>
      exact .call <|
        .choiceRight (.seqLeft (hother (by decide) (by decide) (by decide))) <|
        .choiceRight (.seqLeft (hother (by decide) (by decide) (by decide))) <|
        .choiceRight (.seqLeft (hother (by decide) (by decide) (by decide))) <|
        .choiceRight (.seqLeft (hother (by decide) (by decide) (by decide))) <|
        .choiceLeft (.map _ (.exactWord hend))
  | string s =>
    have hquoted : Reads room Peg.quoted (Value.spellString s.toList ++ tail)
        (matched s tail) := by
      have hrun : Reads room Peg.quoted (Value.spellString s.toList ++ tail) _ :=
        .quoted_spell hscalar
      rwa [String.ofList_toList] at hrun
    refine .literal_last (no_literalWord ?_) (.choiceLeft (.map _ hquoted))
    unfold Value.spell Value.spellString Value.quoteFor
    split <;> rfl
  | int n =>
    obtain ⟨sign, ds, hspell, hwhole⟩ := isWhole_integer n
    rw [Value.spell, Value.literal, hspell, List.append_assoc]
    exact .literal_number hwhole (hwhole.reads_integer htail)
  | decimal d =>
    obtain ⟨sign, ds, fs, hspell, hwhole, hfs, hne⟩ :=
      isWhole_decimal d (hplaces d (by simp [Value.decimals]))
    rw [Value.spell, Value.literal, hspell, List.append_assoc, List.append_assoc]
    exact .literal_number hwhole (hwhole.reads_decimal hfs hne htail)
  | array es => exact hscalar.elim

/-! ## Arrays and values -/

theorem solid_scalar {v : Value} (hv : v.IsPlain) : Solid v.spell := by
  obtain ⟨hscalar, hplaces⟩ := hv
  cases v with
  | null => exact solid_firm (by decide) _
  | bool b => cases b <;> exact solid_firm (by decide) _
  | string s =>
    refine solid_firm ?_ _
    unfold Value.quoteFor
    split <;> decide
  | int n =>
    obtain ⟨sign, ds, hspell, hwhole⟩ := isWhole_integer n
    rw [Value.spell, hspell]
    exact hwhole.solid
  | decimal d =>
    obtain ⟨sign, ds, fs, hspell, hwhole, -⟩ :=
      isWhole_decimal d (hplaces d (by simp [Value.decimals]))
    rw [Value.spell, hspell, ← List.append_assoc]
    exact hwhole.solid.append _
  | array es => exact hscalar.elim

theorem spellList_eq (es : List Value) : Value.spellList es = joined Value.spell es := by
  cases es with
  | nil => rfl
  | cons e es => rw [Value.spellList, Value.spellRest_eq, joined]

theorem Reads.array {es : List Value} (hes : ∀ e ∈ es, e.IsPlain) :
    Reads room (.call .array) ((Value.array es).spell ++ tail)
      (matched (es.map Value.literal) tail) := by
  have hsolid : ∀ e ∈ es, Solid e.spell := fun e he => solid_scalar (hes e he)
  have hlist : Reads room (Peg.commaList (.call .literal))
      (joined Value.spell es ++ ']' :: tail) (matched (es.map Value.literal) (']' :: tail)) := by
    refine .commaJoined (Or.inr rfl) hsolid (fun e he d ds hd => .scalar (hes e he) ?_)
      (.literal_failed (no_literalWord rfl) rfl)
    rcases hd with rfl | rfl <;> exact endsToken_cons (by decide)
  have htext : (Value.array es).spell ++ tail = '[' :: (joined Value.spell es ++ ']' :: tail) := by
    simp [Value.spell, spellList_eq]
  rw [htext]
  refine .call (.choiceLeft (.seq (.oneText rfl) (.pastGap ?_)))
  rw [ahead_joined (Or.inr rfl) hsolid]
  exact .seq hlist (.closing (Or.inr rfl) rfl)

/-- A value is read back. -/
theorem Reads.value {v : Value} (hv : v.IsFlat) (hplaces : ∀ d ∈ v.decimals, 1 ≤ d.scale)
    (htail : EndsToken tail) :
    Reads room (.call .value) (v.spell ++ tail) (matched v.draft tail) := by
  rcases Value.flat_cases hv hplaces with ⟨hplain, hdraft⟩ | ⟨es, rfl, hes⟩
  · rw [hdraft]
    exact .call (.choiceLeft (.map Draft.literal (.scalar hplain htail)))
  · exact .call (.choiceRight (.seqLeft (.literal_failed (no_literalWord rfl) rfl))
      (.map Draft.array (.array hes)))

theorem Reads.value_failed
    (hwords : ∀ w ∈ literalWords, cs.takeWhile Terminal.isIdentifierChar ≠ w.toList)
    (h : Terminal.startsWith opensValue cs = false) :
    Reads room (.call .value) cs (halted .failed) := by
  have hliteral : Reads room (.call .literal) cs (halted .failed) :=
    .literal_failed hwords (startsWith_mono h (by simp +contextual [opensValue]))
  have hbracket : ∀ {t : String} {c : Char}, t.toList.head? = some c → opensValue c = true →
      Reads room (Peg.text t) cs (halted .failed) := fun ht hc =>
    .text_failed ht (startsWith_mono h fun d hd => eq_of_beq hd ▸ hc)
  exact .call (.choiceRight (.seqLeft hliteral) (.seqLeft (.call (.choiceRight
    (.seqLeft (hbracket rfl (by decide))) (.seqLeft (hbracket rfl (by decide)))))))

theorem solid_value {v : Value} (hv : v.IsFlat) (hplaces : ∀ d ∈ v.decimals, 1 ≤ d.scale) :
    Solid v.spell := by
  rcases Value.flat_cases hv hplaces with ⟨hplain, -⟩ | ⟨es, rfl, -⟩
  · exact solid_scalar hplain
  · exact solid_firm (by decide) _

end Grammar

namespace Value

theorem build_draft {v : Value} (hv : v.IsFlat) (hplaces : ∀ d ∈ v.decimals, 1 ≤ d.scale) :
    v.draft.build = .value v := by
  rcases flat_cases hv hplaces with ⟨hplain, hdraft⟩ | ⟨es, rfl, hes⟩
  · rw [hdraft, Draft.build, literal_value hplain]
  · have hself : (es.map literal).map Literal.value = es := by
      rw [List.map_map]
      exact (List.map_congr_left fun e he => literal_value (hes e he)).trans (List.map_id es)
    rw [draft, Draft.build, hself]

theorem draft_converts {v : Value} (hv : v.IsFlat) (hplaces : ∀ d ∈ v.decimals, 1 ≤ d.scale) :
    v.draft.Converts := by
  intro l hl
  rcases flat_cases hv hplaces with ⟨hplain, hdraft⟩ | ⟨es, rfl, hes⟩
  · rw [hdraft] at hl
    obtain rfl := List.mem_singleton.mp hl
    exact ⟨v, hplain.convert_literal⟩
  · obtain ⟨e, he, rfl⟩ := List.mem_map.mp hl
    exact ⟨e, (hes e he).convert_literal⟩

end Value

end FilterQuery
