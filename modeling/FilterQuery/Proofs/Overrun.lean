import FilterQuery.Proofs.Canonical
import FilterQuery.Proofs.Outline

/-!
Where the round brackets of a text open one level too many. With so many levels left, a text is
skipped if it opens no more than that and closes what it opens; a bracket that opens one more is
the breach. Canonical text is skipped as long as there are levels left for the nesting of its tree.
-/
namespace FilterQuery.Grammar

open Number Scanner Text

/-- How many bytes there are up to and with the first bracket that opens one level more than there
are left. -/
def overrun : Nat → Mode → List Char → Option Nat
  | _, _, [] => none
  | levels, mode, c :: cs =>
    match mode.bracket? c with
    | none => (overrun levels (mode.after c cs) cs).map (c.utf8Size + ·)
    | some .closing => (overrun (levels + 1) (mode.after c cs) cs).map (c.utf8Size + ·)
    | some .opening =>
      match levels with
      | 0 => some c.utf8Size
      | levels + 1 => (overrun levels (mode.after c cs) cs).map (c.utf8Size + ·)

variable {n : Nat} {c : Char} {cs ds rest mid text : List Char}

theorem overrun_plain {mode : Mode} (h : mode.bracket? c = none) :
    overrun n mode (c :: cs) = (overrun n (mode.after c cs) cs).map (c.utf8Size + ·) := by
  conv_lhs => unfold overrun
  rw [h]

theorem map_add_map_add (o : Option Nat) (k l : Nat) :
    (o.map (l + ·)).map (k + ·) = o.map (k + l + ·) := by
  cases o <;> simp [Nat.add_assoc]

/-- The breach leaves this text behind. -/
def Breach (n : Nat) (cs after : List Char) : Prop :=
  ∃ passed, cs = passed ++ after ∧ overrun n .code cs = some (byteSize passed)

theorem breach_opening (cs : List Char) : Breach 0 ('(' :: cs) cs := ⟨['('], rfl, rfl⟩

/-- The text opens no more levels than there are left, and closes those that it opens. -/
def Skipped (n : Nat) (text : List Char) : Prop :=
  ∀ rest, overrun n .code (text ++ rest) = (overrun n .code rest).map (byteSize text + ·)

theorem Skipped.breach (h : Skipped n text) {after : List Char} (hmid : Breach n mid after) :
    Breach n (text ++ mid) after := by
  obtain ⟨passed, rfl, hpassed⟩ := hmid
  refine ⟨text ++ passed, (List.append_assoc ..).symm, ?_⟩
  rw [h, hpassed, Option.map_some, byteSize_append]

/-- One level less is left behind an opening bracket. -/
theorem Breach.inside {after : List Char} (h : Breach n cs after) :
    Breach (n + 1) ('(' :: cs) after := by
  obtain ⟨passed, rfl, hpassed⟩ := h
  refine ⟨'(' :: passed, rfl, ?_⟩
  have hopen : overrun (n + 1) .code ('(' :: (passed ++ after)) =
      (overrun n .code (passed ++ after)).map ('('.utf8Size + ·) := rfl
  rw [hopen, hpassed]
  rfl

/-! ## What is skipped -/

namespace Skipped

theorem nil (n : Nat) : Skipped n [] := by
  intro rest
  cases h : overrun n .code rest <;> simp [byteSize, h]

theorem append (h : Skipped n cs) (h' : Skipped n ds) : Skipped n (cs ++ ds) := by
  intro rest
  rw [List.append_assoc, h, h', map_add_map_add, byteSize_append]

/-- A character without a meaning of its own before this text. -/
theorem step (hafter : ∀ rest, Mode.after .code c (cs ++ rest) = .code)
    (hbracket : Mode.bracket? .code c = none) (h : Skipped n cs) : Skipped n (c :: cs) := by
  intro rest
  rw [List.cons_append, overrun_plain hbracket, hafter, h, map_add_map_add, byteSize]

theorem cons (hc : c ∉ specials) (h : Skipped n cs) : Skipped n (c :: cs) := by
  simp only [specials, List.mem_cons, List.not_mem_nil, or_false, not_or] at hc
  obtain ⟨hopen, hclose, hsingle, hdouble, hdash, hslash⟩ := hc
  refine .step (fun rest => ?_) (bracket?_eq_none hopen hclose) h
  simp [Mode.after, opensComment_eq_false hdash hslash, hsingle, hdouble]

theorem plain (h : cs.all (!specials.contains ·) = true) : Skipped n cs := by
  induction cs with
  | nil => exact .nil n
  | cons c cs ih =>
    obtain ⟨hc, hcs⟩ := Bool.and_eq_true_iff.mp (List.all_cons.symm.trans h)
    exact .cons (by simpa using hc) (ih hcs)

/-- Characters of a class that has no special ones. -/
theorem ofClass (ok : Char → Bool) (hok : specials.all (!ok ·) = true)
    (hcs : ∀ c ∈ cs, ok c = true) : Skipped n cs := by
  refine .plain (List.all_eq_true.mpr fun c hc => ?_)
  by_contra hspecial
  have hmem : c ∈ specials := by simpa using hspecial
  simpa [hcs c hc] using List.all_eq_true.mp hok c hmem

/-- A dash with no second one after it. -/
theorem dash {d : Char} (hd : d ≠ '-') (h : Skipped n (d :: cs)) : Skipped n ('-' :: d :: cs) := by
  refine .step (fun rest => ?_) rfl h
  have hdash : Terminal.opensComment ('-' :: (d :: cs ++ rest)) = false :=
    opensComment_dash (beq_eq_false_iff_ne.mpr hd)
  simp only [Mode.after, hdash]
  rfl

theorem parenthesized (h : Skipped n cs) : Skipped (n + 1) ('(' :: cs ++ [')']) := by
  intro rest
  have hopen : overrun (n + 1) .code ('(' :: (cs ++ ')' :: rest)) =
      (overrun n .code (cs ++ ')' :: rest)).map ('('.utf8Size + ·) := rfl
  have hclose : overrun n .code (')' :: rest) =
      (overrun (n + 1) .code rest).map (')'.utf8Size + ·) := rfl
  have htext : '(' :: cs ++ [')'] ++ rest = '(' :: (cs ++ ')' :: rest) := by simp
  rw [htext, hopen, h, hclose, map_add_map_add, map_add_map_add]
  simp only [List.cons_append, byteSize, byteSize_append, Nat.add_zero, Nat.add_assoc]

theorem quoted {quote : Char} (hquote : quote = '\'' ∨ quote = '"') (h : quote ∉ cs) :
    Skipped n (quote :: cs ++ [quote]) := by
  have hinside : ∀ rest, overrun n (.quoted quote) (cs ++ quote :: rest) =
      (overrun n .code rest).map (byteSize (cs ++ [quote]) + ·) := by
    intro rest
    induction cs with
    | nil =>
      have hafter : Mode.after (.quoted quote) quote rest = .code := if_pos (beq_self_eq_true quote)
      rw [List.nil_append, overrun_plain rfl, hafter]
      rfl
    | cons c cs ih =>
      obtain ⟨hc, hcs⟩ : quote ≠ c ∧ quote ∉ cs := by simpa using h
      have hafter : Mode.after (.quoted quote) c (cs ++ quote :: rest) = .quoted quote :=
        if_neg (by simpa using Ne.symm hc)
      rw [List.cons_append, overrun_plain rfl, hafter, ih hcs, map_add_map_add]
      rfl
  intro rest
  obtain ⟨hafter, hbracket⟩ : Mode.after .code quote (cs ++ quote :: rest) = .quoted quote ∧
      Mode.bracket? .code quote = none := after_quote hquote
  have htext : quote :: cs ++ [quote] ++ rest = quote :: (cs ++ quote :: rest) := by simp
  rw [htext, overrun_plain hbracket, hafter, hinside, map_add_map_add]
  rfl

theorem joined {α : Type} {spell : α → List Char} {xs : List α}
    (h : ∀ x ∈ xs, Skipped n (spell x)) : Skipped n (joined spell xs) := by
  have hothers : ∀ {ys : List α}, (∀ y ∈ ys, Skipped n (spell y)) →
      Skipped n (ys.flatMap fun y => ", ".toList ++ spell y) := by
    intro ys hys
    induction ys with
    | nil => exact .nil n
    | cons y ys ih =>
      obtain ⟨hy, hys⟩ := List.forall_mem_cons.mp hys
      have hcomma : Skipped n ", ".toList := .plain (by decide)
      exact (hcomma.append hy).append (ih hys)
  cases xs with
  | nil => exact .nil n
  | cons x xs =>
    obtain ⟨hx, hxs⟩ := List.forall_mem_cons.mp h
    exact hx.append (hothers hxs)

/-! ## Canonical text -/

theorem identifierChars (hcs : ∀ c ∈ cs, Terminal.isIdentifierChar c = true) : Skipped n cs :=
  .ofClass Terminal.isIdentifierChar (by decide) hcs

theorem name {name : String} (hname : IsName name) : Skipped n name.toList :=
  identifierChars (List.all_eq_true.mp (name_identifierChars hname))

/-- A sign is followed by a digit. -/
theorem whole {sign : List Char} (h : IsWhole sign ds) : Skipped n (sign ++ ds) := by
  obtain ⟨c, cs, rfl, hc⟩ := h.head
  have hdigits : Skipped n (c :: cs) := .ofClass Char.isDigit (by decide) h.digits
  rcases h.sign with rfl | rfl
  · exact hdigits
  · exact .dash (ne_dash_of_isDigit hc) hdigits

theorem scalar {v : Value} (hv : v.IsPlain) : Skipped n v.spell := by
  obtain ⟨hscalar, hplaces⟩ := hv
  cases v with
  | int i =>
    obtain ⟨sign, ds, hspell, hwhole⟩ := isWhole_integer i
    rw [Value.spell, hspell]
    exact .whole hwhole
  | decimal d =>
    obtain ⟨sign, ds, fs, hspell, hwhole, hfs, -⟩ :=
      isWhole_decimal d (hplaces d (by simp [Value.decimals]))
    have hfraction : Skipped n ('.' :: fs) :=
      .cons (by decide) (.ofClass Char.isDigit (by decide) hfs)
    rw [Value.spell, hspell, ← List.append_assoc]
    exact (whole hwhole).append hfraction
  | bool b =>
    rw [Value.spell]
    cases b <;> exact .plain (by decide)
  | null => exact .plain (by decide)
  | string s =>
    have hcontent : '\'' ∉ s.toList ∨ '"' ∉ s.toList := hscalar
    rw [Value.spell, Value.spellString, Value.quoteFor]
    by_cases hsingle : '\'' ∈ s.toList
    · rw [List.contains_iff_mem.mpr hsingle]
      exact .quoted (Or.inr rfl) (hcontent.resolve_left fun h => h hsingle)
    · have hcontains : s.toList.contains '\'' = false := by simpa using hsingle
      rw [hcontains]
      exact .quoted (Or.inl rfl) hsingle
  | array es => exact hscalar.elim

theorem value {v : Value} (hv : v.IsFlat) (hplaces : ∀ d ∈ v.decimals, 1 ≤ d.scale) :
    Skipped n v.spell := by
  rcases Value.flat_cases hv hplaces with ⟨hplain, -⟩ | ⟨es, rfl, hes⟩
  · exact .scalar hplain
  · have helements : Skipped n (Grammar.joined Value.spell es) :=
      .joined fun e he => .scalar (hes e he)
    have hclose : Skipped n [']'] := .plain (by decide)
    rw [Value.spell, spellList_eq]
    exact .cons (by decide) (helements.append hclose)

theorem spelled_known : ∀ op ∈ Operator.known, ∀ style ∈ styles,
    (op.spell style).all (!specials.contains ·) = true := by
  decide

theorem operator {op : Operator} (hop : op ∈ Operator.known) (style : Style) :
    Skipped n (' ' :: op.spell style) :=
  .cons (by decide) (.plain (spelled_known op hop style (mem_styles style)))

/-- An operator that some slot finds, behind a blank. -/
theorem slotOperator {slot : Slot} {ops : List Operator} {op : Operator}
    (hslot : slot.IsRegular ∧ slot.Finds ops) (hop : op ∈ ops) (style : Style) :
    Skipped n (' ' :: op.spell style) := .operator (hslot.2 op hop).1 style

theorem accessor (a : Accessor) : Skipped n a.text.toList := by
  cases a with
  | dot => exact .plain (by decide)
  | arrow => exact .dash (by decide) (.plain (by decide))

theorem steps {steps : List (Accessor × String)} (hnames : ∀ step ∈ steps, IsName step.2) :
    Skipped n (steps.flatMap fun step => step.1.text.toList ++ step.2.toList) := by
  induction steps with
  | nil => exact .nil n
  | cons step steps ih =>
    obtain ⟨hname, hothers⟩ := List.forall_mem_cons.mp hnames
    exact ((accessor step.1).append (.name hname)).append (ih hothers)

end Skipped

/-- Canonical text opens as many levels as its tree nests. -/
theorem skipped_spell {level : Binding} {t : Node} (h : Shaped level t) (hplaces : t.HasPlaces)
    (style : Style) (hn : t.nesting ≤ n) : Skipped n (t.spell style) := by
  induction h generalizing n with
  | ofNegation _ ih | ofComparison _ ih | ofMembership _ ih | ofPredicate _ ih | ofBetween _ ih
  | ofPrimary _ ih => exact ih hplaces hn
  | logic hl hop hr ihl ihr =>
    have hslot := slots_find (Slot.logic, Operator.logics) (by simp)
    have hleft := ihl hplaces.logic.1 ((Nat.le_max_left _ _).trans hn)
    have hright := ihr hplaces.logic.2 ((Nat.le_max_right _ _).trans hn)
    exact (hleft.append (.slotOperator hslot (Operator.mem_logics hop) style)).append
      (.cons (by decide) hright)
  | compare hl hop hr ihl ihr =>
    have hslot := slots_find (Slot.compare, Operator.comparisons) (by simp)
    have hleft := ihl hplaces.compare.1 ((Nat.le_max_left _ _).trans hn)
    have hright := ihr hplaces.compare.2 ((Nat.le_max_right _ _).trans hn)
    exact (hleft.append (.slotOperator hslot hop style)).append (.cons (by decide) hright)
  | @membership l op es hl hop hes ihl =>
    have hslot := slots_find (Slot.oneOf, Operator.memberships) (by simp)
    have hflat : (Value.array es).IsFlat := hes
    have hleft := ihl hplaces.compare.1 ((Nat.le_max_left _ _).trans hn)
    have hright : Skipped n (Value.array es).spell := .value hflat hplaces.compare.2
    exact (hleft.append (.slotOperator hslot hop style)).append (.cons (by decide) hright)
  | not ht ih =>
    have hword : Skipped n "not ".toList := .plain (by decide)
    exact hword.append (ih hplaces hn)
  | predicate hl hop ihl =>
    have hslot := slots_find (Slot.test, Operator.tests) (by simp)
    exact (ihl hplaces hn).append (.slotOperator hslot (Operator.mem_tests hop) .word)
  | between hl hop hlow hhigh ihl =>
    have hslot := slots_find (Slot.between, Operator.ranges) (by simp)
    obtain ⟨hplaces, hplacesLow, hplacesHigh⟩ := hplaces.between
    have hword : Skipped n " and ".toList := .plain (by decide)
    have hleft := ihl hplaces ((Nat.le_max_left _ _).trans hn)
    exact (((hleft.append (.slotOperator hslot (Operator.mem_ranges hop) .word)).append
      (.cons (by decide) (.value hlow hplacesLow))).append hword).append (.value hhigh hplacesHigh)
  | parentheses ht ih =>
    obtain ⟨n, rfl⟩ := Nat.exists_eq_add_of_lt (Nat.lt_of_succ_le hn)
    exact .parenthesized (ih hplaces (Nat.le_add_right _ _))
  | value hv => exact .value hv hplaces
  | @function name params hname hparams ih =>
    obtain ⟨n, rfl⟩ := Nat.exists_eq_add_of_lt (Nat.lt_of_succ_le hn)
    have hlist : Skipped (Node.nestingOfAll params + n) (joined (Node.spell style) params) :=
      .joined fun t ht => ih t ht (hplaces.param ht)
        ((Node.nesting_le_of_mem ht).trans (Nat.le_add_right _ _))
    rw [Node.spell, Node.spellList_eq, List.append_assoc]
    exact (Skipped.name hname.toIsName).append hlist.parenthesized
  | identifier hname => exact .name hname.toIsName
  | @reference r hr =>
    obtain ⟨hhead, -, hnames, -⟩ := hr
    exact (Skipped.name hhead.toIsName).append (.steps hnames)

end FilterQuery.Grammar
