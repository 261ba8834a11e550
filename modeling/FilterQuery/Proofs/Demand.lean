import FilterQuery.Proofs.Strays

/-!
How many levels of brackets a query takes. Parentheses and argument lists take one each, and so
does an array that stands as an operand: its text is tried as parentheses before it is read as an
array. A query that is read without a limit is read within one that leaves it these levels.
-/
namespace FilterQuery

open Grammar Scanner Result

namespace Node

mutual

/-- The levels of brackets that a tree takes. The arrays of memberships and of bounds are no
operands, they are not tried as anything else. -/
def demand : Node → Nat
  | value (.array _) => 1
  | value _ | operation _ | identifier _ | reference _ => 0
  | compare l op r => if op ∈ Operator.memberships then l.demand else max l.demand r.demand
  | logic l _ r => max l.demand r.demand
  | predicate l _ => l.demand
  | not inner => inner.demand
  | parentheses inner => inner.demand + 1
  | between l _ _ _ => l.demand
  | function _ params => demandOfAll params + 1

def demandOfAll : List Node → Nat
  | [] => 0
  | n :: ns => max n.demand (demandOfAll ns)

end

mutual

/-- An array takes at most one level where nothing else is nested. -/
theorem demand_le : ∀ t : Node, t.demand ≤ t.nesting + 1
  | value v => by cases v <;> simp [demand]
  | operation _ | identifier _ | reference _ => Nat.zero_le _
  | compare l op r => by
    have hl := demand_le l
    have hr := demand_le r
    simp only [demand, nesting]
    split <;> omega
  | logic l _ r => by
    have hl := demand_le l
    have hr := demand_le r
    simp only [demand, nesting]
    omega
  | predicate l _ => demand_le l
  | not inner => demand_le inner
  | parentheses inner => Nat.succ_le_succ (demand_le inner)
  | between l _ low high => by
    have hl := demand_le l
    simp only [demand, nesting]
    omega
  | function _ params => Nat.succ_le_succ (demandOfAll_le params)

theorem demandOfAll_le : ∀ ts : List Node, demandOfAll ts ≤ nestingOfAll ts + 1
  | [] => Nat.zero_le _
  | t :: ts => by
    have ht := demand_le t
    have hts := demandOfAll_le ts
    simp only [demandOfAll, nestingOfAll]
    omega

end

end Node

namespace Draft

def demand (d : Draft) : Nat := d.build.demand

theorem demand_foldLeft {make : Draft → Operator → Draft → Draft}
    {weight : Operator × Draft → Nat}
    (hmake : ∀ l op r, (make l op r).demand = max l.demand (weight (op, r)))
    (d : Draft) (parts : List (Operator × Draft)) :
    d.demand ≤ (foldLeft make d parts).demand ∧
      tallest weight parts ≤ (foldLeft make d parts).demand := by
  induction parts generalizing d with
  | nil => exact ⟨le_rfl, Nat.zero_le _⟩
  | cons part parts ih =>
    obtain ⟨hfirst, hothers⟩ := ih (make d part.1 part.2)
    rw [hmake] at hfirst
    obtain ⟨hleft, hright⟩ := max_le_iff.mp hfirst
    exact ⟨hleft, max_le hright hothers⟩

theorem tallest_demand (ds : List Draft) :
    tallest demand ds = Node.demandOfAll (buildAll ds) := by
  induction ds with
  | nil => rfl
  | cons d ds ih =>
    rw [tallest, List.foldr_cons, buildAll, Node.demandOfAll, ← ih]
    rfl

end Draft

namespace Grammar

variable {room : Room} {n : Nat} {cs rest : List Char} {d : Draft}

/-! ## Brackets -/

/-- The expression between round brackets, one level deeper. -/
def Peg.enclosed {α : Type} (p : Peg α) : Peg α :=
  before (text "(") (before gap (followedBy (deeper p) (before gap (text ")"))))

theorem not_goesOn_closing {t : String} {c : Char} (ht : t.toList = [c]) (hc : c = ')' ∨ c = ',')
    {v : Unit} (h : Reads room (Peg.before Peg.gap (Peg.text t)) cs (matched v rest)) :
    ¬ GoesOn cs := by
  rintro ⟨d, ds, hcs, hclose, hcomma⟩
  have htext := h.pastGap_inv.text_inv
  rw [hcs, ht] at htext
  obtain ⟨rfl, -⟩ := List.cons_eq_cons.mp htext
  rcases hc with rfl | rfl
  · exact hclose rfl
  · exact hcomma rfl

section enclosed

variable {α : Type} {p : Peg α} {weight weight' : α → Nat} {given : List Char → Prop} {v : α}

theorem Reads.enclosed_tooDeep (h : Reads (.limited n) p.enclosed cs (halted .tooDeep)) :
    ∃ ds, cs = '(' :: ds ∧
      ∀ m, n = m + 1 → Reads (.limited m) p (ahead ds) (halted .tooDeep) := by
  have hclosing : (Peg.before Peg.gap (Peg.text ")")).isShallow = true := rfl
  cases h with
  | seqLeft htext => exact absurd rfl (htext.shallow rfl)
  | seqRight htext h =>
    refine ⟨_, htext.text_inv, fun m hm => ?_⟩
    subst hm
    cases h.pastGap_inv with
    | seqLeft hdeeper =>
      cases hdeeper with
      | deeper hroom hdeep =>
        cases hroom
        exact hdeep
      | noRoom hroom => cases hroom
    | seqRight _ hclose => exact absurd rfl (hclose.shallow hclosing)

theorem Reads.enclosed_matched (h : Reads .unlimited p.enclosed cs (matched v rest)) :
    ∃ ds mid, cs = '(' :: ds ∧ Reads .unlimited p (ahead ds) (matched v mid) ∧ ¬ GoesOn mid := by
  cases h with
  | seq htext h =>
    cases h.pastGap_inv with
    | seq hdeeper hclose =>
      cases hdeeper with
      | deeper hroom hread =>
        cases hroom
        exact ⟨_, _, htext.text_inv, hread, not_goesOn_closing rfl (Or.inl rfl) hclose⟩

/-- Inside of brackets nothing strays: the text goes on where the bracket should close. -/
theorem enclosed_strays (hinner : ∀ m, n = m + 1 → p.Strays m weight GoesOn given)
    (hweight : ∀ v, weight v + 1 ≤ weight' v) :
    p.enclosed.Strays n weight' (fun _ => False) Opening where
  matched cs v rest hdeep hread := by
    obtain ⟨ds, rfl, hinside⟩ := hdeep.enclosed_tooDeep
    obtain ⟨ds', mid, htext, hmatched, hstop⟩ := hread.enclosed_matched
    obtain ⟨-, rfl⟩ := List.cons_eq_cons.mp htext
    refine Or.inl (lt_of_lt_of_le ?_ (hweight v))
    cases n with
    | zero => exact Nat.succ_pos _
    | succ m =>
      have hfits := ((hinner m rfl).matched (hinside m rfl) hmatched).resolve_right hstop
      exact Nat.succ_lt_succ hfits
  failed cs hdeep _ := by
    obtain ⟨ds, rfl, -⟩ := hdeep.enclosed_tooDeep
    exact ⟨ds, rfl⟩

end enclosed

/-! ## Lists -/

section lists

variable {α : Type} {p : Peg α} {weight : α → Nat}

/-- The elements of a list behind the first one, and the comma at its end. -/
def Peg.others (p : Peg α) : Peg (List α) :=
  followedBy (many (before gap (before (text ",") (before gap p))))
    (before gap (optional (text ",")))

theorem comma_failed {β : Type} (q : Peg β) (h : GoesOn cs) :
    Reads room (Peg.before Peg.gap (Peg.before (Peg.text ",") q)) cs (halted .failed) := by
  obtain ⟨c, ds, hcs, -, hcomma⟩ := h
  refine .pastGap (.seqLeft (.text_failed rfl ?_))
  rw [hcs]
  exact beq_eq_false_iff_ne.mpr (Ne.symm hcomma)

/-- No comma is read at the end of a list where the text goes on. -/
theorem trailingComma_leaves {o : Option Unit} (h : GoesOn cs)
    (hread : Reads room (Peg.before Peg.gap (Peg.optional (Peg.text ","))) cs (matched o rest)) :
    GoesOn rest := by
  obtain ⟨c, ds, hcs, -, hcomma⟩ := id h
  have hfailed : Reads room (Peg.text ",") (ahead cs) (halted .failed) := by
    refine .text_failed rfl ?_
    rw [hcs]
    exact beq_eq_false_iff_ne.mpr (Ne.symm hcomma)
  cases hread.pastGap_inv.unique (.optionalNone hfailed)
  exact goesOn_ahead.mpr h

theorem others_leave {vs : List α} (h : GoesOn cs)
    (hread : Reads room p.others cs (matched vs rest)) : GoesOn rest := by
  cases hread with
  | seq hmany hend =>
    cases hmany.unique (.starEnd (comma_failed _ h))
    exact trailingComma_leaves h hend

/-- A comma before a text that goes on. -/
def AtComma (cs : List Char) : Prop := ∃ ds, ahead cs = ',' :: ds ∧ GoesOn ds

/-- An element that strays stops the list, and so does one that is given up behind a comma. -/
theorem commaList_strays {weight' : List α → Nat} {given given' : List Char → Prop}
    (hp : p.Strays n weight GoesOn given) (hopens : p.Opens)
    (hweight : ∀ vs, tallest weight vs ≤ weight' vs) :
    p.commaList.Strays n weight' GoesOn given' := by
  have hround : (Peg.before Peg.gap (Peg.before (Peg.text ",") (Peg.before Peg.gap p))).Strays n
      weight GoesOn AtComma := by
    have hcomma : (Peg.before (Peg.text ",") (Peg.before Peg.gap p)).Strays n weight GoesOn
        fun cs => ∃ ds, cs = ',' :: ds ∧ GoesOn ds :=
      .after rfl hp.pastGap (fun _ _ => le_rfl) fun hcomma hdeep =>
        ⟨_, hcomma.text_inv, hopens.gapBefore hdeep (by simp)⟩
    exact hcomma.pastGap
  have hmany : (Peg.many (Peg.before Peg.gap (Peg.before (Peg.text ",")
      (Peg.before Peg.gap p)))).Strays n (tallest weight) (fun cs => GoesOn cs ∨ AtComma cs) given :=
    hround.star (comma_failed _) (fun _ => le_rfl) fun _ h => h
  have htrailing : (Peg.before Peg.gap (Peg.optional (Peg.text ","))).Strays n (fun _ => 0) GoesOn
      given := .shallow rfl
  have hothers : p.others.Strays n (tallest weight) GoesOn given := by
    refine .seq hmany htrailing ?_ (fun _ _ => ⟨le_rfl, Nat.zero_le _⟩) ?_
    · intro cs h
      exact Peg.optional_succeeds _ _ h.pastGap_inv
    · rintro mid o rest (hgoes | ⟨ds, hcs, hgoes⟩) hread
      · exact trailingComma_leaves hgoes hread
      · have hcomma : Reads .unlimited (Peg.text ",") (ahead mid) (matched () ds) :=
          hcs ▸ .oneText rfl
        cases hread.pastGap_inv.unique (.optionalSome hcomma)
        exact hgoes
  have hlist : (Peg.seq (fun a as => a :: as) p p.others).Strays n (tallest weight)
      GoesOn GoesOn := by
    refine .seq (hp.opens hopens) hothers ?_
      (fun v vs => ⟨Nat.le_max_left _ _, Nat.le_max_right _ _⟩) others_leave
    intro cs h
    cases h with
    | seqLeft h => exact Peg.star_succeeds _ _ _ h
    | seqRight _ h => exact Peg.optional_succeeds _ _ h.pastGap_inv
  have hoptional : (Peg.optional (Peg.seq (fun a as => a :: as) p p.others)).Strays n
      (fun o => tallest weight (o.getD [])) GoesOn given' :=
    hlist.optional (fun _ => le_rfl) fun h => h
  exact hoptional.map fun _ => hweight _

end lists

/-! ## Arrays -/

theorem closes_of_not_goesOn (h : ¬ GoesOn cs) : Closes (ahead cs) := by
  intro c hc
  obtain ⟨ds, hcs⟩ : ∃ ds, ahead cs = c :: ds := by
    cases hcs : ahead cs with
    | nil => simp [hcs] at hc
    | cons d ds =>
      rw [hcs] at hc
      obtain rfl := Option.some.inj hc
      exact ⟨ds, rfl⟩
  by_contra hnot
  obtain ⟨hclose, hcomma⟩ := not_or.mp hnot
  exact h ⟨c, ds, hcs, hclose, hcomma⟩

/-- No operator is found where an element of an array ends. -/
theorem slot_closed {slot : Slot} (hslot : slot.IsRegular) (h : ¬ GoesOn cs) :
    Reads room slot.peg (ahead cs) (halted .failed) :=
  Slot.missed_ender hslot (closes_of_not_goesOn h).endsToken

/-- A test fails with its operator, and where there is no gap before it. -/
theorem Reads.test_failed (h : Reads room Slot.test.peg (ahead cs) (halted .failed)) :
    Reads room (.call .test) cs (halted .failed) := by
  cases hsplit : Terminal.splitGap false cs with
  | mk gap rest =>
    by_cases hgap : gap = []
    · have hnone : Terminal.someGap cs = .missing [] := by simp [Terminal.someGap, hsplit, hgap]
      exact .call (.seqLeft (someGap_obeys.missing hnone))
    · have hsome : Terminal.someGap cs = .found () gap rest := by
        cases gap with
        | nil => exact absurd rfl hgap
        | cons c gap => simp [Terminal.someGap, hsplit]
      rw [ahead, hsplit] at h
      exact .call (.seqRight (someGap_obeys.found hsome) (.seqLeft h))

/-- A primary is an expression of its own where an element of an array ends. -/
theorem Reads.expression_of_primary (h : Reads room (.call .primaryExpression) cs (matched d rest))
    (hrest : ¬ GoesOn rest) : Reads room (.call .expression) cs (matched d rest) := by
  have hrange : Reads room Peg.range (ahead rest) (halted .failed) :=
    .range (slot_closed (slots_find (Slot.between, Operator.ranges) (by simp)).1 hrest)
  have htest : Reads room Slot.test.peg (ahead rest) (halted .failed) :=
    slot_closed (slots_find (Slot.test, Operator.tests) (by simp)).1 hrest
  have hin : Reads room Slot.oneOf.peg (ahead rest) (halted .failed) :=
    slot_closed (slots_find (Slot.oneOf, Operator.memberships) (by simp)).1 hrest
  have hcompare : Reads room (.call .compare) rest (halted .failed) := .call (.pastGap (.seqLeft
    (slot_closed (slots_find (Slot.compare, Operator.comparisons) (by simp)).1 hrest)))
  have hlogic : Reads room (.call .logic) rest (halted .failed) := .call (.pastGap (.seqLeft
    (slot_closed (slots_find (Slot.logic, Operator.logics) (by simp)).1 hrest)))
  have hbetween : Reads room (.call .betweenExpression) cs (matched d rest) :=
    .call (.seq h (.optionalNone (.pastGap (.seqLeft hrange))))
  have hpredicate : Reads room (.call .predicateExpression) cs (matched d rest) :=
    .call (.seq hbetween (.optionalNone (.test_failed htest)))
  have hmembership : Reads room (.call .compareInExpression) cs (matched d rest) :=
    .call (.seq hpredicate (.optionalNone (.pastGap (.seqLeft hin))))
  have hcomparison : Reads room (.call .compareExpression) cs (matched d rest) :=
    .call (.seq hmembership (.starEnd (.seqLeft hcompare)))
  exact .call (.call (.seq (.call (.choiceLeft hcomparison)) (.starEnd (.seqLeft hlogic))))

theorem Reads.expression_literal {l : Literal}
    (h : ∀ room, Reads room (.call .literal) cs (matched l rest)) (hrest : ¬ GoesOn rest) :
    Reads room (.call .expression) cs (matched (.literal l) rest) := by
  have hopen : Terminal.startsWith ('(' == ·) cs = false := by
    by_contra hopen
    cases cs with
    | nil => simp [Terminal.startsWith] at hopen
    | cons c cs =>
      obtain rfl : '(' = c := by simpa [Terminal.startsWith] using hopen
      cases (h room).unique (.literal_failed (no_literalWord rfl) rfl)
  refine .expression_of_primary ?_ hrest
  exact .call (.choiceRight (.seqLeft (.seqLeft (.text_failed rfl hopen)))
    (.choiceLeft (.call (.choiceLeft (.map Draft.literal (h room))))))

theorem Reads.bracketed_inv {opening closing : String} {ls : List Literal}
    (h : Reads room (Peg.bracketed opening closing) cs (matched ls rest)) :
    ∃ ds mid, cs = opening.toList ++ ds ∧
      Reads room (Peg.commaList (.call .literal)) (ahead ds) (matched ls mid) ∧
        Reads room (Peg.before Peg.gap (Peg.text closing)) mid (matched () rest) := by
  cases h with
  | seq htext h =>
    cases h.pastGap_inv with
    | seq hlist hclose => exact ⟨_, _, htext.text_inv, hlist, hclose⟩

/-- The first element of a list that closes, if there is one, ends where the list can go on. -/
theorem Reads.commaList_first {α : Type} {p : Peg α} {vs : List α}
    (h : Reads room p.commaList cs (matched vs rest)) (hstop : ¬ GoesOn rest) :
    ¬ GoesOn cs ∨ ∃ v mid, Reads room p cs (matched v mid) ∧ ¬ GoesOn mid := by
  cases h with
  | seq hoptional hpure =>
    cases hpure
    cases hoptional with
    | choiceLeft h =>
      cases h with
      | seq h hpure =>
        cases hpure
        cases h with
        | seq hfirst hothers =>
          exact Or.inr ⟨_, _, hfirst, fun hgoes => hstop (others_leave hgoes hothers)⟩
    | choiceRight _ hnone =>
      cases hnone
      exact Or.inl hstop

/-- What is read as an array in round brackets: an expression inside of it is never too deep, for
it begins with a literal that ends there, or there is none. -/
theorem Reads.array_shallow {ds : List Char}
    (h : Reads .unlimited (.call .value) ('(' :: ds) (matched d rest)) :
    d.demand = 1 ∧ ∀ room, ¬ Reads room (.call .expression) (ahead ds) (halted .tooDeep) := by
  have hliteral : Reads .unlimited (.call .literal) ('(' :: ds) (halted .failed) :=
    .literal_failed (no_literalWord rfl) rfl
  have hsquare : Reads .unlimited (Peg.bracketed "[" "]") ('(' :: ds) (halted .failed) :=
    .seqLeft (.text_failed rfl rfl)
  obtain ⟨ls, rfl, hround⟩ : ∃ ls, d = .array ls ∧
      Reads .unlimited (Peg.bracketed "(" ")") ('(' :: ds) (matched ls rest) := by
    cases h with
    | call h =>
      cases h with
      | choiceLeft h =>
        cases h with
        | seq h _ => cases h.unique hliteral
      | choiceRight _ h =>
        cases h with
        | seq h hpure =>
          cases hpure
          cases h with
          | call h =>
            cases h with
            | choiceLeft h => cases h.unique hsquare
            | choiceRight _ h => exact ⟨_, rfl, h⟩
  obtain ⟨ds', mid, htext, hlist, hclose⟩ := hround.bracketed_inv
  obtain ⟨-, rfl⟩ := List.cons_eq_cons.mp htext
  refine ⟨rfl, fun room hdeep => ?_⟩
  rcases hlist.commaList_first (not_goesOn_closing rfl (Or.inl rfl) hclose) with
    hstop | ⟨l, mid', hread, hstop⟩
  · exact hstop (expression_opens hdeep (by simp))
  · have hread : ∀ room, Reads room (.call .literal) (ahead ds) (matched l mid') := fun room =>
      literal_realizes.toRealizes.reads_anywhere rfl hread
    cases hdeep.unique (.expression_literal hread hstop)

/-! ## The layers of an expression -/

/-- Where a bracket was not read no slot finds an operator. -/
theorem slot_opening {slot : Slot} (hslot : slot.all (·.first?.isSome) = true)
    (hfirsts : leads slot.firsts '(' = false) (h : Opening cs) :
    Reads room slot.peg (ahead cs) (halted .failed) := by
  obtain ⟨ds, rfl⟩ := h
  rw [ahead_firm (by decide)]
  exact Slot.unled hslot hfirsts

/-- An operand with something after it that is no bracket. -/
theorem suffix_strays {α : Type} {p : Peg Draft} {q : Peg α} {f : Draft → Option α → Draft}
    (hp : p.Strays n Draft.demand Opening Opening) (hq : q.isShallow = true)
    (hstop : ∀ {cs}, Opening cs → Reads .unlimited q cs (halted .failed))
    (hdemand : ∀ d o, d.demand ≤ (f d o).demand) :
    (Peg.seq f p q.optional).Strays n Draft.demand Opening Opening := by
  have hsuffix : q.optional.Strays n (fun _ => 0) Opening Opening :=
    .shallow (by simp [Peg.optional, Peg.map, Peg.isShallow, hq])
  refine .seq hp hsuffix q.optional_succeeds
    (fun d o => ⟨hdemand d o, Nat.zero_le _⟩) ?_
  intro mid o rest hopening hread
  cases hread.unique (.optionalNone (hstop hopening))
  exact hopening

/-- A chain ends where an operand strays, or before an operator whose operand is given up. -/
theorem chain_strays {slot : Slot} {firsts : List Char} {op : Symbol Operator} {part : Symbol Draft}
    {make : Draft → Operator → Draft → Draft} {w : Operator × Draft → Nat}
    {given : List Char → Prop}
    (hbody : op.body = Peg.before Peg.gap (Peg.followedBy slot.peg Peg.gap))
    (hshallow : op.isShallow = true) (hslot : slot.all (·.first?.isSome) = true)
    (hfirsts : firsts.all (fun a => !leads slot.firsts a) = true)
    (hpart : (Peg.call part).Strays n Draft.demand (Stuck firsts) given)
    (hweight : ∀ {cs o mid}, Reads .unlimited (.call op) cs (matched o mid) →
      ∀ r : Draft, r.demand ≤ w (o, r))
    (hmake : ∀ l o r, (make l o r).demand = max l.demand (w (o, r))) :
    (Peg.seq (Draft.foldLeft make) (.call part)
      (Peg.many (Peg.pair (.call op) (.call part)))).Strays n Draft.demand
        (Stuck (firsts ++ slot.firsts)) given := by
  have hstop : ∀ {cs}, Stuck firsts cs → Reads .unlimited (.call op) cs (halted .failed) := by
    intro cs hcs
    refine .call ?_
    rw [hbody]
    exact .pastGap (.seqLeft (Slot.stuck_failed hslot hfirsts hcs))
  have hround : (Peg.pair (.call op) (.call part)).Strays n w (Stuck firsts)
      (Stuck slot.firsts) := by
    refine .after hshallow hpart hweight fun hread _ => ?_
    cases hread with
    | call hread =>
      rw [hbody] at hread
      exact Slot.stuck_of_matched hslot hread
  have hmany : (Peg.many (Peg.pair (.call op) (.call part))).Strays n (tallest w)
      (Stuck (firsts ++ slot.firsts)) given := by
    refine hround.star (fun hcs => .seqLeft (hstop hcs)) (fun _ => le_rfl) fun cs hcs => ?_
    rcases hcs with hcs | hcs
    · exact hcs.mono (List.subset_append_left _ _)
    · exact hcs.mono (List.subset_append_right _ _)
  refine .seq hpart hmany (Peg.star_succeeds _ _) (Draft.demand_foldLeft hmake) ?_
  intro mid parts rest hmid hread
  cases hread.unique (.starEnd (.seqLeft (hstop hmid)))
  exact hmid.mono (List.subset_append_left _ _)

/-- A name before a bracket that was not read is a reference. -/
theorem Reads.reference_opening {name : String} {mid : List Char} {o : Result Draft}
    (hname : Reads .unlimited (.call .identifier) cs (matched name mid)) (hmid : Opening mid)
    (h : Reads .unlimited (.call .reference) cs o) : ∃ d, o = matched d mid := by
  obtain ⟨ds, rfl⟩ := hmid
  have hstep : ∀ accessor, Reads .unlimited (Peg.step accessor) ('(' :: ds) (halted .failed) := by
    intro accessor
    cases accessor with
    | dot => exact .seqLeft (.text_failed rfl rfl)
    | arrow => exact .seqLeft (.text_failed rfl rfl)
  have hread : Reads .unlimited (.call .reference) cs (matched (.ofPath name []) ('(' :: ds)) :=
    .call (.map _ (.seq hname (.seq (.starEnd (hstep .dot)) (.starEnd (hstep .arrow)))))
  exact ⟨_, h.unique hread⟩

/-- What begins with a bracket and is not read as parentheses is an array. -/
theorem opening_strays {ds : List Char}
    (hdeep : ∀ m, n = m + 1 → Reads (.limited m) (.call .expression) (ahead ds) (halted .tooDeep))
    (hread : Reads .unlimited (.choice (.call .value) (.choice
      (.seq Draft.function (.call .identifier) (.call .argumentList)) (.call .reference)))
      ('(' :: ds) (matched d rest)) : n < d.demand := by
  have hname : Reads .unlimited (.call .identifier) ('(' :: ds) (halted .failed) := .name_failed rfl
  cases hread with
  | choiceLeft hvalue =>
    obtain ⟨hdemand, hshallow⟩ := hvalue.array_shallow
    rw [hdemand]
    cases n with
    | zero => exact Nat.one_pos
    | succ m => exact absurd (hdeep m rfl) (hshallow _)
  | choiceRight _ hread =>
    cases hread with
    | choiceLeft hfunction => cases hfunction.unique (.seqLeft hname)
    | choiceRight _ hreference =>
      cases hreference.unique (.call (.seqLeft (.seqLeft hname)))

section levels

variable (hinner : ∀ m, n = m + 1 →
  (Peg.call .expression).Strays m Draft.demand GoesOn fun _ => True)

include hinner

theorem function_strays : (Peg.seq Draft.function (.call .identifier) (.call .argumentList)).Strays n
    Draft.demand (fun _ => False) fun cs =>
      ∃ name mid, Reads .unlimited (.call .identifier) cs (matched name mid) ∧ Opening mid := by
  have harguments : ∀ m, n = m + 1 → (Peg.commaList (.call .argument)).Strays m
      (tallest Draft.demand) GoesOn fun _ => True := fun m hm =>
    commaList_strays (.call (hinner m hm)) (.call expression_opens) fun _ => le_rfl
  have hlist : (Peg.call .argumentList).Strays n (tallest Draft.demand · + 1) (fun _ => False)
      Opening := .call (enclosed_strays harguments fun _ => le_rfl)
  refine .after rfl hlist (fun _ ds => (congrArg (· + 1) (Draft.tallest_demand ds)).le)
    fun hname hdeep => ⟨_, _, hname, ?_⟩
  cases hdeep with
  | call hdeep =>
    obtain ⟨ds, hds, -⟩ := hdeep.enclosed_tooDeep
    exact ⟨ds, hds⟩

/-- Where an argument list is given up its name is read as a reference, up to the bracket. -/
theorem named_strays : (Peg.choice (.seq Draft.function (.call .identifier) (.call .argumentList))
    (.call .reference)).Strays n Draft.demand Opening fun _ => False := by
  have hfunction := function_strays hinner
  refine ⟨fun cs d rest hdeep hread => ?_, fun cs hdeep hread => ?_⟩
  all_goals
    cases hdeep with
    | choiceRight _ hdeep => exact absurd rfl (hdeep.shallow rfl)
    | choiceDeep hdeep => ?_
  · cases hread with
    | choiceLeft hread => exact (hfunction.matched hdeep hread).imp_right False.elim
    | choiceRight hfailed hread =>
      obtain ⟨name, mid, hname, hmid⟩ := hfunction.failed hdeep hfailed
      obtain ⟨d, ho⟩ := Reads.reference_opening hname hmid hread
      cases ho
      exact Or.inr hmid
  · cases hread with
    | choiceRight hfailed hread =>
      obtain ⟨name, mid, hname, hmid⟩ := hfunction.failed hdeep hfailed
      obtain ⟨d, ho⟩ := Reads.reference_opening hname hmid hread
      cases ho

theorem primary_strays :
    (Peg.call .primaryExpression).Strays n Draft.demand Opening Opening := by
  have hparentheses : (Peg.map Draft.parentheses (Peg.enclosed (.call .expression))).Strays n
      Draft.demand (fun _ => False) Opening :=
    .map (enclosed_strays hinner fun _ => le_rfl) fun _ => le_rfl
  have hothers : (Peg.choice (.call .value) (.choice (.seq Draft.function (.call .identifier)
      (.call .argumentList)) (.call .reference))).Strays n Draft.demand Opening fun _ => False :=
    .otherwise rfl (named_strays hinner)
  refine .call ⟨fun cs d rest hdeep hread => ?_, fun cs hdeep hread => ?_⟩
  · cases hdeep with
    | choiceDeep hdeep =>
      cases hread with
      | choiceLeft hread => exact (hparentheses.matched hdeep hread).imp_right False.elim
      | choiceRight _ hread =>
        cases hdeep with
        | seqRight _ hpure => cases hpure
        | seqLeft hdeep =>
          obtain ⟨ds, rfl, hinside⟩ := hdeep.enclosed_tooDeep
          exact Or.inl (opening_strays hinside hread)
    | choiceRight hfailed hdeep =>
      cases hread with
      | choiceLeft hread => cases hfailed.failed_eq hread
      | choiceRight _ hread => exact hothers.matched hdeep hread
  · cases hread with
    | choiceRight hfailed hread =>
      cases hdeep with
      | choiceDeep hdeep => exact hparentheses.failed hdeep hfailed
      | choiceRight _ hdeep => exact (hothers.failed hdeep hread).elim

theorem membership_strays :
    (Peg.call .compareInExpression).Strays n Draft.demand Opening Opening := by
  have hbetween : (Peg.call .betweenExpression).Strays n Draft.demand Opening Opening := by
    refine .call (suffix_strays (primary_strays hinner) rfl (fun hcs => ?_) fun d o => ?_)
    · exact .pastGap (.seqLeft (.range (slot_opening rfl (by decide) hcs)))
    · cases o <;> exact le_rfl
  have hpredicate : (Peg.call .predicateExpression).Strays n Draft.demand Opening Opening := by
    refine .call (suffix_strays hbetween rfl (fun hcs => ?_) fun d o => ?_)
    · exact .test_failed (slot_opening rfl (by decide) hcs)
    · cases o <;> exact le_rfl
  refine .call (suffix_strays hpredicate rfl (fun hcs => ?_) fun d o => ?_)
  · exact .pastGap (.seqLeft (slot_opening rfl (by decide) hcs))
  · cases o with
    | none => exact le_rfl
    | some part =>
      have hleft : d.demand ≤ (Draft.compare d part.1 (.array part.2)).demand := by
        simp only [Draft.demand, Draft.build, Node.demand]
        split
        · exact le_rfl
        · exact le_max_left _ _
      exact hleft

/-- The levels that an operand of a comparison adds. -/
def comparedDemand (part : Operator × Draft) : Nat :=
  if part.1 ∈ Operator.memberships then 0 else part.2.demand

theorem comparison_strays : (Peg.call .compareExpression).Strays n Draft.demand
    (Stuck ('(' :: Slot.compare.firsts)) Opening := by
  have hpart : (Peg.call .compareInExpression).Strays n Draft.demand (Stuck ['(']) Opening :=
    (membership_strays hinner).mono (fun _ => le_rfl)
      (fun _ h => Stuck.of_opening h (List.mem_singleton_self _)) fun _ h => h
  have hoperand : ∀ {cs o mid}, Reads .unlimited (.call .compare) cs (matched o mid) →
      ∀ r : Draft, r.demand ≤ comparedDemand (o, r) := by
    intro cs o mid hread r
    have hdisjoint : ∀ o ∈ Operator.comparisons, o ∉ Operator.memberships := by decide
    rw [comparedDemand, if_neg (hdisjoint o hread.forms)]
  refine .call (chain_strays rfl rfl rfl (by decide) hpart hoperand fun l o r => ?_)
  simp only [Draft.demand, Draft.build, Node.demand, comparedDemand]
  split
  · exact (Nat.max_zero _).symm
  · rfl

theorem negation_strays : (Peg.call .notExpression).Strays n Draft.demand
    (Stuck ('(' :: Slot.compare.firsts)) fun _ => True := by
  have hcomparison := comparison_strays hinner
  have hnot : (Peg.map Draft.not (Peg.before Peg.gap (Peg.before (Peg.keyword "not")
      (Peg.before Peg.gap (.call .compareExpression))))).Strays n Draft.demand
      (Stuck ('(' :: Slot.compare.firsts)) fun _ => True := by
    have hword : (Peg.before (Peg.keyword "not")
        (Peg.before Peg.gap (.call .compareExpression))).Strays n Draft.demand
        (Stuck ('(' :: Slot.compare.firsts)) fun _ => True :=
      .after rfl hcomparison.pastGap (fun _ _ => le_rfl) fun _ _ => trivial
    exact .map hword.pastGap fun _ => le_rfl
  refine .call (.choice hcomparison hnot fun {cs} hcs => ?_)
  obtain ⟨ds, rfl⟩ := hcs
  refine .seqLeft (.pastGap (.seqLeft ?_))
  rw [ahead_firm (by decide)]
  exact .keyword_failed (by decide) (by simp [Terminal.isIdentifierChar, Char.isAlphanum])

theorem expressionOver_strays :
    (Peg.call .expression).Strays n Draft.demand GoesOn fun _ => True := by
  have hchain : (Peg.call .logicExpression).Strays n Draft.demand
      (Stuck ('(' :: Slot.compare.firsts ++ Slot.logic.firsts)) fun _ => True :=
    .call (chain_strays rfl rfl rfl (by decide) (negation_strays hinner) (w := (·.2.demand))
      (fun _ _ => le_rfl) fun _ _ _ => rfl)
  exact .call (hchain.mono (fun _ => le_rfl) (fun _ h => h.goesOn (by decide)) fun _ h => h)

end levels

/-- By induction on the levels of brackets that there is room for. -/
theorem expression_strays (n : Nat) :
    (Peg.call .expression).Strays n Draft.demand GoesOn fun _ => True := by
  induction n with
  | zero => exact expressionOver_strays fun m hm => absurd hm.symm (Nat.succ_ne_zero m)
  | succ n ih => exact expressionOver_strays fun m hm => Nat.succ.inj hm ▸ ih

/-- A query that is too deep for so many levels, but not without a limit, takes more of them. -/
theorem grammar_demands (hdeep : Reads (.limited n) (.call .grammar) cs (halted .tooDeep))
    (hread : Reads .unlimited (.call .grammar) cs (matched d rest)) : n < d.demand := by
  obtain ⟨mid, hexpression, hend⟩ := hread.grammar_inv
  have hstop : ¬ GoesOn mid := by
    rintro ⟨c, ds, hmid, -⟩
    cases hend.symm.trans hmid
  have hlast : (Peg.before Peg.gap Peg.endOfText).isShallow = true := rfl
  cases hdeep with
  | call hdeep =>
    cases hdeep.pastGap_inv with
    | seqLeft hdeep => exact ((expression_strays n).matched hdeep hexpression).resolve_right hstop
    | seqRight _ hdeep => exact absurd rfl (hdeep.shallow hlast)

end Grammar

end FilterQuery
