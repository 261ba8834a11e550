import FilterQuery.Proofs.Contract
import FilterQuery.Proofs.Nests
import FilterQuery.Proofs.Overrun
import FilterQuery.Proofs.ReadBack

/-!
Where the nesting limit is hit. A rule hits the limit in its first part that does so, once the
parts before it have matched or failed as the grammar has it. In the canonical text of a tree that
nests too deep this is at the first bracket that opens one level too many, and since the place
where the limit was hit first is kept, that is where the error of the parse stands.
-/
namespace FilterQuery.Grammar

open Number Scanner Text Result Assembly

variable {α β : Type} {room : Room} {r : Rule} {peg : Peg α} {e : α → Assembly → Assembly}
  {s : State} {cs mid rest tail after : List Char}

/-! ## Runs by what the grammar reads -/

namespace Realizes

theorem run_of_matched (hr : Realizes r room peg e) {a : α} {before : List Char}
    (hread : Reads room peg (before ++ rest) (.matched a rest))
    (hrest : s.cursor.rest = before ++ rest) (hs : s.tooDeep = none) :
    ∃ s', r.run s = (true, s') ∧ s'.cursor.rest = rest ∧
      s'.cursor.offset = s.cursor.offset + byteSize before ∧ s'.tooDeep = none := by
  rw [← hrest] at hread
  cases hrun : r.run s with
  | mk b s' =>
    have hs' : s'.tooDeep = none := by
      by_contra hs'
      cases (hr.stopped hrun hs hs').unique hread
    cases b with
    | false => cases ((hr.failed hrun).2 hs').unique hread
    | true =>
      obtain ⟨_, -, hreads⟩ := hr.matched hrun
      cases (hreads hs').unique hread
      obtain ⟨passed, hpassed, hoffset⟩ := Rule.run_reaches hr.splits s
      rw [hrun] at hpassed hoffset
      obtain rfl := List.append_cancel_right (hrest.symm.trans hpassed)
      exact ⟨s', rfl, rfl, hoffset, hs'⟩

theorem run_of_failed (hr : Realizes r room peg e)
    (hread : Reads room peg s.cursor.rest (halted .failed)) (hs : s.tooDeep = none) :
    ∃ s', r.run s = (false, s') ∧ s'.tooDeep = none := by
  cases hrun : r.run s with
  | mk b s' =>
    have hs' : s'.tooDeep = none := by
      by_contra hs'
      cases (hr.stopped hrun hs hs').unique hread
    cases b with
    | false => exact ⟨s', rfl, hs'⟩
    | true =>
      obtain ⟨_, -, hreads⟩ := hr.matched hrun
      cases (hreads hs').unique hread

end Realizes

/-! ## Hitting the limit -/

namespace Rule

variable {p q : Rule}

/-- From this text on the rule hits the nesting limit, the first time with that text ahead. -/
def HitsAt (r : Rule) (cs after : List Char) : Prop :=
  ∃ passed, cs = passed ++ after ∧ ∀ ⦃s : State⦄, s.cursor.rest = cs → s.tooDeep = none →
    (r.run s).2.tooDeep = some (s.cursor.offset + byteSize passed)

theorem limit_hits (cs : List Char) : limit.HitsAt cs cs := by
  refine ⟨[], rfl, fun s _ hs => ?_⟩
  simp [run, State.hitLimit, hs, byteSize]

theorem deeper_hits (hp : p.HitsAt cs after) : (deeper p).HitsAt cs after := by
  obtain ⟨passed, htext, hhit⟩ := hp
  exact ⟨passed, htext, fun s hrest hs => hhit (s := s.descend) hrest hs⟩

theorem undoing_tooDeep (step : Step) (s : State) :
    (Step.undoing step s).2.tooDeep = (step s).2.tooDeep := by
  unfold Step.undoing
  split
  · next heq => rw [heq]
  · next heq =>
    rw [heq]
    rfl

theorem attempt_hits (hp : p.HitsAt cs after) : (attempt p).HitsAt cs after := by
  obtain ⟨passed, htext, hhit⟩ := hp
  exact ⟨passed, htext, fun s hrest hs => (undoing_tooDeep p.run s).trans (hhit hrest hs)⟩

theorem named_hits {name : String} (hp : p.HitsAt cs after) : (named name p).HitsAt cs after := by
  obtain ⟨passed, htext, hhit⟩ := hp
  refine ⟨passed, htext, fun s hrest hs => ?_⟩
  simp only [run, hs, Option.isSome_none, Bool.false_eq_true, if_false]
  exact (undoing_tooDeep _ s).trans (hhit (s := s.enter name) hrest hs)

theorem andThen_hits_left (hp : p.HitsAt cs after) : (andThen p q).HitsAt cs after := by
  obtain ⟨passed, htext, hhit⟩ := hp
  refine ⟨passed, htext, fun s hrest hs => ?_⟩
  have hdeep := hhit hrest hs
  simp only [run]
  split
  · next heq =>
    rw [heq] at hdeep
    exact q.run_tooDeep hdeep
  · next heq => rwa [heq] at hdeep

theorem andThen_hits_act {a : Action} (hq : q.HitsAt cs after) :
    (andThen (act a) q).HitsAt cs after := by
  obtain ⟨passed, htext, hhit⟩ := hq
  exact ⟨passed, htext, fun s hrest hs => hhit (s := s.perform a) hrest hs⟩

/-- Past what the first rule matches, the limit is hit where the second one hits it. -/
theorem andThen_hits_right (hp : Realizes p room peg e) {a : α}
    (hread : Reads room peg cs (matched a mid)) (hq : q.HitsAt mid after) :
    (andThen p q).HitsAt cs after := by
  obtain ⟨passed, rfl, hhit⟩ := hq
  obtain ⟨before, rfl⟩ := hread.suffix rfl
  refine ⟨before ++ passed, (List.append_assoc ..).symm, fun s hrest hs => ?_⟩
  obtain ⟨s₁, hrun, hrest₁, hoffset, hs₁⟩ := hp.run_of_matched hread hrest hs
  simp only [run, hrun]
  rw [hhit hrest₁ hs₁, hoffset, byteSize_append, Nat.add_assoc]

theorem orElse_hits_left (hp : p.HitsAt cs after) : (orElse p q).HitsAt cs after := by
  obtain ⟨passed, htext, hhit⟩ := hp
  refine ⟨passed, htext, fun s hrest hs => ?_⟩
  have hdeep := hhit hrest hs
  simp only [run]
  split
  · next heq => rwa [heq] at hdeep
  · next heq =>
    rw [heq] at hdeep
    exact q.run_tooDeep hdeep

/-- Where the first alternative fails, the limit is hit where the second one hits it. -/
theorem orElse_hits_right (hp : RealizesExactly p room peg e)
    (hread : Reads room peg cs (halted .failed)) (hq : q.HitsAt cs after) :
    (orElse p q).HitsAt cs after := by
  obtain ⟨passed, htext, hhit⟩ := hq
  refine ⟨passed, htext, fun s hrest hs => ?_⟩
  obtain ⟨s₁, hrun, hs₁⟩ := hp.toRealizes.run_of_failed (hrest ▸ hread) hs
  have hsame := hp.restores s s₁ hrun
  have hdeep := hhit (hsame.rest.trans hrest) hs₁
  simpa only [run, hrun, hsame.offset] using hdeep

/-- A repetition hits the limit in the round that does. The induction is on the rounds before it,
each of which takes something off the text that is left. -/
theorem repeatUpTo_hits (hr : Realizes r room peg e) (hpeg : peg.Consumes) {as : List α}
    (hrounds : Rounds room peg cs as mid) (hhit : r.HitsAt mid after) :
    ∃ passed, cs = passed ++ after ∧ ∀ ⦃rounds : Nat⦄ ⦃s : State⦄, s.cursor.rest = cs →
      s.tooDeep = none → cs.length < rounds →
        (Step.repeatUpTo r.run rounds s).2.tooDeep = some (s.cursor.offset + byteSize passed) := by
  induction hrounds with
  | none cs =>
    obtain ⟨passed, htext, hhit⟩ := hhit
    refine ⟨passed, htext, fun rounds s hrest hs hlt => ?_⟩
    obtain ⟨rounds, rfl⟩ := Nat.exists_eq_add_of_lt hlt
    have hdeep := (undoing_tooDeep r.run s).trans (hhit hrest hs)
    unfold Step.repeatUpTo
    split
    · next heq => rwa [heq] at hdeep
    · next heq =>
      rw [heq] at hdeep
      split
      · exact hdeep
      · exact (invariant_tooDeep _).repeatUpTo (fun _ => r.run_tooDeep) _ _ hdeep
  | @more cs mid' mid a as hread hrounds ih =>
    obtain ⟨passed, rfl, hmore⟩ := ih hhit
    obtain ⟨before, rfl⟩ := hread.suffix rfl
    refine ⟨before ++ passed, (List.append_assoc ..).symm, fun rounds s hrest hs hlt => ?_⟩
    obtain ⟨rounds, rfl⟩ := Nat.exists_eq_add_of_lt hlt
    obtain ⟨s₁, hrun, hrest₁, hoffset, hs₁⟩ := hr.run_of_matched hread hrest hs
    have hshort := hpeg hread
    have hreach : s.cursor.Reaches s₁.cursor := ⟨before, by rw [hrest, hrest₁], hoffset⟩
    have hmoved : s₁.cursor.offset ≠ s.cursor.offset :=
      (hreach.offset_lt (by rwa [hrest, hrest₁])).ne'
    have hundone : Step.undoing r.run s = (true, s₁) := by
      simp only [Step.undoing, hrun]
    simp only [Step.repeatUpTo, hundone, hmoved, if_false]
    rw [hmore hrest₁ hs₁ (by omega), hoffset, byteSize_append, Nat.add_assoc]

theorem many_hits (hr : Realizes r room peg e) (hpeg : peg.Consumes) {as : List α}
    (hrounds : Rounds room peg cs as mid) (hhit : r.HitsAt mid after) :
    (many r).HitsAt cs after := by
  obtain ⟨passed, htext, hmore⟩ := repeatUpTo_hits hr hpeg hrounds hhit
  exact ⟨passed, htext, fun s hrest hs => hmore hrest hs (hrest ▸ Nat.lt_succ_self _)⟩

end Rule

open Rule

/-! ## Chains and lists -/

theorem Rounds.snoc {as : List α} {a : α} (h : Rounds room peg cs as mid)
    (hlast : Reads room peg mid (matched a rest)) : Rounds room peg cs (as ++ [a]) rest := by
  induction h with
  | none cs => exact .more hlast (.none rest)
  | more hp h ih => exact .more hp (ih hlast)

theorem Chain.rounds {make : Draft → Operator → Draft → Draft} {op : Symbol Operator}
    {part : Symbol Draft} {d : Draft} (h : Chain room make op part cs d rest) :
    ∃ first mid parts, Reads room (.call part) cs (matched first mid) ∧
      Rounds room (Peg.pair (.call op) (.call part)) mid parts rest := by
  induction h with
  | first h => exact ⟨_, _, [], h, .none _⟩
  | next hl ho hr ih =>
    obtain ⟨first, mid, parts, hfirst, hparts⟩ := ih
    exact ⟨first, mid, _, hfirst, hparts.snoc (.seq ho hr)⟩

/-- The operand behind an operator of a chain hits the limit. -/
theorem chain_hits {levels : Nat} {make : Draft → Operator → Draft → Draft} {op : Symbol Operator}
    {part : Symbol Draft} {fold : Action} {l : Draft} {o : Operator} {mid' : List Char}
    (hop : (Peg.call op).Consumes) (hl : Chain (.limited levels) make op part cs l mid)
    (ho : Reads (.limited levels) (.call op) mid (matched o mid'))
    (hhit : (part.rule levels).HitsAt mid' after) :
    (chain (part.rule levels) (op.rule levels) fold).HitsAt cs after := by
  obtain ⟨first, start, parts, hfirst, hparts⟩ := hl.rounds
  have hext : ∀ (o : Operator) (m : Assembly), m.Extends (op.effect o m) := by
    intro o m
    obtain ⟨operand, errors, -, heffect⟩ := op.effect_puts o m
    exact heffect ▸ extends_put m operand errors
  have hpart := (part.rule_realizes levels).toRealizes
  have hoperator := (op.rule_realizes levels).toRealizes
  have hround : Realizes (seq [op.rule levels, part.rule levels, act fold]) (.limited levels)
      (Peg.pair (.call op) (.call part))
      fun pair m => (part.effect pair.2 (op.effect pair.1 m)).perform fold :=
    hoperator.andThen hext (hpart.thenAct fold) fun _ _ _ => rfl
  have hlast : (seq [op.rule levels, part.rule levels, act fold]).HitsAt mid after :=
    andThen_hits_right hoperator ho (andThen_hits_left hhit)
  exact andThen_hits_right hpart hfirst (many_hits hround (.seqLeft hop) hparts hlast)

/-- In canonical text, behind an operand that fits and an operator between blanks. -/
theorem spacedChain_hits {levels : Nat} {make : Draft → Operator → Draft → Draft} {slot : Slot}
    {ops : List Operator} {op : Symbol Operator} {part : Symbol Draft} {fold : Action} {l : Draft}
    {o : Operator} {style : Style} {text : List Char}
    (hbody : op.body = Peg.before Peg.gap (Peg.followedBy slot.peg Peg.gap))
    (hplain : ∀ s ∈ slot, s.isPlain) (hslot : slot.IsRegular ∧ slot.Finds ops) (ho : o ∈ ops)
    (htext : Skipped levels text) (hmid : Upto (' ' :: (o.spell style ++ ' ' :: rest)) mid)
    (hl : Chain (.limited levels) make op part
      (text ++ ' ' :: (o.spell style ++ ' ' :: rest)) l mid)
    (hrest : ahead rest = rest) (hbreach : Breach levels rest after)
    (hhit : (part.rule levels).HitsAt rest after) :
    Breach levels (text ++ ' ' :: (o.spell style ++ ' ' :: rest)) after ∧
      (chain (part.rule levels) (op.rule levels) fold).HitsAt
        (text ++ ' ' :: (o.spell style ++ ' ' :: rest)) after := by
  have hoperator : Skipped levels (' ' :: o.spell style) := .slotOperator hslot ho style
  have hblank : Skipped levels [' '] := .plain (by decide)
  have hread : Reads (.limited levels) (.call op) mid (matched o rest) := by
    refine .call ?_
    rw [hbody]
    exact .spacedOperator hslot ho hmid.ahead hrest
  have hconsumes : (Peg.call op).Consumes := by
    refine .call ?_
    rw [hbody]
    exact spaced_consumes hplain
  exact ⟨htext.breach (hoperator.breach (hblank.breach hbreach)),
    chain_hits hconsumes hl hread hhit⟩

theorem gap_hits {q : Rule} (hq : q.HitsAt (ahead cs) after) : (andThen gap q).HitsAt cs after := by
  have hread : Reads .unlimited Peg.gap cs (matched () (ahead cs)) := .gap cs
  exact andThen_hits_right Realizes.gap hread hq

theorem text_hits {q : Rule} {t : String} {c : Char} (ht : t.toList = [c])
    (hq : q.HitsAt cs after) : (andThen (text t) q).HitsAt (c :: cs) after := by
  have hread : Reads .unlimited (Peg.text t) (c :: cs) (matched () cs) := .oneText ht
  exact andThen_hits_right (Realizes.text t) hread hq

section lists

variable {n : Nat} {spell : β → List Char} {denote : β → α} {deep : β → Prop} {xs : List β}

/-- The limit is hit in the first of the elements behind commas that nests too deep. -/
theorem others_hit (tail : List Char) (hsolid : ∀ x ∈ xs, Solid (spell x))
    (hfits : ∀ x ∈ xs, ¬ deep x → Skipped n (spell x) ∧ ∀ {d ds}, d = ',' ∨ d = ')' →
      Reads room peg (spell x ++ d :: ds) (matched (denote x) (d :: ds)))
    (hdeep : ∀ x ∈ xs, deep x → ∀ {d ds}, d = ',' ∨ d = ')' →
      ∃ after, Breach n (spell x ++ d :: ds) after ∧ r.HitsAt (spell x ++ d :: ds) after)
    (hsome : ∃ x ∈ xs, deep x) :
    ∃ after as mid,
      Breach n ((xs.flatMap fun x => ", ".toList ++ spell x) ++ ')' :: tail) after ∧
        Rounds room (Peg.before Peg.gap (Peg.before (Peg.text ",") (Peg.before Peg.gap peg)))
          ((xs.flatMap fun x => ", ".toList ++ spell x) ++ ')' :: tail) as mid ∧
            (seq [gap, text ",", gap, r]).HitsAt mid after := by
  induction xs with
  | nil => simp at hsome
  | cons x xs ih =>
    obtain ⟨hx, hxs⟩ := List.forall_mem_cons.mp hsolid
    obtain ⟨hfit, hfits⟩ := List.forall_mem_cons.mp hfits
    obtain ⟨hhit, hdeep⟩ := List.forall_mem_cons.mp hdeep
    obtain ⟨d, ds, hmid, hd⟩ := others_head spell xs ')' tail
    have htext : ((x :: xs).flatMap fun x => ", ".toList ++ spell x) ++ ')' :: tail =
        ',' :: ' ' :: (spell x ++ d :: ds) := by
      rw [← hmid]
      simp
    have hcomma : Skipped n [',', ' '] := .plain (by decide)
    have hahead : ahead (',' :: ' ' :: (spell x ++ d :: ds)) = ',' :: ' ' :: (spell x ++ d :: ds) :=
      ahead_solid (by decide) (by decide) (by decide) _
    have helement : ahead (' ' :: (spell x ++ d :: ds)) = spell x ++ d :: ds :=
      (ahead_blank _).trans (hx _)
    rw [htext]
    by_cases hxdeep : deep x
    · obtain ⟨after, hbreach, hhit⟩ := hhit hxdeep hd
      refine ⟨after, [], _, hcomma.breach hbreach, .none _, gap_hits ?_⟩
      rw [hahead]
      refine text_hits rfl (gap_hits ?_)
      rw [helement]
      exact hhit
    · obtain ⟨hskipped, hread⟩ := hfit hxdeep
      have hothers : ∃ y ∈ xs, deep y := by simpa [hxdeep] using hsome
      obtain ⟨after, as, mid, hbreach, hrounds, hlast⟩ := ih hxs hfits hdeep hothers
      rw [hmid] at hbreach hrounds
      refine ⟨after, denote x :: as, mid, hcomma.breach (hskipped.breach hbreach),
        .more (.pastGap ?_) hrounds, hlast⟩
      rw [hahead]
      refine .seq (.oneText rfl) (.pastGap ?_)
      rw [helement]
      exact hread hd

theorem commaList_hits (hr : Realizes r room peg e) (tail : List Char)
    (hsolid : ∀ x ∈ xs, Solid (spell x))
    (hfits : ∀ x ∈ xs, ¬ deep x → Skipped n (spell x) ∧ ∀ {d ds}, d = ',' ∨ d = ')' →
      Reads room peg (spell x ++ d :: ds) (matched (denote x) (d :: ds)))
    (hdeep : ∀ x ∈ xs, deep x → ∀ {d ds}, d = ',' ∨ d = ')' →
      ∃ after, Breach n (spell x ++ d :: ds) after ∧ r.HitsAt (spell x ++ d :: ds) after)
    (hsome : ∃ x ∈ xs, deep x) :
    ∃ after, Breach n (joined spell xs ++ ')' :: tail) after ∧
      (commaList r).HitsAt (joined spell xs ++ ')' :: tail) after := by
  cases xs with
  | nil => simp at hsome
  | cons x xs =>
    obtain ⟨-, hsolids⟩ := List.forall_mem_cons.mp hsolid
    obtain ⟨hfit, hfits⟩ := List.forall_mem_cons.mp hfits
    obtain ⟨hhit, hdeep⟩ := List.forall_mem_cons.mp hdeep
    obtain ⟨d, ds, hmid, hd⟩ := others_head spell xs ')' tail
    have htext : joined spell (x :: xs) ++ ')' :: tail = spell x ++ d :: ds := by
      rw [← hmid, joined, List.append_assoc]
    rw [htext]
    by_cases hxdeep : deep x
    · obtain ⟨after, hbreach, hhit⟩ := hhit hxdeep hd
      exact ⟨after, hbreach, orElse_hits_left (attempt_hits (andThen_hits_left hhit))⟩
    · obtain ⟨hskipped, hread⟩ := hfit hxdeep
      have hothers : ∃ y ∈ xs, deep y := by simpa [hxdeep] using hsome
      obtain ⟨after, as, mid, hbreach, hrounds, hlast⟩ :=
        others_hit tail hsolids hfits hdeep hothers
      rw [hmid] at hbreach hrounds
      have hcomma : (Peg.before Peg.gap (Peg.before (Peg.text ",")
          (Peg.before Peg.gap peg))).Consumes := .seqRight (.seqLeft (.likeness (by decide)))
      have hmany := many_hits (Realizes.gap.before ((Realizes.text ",").before
        (Realizes.gap.before hr))) hcomma hrounds hlast
      exact ⟨after, hskipped.breach hbreach,
        orElse_hits_left (attempt_hits
          (andThen_hits_right hr (hread hd) (andThen_hits_left hmany)))⟩

end lists

/-- Behind the name of a function its argument list hits the limit. -/
theorem call_hits {levels : Nat} {name : String} (hname : IsHead name)
    (hhit : (argumentList (innerExpression levels)).HitsAt ('(' :: cs) after) :
    (primary (innerExpression levels)).HitsAt (name.toList ++ '(' :: cs) after := by
  have hopen : Reads (.limited levels) (Peg.text "(") (name.toList ++ '(' :: cs) (halted .failed) :=
    .text_failed rfl (head_not_open hname _).2
  have hvalue : Reads .unlimited (.call .value) (name.toList ++ '(' :: cs) (halted .failed) :=
    .head_not_value hname rfl
  have hread : Reads .unlimited (.call .identifier) (name.toList ++ '(' :: cs)
      (matched name ('(' :: cs)) := .name hname.toIsName rfl
  have hcall : (seq [identifier, argumentList (innerExpression levels), act .function]).HitsAt
      (name.toList ++ '(' :: cs) after :=
    andThen_hits_right identifier_realizes.toRealizes hread (andThen_hits_left hhit)
  exact named_hits (orElse_hits_right (parenthesized_realizes (innerExpression_provides levels))
    (.seqLeft (.seqLeft hopen)) (orElse_hits_right value_realizes hvalue
      (orElse_hits_left (attempt_hits hcall))))

/-! ## Trees that nest too deep -/

/-- The symbol of the grammar that reads the nodes of a level. -/
def symbolOf : Binding → Symbol Draft
  | .logic => .logicExpression
  | .negation => .notExpression
  | .comparison => .compareExpression
  | .membership => .compareInExpression
  | .predicate => .predicateExpression
  | .between => .betweenExpression
  | .primary => .primaryExpression

/-- Wherever the node can stand, its level hits the limit at the breach of its canonical text, if
it nests deeper than there are levels. -/
def Overruns (style : Style) (level : Binding) (t : Node) : Prop :=
  t.HasPlaces → ∀ ⦃levels : Nat⦄ ⦃tail : List Char⦄, levels < t.nesting →
    Follows (continuations level) tail →
      ∃ after, Breach levels (t.spell style ++ tail) after ∧
        ((symbolOf level).rule levels).HitsAt (t.spell style ++ tail) after

namespace Overruns

variable {style : Style} {l r t : Node} {op : Operator} {levels : Nat}

attribute [local simp] Node.spell

/-! ### Operands on the left -/

theorem ofPrimary (h : Overruns style .primary t) : Overruns style .between t := by
  intro hplaces levels tail hdeep htail
  obtain ⟨after, hbreach, hhit⟩ := h hplaces hdeep (htail.mono (by simp [continuations, followers]))
  exact ⟨after, hbreach, named_hits (andThen_hits_left hhit)⟩

theorem ofBetween (h : Overruns style .between t) : Overruns style .predicate t := by
  intro hplaces levels tail hdeep htail
  obtain ⟨after, hbreach, hhit⟩ := h hplaces hdeep (htail.mono (by simp [continuations, followers]))
  exact ⟨after, hbreach, named_hits (andThen_hits_left hhit)⟩

theorem ofPredicate (h : Overruns style .predicate t) : Overruns style .membership t := by
  intro hplaces levels tail hdeep htail
  obtain ⟨after, hbreach, hhit⟩ := h hplaces hdeep (htail.mono (by simp [continuations, followers]))
  exact ⟨after, hbreach, named_hits (andThen_hits_left hhit)⟩

theorem ofMembership (h : Overruns style .membership t) : Overruns style .comparison t := by
  intro hplaces levels tail hdeep htail
  obtain ⟨after, hbreach, hhit⟩ := h hplaces hdeep htail
  exact ⟨after, hbreach, named_hits (andThen_hits_left hhit)⟩

theorem ofComparison (h : Overruns style .comparison t) : Overruns style .negation t := by
  intro hplaces levels tail hdeep htail
  obtain ⟨after, hbreach, hhit⟩ := h hplaces hdeep (htail.mono (by simp [continuations, followers]))
  exact ⟨after, hbreach, named_hits (orElse_hits_left hhit)⟩

theorem ofNegation (h : Overruns style .negation t) : Overruns style .logic t := by
  intro hplaces levels tail hdeep htail
  obtain ⟨after, hbreach, hhit⟩ := h hplaces hdeep htail
  exact ⟨after, hbreach, named_hits (andThen_hits_left hhit)⟩

theorem between {low high : Value} (h : Overruns style .primary l) (hop : op.isRange = true) :
    Overruns style .between (.between l op (.value low) (.value high)) := by
  intro hplaces levels tail hdeep htail
  have htext : (Node.between l op (.value low) (.value high)).spell style ++ tail =
      l.spell style ++ ' ' :: (op.spell .word ++ ' ' ::
        (low.spell ++ ' ' :: ("and".toList ++ ' ' :: (high.spell ++ tail)))) := by
    simp [Operator.spell]
  rw [htext]
  have hleft : levels < l.nesting := by simpa [Node.nesting] using hdeep
  have hblank : EndsToken (' ' ::
      (low.spell ++ ' ' :: ("and".toList ++ ' ' :: (high.spell ++ tail)))) :=
    endsToken_cons (by decide)
  obtain ⟨after, hbreach, hhit⟩ := h hplaces.between.1 hleft
    (.operator (List.mem_append_left _ (Operator.mem_ranges hop)) .word hblank)
  exact ⟨after, hbreach, named_hits (andThen_hits_left hhit)⟩

theorem predicate (h : Overruns style .between l) (hop : op.isPredicate = true) :
    Overruns style .predicate (.predicate l op) := by
  intro hplaces levels tail hdeep htail
  have htext : (Node.predicate l op).spell style ++ tail =
      l.spell style ++ ' ' :: (op.spell .word ++ tail) := by
    simp [Operator.spell]
  rw [htext]
  obtain ⟨after, hbreach, hhit⟩ := h hplaces hdeep
    (.operator (List.mem_append_left _ (Operator.mem_tests hop)) .word htail.endsToken)
  exact ⟨after, hbreach, named_hits (andThen_hits_left hhit)⟩

theorem membership {es : List Value} (h : Overruns style .predicate l)
    (hop : op ∈ Operator.memberships) :
    Overruns style .membership (.compare l op (.value (.array es))) := by
  intro hplaces levels tail hdeep htail
  have htext : (Node.compare l op (.value (.array es))).spell style ++ tail =
      l.spell style ++ ' ' :: (op.spell style ++ ' ' :: ((Value.array es).spell ++ tail)) := by
    simp
  rw [htext]
  have hleft : levels < l.nesting := by simpa [Node.nesting] using hdeep
  have hblank : EndsToken (' ' :: ((Value.array es).spell ++ tail)) := endsToken_cons (by decide)
  obtain ⟨after, hbreach, hhit⟩ := h hplaces.compare.1 hleft
    (.operator (List.mem_append_left _ hop) style hblank)
  exact ⟨after, hbreach, named_hits (andThen_hits_left hhit)⟩

/-! ### Chains and negations -/

theorem compare (h : Overruns style .comparison l) (hl : Shaped .comparison l)
    (hop : op ∈ Operator.comparisons) (hr : Overruns style .membership r)
    (hright : Shaped .membership r) : Overruns style .comparison (.compare l op r) := by
  intro hplaces levels tail hdeep htail
  obtain ⟨hplacesLeft, hplacesRight⟩ := hplaces.compare
  have hblank : EndsToken (' ' :: (r.spell style ++ tail)) := endsToken_cons (by decide)
  have hoperator : Follows (continuations .comparison)
      (' ' :: (op.spell style ++ ' ' :: (r.spell style ++ tail))) :=
    .operator (List.mem_append_left _ hop) style hblank
  have htext : (Node.compare l op r).spell style ++ tail =
      l.spell style ++ ' ' :: (op.spell style ++ ' ' :: (r.spell style ++ tail)) := by
    simp
  rw [htext]
  by_cases hfits : l.nesting ≤ levels
  · have hdeepRight : levels < r.nesting := (lt_max_iff.mp hdeep).resolve_left hfits.not_gt
    obtain ⟨after, hbreach, hhit⟩ := hr hplacesRight hdeepRight htail
    have hroom : (Room.limited levels).Fits l.nesting := hfits
    obtain ⟨mid, hmid, hchain⟩ := readsBack_of_shaped hl style hplacesLeft hroom hoperator
    obtain ⟨hbreach, hhit⟩ := spacedChain_hits rfl (slots_plain .compare (by simp))
      (slots_find (Slot.compare, Operator.comparisons) (by simp)) hop
      (skipped_spell hl hplacesLeft style hfits) hmid hchain
      (solid_spell hright hplacesRight style tail) hbreach hhit
    exact ⟨after, hbreach, named_hits hhit⟩
  · exact h hplacesLeft (Nat.lt_of_not_le hfits) hoperator

theorem not (h : Overruns style .comparison t) (ht : Shaped .comparison t) :
    Overruns style .negation (.not t) := by
  intro hplaces levels tail hdeep htail
  obtain ⟨after, hbreach, hhit⟩ := h hplaces hdeep (htail.mono (by simp [continuations, followers]))
  have htext : (Node.not t).spell style ++ tail =
      "not".toList ++ ' ' :: (t.spell style ++ tail) := rfl
  have hword : Skipped levels "not ".toList := .plain (by decide)
  have hsolid : Solid "not".toList := solid_word (by decide)
  rw [htext]
  refine ⟨after, hword.breach hbreach, named_hits (orElse_hits_right
    (Symbol.rule_realizes .compareExpression levels) .comparison_not (attempt_hits (gap_hits ?_)))⟩
  have hread : Reads .unlimited (Peg.keyword "not") ("not".toList ++ ' ' :: (t.spell style ++ tail))
      (matched () (' ' :: (t.spell style ++ tail))) := .keyword rfl
  rw [hsolid]
  refine andThen_hits_right (Realizes.word "not") hread (gap_hits ?_)
  rw [ahead_blank, solid_spell ht hplaces style]
  exact andThen_hits_left hhit

theorem logic (h : Overruns style .logic l) (hl : Shaped .logic l) (hop : op.isLogic = true)
    (hr : Overruns style .negation r) (hright : Shaped .negation r) :
    Overruns style .logic (.logic l op r) := by
  intro hplaces levels tail hdeep htail
  obtain ⟨hplacesLeft, hplacesRight⟩ := hplaces.logic
  have hlogic := Operator.mem_logics hop
  have hblank : EndsToken (' ' :: (r.spell style ++ tail)) := endsToken_cons (by decide)
  have hoperator : Follows (continuations .logic)
      (' ' :: (op.spell style ++ ' ' :: (r.spell style ++ tail))) :=
    .operator hlogic style hblank
  have htext : (Node.logic l op r).spell style ++ tail =
      l.spell style ++ ' ' :: (op.spell style ++ ' ' :: (r.spell style ++ tail)) := by
    simp
  rw [htext]
  by_cases hfits : l.nesting ≤ levels
  · have hdeepRight : levels < r.nesting := (lt_max_iff.mp hdeep).resolve_left hfits.not_gt
    obtain ⟨after, hbreach, hhit⟩ := hr hplacesRight hdeepRight htail
    have hroom : (Room.limited levels).Fits l.nesting := hfits
    obtain ⟨mid, hmid, hchain⟩ := readsBack_of_shaped hl style hplacesLeft hroom hoperator
    obtain ⟨hbreach, hhit⟩ := spacedChain_hits rfl (slots_plain .logic (by simp))
      (slots_find (Slot.logic, Operator.logics) (by simp)) hlogic
      (skipped_spell hl hplacesLeft style hfits) hmid hchain
      (solid_spell hright hplacesRight style tail) hbreach hhit
    exact ⟨after, hbreach, named_hits hhit⟩
  · exact h hplacesLeft (Nat.lt_of_not_le hfits) hoperator

/-! ### Brackets -/

/-- An expression hits the limit before a text that closes it. -/
theorem expression (h : Overruns style .logic t) (hplaces : t.HasPlaces)
    (hdeep : levels < t.nesting) (htail : Closes tail) :
    ∃ after, Breach levels (t.spell style ++ tail) after ∧
      (Grammar.expression levels).HitsAt (t.spell style ++ tail) after := by
  obtain ⟨after, hbreach, hhit⟩ := h hplaces hdeep (Or.inl htail)
  refine ⟨after, hbreach, ?_⟩
  rw [expression_eq]
  exact named_hits hhit

theorem parentheses (h : Overruns style .logic t) (ht : Shaped .logic t) :
    Overruns style .primary (.parentheses t) := by
  intro hplaces levels tail hdeep htail
  have hclose : Closes (')' :: tail) := by
    rintro c ⟨⟩
    exact Or.inl rfl
  have hsolid : ahead (t.spell style ++ ')' :: tail) = t.spell style ++ ')' :: tail :=
    solid_spell ht hplaces style _
  have htext : (Node.parentheses t).spell style ++ tail =
      '(' :: (t.spell style ++ ')' :: tail) := by
    simp
  rw [htext]
  cases levels with
  | zero =>
    refine ⟨_, breach_opening _, named_hits (orElse_hits_left (attempt_hits
      (text_hits rfl (gap_hits (andThen_hits_left ?_)))))⟩
    rw [hsolid]
    exact limit_hits _
  | succ levels =>
    obtain ⟨after, hbreach, hhit⟩ := h.expression hplaces (Nat.lt_of_succ_lt_succ hdeep) hclose
    refine ⟨after, hbreach.inside, named_hits (orElse_hits_left (attempt_hits
      (text_hits rfl (gap_hits (andThen_hits_left ?_)))))⟩
    rw [hsolid]
    exact deeper_hits hhit

theorem function {name : String} {params : List Node} (hname : IsHead name)
    (hparams : ∀ t ∈ params, Shaped .logic t) (h : ∀ t ∈ params, Overruns style .logic t) :
    Overruns style .primary (.function name params) := by
  intro hplaces levels tail hdeep htail
  have hsolid : ∀ t ∈ params, Solid (t.spell style) := fun t ht =>
    solid_spell (hparams t ht) (hplaces.param ht) style
  have htext : (Node.function name params).spell style ++ tail =
      name.toList ++ '(' :: (joined (Node.spell style) params ++ ')' :: tail) := by
    simp [Node.spellList_eq]
  rw [htext]
  -- Behind the name and the bracket the limit is hit at once, or by one of the arguments.
  suffices hlist : ∃ after,
      Breach levels ('(' :: (joined (Node.spell style) params ++ ')' :: tail)) after ∧
      (Rule.nested (innerExpression levels) fun e =>
        Rule.commaList (.named "Argument" e)).HitsAt
          (joined (Node.spell style) params ++ ')' :: tail) after by
    obtain ⟨after, hbreach, hhit⟩ := hlist
    have harguments : (argumentList (innerExpression levels)).HitsAt
        ('(' :: (joined (Node.spell style) params ++ ')' :: tail)) after := by
      refine named_hits (text_hits rfl (gap_hits (andThen_hits_act (andThen_hits_left ?_))))
      rwa [ahead_joined (Or.inl rfl) hsolid]
    exact ⟨after, (Skipped.name hname.toIsName).breach hbreach, call_hits hname harguments⟩
  cases levels with
  | zero => exact ⟨_, breach_opening _, limit_hits _⟩
  | succ levels =>
    have hclose : ∀ {d : Char} {ds : List Char}, d = ',' ∨ d = ')' → Closes (d :: ds) := by
      rintro d ds hd c ⟨⟩
      exact hd.symm
    have hsome : ∃ t ∈ params, levels < t.nesting := by
      by_contra hnone
      have hfits : ∀ t ∈ params, t.nesting ≤ levels := by simpa using hnone
      exact (Nat.lt_of_succ_lt_succ hdeep).not_ge (Node.nestingOfAll_le_iff.mpr hfits)
    have hfits : ∀ t ∈ params, ¬ levels < t.nesting → Skipped levels (t.spell style) ∧
        ∀ {d ds}, d = ',' ∨ d = ')' → Reads (.limited levels) (.call .argument)
          (t.spell style ++ d :: ds) (matched t.draft (d :: ds)) := by
      intro t ht hnot
      have hroom : (Room.limited levels).Fits t.nesting := not_lt.mp hnot
      exact ⟨skipped_spell (hparams t ht) (hplaces.param ht) style hroom, fun hd => .call
        ((readsBack_of_shaped (hparams t ht) style).expression (hplaces.param ht) hroom
          (hclose hd))⟩
    have hdeeps : ∀ t ∈ params, levels < t.nesting → ∀ {d ds}, d = ',' ∨ d = ')' →
        ∃ after, Breach levels (t.spell style ++ d :: ds) after ∧
          ((Symbol.argument).rule levels).HitsAt (t.spell style ++ d :: ds) after := by
      intro t ht htdeep d ds hd
      obtain ⟨after, hbreach, hhit⟩ := (h t ht).expression (hplaces.param ht) htdeep (hclose hd)
      exact ⟨after, hbreach, named_hits hhit⟩
    obtain ⟨after, hbreach, hhit⟩ := commaList_hits
      (Symbol.rule_realizes .argument levels).toRealizes tail hsolid hfits hdeeps hsome
    exact ⟨after, hbreach.inside, deeper_hits hhit⟩

end Overruns

/-- Canonical text of a node with the shape of a query tree hits the limit at its breach. -/
theorem overruns_of_shaped {level : Binding} {t : Node} (h : Shaped level t) (style : Style) :
    Overruns style level t := by
  induction h with
  | ofNegation _ ih => exact ih.ofNegation
  | logic hl hop hr ihl ihr => exact ihl.logic hl hop ihr hr
  | ofComparison _ ih => exact ih.ofComparison
  | not ht ih => exact ih.not ht
  | ofMembership _ ih => exact ih.ofMembership
  | compare hl hop hr ihl ihr => exact ihl.compare hl hop ihr hr
  | ofPredicate _ ih => exact ih.ofPredicate
  | membership hl hop hes ihl => exact ihl.membership hop
  | ofBetween _ ih => exact ih.ofBetween
  | predicate hl hop ihl => exact ihl.predicate hop
  | ofPrimary _ ih => exact ih.ofPrimary
  | between hl hop hlow hhigh ihl => exact ihl.between hop
  | parentheses ht ih => exact ih.parentheses ht
  | value hv =>
    intro hplaces levels tail hdeep
    simp [Node.nesting] at hdeep
  | function hname hparams ih => exact .function hname hparams ih
  | identifier hname =>
    intro hplaces levels tail hdeep
    simp [Node.nesting] at hdeep
  | reference hr =>
    intro hplaces levels tail hdeep
    simp [Node.nesting] at hdeep

end FilterQuery.Grammar

namespace FilterQuery

open Grammar Number

/-- A query that hits the nesting limit is rejected for it, whatever its other parts do. -/
theorem Grammar.Rule.HitsAt.parse {q : String} {passed after : List Char}
    (h : (query nestingLimit).HitsAt q.toList after) (hq : q.toList = passed ++ after) :
    parse q = .error (.tooDeep nestingLimit (Text.byteSize passed)
      (.locate q.toList (Text.byteSize passed))) := by
  obtain ⟨passed', hq', hhit⟩ := h
  obtain rfl := List.append_cancel_right (hq.symm.trans hq')
  have hdeep : ((query nestingLimit).run (State.start q.toList)).2.tooDeep =
      some (Text.byteSize passed) := by
    rw [hhit rfl rfl]
    exact congrArg some (Nat.zero_add _)
  simp only [FilterQuery.parse, parseOutcome, parseWithin, formError?, hdeep]

/-- Canonical text of a tree that nests too deep is rejected, at the first bracket that opens one
level too many. -/
theorem parse_render_tooDeep {t : Node} (h : Shaped .logic t)
    (hplaces : ∀ d ∈ t.decimals, 1 ≤ d.scale) (hdeep : nestingLimit < t.nesting) (style : Style) :
    ∃ offset, overrun nestingLimit .code (t.render style).toList = some offset ∧
      parse (t.render style) = .error (.tooDeep nestingLimit offset
        (.locate (t.render style).toList offset)) := by
  have hclose : Closes [] := by
    rintro c ⟨⟩
  obtain ⟨after, ⟨passed, hpassed, hoverrun⟩, hhit⟩ :=
    (overruns_of_shaped h style).expression hplaces hdeep hclose
  have htext : (t.render style).toList = t.spell style ++ [] := by
    rw [Node.render, String.toList_ofList, List.append_nil]
  have hquery : (query nestingLimit).HitsAt (t.render style).toList after := by
    rw [htext]
    refine Rule.named_hits (gap_hits (Rule.andThen_hits_left ?_))
    rwa [solid_spell h hplaces style]
  exact ⟨_, htext ▸ hoverrun, hquery.parse (htext.trans hpassed)⟩

/-- Brackets around a tree nest it so much deeper and keep its shape. -/
theorem wrapped_shaped {t : Node} (h : Shaped .logic t) (n : Nat) :
    Shaped .logic (Node.parentheses^[n] t) ∧ (Node.parentheses^[n] t).decimals = t.decimals ∧
      (Node.parentheses^[n] t).nesting = n + t.nesting := by
  induction n with
  | zero => exact ⟨h, rfl, (Nat.zero_add _).symm⟩
  | succ n ih =>
    obtain ⟨hshaped, hdecimals, hnesting⟩ := ih
    rw [Function.iterate_succ_apply']
    refine ⟨?_, hdecimals, ?_⟩
    · exact .ofNegation <| .ofComparison <| .ofMembership <| .ofPredicate <| .ofBetween <|
        .ofPrimary <| .parentheses hshaped
    · rw [Node.nesting, hnesting]
      omega

theorem parse_render_tooDeep_brackets :
    let text := (Node.parentheses^[257] (.identifier "x")).render .word
    parse text = .error (.tooDeep 256 257 (.locate text.toList 257)) := by
  intro text
  have hname : IsHead "x" := ⟨⟨⟨'x', [], rfl, rfl, by simp⟩, by decide⟩, by decide⟩
  have hidentifier : Shaped .logic (.identifier "x") :=
    .ofNegation <| .ofComparison <| .ofMembership <| .ofPredicate <| .ofBetween <|
      .ofPrimary <| .identifier hname
  obtain ⟨hshaped, hdecimals, hnesting⟩ := wrapped_shaped hidentifier 257
  have hplaces : ∀ d ∈ (Node.parentheses^[257] (.identifier "x")).decimals, 1 ≤ d.scale := by
    rw [hdecimals]
    exact List.forall_mem_nil _
  have hdeep : nestingLimit < (Node.parentheses^[257] (.identifier "x")).nesting := by
    rw [hnesting]
    decide
  obtain ⟨offset, hoffset, hparse⟩ := parse_render_tooDeep hshaped hplaces hdeep .word
  have htext : text.toList = (Node.parentheses^[257] (.identifier "x")).spell .word :=
    String.toList_ofList
  have hfirst : overrun nestingLimit .code text.toList = some 257 := by
    rw [htext]
    decide +kernel
  obtain rfl : offset = 257 := Option.some.inj (hoffset.symm.trans hfirst)
  exact hparse

end FilterQuery
