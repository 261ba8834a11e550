import FilterQuery.Grammar.Rule
import FilterQuery.Scanner.Split
import Mathlib.Data.List.Infix

/-!
What every run of a rule does to the state, whatever the rule is for. The record of the nesting
limit is kept once it is made, the cursor only moves forward over the text, and a failed step
that is undone leaves the cursor and the assembly as they were, provided that it had only added
to the assembly.
-/
namespace FilterQuery

namespace Assembly

/-- `m'` has everything of `m`, below and before what it has itself. -/
structure Extends (m m' : Assembly) : Prop where
  stack : m.stack <:+ m'.stack
  marks : m.marks <:+ m'.marks
  errors : m.errors <+: m'.errors

theorem Extends.refl (m : Assembly) : m.Extends m :=
  ⟨List.suffix_rfl, List.suffix_rfl, List.prefix_rfl⟩

theorem Extends.trans {m m' m'' : Assembly} (h : m.Extends m') (h' : m'.Extends m'') :
    m.Extends m'' :=
  ⟨h.stack.trans h'.stack, h.marks.trans h'.marks, h.errors.trans h'.errors⟩

/-- Cutting to the lengths of `m` restores `m`. -/
theorem Extends.rewind {m m' : Assembly} (h : m.Extends m') : m'.rewind m.checkpoint = m := by
  obtain ⟨above, hstack⟩ := h.stack
  obtain ⟨opened, hmarks⟩ := h.marks
  obtain ⟨later, herrors⟩ := h.errors
  obtain ⟨stack, marks, errors⟩ := m
  simp only at hstack hmarks herrors
  simp [Assembly.rewind, checkpoint, ← hstack, ← hmarks, ← herrors]

/-- One more operand on top, and the errors that came with it. -/
def put (m : Assembly) (o : Operand) (errors : List SemanticError) : Assembly :=
  ⟨o :: m.stack, m.marks, m.errors ++ errors⟩

theorem extends_put (m : Assembly) (o : Operand) (errors : List SemanticError) :
    m.Extends (m.put o errors) :=
  ⟨List.suffix_cons _ _, List.suffix_rfl, List.prefix_append _ _⟩

theorem extends_mark (m : Assembly) : m.Extends (m.perform .mark) :=
  ⟨List.suffix_rfl, List.suffix_cons _ _, List.prefix_append _ _⟩

end Assembly

namespace Scanner

open Text

/-- The cursor `c'` stands further on in the text of `c`, or at the same place. -/
def Cursor.Reaches (c c' : Cursor) : Prop :=
  ∃ passed, c.rest = passed ++ c'.rest ∧ c'.offset = c.offset + byteSize passed

namespace Cursor

theorem Reaches.refl (c : Cursor) : c.Reaches c := ⟨[], rfl, rfl⟩

theorem Reaches.trans {c c' c'' : Cursor} (h : c.Reaches c') (h' : c'.Reaches c'') :
    c.Reaches c'' := by
  obtain ⟨passed, hrest, hoffset⟩ := h
  obtain ⟨passed', hrest', hoffset'⟩ := h'
  refine ⟨passed ++ passed', ?_, ?_⟩
  · rw [hrest, hrest', List.append_assoc]
  · rw [hoffset', hoffset, byteSize_append, Nat.add_assoc]

theorem Reaches.length_le {c c' : Cursor} (h : c.Reaches c') :
    c'.rest.length ≤ c.rest.length := by
  obtain ⟨passed, hrest, -⟩ := h
  rw [hrest, List.length_append]
  omega

/-- A cursor that has passed something has a greater offset. -/
theorem Reaches.offset_lt {c c' : Cursor} (h : c.Reaches c')
    (hlength : c'.rest.length < c.rest.length) : c.offset < c'.offset := by
  obtain ⟨passed, hrest, hoffset⟩ := h
  cases passed with
  | nil =>
    simp only [List.nil_append] at hrest
    simp [hrest] at hlength
  | cons d ds =>
    have hpos := d.utf8Size_pos
    simp only [byteSize] at hoffset
    omega

theorem read_reaches {α : Type} {t : Terminal α} (ht : Terminal.Splits t) (c : Cursor) :
    c.Reaches (c.read t).2 := by
  unfold Cursor.read
  split
  · next hfound => exact ⟨_, (ht _ _ _ _ hfound).symm, rfl⟩
  · exact ⟨[], rfl, rfl⟩

end Cursor

end Scanner

namespace Grammar

open Scanner

variable {step : Step} {s s' : State} {b : Bool} {n : Nat}

attribute [local simp] Rule.run

/-! ## What combining rules keeps -/

/-- Every run takes the state to one that the relation allows. -/
def Rule.Keeps (r : Rule) (R : State → State → Prop) : Prop := ∀ s, R s (r.run s).2

/-- A relation between the states before and after a run that acting, undoing, naming and nesting
keep. -/
structure Invariant (R : State → State → Prop) : Prop where
  refl (s : State) : R s s
  trans {s s' s'' : State} : R s s' → R s' s'' → R s s''
  perform (s : State) (a : Action) : R s (s.perform a)
  backTo {s s' : State} : R s s' → R s (s'.backTo s)
  leave {s s' : State} (name : String) : R (s.enter name) s' → R s s'.leave
  ascend {s s' : State} : R s.descend s' → R s s'.ascend

namespace Invariant

variable {R : State → State → Prop} {p q : Rule}

theorem undoing (hR : Invariant R) (h : ∀ s, R s (step s).2) (s : State) :
    R s (Step.undoing step s).2 := by
  have hstep := h s
  unfold Step.undoing
  split
  · next heq => simpa [heq] using hstep
  · next heq =>
    rw [heq] at hstep
    exact hR.backTo hstep

theorem repeatUpTo (hR : Invariant R) (h : ∀ s, R s (step s).2) (rounds : Nat) (s : State) :
    R s (Step.repeatUpTo step rounds s).2 := by
  induction rounds generalizing s with
  | zero => exact hR.refl s
  | succ rounds ih =>
    have hround := hR.undoing h s
    unfold Step.repeatUpTo
    split
    · next heq => simpa [heq] using hround
    · next heq =>
      rw [heq] at hround
      split
      · exact hround
      · exact hR.trans hround (ih _)

theorem read (hR : Invariant R) {t : Terminal (Option Action)}
    (h : ∀ s : State, R s { s with cursor := (s.cursor.read t).2 }) : (Rule.read t).Keeps R := by
  intro s
  have hcursor := h s
  simp only [Rule.run, Step.read]
  split
  · next heq =>
    rw [heq] at hcursor
    exact hR.trans hcursor (hR.perform _ _)
  all_goals next heq =>
    rw [heq] at hcursor
    exact hcursor

theorem andThen (hR : Invariant R) (hp : p.Keeps R) (hq : q.Keeps R) :
    (Rule.andThen p q).Keeps R := by
  intro s
  have hleft := hp s
  simp only [Rule.run]
  split
  · next heq =>
    rw [heq] at hleft
    exact hR.trans hleft (hq _)
  · next heq => simpa [heq] using hleft

theorem orElse (hR : Invariant R) (hp : p.Keeps R) (hq : q.Keeps R) :
    (Rule.orElse p q).Keeps R := by
  intro s
  have hleft := hp s
  simp only [Rule.run]
  split
  · next heq => simpa [heq] using hleft
  · next heq =>
    rw [heq] at hleft
    exact hR.trans hleft (hq _)

theorem named (hR : Invariant R) (name : String) (hp : p.Keeps R) :
    (Rule.named name p).Keeps R := by
  intro s
  simp only [Rule.run]
  split
  · exact hR.refl s
  · exact hR.undoing (fun s => hR.leave name (hp (s.enter name))) s

end Invariant

/-- A property of rules that passes to the parts of a rule. -/
structure Inherited (P : Rule → Prop) : Prop where
  deeper {p : Rule} : P (.deeper p) → P p
  andThen {p q : Rule} : P (.andThen p q) → P p ∧ P q
  orElse {p q : Rule} : P (.orElse p q) → P p ∧ P q
  attempt {p : Rule} : P (.attempt p) → P p
  many {p : Rule} : P (.many p) → P p
  tally {p q : Rule} {a : Nat → Nat → Action} : P (.tally p q a) → P p ∧ P q
  named {name : String} {p : Rule} : P (.named name p) → P p

/-- A rule keeps what its terminals keep, and the nesting limit if it can hit that. -/
theorem Invariant.keeps {R : State → State → Prop} {P : Rule → Prop} (hR : Invariant R)
    (hP : Inherited P) (hread : ∀ t, P (.read t) → (Rule.read t).Keeps R)
    (hlimit : P .limit → Rule.limit.Keeps R) {r : Rule} (hr : P r) : r.Keeps R := by
  induction r with
  | done | never => exact hR.refl
  | read t => exact hread t hr
  | act a => exact fun s => hR.perform s a
  | limit => exact hlimit hr
  | deeper p ih => exact fun s => hR.ascend (ih (hP.deeper hr) s.descend)
  | andThen p q ihp ihq => exact hR.andThen (ihp (hP.andThen hr).1) (ihq (hP.andThen hr).2)
  | orElse p q ihp ihq => exact hR.orElse (ihp (hP.orElse hr).1) (ihq (hP.orElse hr).2)
  | attempt p ih => exact hR.undoing (ih (hP.attempt hr))
  | many p ih => exact fun s => hR.repeatUpTo (ih (hP.many hr)) _ s
  | tally p q a ihp ihq =>
    intro s
    have hfirst := hR.repeatUpTo (ihp (hP.tally hr).1) (s.cursor.rest.length + 1) s
    have hsecond := hR.repeatUpTo (ihq (hP.tally hr).2)
      ((Step.count p.run s).2.cursor.rest.length + 1) (Step.count p.run s).2
    exact hR.trans (hR.trans hfirst hsecond) (hR.perform _ _)
  | named name p ih => exact hR.named name (ih (hP.named hr))

theorem inherited_true : Inherited fun _ => True :=
  ⟨id, fun _ => ⟨trivial, trivial⟩, fun _ => ⟨trivial, trivial⟩, id, id,
    fun _ => ⟨trivial, trivial⟩, id⟩

/-! ## The nesting limit -/

theorem invariant_tooDeep (n : Nat) :
    Invariant fun s s' => s.tooDeep = some n → s'.tooDeep = some n where
  refl _ := id
  trans h h' := h' ∘ h
  perform _ _ := id
  backTo := id
  leave _ := id
  ascend := id

/-- Where the limit was hit first is never changed. -/
theorem Rule.run_tooDeep (r : Rule) (hs : s.tooDeep = some n) :
    (r.run s).2.tooDeep = some n := by
  have hlimit : Rule.limit.Keeps fun s s' => s.tooDeep = some n → s'.tooDeep = some n := by
    intro s hs
    simp [Rule.run, State.hitLimit, hs]
  exact (invariant_tooDeep n).keeps inherited_true
    (fun _ _ => (invariant_tooDeep n).read fun _ => id) (fun _ => hlimit) trivial s hs

theorem Rule.tooDeep_of_run {r : Rule} (h : r.run s = (b, s')) (hs' : s'.tooDeep = none) :
    s.tooDeep = none := by
  cases hs : s.tooDeep with
  | none => rfl
  | some n =>
    have hrun := r.run_tooDeep hs
    rw [h] at hrun
    simp_all

/-! ## Runs of composed rules -/

section inversion

variable {p q : Rule}

theorem Rule.run_andThen (h : (Rule.andThen p q).run s = (true, s')) :
    ∃ s₁, p.run s = (true, s₁) ∧ q.run s₁ = (true, s') := by
  simp only [Rule.run] at h
  split at h
  · next s₁ heq => exact ⟨s₁, heq, h⟩
  · simp at h

theorem Rule.run_andThen_failed (h : (Rule.andThen p q).run s = (false, s')) :
    p.run s = (false, s') ∨ ∃ s₁, p.run s = (true, s₁) ∧ q.run s₁ = (false, s') := by
  simp only [Rule.run] at h
  split at h
  · next s₁ heq => exact Or.inr ⟨s₁, heq, h⟩
  · next s₁ heq =>
    simp only [Prod.mk.injEq, true_and] at h
    exact Or.inl (h ▸ heq)

theorem Rule.run_orElse (h : (Rule.orElse p q).run s = (true, s')) :
    p.run s = (true, s') ∨ ∃ s₁, p.run s = (false, s₁) ∧ q.run s₁ = (true, s') := by
  simp only [Rule.run] at h
  split at h
  · next s₁ heq =>
    simp only [Prod.mk.injEq, true_and] at h
    exact Or.inl (h ▸ heq)
  · next s₁ heq => exact Or.inr ⟨s₁, heq, h⟩

theorem Rule.run_orElse_failed (h : (Rule.orElse p q).run s = (false, s')) :
    ∃ s₁, p.run s = (false, s₁) ∧ q.run s₁ = (false, s') := by
  simp only [Rule.run] at h
  split at h
  · simp at h
  · next s₁ heq => exact ⟨s₁, heq, h⟩

theorem Rule.run_attempt (h : (Rule.attempt p).run s = (true, s')) : p.run s = (true, s') := by
  simp only [Rule.run, Step.undoing] at h
  split at h
  · next heq =>
    simp only [Prod.mk.injEq, true_and] at h
    exact h ▸ heq
  · simp at h

theorem Rule.run_attempt_failed (h : (Rule.attempt p).run s = (false, s')) :
    ∃ s₁, p.run s = (false, s₁) ∧ s' = s₁.backTo s := by
  simp only [Rule.run, Step.undoing] at h
  split at h
  · simp at h
  · next s₁ heq =>
    simp only [Prod.mk.injEq, true_and] at h
    exact ⟨s₁, heq, h.symm⟩

end inversion

/-! ## The cursor -/

/-- All terminals of the rule split the text. -/
def Rule.Splits : Rule → Prop
  | done | never | act _ | limit => True
  | read t => Terminal.Splits t
  | andThen p q | orElse p q | tally p q _ => p.Splits ∧ q.Splits
  | deeper p | attempt p | many p | named _ p => p.Splits

theorem inherited_splits : Inherited Rule.Splits := ⟨id, id, id, id, id, id, id⟩

theorem invariant_reaches : Invariant fun s s' => s.cursor.Reaches s'.cursor where
  refl s := .refl s.cursor
  trans := .trans
  perform s _ := .refl s.cursor
  backTo _ := .refl _
  leave _ := id
  ascend := id

/-- A run only moves the cursor forward. -/
theorem Rule.run_reaches {r : Rule} (hr : r.Splits) (s : State) :
    s.cursor.Reaches (r.run s).2.cursor :=
  invariant_reaches.keeps inherited_splits
    (fun _ ht => invariant_reaches.read fun s => Cursor.read_reaches ht s.cursor)
    (fun _ s => .refl s.cursor) hr s

/-! ## The depth -/

theorem invariant_depth : Invariant fun s s' => s'.depth = s.depth where
  refl _ := rfl
  trans h h' := h'.trans h
  perform _ _ := rfl
  backTo := id
  leave _ := id
  ascend h := by simp [State.ascend, h, State.descend]

/-- Every level that a run opens it leaves again, whether it matches or fails. -/
theorem Rule.run_depth (r : Rule) (s : State) : (r.run s).2.depth = s.depth :=
  invariant_depth.keeps inherited_true (fun _ _ => invariant_depth.read fun _ => rfl)
    (fun _ _ => rfl) trivial s

/-! ## Undoing -/

/-- The same place in the text, the same assembly and the same depth. -/
structure State.Same (s s' : State) : Prop where
  offset : s'.cursor.offset = s.cursor.offset
  rest : s'.cursor.rest = s.cursor.rest
  assembly : s'.assembly = s.assembly
  depth : s'.depth = s.depth

theorem State.Same.refl (s : State) : s.Same s := ⟨rfl, rfl, rfl, rfl⟩

theorem State.Same.trans {s₁ s₂ s₃ : State} (h : s₁.Same s₂) (h' : s₂.Same s₃) : s₁.Same s₃ :=
  ⟨h'.offset.trans h.offset, h'.rest.trans h.rest, h'.assembly.trans h.assembly,
    h'.depth.trans h.depth⟩

theorem State.backTo_same (h : s.assembly.Extends s'.assembly) (hdepth : s'.depth = s.depth) :
    s.Same (s'.backTo s) := ⟨rfl, rfl, h.rewind, hdepth⟩

/-- When the rule fails it has changed neither the place nor the assembly nor the depth. -/
def Rule.Restores (r : Rule) : Prop :=
  ∀ s s' : State, r.run s = (false, s') → s.Same s'

theorem Rule.read_restores (t : Terminal (Option Action)) : (Rule.read t).Restores := by
  intro s s' h
  simp only [Rule.run, Step.read, Cursor.read] at h
  cases ht : t s.cursor.rest with
  | found a lexeme rest => cases a <;> simp [ht] at h
  | missing passed =>
    simp only [ht, Prod.mk.injEq] at h
    obtain ⟨-, rfl⟩ := h
    exact ⟨rfl, rfl, rfl, rfl⟩

theorem Rule.orElse_restores {p q : Rule} (hp : p.Restores) (hq : q.Restores) :
    (Rule.orElse p q).Restores := by
  intro s s' h
  obtain ⟨s₁, hleft, hright⟩ := Rule.run_orElse_failed h
  exact (hp s s₁ hleft).trans (hq s₁ s' hright)

/-- All that a rule tries, wherever it does so, leaves no trace when it fails: a terminal, an
attempt, a round of a repetition, and a named rule. -/
def Rule.Backtracks : Rule → Prop
  | done | never | act _ | limit => True
  | read t => (read t).Restores
  | deeper p => p.Backtracks
  | andThen p q | orElse p q => p.Backtracks ∧ q.Backtracks
  | attempt p | many p => (attempt p).Restores ∧ p.Backtracks
  | tally p q _ =>
    ((attempt p).Restores ∧ p.Backtracks) ∧ ((attempt q).Restores ∧ q.Backtracks)
  | named name p => (named name p).Restores ∧ p.Backtracks

end Grammar

end FilterQuery
