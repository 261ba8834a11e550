import FilterQuery.Proofs.Lexemes
import FilterQuery.Proofs.Machine
import Mathlib.Tactic.ByContra

/-!
Rules that realize expressions of the grammar. A rule realizes an expression if it matches where
the expression does, leaves the same text behind, and acts on the assembly as the value denotes;
if it fails it has only added to the assembly. Once the nesting limit is hit a rule no longer
follows the grammar, but what it does to the assembly is still what some value denotes.
-/
namespace FilterQuery.Grammar

open Scanner Result

structure Realizes {α : Type} (r : Rule) (room : Room) (p : Peg α)
    (effect : α → Assembly → Assembly) : Prop where
  splits : r.Splits
  backtracks : r.Backtracks
  matched : ∀ {s s' : State}, r.run s = (true, s') →
    ∃ a, s'.assembly = effect a s.assembly ∧
      (s'.tooDeep = none → Reads room p s.cursor.rest (matched a s'.cursor.rest))
  failed : ∀ {s s' : State}, r.run s = (false, s') →
    s.assembly.Extends s'.assembly ∧
      (s'.tooDeep = none → Reads room p s.cursor.rest (halted .failed))
  stopped : ∀ {s s' : State} {b : Bool}, r.run s = (b, s') → s.tooDeep = none →
    s'.tooDeep ≠ none → Reads room p s.cursor.rest (halted .tooDeep)

/-- Besides, a failure changes neither the place nor the assembly. -/
structure RealizesExactly {α : Type} (r : Rule) (room : Room) (p : Peg α)
    (effect : α → Assembly → Assembly) : Prop extends Realizes r room p effect where
  restores : r.Restores

/-- What the values of a list do one after the other. -/
def each {α : Type} (effect : α → Assembly → Assembly) (as : List α) (m : Assembly) : Assembly :=
  as.foldl (fun m a => effect a m) m

/-- What a value does, if there is one. -/
def perhaps {α : Type} (effect : α → Assembly → Assembly) : Option α → Assembly → Assembly
  | some a, m => effect a m
  | none, m => m

namespace Realizes

variable {α β γ : Type} {r r' : Rule} {room inner : Room} {p : Peg α} {q : Peg β}
  {e : α → Assembly → Assembly} {e' : β → Assembly → Assembly}

theorem read {t : Terminal (Option Action)} (ht : Terminal.Splits t)
    (hfound : ∀ {cs a lexeme rest}, t cs = .found a lexeme rest →
      ∃ v, Reads room p cs (.matched v rest) ∧
        ∀ m, perhaps (fun a m => Assembly.perform m a) a m = e v m)
    (hmissing : ∀ {cs passed}, t cs = .missing passed → Reads room p cs (halted .failed)) :
    Realizes (.read t) room p e where
  splits := ht
  backtracks := Rule.read_restores t
  matched {s s'} h := by
    simp only [Rule.run, Step.read, Cursor.read] at h
    cases hread : t s.cursor.rest with
    | found a lexeme rest =>
      obtain ⟨v, hreads, heffect⟩ := hfound hread
      cases a <;> simp only [hread, Prod.mk.injEq, true_and] at h <;>
        exact h ▸ ⟨v, heffect s.assembly, fun _ => hreads⟩
    | missing passed => simp [hread] at h
  failed {s s'} h := by
    simp only [Rule.run, Step.read, Cursor.read] at h
    cases hread : t s.cursor.rest with
    | found a lexeme rest => cases a <;> simp [hread] at h
    | missing passed =>
      simp only [hread, Prod.mk.injEq, true_and] at h
      exact h ▸ ⟨.refl _, fun _ => hmissing hread⟩
  stopped {s s' b} h hs hs' := by
    have hdeep : s'.tooDeep = s.tooDeep := by
      simp only [Rule.run, Step.read] at h
      split at h <;>
        · simp only [Prod.mk.injEq] at h
          exact h.2 ▸ rfl
    exact absurd (hdeep.trans hs) hs'

theorem capture {t : Terminal γ} {f : γ → α} {act : γ → Action} (ht : Obeys t p f)
    (hact : ∀ {cs a lexeme rest}, t cs = .found a lexeme rest →
      ∀ m : Assembly, m.perform (act a) = e (f a) m) :
    RealizesExactly (Rule.capture t act) room p e := by
  refine ⟨read (Terminal.map_splits _ ht.splits) ?_ ?_, Rule.read_restores _⟩
  · intro cs a lexeme rest h
    simp only [Terminal.map] at h
    split at h
    · next v _ _ hfound =>
      injection h with ha _ hr
      subst ha hr
      exact ⟨f v, ht.found hfound, hact hfound⟩
    · simp at h
  · intro cs passed h
    simp only [Terminal.map] at h
    split at h
    · simp at h
    · next hmissing => exact ht.missing hmissing

theorem expect {t : Terminal γ} {f : γ → α} (ht : Obeys t p f) :
    Realizes (Rule.expect t) room p fun _ m => m := by
  refine read (Terminal.map_splits _ ht.splits) ?_ ?_
  · intro cs a lexeme rest h
    simp only [Terminal.map] at h
    split at h
    · next v _ _ hfound =>
      injection h with ha _ hr
      subst ha hr
      exact ⟨f v, ht.found hfound, fun _ => rfl⟩
    · simp at h
  · intro cs passed h
    simp only [Terminal.map] at h
    split at h
    · simp at h
    · next hmissing => exact ht.missing hmissing

/-! ## One after the other -/

theorem andThen {f : α → β → γ} {d : γ → Assembly → Assembly} (hr : Realizes r room p e)
    (hext : ∀ a (m : Assembly), m.Extends (e a m)) (hr' : Realizes r' room q e')
    (he : ∀ a b m, d (f a b) m = e' b (e a m)) :
    Realizes (.andThen r r') room (.seq f p q) d where
  splits := ⟨hr.splits, hr'.splits⟩
  backtracks := ⟨hr.backtracks, hr'.backtracks⟩
  matched h := by
    obtain ⟨s₁, hleft, hright⟩ := Rule.run_andThen h
    obtain ⟨a, heffect, hreads⟩ := hr.matched hleft
    obtain ⟨b, heffect', hreads'⟩ := hr'.matched hright
    refine ⟨f a b, ?_, fun hs' => ?_⟩
    · rw [heffect', heffect, he]
    · exact .seq (hreads (Rule.tooDeep_of_run hright hs')) (hreads' hs')
  failed h := by
    rcases Rule.run_andThen_failed h with hleft | ⟨s₁, hleft, hright⟩
    · obtain ⟨hext', hreads'⟩ := hr.failed hleft
      exact ⟨hext', fun hs' => .seqLeft (hreads' hs')⟩
    · obtain ⟨a, heffect, hreads⟩ := hr.matched hleft
      obtain ⟨hext', hreads'⟩ := hr'.failed hright
      refine ⟨(heffect ▸ hext a _).trans hext', fun hs' => ?_⟩
      exact .seqRight (hreads (Rule.tooDeep_of_run hright hs')) (hreads' hs')
  stopped {s s' b} h hs hs' := by
    simp only [Rule.run] at h
    split at h
    · next s₁ hrun =>
      by_cases hs₁ : s₁.tooDeep = none
      · obtain ⟨a, -, hreads⟩ := hr.matched hrun
        exact .seqRight (hreads hs₁) (hr'.stopped h hs₁ hs')
      · exact .seqLeft (hr.stopped hrun hs hs₁)
    · next s₁ hrun =>
      simp only [Prod.mk.injEq] at h
      obtain ⟨-, rfl⟩ := h
      exact .seqLeft (hr.stopped hrun hs hs')

theorem map {f : α → β} (hr : Realizes r room p e) (he : ∀ a m, e' (f a) m = e a m) :
    Realizes r room (p.map f) e' where
  splits := hr.splits
  backtracks := hr.backtracks
  matched h := by
    obtain ⟨a, heffect, hreads⟩ := hr.matched h
    exact ⟨f a, by rw [heffect, he], fun hs' => (hreads hs').map f⟩
  failed h := ⟨(hr.failed h).1, fun hs' => .seqLeft ((hr.failed h).2 hs')⟩
  stopped h hs hs' := .seqLeft (hr.stopped h hs hs')

theorem congr {d : α → Assembly → Assembly} (hr : Realizes r room p e)
    (he : ∀ a m, d a m = e a m) : Realizes r room p d := by
  have hde : d = e := funext fun a => funext (he a)
  exact hde ▸ hr

/-- An expression that reads the same may take the place of another. -/
theorem translate {q : Peg α} (hr : Realizes r room p e)
    (hq : ∀ {cs : List Char} {o : Result α}, Reads room p cs o → Reads room q cs o) :
    Realizes r room q e where
  splits := hr.splits
  backtracks := hr.backtracks
  matched h := by
    obtain ⟨a, heffect, hreads⟩ := hr.matched h
    exact ⟨a, heffect, fun hs' => hq (hreads hs')⟩
  failed h := ⟨(hr.failed h).1, fun hs' => hq ((hr.failed h).2 hs')⟩
  stopped h hs hs' := hq (hr.stopped h hs hs')

/-- An action after a rule belongs to the effect of the rule. -/
theorem thenAct (hr : Realizes r room p e) (a : Action) :
    Realizes (.andThen r (.act a)) room p fun v m => (e v m).perform a where
  splits := ⟨hr.splits, trivial⟩
  backtracks := ⟨hr.backtracks, trivial⟩
  matched {s s'} h := by
    simp only [Rule.run] at h
    split at h
    · next s₁ hrun =>
      simp only [Prod.mk.injEq, true_and] at h
      subst h
      obtain ⟨v, heffect, hreads⟩ := hr.matched hrun
      exact ⟨v, congrArg (Assembly.perform · a) heffect, hreads⟩
    · simp at h
  failed {s s'} h := by
    simp only [Rule.run] at h
    split at h
    · simp at h
    · next s₁ hrun =>
      simp only [Prod.mk.injEq, true_and] at h
      exact h ▸ hr.failed hrun
  stopped {s s' b} h hs hs' := by
    simp only [Rule.run] at h
    split at h <;> next s₁ hrun =>
      simp only [Prod.mk.injEq] at h
      obtain ⟨-, rfl⟩ := h
      exact hr.stopped hrun hs hs'

/-- An action before a rule has to add to the assembly, as the rule may fail after it. -/
theorem actThen (a : Action) (ha : ∀ m : Assembly, m.Extends (m.perform a))
    (hr : Realizes r room p e) :
    Realizes (.andThen (.act a) r) room p fun v m => e v (m.perform a) where
  splits := ⟨trivial, hr.splits⟩
  backtracks := ⟨trivial, hr.backtracks⟩
  matched h := hr.matched (by simpa only [Rule.run] using h)
  failed h := by
    obtain ⟨hext, hreads⟩ := hr.failed (by simpa only [Rule.run] using h)
    exact ⟨(ha _).trans hext, hreads⟩
  stopped {s s' b} h hs hs' := by
    have hrun : r.run (s.perform a) = (b, s') := by simpa only [Rule.run] using h
    have hdeep : (s.perform a).tooDeep = none := hs
    simpa only [State.perform] using hr.stopped hrun hdeep hs'

/-! ## Alternatives -/

theorem orElse {q : Peg α} (hr : RealizesExactly r room p e) (hr' : Realizes r' room q e) :
    Realizes (.orElse r r') room (.choice p q) e where
  splits := ⟨hr.splits, hr'.splits⟩
  backtracks := ⟨hr.backtracks, hr'.backtracks⟩
  matched {s s'} h := by
    rcases Rule.run_orElse h with hleft | ⟨s₁, hleft, hright⟩
    · obtain ⟨a, heffect, hreads⟩ := hr.matched hleft
      exact ⟨a, heffect, fun hs' => .choiceLeft (hreads hs')⟩
    · have hsame := hr.restores s s₁ hleft
      obtain ⟨a, heffect, hreads⟩ := hr'.matched hright
      refine ⟨a, by rw [heffect, hsame.assembly], fun hs' => ?_⟩
      have hs₁ := Rule.tooDeep_of_run hright hs'
      exact .choiceRight ((hr.failed hleft).2 hs₁) (hsame.rest ▸ hreads hs')
  failed {s s'} h := by
    obtain ⟨s₁, hleft, hright⟩ := Rule.run_orElse_failed h
    have hsame := hr.restores s s₁ hleft
    obtain ⟨hext, hreads⟩ := hr'.failed hright
    refine ⟨hsame.assembly ▸ hext, fun hs' => ?_⟩
    have hs₁ := Rule.tooDeep_of_run hright hs'
    exact .choiceRight ((hr.failed hleft).2 hs₁) (hsame.rest ▸ hreads hs')
  stopped {s s' b} h hs hs' := by
    simp only [Rule.run] at h
    split at h
    · next s₁ hrun =>
      simp only [Prod.mk.injEq] at h
      obtain ⟨-, rfl⟩ := h
      exact .choiceDeep (hr.stopped hrun hs hs')
    · next s₁ hrun =>
      by_cases hs₁ : s₁.tooDeep = none
      · have hsame := hr.restores s s₁ hrun
        exact .choiceRight ((hr.failed hrun).2 hs₁) (hsame.rest ▸ hr'.stopped h hs₁ hs')
      · exact .choiceDeep (hr.stopped hrun hs hs₁)

theorem never : Realizes .never room .never e where
  splits := trivial
  backtracks := trivial
  matched h := by simp [Rule.run] at h
  failed {s s'} h := by
    simp only [Rule.run, Prod.mk.injEq, true_and] at h
    exact ⟨h ▸ .refl _, fun _ => .never _ _⟩
  stopped {s s' b} h hs hs' := by
    simp only [Rule.run, Prod.mk.injEq] at h
    obtain ⟨-, rfl⟩ := h
    exact absurd hs hs'

theorem done {a : α} (he : ∀ m, e a m = m) : Realizes .done room (.pure a) e where
  splits := trivial
  backtracks := trivial
  matched {s s'} h := by
    simp only [Rule.run, Prod.mk.injEq, true_and] at h
    subst h
    exact ⟨a, (he s.assembly).symm, fun _ => .pure _ _ _⟩
  failed h := by simp [Rule.run] at h
  stopped {s s' b} h hs hs' := by
    simp only [Rule.run, Prod.mk.injEq] at h
    obtain ⟨-, rfl⟩ := h
    exact absurd hs hs'

/-! ## Undoing -/

theorem undoing (hr : Realizes r room p e) {s s' : State} {b : Bool}
    (h : Step.undoing r.run s = (b, s')) :
    (b = true ∧ r.run s = (true, s')) ∨
      (b = false ∧ s.Same s' ∧ ∃ s₁, r.run s = (false, s₁) ∧ s'.tooDeep = s₁.tooDeep) := by
  simp only [Step.undoing] at h
  split at h
  · next s₁ hrun =>
    simp only [Prod.mk.injEq] at h
    obtain ⟨rfl, rfl⟩ := h
    exact Or.inl ⟨rfl, hrun⟩
  · next s₁ hrun =>
    simp only [Prod.mk.injEq] at h
    obtain ⟨rfl, rfl⟩ := h
    have hdepth := r.run_depth s
    rw [hrun] at hdepth
    exact Or.inr ⟨rfl, State.backTo_same (hr.failed hrun).1 hdepth, s₁, hrun, rfl⟩

theorem attempt_restores (hr : Realizes r room p e) : (Rule.attempt r).Restores := by
  intro s s' h
  rcases hr.undoing h with ⟨hb, -⟩ | ⟨-, hsame, -⟩
  · simp at hb
  · exact hsame

theorem attempt (hr : Realizes r room p e) : RealizesExactly (.attempt r) room p e where
  splits := hr.splits
  backtracks := ⟨hr.attempt_restores, hr.backtracks⟩
  matched h := by
    rcases hr.undoing h with ⟨-, hrun⟩ | ⟨hb, -⟩
    · exact hr.matched hrun
    · simp at hb
  failed h := by
    rcases hr.undoing h with ⟨hb, -⟩ | ⟨-, hsame, s₁, hrun, hdeep⟩
    · simp at hb
    · exact ⟨hsame.assembly ▸ .refl _, fun hs' => (hr.failed hrun).2 (hdeep ▸ hs')⟩
  stopped h hs hs' := by
    rcases hr.undoing h with ⟨-, hrun⟩ | ⟨-, -, s₁, hrun, hdeep⟩
    · exact hr.stopped hrun hs hs'
    · exact hr.stopped hrun hs (hdeep ▸ hs')
  restores := hr.attempt_restores

theorem optional (hr : Realizes r room p e) :
    Realizes (Rule.optional r) room p.optional (perhaps e) := by
  have hsome : Realizes r room (p.map some) (perhaps e) := hr.map fun _ _ => rfl
  have hnone : Realizes .done room (.pure none) (perhaps e) := done fun _ => rfl
  exact orElse hsome.attempt hnone

/-! ## Names and levels -/

theorem within_run {name : String} {s s' : State} {b : Bool}
    (h : Step.within name r.run s = (b, s')) :
    ∃ s₁, r.run (s.enter name) = (b, s₁) ∧ s' = s₁.leave := by
  simp only [Step.within, Prod.mk.injEq] at h
  obtain ⟨rfl, rfl⟩ := h
  exact ⟨_, rfl, rfl⟩

/-- The name of a rule only matters for the trail of failures. -/
theorem named_run (hr : Realizes r room p e) {name : String} {s s' : State} {b : Bool}
    (h : (Rule.named name r).run s = (b, s')) (hs : s.tooDeep = none) :
    (b = true ∧ ∃ s₁, r.run (s.enter name) = (true, s₁) ∧ s' = s₁.leave) ∨
      (b = false ∧ s.Same s' ∧
        ∃ s₁, r.run (s.enter name) = (false, s₁) ∧ s'.tooDeep = s₁.tooDeep) := by
  simp only [Rule.run, hs, Option.isSome_none, Bool.false_eq_true, if_false, Step.undoing] at h
  split at h
  · next s₁ hwithin =>
    simp only [Prod.mk.injEq] at h
    obtain ⟨rfl, rfl⟩ := h
    exact Or.inl ⟨rfl, within_run hwithin⟩
  · next s₁ hwithin =>
    simp only [Prod.mk.injEq] at h
    obtain ⟨rfl, rfl⟩ := h
    obtain ⟨s₂, hrun, rfl⟩ := within_run hwithin
    have hdepth := r.run_depth (s.enter name)
    rw [hrun] at hdepth
    have hsame : s.Same (s₂.leave.backTo s) := State.backTo_same (hr.failed hrun).1 hdepth
    exact Or.inr ⟨rfl, hsame, s₂, hrun, rfl⟩

theorem named_deep {name : String} {s s' : State} {b : Bool}
    (h : (Rule.named name r).run s = (b, s')) (hs : s.tooDeep ≠ none) : b = false ∧ s' = s := by
  simp only [Rule.run, Option.isSome_iff_ne_none.mpr hs, if_true, Prod.mk.injEq] at h
  exact ⟨h.1.symm, h.2.symm⟩

theorem named_restores {name : String} (hr : Realizes r room p e) :
    (Rule.named name r).Restores := by
  intro s s' h
  by_cases hs : s.tooDeep = none
  · rcases hr.named_run h hs with ⟨hb, -⟩ | ⟨-, hsame, -⟩
    · simp at hb
    · exact hsame
  · obtain ⟨-, rfl⟩ := named_deep h hs
    exact .refl _

theorem named {symbol : Symbol α} (name : String) (hr : Realizes r room symbol.body e) :
    RealizesExactly (.named name r) room (.call symbol) e where
  splits := hr.splits
  backtracks := ⟨hr.named_restores, hr.backtracks⟩
  matched {s s'} h := by
    by_cases hs : s.tooDeep = none
    · rcases hr.named_run h hs with ⟨-, s₁, hrun, rfl⟩ | ⟨hb, -⟩
      · obtain ⟨a, heffect, hreads⟩ := hr.matched hrun
        exact ⟨a, heffect, fun hs' => .call (hreads hs')⟩
      · simp at hb
    · simpa using (named_deep h hs).1
  failed {s s'} h := by
    by_cases hs : s.tooDeep = none
    · rcases hr.named_run h hs with ⟨hb, -⟩ | ⟨-, hsame, s₁, hrun, hdeep⟩
      · simp at hb
      · exact ⟨hsame.assembly ▸ .refl _, fun hs' => .call ((hr.failed hrun).2 (hdeep ▸ hs'))⟩
    · obtain ⟨-, rfl⟩ := named_deep h hs
      exact ⟨.refl _, fun hs' => absurd hs' hs⟩
  stopped {s s' b} h hs hs' := by
    have hentered : (s.enter name).tooDeep = none := hs
    rcases hr.named_run h hs with ⟨-, s₁, hrun, rfl⟩ | ⟨-, -, s₁, hrun, hdeep⟩
    · simpa only [State.enter] using Reads.call (hr.stopped hrun hentered hs')
    · simpa only [State.enter] using Reads.call (hr.stopped hrun hentered (hdeep ▸ hs'))
  restores := hr.named_restores

theorem deeper_run {s s' : State} {b : Bool} (h : (Rule.deeper r).run s = (b, s')) :
    ∃ s₁, r.run s.descend = (b, s₁) ∧ s' = s₁.ascend := by
  simp only [Rule.run, Step.deeper, Prod.mk.injEq] at h
  obtain ⟨rfl, rfl⟩ := h
  exact ⟨_, rfl, rfl⟩

theorem deeper (hroom : room.inner? = some inner) (hr : Realizes r inner p e) :
    Realizes (.deeper r) room (.deeper p) e where
  splits := hr.splits
  backtracks := hr.backtracks
  matched {s s'} h := by
    obtain ⟨s₁, hrun, rfl⟩ := deeper_run h
    obtain ⟨a, heffect, hreads⟩ := hr.matched hrun
    exact ⟨a, heffect, fun hs' => .deeper hroom (hreads hs')⟩
  failed {s s'} h := by
    obtain ⟨s₁, hrun, rfl⟩ := deeper_run h
    exact ⟨(hr.failed hrun).1, fun hs' => .deeper hroom ((hr.failed hrun).2 hs')⟩
  stopped {s s' b} h hs hs' := by
    obtain ⟨s₁, hrun, rfl⟩ := deeper_run h
    exact .deeper hroom (hr.stopped (s := s.descend) hrun hs hs')

theorem limit (hroom : room.inner? = none) : Realizes .limit room (.deeper p) e where
  splits := trivial
  backtracks := trivial
  matched h := by simp [Rule.run] at h
  failed {s s'} h := by
    simp only [Rule.run, Prod.mk.injEq, true_and] at h
    subst h
    exact ⟨.refl _, fun hs' => by simp [State.hitLimit] at hs'⟩
  stopped h hs hs' := .noRoom hroom

/-! ## Repetition -/

/-- Rounds of a rule read as a star. The induction is on the rounds that are left: a round of the
star takes at least one character, so there are never too few. -/
theorem repeatUpTo (hr : Realizes r room p e) (hp : p.Consumes) {rounds n : Nat}
    {s s' : State} (h : Step.repeatUpTo r.run rounds s = (n, s')) :
    ∃ as : List α, as.length = n ∧ s'.assembly = each e as s.assembly ∧
      (s'.tooDeep = none → s.cursor.rest.length < rounds → ∀ {δ : Type} (f : List α → δ),
        Reads room (.star f p) s.cursor.rest (.matched (f as) s'.cursor.rest)) ∧
      (s.tooDeep = none → s'.tooDeep ≠ none → ∀ {δ : Type} (f : List α → δ),
        Reads room (.star f p) s.cursor.rest (halted .tooDeep)) := by
  induction rounds generalizing s n with
  | zero =>
    simp only [Step.repeatUpTo, Prod.mk.injEq] at h
    obtain ⟨rfl, rfl⟩ := h
    exact ⟨[], rfl, rfl, fun _ hlt => absurd hlt (Nat.not_lt_zero _),
      fun hs hs' => absurd hs hs'⟩
  | succ rounds ih =>
    simp only [Step.repeatUpTo] at h
    split at h
    · next s₁ hround =>
      simp only [Prod.mk.injEq] at h
      obtain ⟨rfl, rfl⟩ := h
      rcases hr.undoing hround with ⟨hb, -⟩ | ⟨-, hsame, s₂, hrun, hdeep⟩
      · simp at hb
      · refine ⟨[], rfl, hsame.assembly, ?_, ?_⟩
        · intro hs₁ _ δ f
          rw [hsame.rest]
          exact .starEnd ((hr.failed hrun).2 (hdeep ▸ hs₁))
        · intro hs hs₁ δ f
          exact .starDeep (hr.stopped hrun hs (hdeep ▸ hs₁))
    · next s₁ hround =>
      rcases hr.undoing hround with ⟨-, hrun⟩ | ⟨hb, -⟩
      · obtain ⟨a, heffect, hreads⟩ := hr.matched hrun
        have hmoved : s₁.tooDeep = none →
            s₁.cursor.rest.length < s.cursor.rest.length ∧
              s₁.cursor.offset ≠ s.cursor.offset := by
          intro hs₁
          have hreach := Rule.run_reaches hr.splits s
          rw [hrun] at hreach
          exact ⟨hp (hreads hs₁), (hreach.offset_lt (hp (hreads hs₁))).ne'⟩
        split at h
        · next hstay =>
          simp only [Prod.mk.injEq] at h
          obtain ⟨rfl, rfl⟩ := h
          refine ⟨[a], rfl, heffect, fun hs₁ => absurd hstay (hmoved hs₁).2, ?_⟩
          intro hs hs₁ δ f
          exact .starDeep (hr.stopped hrun hs hs₁)
        · simp only [Prod.mk.injEq] at h
          obtain ⟨rfl, rfl⟩ := h
          obtain ⟨as, hlength, heffects, hstar, hdeep⟩ := ih rfl
          refine ⟨a :: as, by rw [List.length_cons, hlength], ?_, ?_, ?_⟩
          · rw [heffects, heffect]
            rfl
          · intro hs' hlt δ f
            have hs₁ : s₁.tooDeep = none := by
              by_contra hne
              obtain ⟨d, hd⟩ := Option.ne_none_iff_exists'.mp hne
              have hkept := (invariant_tooDeep _).repeatUpTo (fun _ => r.run_tooDeep) rounds _ hd
              simp [hs'] at hkept
            refine .starMore (hreads hs₁) (hstar hs' ?_ fun as => f (a :: as))
            have hshort := (hmoved hs₁).1
            omega
          · intro hs hs' δ f
            by_cases hs₁ : s₁.tooDeep = none
            · exact .starMore (hreads hs₁) (hdeep hs₁ hs' fun as => f (a :: as))
            · exact .starDeep (hr.stopped hrun hs hs₁)
      · simp at hb

theorem many (hr : Realizes r room p e) (hp : p.Consumes) :
    Realizes (.many r) room p.many (each e) where
  splits := hr.splits
  backtracks := ⟨hr.attempt_restores, hr.backtracks⟩
  matched {s s'} h := by
    simp only [Rule.run, Prod.mk.injEq, true_and] at h
    obtain ⟨as, -, heffect, hstar, -⟩ := hr.repeatUpTo hp (rfl : _ = (_, _))
    refine ⟨as, h ▸ heffect, fun hs' => ?_⟩
    subst h
    exact hstar hs' (Nat.lt_succ_self _) id
  failed h := by simp [Rule.run] at h
  stopped {s s' b} h hs hs' := by
    simp only [Rule.run, Prod.mk.injEq] at h
    obtain ⟨-, rfl⟩ := h
    obtain ⟨as, -, -, -, hdeep⟩ := hr.repeatUpTo hp (rfl : _ = (_, _))
    exact hdeep hs hs' id

/-- Two repetitions and an action on how often each matched. -/
theorem tally {f : List α → List β → γ} {d : γ → Assembly → Assembly}
    {act : Nat → Nat → Action} (hr : Realizes r room p e) (hp : p.Consumes)
    (hr' : Realizes r' room q e') (hq : q.Consumes)
    (he : ∀ as bs m, d (f as bs) m =
      (each e' bs (each e as m)).perform (act as.length bs.length)) :
    Realizes (.tally r r' act) room (.seq f p.many q.many) d where
  splits := ⟨hr.splits, hr'.splits⟩
  backtracks := ⟨⟨hr.attempt_restores, hr.backtracks⟩, hr'.attempt_restores, hr'.backtracks⟩
  matched {s s'} h := by
    simp only [Rule.run, Prod.mk.injEq, true_and] at h
    obtain ⟨as, hlength, heffect, hstar, -⟩ := hr.repeatUpTo hp (rfl : _ = (_, _))
    obtain ⟨bs, hlength', heffect', hstar', -⟩ := hr'.repeatUpTo hq (rfl : _ = (_, _))
    subst h
    refine ⟨f as bs, ?_, fun hs' => ?_⟩
    · rw [he, hlength, hlength', ← heffect, ← heffect']
      rfl
    · have hmid : (Step.count r.run s).2.tooDeep = none :=
        Rule.tooDeep_of_run (rfl : (Rule.many r').run _ = (true, _)) hs'
      exact .seq (hstar hmid (Nat.lt_succ_self _) id) (hstar' hs' (Nat.lt_succ_self _) id)
  failed h := by simp [Rule.run] at h
  stopped {s s' b} h hs hs' := by
    simp only [Rule.run, Prod.mk.injEq] at h
    obtain ⟨-, rfl⟩ := h
    obtain ⟨as, -, -, hstar, hdeep⟩ := hr.repeatUpTo hp (rfl : _ = (_, _))
    obtain ⟨bs, -, -, -, hdeep'⟩ := hr'.repeatUpTo hq (rfl : _ = (_, _))
    by_cases hmid : (Step.count r.run s).2.tooDeep = none
    · exact .seqRight (hstar hmid (Nat.lt_succ_self _) id) (hdeep' hmid hs' id)
    · exact .seqLeft (hdeep hs hmid id)

end Realizes

namespace RealizesExactly

variable {α β : Type} {r r' : Rule} {room : Room} {p q : Peg α} {e : α → Assembly → Assembly}

theorem map {q : Peg β} {f : β → α} {e' : β → Assembly → Assembly}
    (hr : RealizesExactly r room q e') (he : ∀ b m, e (f b) m = e' b m) :
    RealizesExactly r room (q.map f) e :=
  ⟨hr.toRealizes.map he, hr.restores⟩

theorem orElse (hr : RealizesExactly r room p e) (hr' : RealizesExactly r' room q e) :
    RealizesExactly (.orElse r r') room (.choice p q) e :=
  ⟨Realizes.orElse hr hr'.toRealizes, Rule.orElse_restores hr.restores hr'.restores⟩

theorem choiceOf {ι : Type} {rule : ι → Rule} {peg : ι → Peg α} {is : List ι}
    (his : ∀ i ∈ is, RealizesExactly (rule i) room (peg i) e) :
    RealizesExactly (Rule.choice (is.map rule)) room (Peg.firstOf (is.map peg)) e := by
  induction is with
  | nil =>
    refine ⟨.never, fun s s' h => ?_⟩
    simp only [Rule.choice, List.map_nil, Rule.run, Prod.mk.injEq, true_and] at h
    exact h ▸ .refl _
  | cons i is ih =>
    have hi := his i (List.mem_cons_self ..)
    have hrest := ih fun j hj => his j (List.mem_cons_of_mem i hj)
    cases is with
    | nil => exact hi
    | cons => exact hi.orElse hrest

end RealizesExactly

end FilterQuery.Grammar
