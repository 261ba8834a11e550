import FilterQuery.Proofs.Machine

/-!
The terminals that a run tries. A run undoes what an abandoned alternative has read, so the state
that it ends in does not tell where the cursor has been. Here every terminal is listed that is tried
in a run, with the cursor that it is tried at. Wherever one of them stood after a match, the trail
has a failure there or further on, unless the run has matched and come that far itself.
-/
namespace FilterQuery

open Text

namespace Scanner

/-- What the reading had passed of the text when it was done. -/
def Reading.passed {α : Type} : Reading α → List Char
  | found _ lexeme _ => lexeme
  | missing passed => passed

namespace Terminal

variable {α β : Type} {t p : Terminal α} {q : α → Terminal β} {a : α}
  {cs lexeme rest stop : List Char}

/-- The terminal splits the text if it is found, and gives up inside of the text if not. -/
structure StaysIn (t : Terminal α) : Prop where
  splits : Splits t
  passed : ∀ ⦃cs passed⦄, t cs = .missing passed → passed <+: cs

/-- The places where a match ends in the course of a terminal: the end of what it finds, and the
ends of the parts that it is put together from, also if it is missing for what comes after. -/
inductive Stops : {α : Type} → Terminal α → List Char → List Char → Prop
  | found {α : Type} {t : Terminal α} {a : α} {cs lexeme rest : List Char}
      (h : t cs = .found a lexeme rest) : Stops t cs lexeme
  | map {α β : Type} {t : Terminal α} {cs stop : List Char} (f : α → β) (h : Stops t cs stop) :
      Stops (t.map f) cs stop
  | first {α β : Type} {p : Terminal α} {q : α → Terminal β} {cs stop : List Char}
      (h : Stops p cs stop) : Stops (p.followedBy q) cs stop
  | second {α β : Type} {p : Terminal α} {q : α → Terminal β} {a : α}
      {cs lexeme rest stop : List Char} (hp : p cs = .found a lexeme rest)
      (hq : Stops (q a) rest stop) : Stops (p.followedBy q) cs (lexeme ++ stop)

/-- Between the words of a phrase the cursor stands as well, whatever the last word is. -/
example : (phrase ["not", "in"]).Stops ['N', 'O', 'T', ' ', 'x'] ['N', 'O', 'T', ' '] := by
  have hword : keyword "not" ['N', 'O', 'T', ' ', 'x'] =
      .found ['N', 'O', 'T'] ['N', 'O', 'T'] [' ', 'x'] := by decide
  have hgap : someGap [' ', 'x'] = .found () [' '] ['x'] := by decide
  exact .second hword (.first (.found hgap))

@[simp] theorem passed_map (f : α → β) (t : Terminal α) (cs : List Char) :
    (t.map f cs).passed = (t cs).passed := by
  unfold map
  cases t cs <;> rfl

theorem passed_followedBy (h : p cs = .found a lexeme rest) :
    (p.followedBy q cs).passed = lexeme ++ (q a rest).passed := by
  simp only [followedBy, h]
  cases q a rest <;> rfl

theorem passed_prefix_followedBy (p : Terminal α) (q : α → Terminal β) (cs : List Char) :
    (p cs).passed <+: (p.followedBy q cs).passed := by
  cases h : p cs with
  | found a lexeme rest => exact passed_followedBy h ▸ List.prefix_append _ _
  | missing passed => simp [followedBy, h, Reading.passed]

/-- No place where a match ends is beyond what is passed in the end. -/
theorem Stops.prefix_passed (h : t.Stops cs stop) : stop <+: (t cs).passed := by
  induction h with
  | found h => simp [h, Reading.passed]
  | map f _ ih => simpa using ih
  | first _ ih => exact ih.trans (passed_prefix_followedBy _ _ _)
  | second hp _ ih => simpa [passed_followedBy hp] using ih

end Terminal

namespace Trail

variable {trail : Trail} {m n : Nat}

/-- A failure is recorded at the offset or further on. -/
def Covers (trail : Trail) (offset : Nat) : Prop := ∃ best ∈ trail.furthest, offset ≤ best.1

theorem Covers.mono (h : trail.Covers n) (hm : m ≤ n) : trail.Covers m := by
  obtain ⟨best, hbest, hle⟩ := h
  exact ⟨best, hbest, hm.trans hle⟩

theorem covers_fail (trail : Trail) (offset : Nat) : (trail.fail offset).Covers offset := by
  unfold fail
  split
  · exact ⟨_, rfl, le_rfl⟩
  · next h =>
    simp only [Option.all_eq_true, decide_eq_true_eq, not_forall, not_lt] at h
    obtain ⟨best, hbest, hle⟩ := h
    exact ⟨best, hbest, hle⟩

theorem Covers.fail (h : trail.Covers m) (offset : Nat) : (trail.fail offset).Covers m := by
  obtain ⟨best, hbest, hle⟩ := h
  unfold Trail.fail
  split
  · next hall =>
    have hless : best.1 < offset := by simpa [Option.mem_def.1 hbest] using hall
    exact ⟨_, rfl, hle.trans hless.le⟩
  · exact ⟨best, hbest, hle⟩

/-- A record that was not there before is beyond the old one. -/
theorem furthest_fail {rule : String} (h : (trail.fail n).furthest = some (m, rule)) :
    trail.furthest = some (m, rule) ∨ ∀ best ∈ trail.furthest, best.1 < m := by
  unfold fail at h
  split at h
  · next hall =>
    simp only [Option.some.injEq, Prod.mk.injEq] at h
    obtain ⟨rfl, -⟩ := h
    exact Or.inr (by simpa [Option.all_eq_true] using hall)
  · exact Or.inl h

end Trail

end Scanner

namespace Grammar

open Scanner

variable {r p q : Rule} {s s' s₁ : State} {b : Bool}

/-- A terminal that is tried in a run, and the cursor that it is tried at. -/
structure Probe where
  terminal : Terminal (Option Action)
  cursor : Cursor

namespace Probe

variable {v : Probe} {offset : Nat} {rule : String}

/-- The offset that the terminal comes to, by a match or before it gives up. -/
def reach (v : Probe) : Nat := v.cursor.offset + byteSize (v.terminal v.cursor.rest).passed

/-- A match in the course of the terminal leaves the cursor at the offset. -/
def StandsAt (v : Probe) (offset : Nat) : Prop :=
  ∃ stop, v.terminal.Stops v.cursor.rest stop ∧ offset = v.cursor.offset + byteSize stop

/-- The terminal is missing, and this makes the record of the trail. -/
structure Records (v : Probe) (offset : Nat) (rule : String) : Prop where
  missing : (v.cursor.read v.terminal).1 = none
  beyond : ∀ best ∈ v.cursor.trail.furthest, best.1 < offset
  recorded : (v.cursor.read v.terminal).2.trail.furthest = some (offset, rule)

theorem StandsAt.le_reach (h : v.StandsAt offset) : offset ≤ v.reach := by
  obtain ⟨stop, hstop, rfl⟩ := h
  obtain ⟨more, hmore⟩ := hstop.prefix_passed
  simp only [reach, ← hmore, byteSize_append]
  omega

theorem Records.offset_eq (h : v.Records offset rule) :
    ∃ passed, v.terminal v.cursor.rest = .missing passed ∧
      offset = v.cursor.offset + byteSize passed := by
  obtain ⟨hmissing, hbeyond, hrecorded⟩ := h
  cases hread : v.terminal v.cursor.rest with
  | found a lexeme rest => simp [Cursor.read, hread] at hmissing
  | missing passed =>
    refine ⟨passed, rfl, ?_⟩
    simp only [Cursor.read, hread, Trail.fail] at hrecorded
    split at hrecorded
    · simp only [Option.some.injEq, Prod.mk.injEq] at hrecorded
      exact hrecorded.1.symm
    · exact absurd (hbeyond _ hrecorded) (lt_irrefl _)

end Probe

/-! ## The probes of a run -/

/-- The states that the rounds of a repetition begin in, the last round included. -/
def Step.roundsUpTo (step : Step) : Nat → State → List State
  | 0, _ => []
  | rounds + 1, s =>
    s :: match undoing step s with
      | (false, _) => []
      | (true, s') =>
        if s'.cursor.offset = s.cursor.offset then [] else roundsUpTo step rounds s'

def Step.rounds (step : Step) (s : State) : List State :=
  roundsUpTo step (s.cursor.rest.length + 1) s

namespace Rule

/-- Every terminal that the run tries, in the order in which it does so. -/
def probes : Rule → State → List Probe
  | done, _ | never, _ | act _, _ | limit, _ => []
  | read t, s => [⟨t, s.cursor⟩]
  | deeper p, s => p.probes s.descend
  | andThen p q, s =>
    match p.run s with
    | (true, s') => p.probes s ++ q.probes s'
    | (false, _) => p.probes s
  | orElse p q, s =>
    match p.run s with
    | (true, _) => p.probes s
    | (false, s') => p.probes s ++ q.probes s'
  | attempt p, s => p.probes s
  | many p, s => (Step.rounds p.run s).flatMap p.probes
  | tally p q _, s =>
    (Step.rounds p.run s).flatMap p.probes ++
      (Step.rounds q.run (Step.count p.run s).2).flatMap q.probes
  | named name p, s => if s.tooDeep.isSome then [] else p.probes (s.enter name)

/-- Every failure of the rule is one of its terminals, or the nesting limit, and the terminals stay
in the text. -/
def Blames : Rule → Prop
  | never => False
  | done | act _ | limit => True
  | read t => t.StaysIn
  | andThen p q | orElse p q | tally p q _ => p.Blames ∧ q.Blames
  | deeper p | attempt p | many p | named _ p => p.Blames

end Rule

/-- A relation between the state before a run, the probes of the run, whether it matched, and the
state after it, that holds of single steps and passes to what is composed of them. -/
structure Chronicle (R : State → List Probe → Bool → State → Prop) : Prop where
  refl (s : State) : R s [] true s
  perform (s : State) (a : Action) : R s [] true (s.perform a)
  hitLimit (s : State) : R s [] false s.hitLimit
  refused {s : State} : s.tooDeep.isSome → R s [] false s
  read {t : Terminal (Option Action)} (ht : t.StaysIn) (s : State) :
    R s [⟨t, s.cursor⟩] (s.cursor.read t).1.isSome { s with cursor := (s.cursor.read t).2 }
  trans {s s₁ s' : State} {vs ws : List Probe} {b₁ b : Bool} :
    R s vs b₁ s₁ → R s₁ ws b s' → R s (vs ++ ws) b s'
  backTo {s s' : State} {vs : List Probe} : R s vs false s' → R s vs false (s'.backTo s)
  leave {s s' : State} {vs : List Probe} {b : Bool} (name : String) :
    R (s.enter name) vs b s' → R s vs b s'.leave
  ascend {s s' : State} {vs : List Probe} {b : Bool} : R s.descend vs b s' → R s vs b s'.ascend

namespace Chronicle

variable {R : State → List Probe → Bool → State → Prop} {step : Step}
  {probes : State → List Probe}

theorem undoing (hR : Chronicle R) (h : ∀ s, R s (probes s) (step s).1 (step s).2) (s : State) :
    R s (probes s) (Step.undoing step s).1 (Step.undoing step s).2 := by
  have hstep := h s
  unfold Step.undoing
  split
  · next heq => simpa [heq] using hstep
  · next heq =>
    rw [heq] at hstep
    exact hR.backTo hstep

/-- The induction is on the number of rounds. A round that fails is the last one, and what it has
tried belongs to the repetition although it is undone. -/
theorem repeatUpTo (hR : Chronicle R) (h : ∀ s, R s (probes s) (step s).1 (step s).2)
    (rounds : Nat) (s : State) :
    R s ((Step.roundsUpTo step rounds s).flatMap probes) true
      (Step.repeatUpTo step rounds s).2 := by
  induction rounds generalizing s with
  | zero => exact hR.refl s
  | succ rounds ih =>
    have hround := hR.undoing h s
    cases hundo : Step.undoing step s with
    | mk b s' =>
      rw [hundo] at hround
      simp only [Step.roundsUpTo, Step.repeatUpTo, hundo]
      cases b with
      | false => exact hR.trans hround (hR.refl s')
      | true =>
        dsimp only
        split
        · exact hR.trans hround (hR.refl s')
        · exact hR.trans hround (ih s')

theorem readStep (hR : Chronicle R) {t : Terminal (Option Action)} (ht : t.StaysIn) (s : State) :
    R s [⟨t, s.cursor⟩] (Step.read t s).1 (Step.read t s).2 := by
  have hread := hR.read ht s
  simp only [Step.read]
  split
  · next heq =>
    rw [heq] at hread
    exact hR.trans hread (hR.perform _ _)
  all_goals next heq =>
    rw [heq] at hread
    exact hread

/-- What holds of the steps holds of every run whose failures are those of terminals. -/
theorem run (hR : Chronicle R) (hr : r.Blames) (s : State) :
    R s (r.probes s) (r.run s).1 (r.run s).2 := by
  induction r generalizing s with
  | done => exact hR.refl s
  | never => exact hr.elim
  | read t => exact hR.readStep hr s
  | act a => exact hR.perform s a
  | limit => exact hR.hitLimit s
  | deeper p ih => exact hR.ascend (ih hr s.descend)
  | andThen p q ihp ihq =>
    have hleft := ihp hr.1 s
    simp only [Rule.probes, Rule.run]
    cases hrun : p.run s with
    | mk b s₁ =>
      rw [hrun] at hleft
      cases b with
      | true => exact hR.trans hleft (ihq hr.2 s₁)
      | false => exact hleft
  | orElse p q ihp ihq =>
    have hleft := ihp hr.1 s
    simp only [Rule.probes, Rule.run]
    cases hrun : p.run s with
    | mk b s₁ =>
      rw [hrun] at hleft
      cases b with
      | true => exact hleft
      | false => exact hR.trans hleft (ihq hr.2 s₁)
  | attempt p ih => exact hR.undoing (ih hr) s
  | many p ih => exact hR.repeatUpTo (ih hr) _ s
  | tally p q a ihp ihq =>
    have hfirst := hR.repeatUpTo (ihp hr.1) (s.cursor.rest.length + 1) s
    have hsecond := hR.repeatUpTo (ihq hr.2)
      ((Step.count p.run s).2.cursor.rest.length + 1) (Step.count p.run s).2
    have hact := hR.perform (Step.count q.run (Step.count p.run s).2).2
      (a (Step.count p.run s).1 (Step.count q.run (Step.count p.run s).2).1)
    have hall := hR.trans (hR.trans hfirst hsecond) hact
    rw [List.append_nil] at hall
    exact hall
  | named name p ih =>
    have hwithin : ∀ s, R s (p.probes (s.enter name)) (Step.within name p.run s).1
        (Step.within name p.run s).2 := fun s => hR.leave name (ih hr (s.enter name))
    simp only [Rule.probes, Rule.run]
    split
    · next hdeep => exact hR.refused hdeep
    · exact hR.undoing hwithin s

end Chronicle

/-! ## What the probes tell -/

/-- A run only moves the cursor forward, and every probe of it has a cursor that is further on. -/
theorem chronicle_reaches : Chronicle fun s vs _ s' =>
    s.cursor.Reaches s'.cursor ∧ ∀ v ∈ vs, s.cursor.Reaches v.cursor ∧ v.terminal.StaysIn where
  refl s := ⟨.refl s.cursor, by simp⟩
  perform s _ := ⟨.refl s.cursor, by simp⟩
  hitLimit s := ⟨.refl s.cursor, by simp⟩
  refused {s} _ := ⟨.refl s.cursor, by simp⟩
  read ht s := by
    refine ⟨Cursor.read_reaches ht.splits s.cursor, fun v hv => ?_⟩
    obtain rfl := List.mem_singleton.1 hv
    exact ⟨.refl s.cursor, ht⟩
  trans h h' := by
    refine ⟨h.1.trans h'.1, fun v hv => ?_⟩
    rcases List.mem_append.1 hv with hv | hv
    · exact h.2 v hv
    · exact ⟨h.1.trans (h'.2 v hv).1, (h'.2 v hv).2⟩
  backTo h := ⟨.refl _, h.2⟩
  leave _ h := h
  ascend h := h

/-- The cursor stands where the run began, or where a match of one of its probes has left it. So no
match is missing among the probes, whichever part of a run they are listed for. -/
theorem chronicle_stands : Chronicle fun s vs _ s' =>
    s'.cursor.offset = s.cursor.offset ∨ ∃ v ∈ vs, v.StandsAt s'.cursor.offset where
  refl _ := Or.inl rfl
  perform _ _ := Or.inl rfl
  hitLimit _ := Or.inl rfl
  refused _ := Or.inl rfl
  read {t} _ s := by
    cases hread : t s.cursor.rest with
    | found a lexeme rest =>
      refine Or.inr ⟨⟨t, s.cursor⟩, List.mem_singleton_self _, lexeme, .found hread, ?_⟩
      simp [Cursor.read, hread]
    | missing passed => exact Or.inl (by simp [Cursor.read, hread])
  trans h h' := by
    rcases h' with hsame | ⟨v, hv, hstands⟩
    · rcases h with hstart | ⟨v, hv, hstands⟩
      · exact Or.inl (hsame.trans hstart)
      · exact Or.inr ⟨v, List.mem_append_left _ hv, hsame ▸ hstands⟩
    · exact Or.inr ⟨v, List.mem_append_right _ hv, hstands⟩
  backTo _ := Or.inl rfl
  leave _ h := h
  ascend h := h

/-- The record of the trail after a run was made before the run, or a probe of the run makes it. -/
theorem chronicle_records : Chronicle fun s vs _ s' =>
    ∀ offset rule, s'.cursor.trail.furthest = some (offset, rule) →
      s.cursor.trail.furthest = some (offset, rule) ∨ ∃ v ∈ vs, v.Records offset rule where
  refl _ _ _ := Or.inl
  perform _ _ _ _ := Or.inl
  hitLimit _ _ _ := Or.inl
  refused _ _ _ := Or.inl
  read {t} _ s offset rule h := by
    cases hread : t s.cursor.rest with
    | found a lexeme rest => exact Or.inl (by simpa [Cursor.read, hread] using h)
    | missing passed =>
      have hfail : (s.cursor.trail.fail (s.cursor.offset + byteSize passed)).furthest =
          some (offset, rule) := by simpa [Cursor.read, hread] using h
      refine (Trail.furthest_fail hfail).imp_right fun hbeyond => ?_
      exact ⟨⟨t, s.cursor⟩, List.mem_singleton_self _, by simp [Cursor.read, hread], hbeyond, h⟩
  trans h h' offset rule hrecord := by
    rcases h' offset rule hrecord with hrecord | ⟨v, hv, hrecords⟩
    · rcases h offset rule hrecord with hbefore | ⟨v, hv, hrecords⟩
      · exact Or.inl hbefore
      · exact Or.inr ⟨v, List.mem_append_left _ hv, hrecords⟩
    · exact Or.inr ⟨v, List.mem_append_right _ hv, hrecords⟩
  backTo h := h
  leave _ h := h
  ascend h := h

/-- What a run leaves behind for where it has been. This is for runs that do not hit the nesting
limit, since a rule that is refused for it fails without a terminal. -/
structure Accounts (s : State) (vs : List Probe) (b : Bool) (s' : State) : Prop where
  offset_le : s.cursor.offset ≤ s'.cursor.offset
  covers ⦃m : Nat⦄ : s.cursor.trail.Covers m → s'.cursor.trail.Covers m
  tooDeep : s'.tooDeep = none → s.tooDeep = none
  /-- A run that fails has a failure where it began or further on. -/
  failed : s'.tooDeep = none → b = false → s'.cursor.trail.Covers s.cursor.offset
  /-- Where a probe came to there is a failure, or the run has matched and come there too. -/
  reach : s'.tooDeep = none → ∀ v ∈ vs,
    s'.cursor.trail.Covers v.reach ∨ b = true ∧ v.reach ≤ s'.cursor.offset

theorem accounts_of_same (hcursor : s'.cursor = s.cursor)
    (htooDeep : s'.tooDeep = none → s.tooDeep = none) (hb : s'.tooDeep = none → b = true) :
    Accounts s [] b s' where
  offset_le := by rw [hcursor]
  covers m := by simp [hcursor]
  tooDeep := htooDeep
  failed hnone hfalse := by simp [hb hnone] at hfalse
  reach := by simp

/-- What comes next after a match has moved the cursor on, or it has failed there or further on. So
nothing that a run has come to is lost when it goes back. -/
theorem chronicle_accounts : Chronicle Accounts where
  refl s := accounts_of_same rfl id fun _ => rfl
  perform s a := accounts_of_same rfl id fun _ => rfl
  hitLimit s := accounts_of_same rfl (by simp [State.hitLimit]) (by simp [State.hitLimit])
  refused hdeep := accounts_of_same rfl id fun hnone => by simp [hnone] at hdeep
  read {t} ht s := by
    cases hread : t s.cursor.rest with
    | found a lexeme rest =>
      refine ⟨?_, ?_, id, ?_, ?_⟩ <;> simp [Cursor.read, hread, Probe.reach, Reading.passed]
    | missing passed =>
      have hcovers := s.cursor.trail.covers_fail (s.cursor.offset + byteSize passed)
      refine ⟨?_, ?_, id, ?_, ?_⟩ <;>
        simp only [Cursor.read, hread, Probe.reach, Reading.passed, List.mem_singleton, forall_eq]
      · exact le_rfl
      · exact fun _ h => h.fail _
      · exact fun _ _ => hcovers.mono (Nat.le_add_right _ _)
      · exact fun _ => Or.inl hcovers
  trans {s s₁ s' vs ws b₁ b} h h' := by
    refine ⟨h.offset_le.trans h'.offset_le, fun m hm => h'.covers (h.covers hm),
      fun hnone => h.tooDeep (h'.tooDeep hnone),
      fun hnone hb => (h'.failed hnone hb).mono h.offset_le, fun hnone v hv => ?_⟩
    rcases List.mem_append.1 hv with hv | hv
    · rcases h.reach (h'.tooDeep hnone) v hv with hcovers | ⟨-, hreach⟩
      · exact Or.inl (h'.covers hcovers)
      · -- The probe came no further than where the second part begins.
        cases b with
        | false => exact Or.inl ((h'.failed hnone rfl).mono hreach)
        | true => exact Or.inr ⟨rfl, hreach.trans h'.offset_le⟩
    · exact h'.reach hnone v hv
  backTo h := ⟨le_rfl, h.covers, h.tooDeep, h.failed, fun hnone v hv =>
    Or.inl ((h.reach hnone v hv).resolve_right (by simp))⟩
  leave _ h := ⟨h.offset_le, h.covers, h.tooDeep, h.failed, h.reach⟩
  ascend h := ⟨h.offset_le, h.covers, h.tooDeep, h.failed, h.reach⟩

end Grammar

end FilterQuery
