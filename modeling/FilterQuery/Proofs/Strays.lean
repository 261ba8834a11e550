import FilterQuery.Proofs.Bounds
import FilterQuery.Proofs.Nesting

/-!
What the nesting limit changes. Where a reading within the limit is too deep, the reading without
one goes on: it either takes that many levels for what it reads, or it gives up the part that was
too deep and strays, leaving text ahead at which whatever is around it fails as well.
-/
namespace FilterQuery.Grammar

open Scanner Result

variable {α β γ : Type} {room : Room} {n : Nat} {cs mid rest : List Char}

/-! ## Without brackets -/

def Symbol.isShallow : {α : Type} → Symbol α → Bool
  | _, reference | _, identifier | _, compare | _, logic | _, test | _, value | _, array
  | _, literal => true
  | _, _ => false

/-- Nothing in it is one level of brackets deeper. -/
def Peg.isShallow : {α : Type} → Peg α → Bool
  | _, never | _, pure _ | _, char _ _ => true
  | _, seq _ p q => p.isShallow && q.isShallow
  | _, choice p q => p.isShallow && q.isShallow
  | _, star _ p => p.isShallow
  | _, absent p _ => p.isShallow
  | _, guard p _ => p.isShallow
  | _, deeper _ => false
  | _, call s => s.isShallow

theorem Symbol.body_isShallow {s : Symbol α} (hs : s.isShallow = true) :
    s.body.isShallow = true := by
  cases s with
  | reference | identifier | compare | logic | test | value | array | literal => rfl
  | _ => cases hs

theorem Reads.shallow {p : Peg α} {o : Result α} (h : Reads room p cs o)
    (hp : p.isShallow = true) : o ≠ halted .tooDeep := by
  induction h with
  | seqLeft hp' ihp | choiceDeep hp' ihp =>
    simp only [Peg.isShallow, Bool.and_eq_true] at hp
    simpa using ihp hp.1
  | seqRight hp' hq ihp ihq | choiceRight hp' hq ihp ihq =>
    simp only [Peg.isShallow, Bool.and_eq_true] at hp
    simpa using ihq hp.2
  | starMore hp' hq ihp ihq => exact ihq hp
  | starDeep hp' ihp | absentDeep hp' ihp | guardHalt hp' ihp => simpa using ihp hp
  | deeper | noRoom => simp [Peg.isShallow] at hp
  | call hs ih => exact ih (Symbol.body_isShallow hp)
  | _ => simp

/-- What is matched within a limit is matched alike without one. -/
theorem Reads.matched_eq {p : Peg α} {v : α} {o : Result α} (h : Reads room p cs (matched v rest))
    (h' : Reads .unlimited p cs o) : o = matched v rest := h'.unique (h.unlimited (by simp))

theorem Reads.failed_eq {p : Peg α} {o : Result α} (h : Reads room p cs (halted .failed))
    (h' : Reads .unlimited p cs o) : o = halted .failed := h'.unique (h.unlimited (by simp))

theorem Reads.pastGap_inv {p : Peg α} {o : Result α} (h : Reads room (Peg.before Peg.gap p) cs o) :
    Reads room p (ahead cs) o := by
  cases h with
  | seq hgap hp =>
    cases hgap.unique (.gap cs)
    exact hp
  | seqLeft hgap => cases hgap.unique (.gap cs)
  | seqRight hgap hp =>
    cases hgap.unique (.gap cs)
    exact hp

/-! ## Straying -/

/-- Where the expression is too deep for so many levels, it takes more of them for its value or
leaves a text of one kind when nothing limits it, and it fails only on a text of the other kind. -/
structure Peg.Strays (n : Nat) (weight : α → Nat) (left given : List Char → Prop)
    (p : Peg α) : Prop where
  matched : ∀ ⦃cs v rest⦄, Reads (.limited n) p cs (halted .tooDeep) →
    Reads .unlimited p cs (matched v rest) → n < weight v ∨ left rest
  failed : ∀ ⦃cs⦄, Reads (.limited n) p cs (halted .tooDeep) →
    Reads .unlimited p cs (halted .failed) → given cs

/-- Without a limit it always matches. -/
def Peg.Succeeds (p : Peg α) : Prop := ∀ cs, ¬ Reads .unlimited p cs (halted .failed)

theorem Peg.star_succeeds (f : List α → β) (p : Peg α) : (Peg.star f p).Succeeds := by
  intro cs h
  obtain ⟨vs, mid, halt, -, -, ho⟩ := h.rounds
  cases halt <;> cases ho

theorem Peg.optional_succeeds (p : Peg α) : p.optional.Succeeds := by
  intro cs h
  cases h with
  | choiceRight _ hnone => cases hnone

namespace Peg.Strays

variable {p : Peg α} {q : Peg β} {weight : α → Nat} {weight' : β → Nat}
  {left left' given given' : List Char → Prop}

theorem shallow (hp : p.isShallow = true) : p.Strays n weight left given where
  matched _ _ _ hdeep := absurd rfl (hdeep.shallow hp)
  failed _ hdeep := absurd rfl (hdeep.shallow hp)

theorem call {s : Symbol α} (hs : s.body.Strays n weight left given) :
    (Peg.call s).Strays n weight left given where
  matched _ _ _ hdeep hread := by
    cases hdeep with
    | call hdeep =>
      cases hread with
      | call hread => exact hs.matched hdeep hread
  failed _ hdeep hread := by
    cases hdeep with
    | call hdeep =>
      cases hread with
      | call hread => exact hs.failed hdeep hread

theorem mono {heavier : α → Nat} (hp : p.Strays n weight left given)
    (hweight : ∀ v, weight v ≤ heavier v) (hleft : ∀ cs, left cs → left' cs)
    (hgiven : ∀ cs, given cs → given' cs) : p.Strays n heavier left' given' where
  matched _ v rest hdeep hread :=
    (hp.matched hdeep hread).imp (fun h => h.trans_le (hweight v)) (hleft rest)
  failed cs hdeep hread := hgiven cs (hp.failed hdeep hread)

/-- Behind a part that cannot be too deep. -/
theorem after {weight'' : γ → Nat} {f : α → β → γ} (hp : p.isShallow = true)
    (hq : q.Strays n weight' left given)
    (hweight : ∀ {cs v mid}, Reads .unlimited p cs (.matched v mid) →
      ∀ w, weight' w ≤ weight'' (f v w))
    (hgiven : ∀ {cs v mid}, Reads .unlimited p cs (.matched v mid) →
      Reads (.limited n) q mid (halted .tooDeep) → given' cs) :
    (Peg.seq f p q).Strays n weight'' left given' where
  matched cs _ rest hdeep hread := by
    cases hdeep with
    | seqLeft hleft => exact absurd rfl (hleft.shallow hp)
    | seqRight hleft hright =>
      cases hread with
      | seq hleft' hright' =>
        cases hleft.matched_eq hleft'
        exact (hq.matched hright hright').imp_left fun h => h.trans_le (hweight hleft' _)
  failed cs hdeep hread := by
    cases hdeep with
    | seqLeft hleft => exact absurd rfl (hleft.shallow hp)
    | seqRight hleft hright => exact hgiven (hleft.unlimited (by simp)) hright

theorem pastGap (hp : p.Strays n weight left given) :
    (Peg.before Peg.gap p).Strays n weight left fun cs => given (ahead cs) where
  matched _ _ _ hdeep hread := hp.matched hdeep.pastGap_inv hread.pastGap_inv
  failed _ hdeep hread := hp.failed hdeep.pastGap_inv hread.pastGap_inv

theorem opens (hp : p.Strays n weight left given) (hopens : p.Opens) :
    p.Strays n weight left GoesOn where
  matched := hp.matched
  failed _ hdeep _ := hopens hdeep (by simp)

/-- Before a part that always matches, and that takes nothing after the first part strayed. -/
theorem seq {weight'' : γ → Nat} {f : α → β → γ} {given'' : List Char → Prop}
    (hp : p.Strays n weight left given) (hq : q.Strays n weight' left' given'')
    (hsucceeds : q.Succeeds)
    (hweight : ∀ v w, weight v ≤ weight'' (f v w) ∧ weight' w ≤ weight'' (f v w))
    (hleft : ∀ {mid w rest}, left mid → Reads .unlimited q mid (.matched w rest) → left' rest) :
    (Peg.seq f p q).Strays n weight'' left' given where
  matched cs _ rest hdeep hread := by
    cases hread with
    | seq hleft' hright' =>
      cases hdeep with
      | seqLeft hdeep =>
        exact (hp.matched hdeep hleft').imp (fun h => h.trans_le (hweight _ _).1)
          fun h => hleft h hright'
      | seqRight hread hdeep =>
        cases hread.matched_eq hleft'
        exact (hq.matched hdeep hright').imp_left fun h => h.trans_le (hweight _ _).2
  failed cs hdeep hread := by
    cases hread with
    | seqLeft hfailed =>
      cases hdeep with
      | seqLeft hdeep => exact hp.failed hdeep hfailed
      | seqRight hread hdeep => cases hread.matched_eq hfailed
    | seqRight _ hfailed => exact absurd hfailed (hsucceeds _)

/-- Alternatives, where the second one fails on all texts on which the first one may be given up. -/
theorem choice {p' : Peg α} (hp : p.Strays n weight left given)
    (hp' : p'.Strays n weight left given')
    (hgiven : ∀ {cs}, given cs → Reads .unlimited p' cs (halted .failed)) :
    (Peg.choice p p').Strays n weight left fun _ => True where
  matched cs v rest hdeep hread := by
    cases hdeep with
    | choiceDeep hdeep =>
      cases hread with
      | choiceLeft hread => exact hp.matched hdeep hread
      | choiceRight hfailed hread => cases hread.unique (hgiven (hp.failed hdeep hfailed))
    | choiceRight hfailed hdeep =>
      cases hread with
      | choiceLeft hread => cases hfailed.failed_eq hread
      | choiceRight _ hread => exact hp'.matched hdeep hread
  failed _ _ _ := trivial

/-- Alternatives, of which the first one cannot be too deep. -/
theorem otherwise {p' : Peg α} (hp : p.isShallow = true) (hp' : p'.Strays n weight left given) :
    (Peg.choice p p').Strays n weight left given where
  matched cs v rest hdeep hread := by
    cases hdeep with
    | choiceDeep hdeep => exact absurd rfl (hdeep.shallow hp)
    | choiceRight hfailed hdeep =>
      cases hread with
      | choiceLeft hread => cases hfailed.failed_eq hread
      | choiceRight _ hread => exact hp'.matched hdeep hread
  failed cs hdeep hread := by
    cases hdeep with
    | choiceDeep hdeep => exact absurd rfl (hdeep.shallow hp)
    | choiceRight _ hdeep =>
      cases hread with
      | choiceRight _ hread => exact hp'.failed hdeep hread

theorem map {f : α → β} (hp : p.Strays n weight left given)
    (hweight : ∀ v, weight v ≤ weight' (f v)) : (p.map f).Strays n weight' left given := by
  have hpure : (Peg.pure () : Peg Unit).Strays n (fun _ => 0) left given := .shallow rfl
  have hsucceeds : (Peg.pure () : Peg Unit).Succeeds := by
    intro cs h
    cases h
  refine .seq hp hpure hsucceeds (fun v _ => ⟨hweight v, Nat.zero_le _⟩) ?_
  intro mid w rest hleft hread
  cases hread
  exact hleft

theorem optional {weight' : Option α → Nat} (hp : p.Strays n weight left given)
    (hweight : ∀ v, weight v ≤ weight' (some v)) (hgiven : ∀ {cs}, given cs → left cs) :
    p.optional.Strays n weight' left given' where
  matched cs o rest hdeep hread := by
    have hsome : (p.map some).Strays n weight' left given := hp.map hweight
    cases hdeep with
    | choiceDeep hdeep =>
      cases hread with
      | choiceLeft hread => exact hsome.matched hdeep hread
      | choiceRight hfailed hnone =>
        cases hnone
        exact Or.inr (hgiven (hsome.failed hdeep hfailed))
    | choiceRight _ hdeep => cases hdeep
  failed _ _ hread := absurd hread (p.optional_succeeds _)

end Peg.Strays

/-! ### Repetitions -/

section rounds

variable {p : Peg α} {weight : α → Nat} {left given : List Char → Prop} {vs vs' : List α}

/-- The rounds within the limit are the first ones without one. The next one strays, and where
it is given up or leaves a text at which the next round fails the repetition ends. -/
theorem Rounds.strays (hp : p.Strays n weight left given)
    (hleft : ∀ {cs}, left cs → Reads .unlimited p cs (halted .failed))
    (hrounds : Rounds (.limited n) p cs vs mid) (hdeep : Reads (.limited n) p mid (halted .tooDeep))
    (hrounds' : Rounds .unlimited p cs vs' rest)
    (hend : Reads .unlimited p rest (halted .failed)) :
    n < tallest weight vs' ∨ left rest ∨ given rest := by
  induction hrounds generalizing vs' with
  | none cs =>
    cases hrounds' with
    | none => exact Or.inr (Or.inr (hp.failed hdeep hend))
    | more hread hothers =>
      rcases hp.matched hdeep hread with hweight | hstray
      · exact Or.inl (hweight.trans_le (Nat.le_max_left _ _))
      · cases hothers with
        | none => exact Or.inr (Or.inl hstray)
        | more hread' => cases hread'.unique (hleft hstray)
  | more hread hothers ih =>
    cases hrounds' with
    | none => cases hread.matched_eq hend
    | more hread' hothers' =>
      cases hread.matched_eq hread'
      exact (ih hdeep hothers').imp_left fun h => h.trans_le (Nat.le_max_right _ _)

theorem Peg.Strays.star {f : List α → β} {weight' : β → Nat} {left' given' : List Char → Prop}
    (hp : p.Strays n weight left given)
    (hleft : ∀ {cs}, left cs → Reads .unlimited p cs (halted .failed))
    (hweight : ∀ vs, tallest weight vs ≤ weight' (f vs))
    (hleft' : ∀ cs, left cs ∨ given cs → left' cs) :
    (Peg.star f p).Strays n weight' left' given' where
  matched cs w rest hdeep hread := by
    obtain ⟨vs, mid, halt, hrounds, hhalt, ho⟩ := hdeep.rounds
    obtain ⟨vs', mid', halt', hrounds', hhalt', ho'⟩ := hread.rounds
    cases halt with
    | failed => cases ho
    | tooDeep =>
      cases halt' with
      | tooDeep => cases ho'
      | failed =>
        cases ho'
        exact (Rounds.strays hp hleft hrounds hhalt hrounds' hhalt').imp
          (fun h => h.trans_le (hweight vs')) (hleft' _)
  failed cs _ hread := absurd hread (Peg.star_succeeds f p cs)

end rounds

/-! ## What is left ahead -/

/-- The first characters of spellings. -/
def Spelling.first? : Spelling → Option Char
  | symbol text => text.toList.head?
  | phrase words => words.head?.bind (·.toList.head?)

def Slot.firsts (slot : Slot) : List Char := slot.filterMap Spelling.first?

/-- The character is one of these, in either letter case. -/
def leads (firsts : List Char) (c : Char) : Bool := firsts.any (Terminal.sameLetter · c)

/-- Past a gap the text begins with one of these. -/
def Stuck (firsts cs : List Char) : Prop := Terminal.startsWith (leads firsts) (ahead cs) = true

/-- The text begins with a bracket that was not read. -/
def Opening (cs : List Char) : Prop := ∃ ds, cs = '(' :: ds

theorem leads_disjoint {firsts firsts' : List Char} {c : Char}
    (h : firsts.all (fun a => !leads firsts' a) = true) (hc : leads firsts c = true) :
    leads firsts' c = false := by
  obtain ⟨a, ha, hac⟩ := List.any_eq_true.mp hc
  by_contra hc'
  obtain ⟨b, hb, hbc⟩ := List.any_eq_true.mp (eq_true_of_ne_false hc')
  have hlead : leads firsts' a = true :=
    List.any_eq_true.mpr ⟨b, hb, beq_iff_eq.mpr ((eq_of_beq hbc).trans (eq_of_beq hac).symm)⟩
  simpa [hlead] using List.all_eq_true.mp h a ha

namespace Stuck

variable {firsts firsts' : List Char}

theorem head (h : Stuck firsts cs) : ∃ c ds, ahead cs = c :: ds ∧ leads firsts c = true := by
  unfold Stuck at h
  cases hcs : ahead cs with
  | nil => simp [hcs, Terminal.startsWith] at h
  | cons c ds => exact ⟨c, ds, rfl, by simpa [hcs, Terminal.startsWith] using h⟩

theorem mono (h : Stuck firsts cs) (hsub : firsts ⊆ firsts') : Stuck firsts' cs := by
  obtain ⟨c, ds, hcs, hc⟩ := h.head
  obtain ⟨a, ha, hac⟩ := List.any_eq_true.mp hc
  have hc' : leads firsts' c = true := List.any_eq_true.mpr ⟨a, hsub ha, hac⟩
  unfold Stuck
  rw [hcs]
  exact hc'

theorem of_opening (h : Opening cs) (hfirsts : '(' ∈ firsts) : Stuck firsts cs := by
  obtain ⟨ds, rfl⟩ := h
  have hc : leads firsts '(' = true := List.any_eq_true.mpr ⟨'(', hfirsts, rfl⟩
  unfold Stuck
  rw [ahead_firm (by decide)]
  exact hc

theorem goesOn (h : Stuck firsts cs) (hfirsts : [')', ','].all (!leads firsts ·) = true) :
    GoesOn cs := by
  obtain ⟨c, ds, hcs, hc⟩ := h.head
  refine ⟨c, ds, hcs, ?_, ?_⟩ <;>
    · rintro rfl
      simp [hc] at hfirsts

end Stuck

section slots

variable {slot : Slot}

theorem Spelling.unled {s : Spelling} {c : Char} (hs : s.first? = some c)
    (h : Terminal.startsWith (Terminal.sameLetter c) cs = false) :
    Reads room s.peg cs (halted .failed) := by
  cases s with
  | symbol text =>
    exact .seqLeft (.text_failed hs (startsWith_mono h fun d hd =>
      eq_of_beq hd ▸ beq_self_eq_true _))
  | phrase words =>
    cases words with
    | nil => cases hs
    | cons word words =>
      obtain ⟨letters, hletters⟩ : ∃ letters, word.toList = c :: letters := by
        cases hletters : word.toList <;> simp_all [first?]
      refine .seqLeft (.phrase_failed (.seqLeft ?_))
      rw [hletters]
      exact .seqLeft (.char_failed h)

/-- A slot matches only a text that begins as one of its spellings. -/
theorem Slot.unled (hslot : slot.all (·.first?.isSome) = true)
    (h : Terminal.startsWith (leads slot.firsts) cs = false) :
    Reads room slot.peg cs (halted .failed) := by
  refine Slot.failed fun s hs => ?_
  obtain ⟨c, hc⟩ := Option.isSome_iff_exists.mp (List.all_eq_true.mp hslot s hs)
  refine Spelling.unled hc (startsWith_mono h fun d hd => ?_)
  exact List.any_eq_true.mpr ⟨c, List.mem_filterMap.mpr ⟨s, hs, hc⟩, hd⟩

/-- Where the text is stuck no operator is found that begins otherwise. -/
theorem Slot.stuck_failed {firsts : List Char} (hslot : slot.all (·.first?.isSome) = true)
    (hfirsts : firsts.all (fun a => !leads slot.firsts a) = true) (h : Stuck firsts cs) :
    Reads room slot.peg (ahead cs) (halted .failed) := by
  obtain ⟨c, ds, hcs, hc⟩ := h.head
  rw [hcs]
  exact Slot.unled hslot (leads_disjoint hfirsts hc)

theorem Slot.stuck_of_matched (hslot : slot.all (·.first?.isSome) = true) {op : Operator}
    (h : Reads room (Peg.before Peg.gap (Peg.followedBy slot.peg Peg.gap)) cs (matched op rest)) :
    Stuck slot.firsts cs := by
  by_contra hcs
  cases h.pastGap_inv.unique (.seqLeft (Slot.unled hslot (eq_false_of_ne_true hcs)))

end slots

end FilterQuery.Grammar
