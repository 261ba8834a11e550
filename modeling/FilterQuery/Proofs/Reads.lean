import FilterQuery.Proofs.Peg
import Mathlib.Data.List.Infix
import Mathlib.Order.Basic

/-!
What an expression of the grammar reads at the start of a text. A reading either matches, and then
gives a value and the text that remains, or it is halted: because the text does not match, or
because brackets nest deeper than there is room for. With unlimited room only the first can
happen, and this is the usual meaning of a parsing expression grammar.
-/
namespace FilterQuery.Grammar

inductive Halt where
  | failed
  | tooDeep
deriving DecidableEq, Repr

inductive Result (α : Type) where
  | matched (a : α) (rest : List Char)
  | halted (h : Halt)

/-- How many levels of brackets may still be opened. -/
inductive Room where
  | limited (levels : Nat)
  | unlimited
deriving DecidableEq, Repr

/-- The room inside one more level of brackets, if there is any. -/
def Room.inner? : Room → Option Room
  | limited 0 => none
  | limited (levels + 1) => some (limited levels)
  | unlimited => some unlimited

open Result Peg

inductive Reads : {α : Type} → Room → Peg α → List Char → Result α → Prop where
  | never {α : Type} (room : Room) (cs : List Char) :
      Reads room (.never : Peg α) cs (halted .failed)
  | pure {α : Type} (room : Room) (a : α) (cs : List Char) :
      Reads room (.pure a) cs (matched a cs)
  | char {α : Type} {room : Room} {ok : Char → Bool} {f : Char → α} {c : Char} {cs : List Char}
      (hc : ok c = true) : Reads room (.char ok f) (c :: cs) (matched (f c) cs)
  | charOther {α : Type} {room : Room} {ok : Char → Bool} {f : Char → α} {c : Char}
      {cs : List Char} (hc : ok c = false) : Reads room (.char ok f) (c :: cs) (halted .failed)
  | charEnd {α : Type} (room : Room) (ok : Char → Bool) (f : Char → α) :
      Reads room (.char ok f) [] (halted .failed)
  | seq {α β γ : Type} {room : Room} {f : α → β → γ} {p : Peg α} {q : Peg β} {a : α} {b : β}
      {cs mid rest : List Char} (hp : Reads room p cs (matched a mid))
      (hq : Reads room q mid (matched b rest)) :
      Reads room (.seq f p q) cs (matched (f a b) rest)
  | seqLeft {α β γ : Type} {room : Room} {f : α → β → γ} {p : Peg α} {q : Peg β} {h : Halt}
      {cs : List Char} (hp : Reads room p cs (halted h)) :
      Reads room (.seq f p q) cs (halted h)
  | seqRight {α β γ : Type} {room : Room} {f : α → β → γ} {p : Peg α} {q : Peg β} {a : α}
      {h : Halt} {cs mid : List Char} (hp : Reads room p cs (matched a mid))
      (hq : Reads room q mid (halted h)) : Reads room (.seq f p q) cs (halted h)
  | choiceLeft {α : Type} {room : Room} {p q : Peg α} {a : α} {cs rest : List Char}
      (hp : Reads room p cs (matched a rest)) : Reads room (.choice p q) cs (matched a rest)
  | choiceRight {α : Type} {room : Room} {p q : Peg α} {o : Result α} {cs : List Char}
      (hp : Reads room p cs (halted .failed)) (hq : Reads room q cs o) :
      Reads room (.choice p q) cs o
  | choiceDeep {α : Type} {room : Room} {p q : Peg α} {cs : List Char}
      (hp : Reads room p cs (halted .tooDeep)) : Reads room (.choice p q) cs (halted .tooDeep)
  | starEnd {α β : Type} {room : Room} {f : List α → β} {p : Peg α} {cs : List Char}
      (hp : Reads room p cs (halted .failed)) : Reads room (.star f p) cs (matched (f []) cs)
  | starMore {α β : Type} {room : Room} {f : List α → β} {p : Peg α} {a : α} {o : Result β}
      {cs mid : List Char} (hp : Reads room p cs (matched a mid))
      (hq : Reads room (.star (fun as => f (a :: as)) p) mid o) : Reads room (.star f p) cs o
  | starDeep {α β : Type} {room : Room} {f : List α → β} {p : Peg α} {cs : List Char}
      (hp : Reads room p cs (halted .tooDeep)) : Reads room (.star f p) cs (halted .tooDeep)
  | absent {α β : Type} {room : Room} {p : Peg α} {b : β} {cs : List Char}
      (hp : Reads room p cs (halted .failed)) : Reads room (.absent p b) cs (matched b cs)
  | absentPresent {α β : Type} {room : Room} {p : Peg α} {b : β} {a : α} {cs rest : List Char}
      (hp : Reads room p cs (matched a rest)) : Reads room (.absent p b) cs (halted .failed)
  | absentDeep {α β : Type} {room : Room} {p : Peg α} {b : β} {cs : List Char}
      (hp : Reads room p cs (halted .tooDeep)) : Reads room (.absent p b) cs (halted .tooDeep)
  | guard {α : Type} {room : Room} {p : Peg α} {ok : α → Bool} {a : α} {cs rest : List Char}
      (hp : Reads room p cs (matched a rest)) (ha : ok a = true) :
      Reads room (.guard p ok) cs (matched a rest)
  | guardOther {α : Type} {room : Room} {p : Peg α} {ok : α → Bool} {a : α} {cs rest : List Char}
      (hp : Reads room p cs (matched a rest)) (ha : ok a = false) :
      Reads room (.guard p ok) cs (halted .failed)
  | guardHalt {α : Type} {room : Room} {p : Peg α} {ok : α → Bool} {h : Halt} {cs : List Char}
      (hp : Reads room p cs (halted h)) : Reads room (.guard p ok) cs (halted h)
  | deeper {α : Type} {room inner : Room} {p : Peg α} {o : Result α} {cs : List Char}
      (hroom : room.inner? = some inner) (hp : Reads inner p cs o) :
      Reads room (.deeper p) cs o
  | noRoom {α : Type} {room : Room} {p : Peg α} {cs : List Char}
      (hroom : room.inner? = none) : Reads room (.deeper p) cs (halted .tooDeep)
  | call {α : Type} {room : Room} {s : Symbol α} {o : Result α} {cs : List Char}
      (hp : Reads room s.body cs o) : Reads room (.call s) cs o

namespace Reads

variable {α β γ : Type} {room : Room} {cs mid rest : List Char}

/-- The grammar reads one way only. -/
theorem unique {p : Peg α} {o o' : Result α} (h : Reads room p cs o)
    (h' : Reads room p cs o') : o = o' := by
  induction h with
  | never | pure | charEnd => cases h'; rfl
  | char hc => cases h' <;> simp_all
  | charOther hc => cases h' <;> simp_all
  | seq hp hq ihp ihq =>
    cases h' with
    | seq hp' hq' =>
      cases ihp hp'
      cases ihq hq'
      rfl
    | seqLeft hp' => cases ihp hp'
    | seqRight hp' hq' =>
      cases ihp hp'
      cases ihq hq'
  | seqLeft hp ihp =>
    cases h' with
    | seq hp' hq' => cases ihp hp'
    | seqLeft hp' =>
      cases ihp hp'
      rfl
    | seqRight hp' hq' => cases ihp hp'
  | seqRight hp hq ihp ihq =>
    cases h' with
    | seq hp' hq' =>
      cases ihp hp'
      cases ihq hq'
    | seqLeft hp' => cases ihp hp'
    | seqRight hp' hq' =>
      cases ihp hp'
      cases ihq hq'
      rfl
  | choiceLeft hp ihp =>
    cases h' with
    | choiceLeft hp' => exact ihp hp'
    | choiceRight hp' hq' => cases ihp hp'
    | choiceDeep hp' => cases ihp hp'
  | choiceRight hp hq ihp ihq =>
    cases h' with
    | choiceLeft hp' => cases ihp hp'
    | choiceRight hp' hq' => exact ihq hq'
    | choiceDeep hp' => cases ihp hp'
  | choiceDeep hp ihp =>
    cases h' with
    | choiceLeft hp' => cases ihp hp'
    | choiceRight hp' hq' => cases ihp hp'
    | choiceDeep hp' => rfl
  | starEnd hp ihp =>
    cases h' with
    | starEnd hp' => rfl
    | starMore hp' hq' => cases ihp hp'
    | starDeep hp' => cases ihp hp'
  | starMore hp hq ihp ihq =>
    cases h' with
    | starEnd hp' => cases ihp hp'
    | starMore hp' hq' =>
      cases ihp hp'
      exact ihq hq'
    | starDeep hp' => cases ihp hp'
  | starDeep hp ihp =>
    cases h' with
    | starEnd hp' => cases ihp hp'
    | starMore hp' hq' => cases ihp hp'
    | starDeep hp' => rfl
  | absent hp ihp =>
    cases h' with
    | absent hp' => rfl
    | absentPresent hp' => cases ihp hp'
    | absentDeep hp' => cases ihp hp'
  | absentPresent hp ihp =>
    cases h' with
    | absent hp' => cases ihp hp'
    | absentPresent hp' => rfl
    | absentDeep hp' => cases ihp hp'
  | absentDeep hp ihp =>
    cases h' with
    | absent hp' => cases ihp hp'
    | absentPresent hp' => cases ihp hp'
    | absentDeep hp' => rfl
  | guard hp ha ihp =>
    cases h' with
    | guard hp' ha' => exact ihp hp'
    | guardOther hp' ha' =>
      cases ihp hp'
      simp_all
    | guardHalt hp' => cases ihp hp'
  | guardOther hp ha ihp =>
    cases h' with
    | guard hp' ha' =>
      cases ihp hp'
      simp_all
    | guardOther hp' ha' => rfl
    | guardHalt hp' => cases ihp hp'
  | guardHalt hp ihp =>
    cases h' with
    | guard hp' ha' => cases ihp hp'
    | guardOther hp' ha' => cases ihp hp'
    | guardHalt hp' => exact ihp hp'
  | deeper hroom hp ihp =>
    cases h' with
    | deeper hroom' hp' =>
      rw [hroom] at hroom'
      cases hroom'
      exact ihp hp'
    | noRoom hroom' => simp_all
  | noRoom hroom =>
    cases h' with
    | deeper hroom' hp' => simp_all
    | noRoom hroom' => rfl
  | call hp ihp =>
    cases h' with
    | call hp' => exact ihp hp'

/-- What is read within a limit is read without one. -/
theorem unlimited {p : Peg α} {o : Result α} (h : Reads room p cs o)
    (ho : o ≠ halted .tooDeep) : Reads .unlimited p cs o := by
  induction h with
  | never => exact .never _ _
  | pure => exact .pure _ _ _
  | char hc => exact .char hc
  | charOther hc => exact .charOther hc
  | charEnd => exact .charEnd _ _ _
  | seq hp hq ihp ihq => exact .seq (ihp (by simp)) (ihq (by simp))
  | seqLeft hp ihp => exact .seqLeft (ihp (by simpa using ho))
  | seqRight hp hq ihp ihq => exact .seqRight (ihp (by simp)) (ihq (by simpa using ho))
  | choiceLeft hp ihp => exact .choiceLeft (ihp (by simp))
  | choiceRight hp hq ihp ihq => exact .choiceRight (ihp (by simp)) (ihq ho)
  | choiceDeep hp ihp => exact absurd rfl ho
  | starEnd hp ihp => exact .starEnd (ihp (by simp))
  | starMore hp hq ihp ihq => exact .starMore (ihp (by simp)) (ihq ho)
  | starDeep hp ihp => exact absurd rfl ho
  | absent hp ihp => exact .absent (ihp (by simp))
  | absentPresent hp ihp => exact .absentPresent (ihp (by simp))
  | absentDeep hp ihp => exact absurd rfl ho
  | guard hp ha ihp => exact .guard (ihp (by simp)) ha
  | guardOther hp ha ihp => exact .guardOther (ihp (by simp)) ha
  | guardHalt hp ihp => exact .guardHalt (ihp (by simpa using ho))
  | deeper hroom hp ihp => exact .deeper rfl (ihp ho)
  | noRoom hroom => exact absurd rfl ho
  | call hp ihp => exact .call (ihp ho)

/-- What remains is the end of what was there. -/
theorem suffix {p : Peg α} {o : Result α} {a : α} (h : Reads room p cs o)
    (ho : o = matched a rest) : rest <:+ cs := by
  induction h generalizing rest with
  | pure | absent | starEnd =>
    cases ho
    exact List.suffix_rfl
  | char =>
    cases ho
    exact List.suffix_cons _ _
  | seq hp hq ihp ihq =>
    cases ho
    exact (ihq rfl).trans (ihp rfl)
  | choiceLeft hp ihp => exact ihp ho
  | choiceRight hp hq ihp ihq => exact ihq ho
  | starMore hp hq ihp ihq => exact (ihq ho).trans (ihp rfl)
  | guard hp ha ihp => exact ihp ho
  | deeper hroom hp ihp => exact ihp ho
  | call hp ihp => exact ihp ho
  | _ => cases ho

end Reads

/-- What the expression matches is not empty. -/
def Peg.Consumes {α : Type} (p : Peg α) : Prop :=
  ∀ ⦃room : Room⦄ ⦃cs rest : List Char⦄ ⦃a : α⦄,
    Reads room p cs (matched a rest) → rest.length < cs.length

namespace Peg.Consumes

variable {α β γ : Type}

theorem char {ok : Char → Bool} {f : Char → α} : (Peg.char ok f).Consumes := by
  intro room cs rest a h
  cases h with
  | char hc => simp

theorem seqLeft {f : α → β → γ} {p : Peg α} {q : Peg β} (hp : p.Consumes) :
    (Peg.seq f p q).Consumes := by
  intro room cs rest a h
  cases h with
  | seq hp' hq' => exact lt_of_le_of_lt (hq'.suffix rfl).length_le (hp hp')

theorem seqRight {f : α → β → γ} {p : Peg α} {q : Peg β} (hq : q.Consumes) :
    (Peg.seq f p q).Consumes := by
  intro room cs rest a h
  cases h with
  | seq hp' hq' => exact lt_of_lt_of_le (hq hq') (hp'.suffix rfl).length_le

theorem choice {p q : Peg α} (hp : p.Consumes) (hq : q.Consumes) :
    (Peg.choice p q).Consumes := by
  intro room cs rest a h
  cases h with
  | choiceLeft hp' => exact hp hp'
  | choiceRight hp' hq' => exact hq hq'

theorem guard {p : Peg α} {ok : α → Bool} (hp : p.Consumes) : (Peg.guard p ok).Consumes := by
  intro room cs rest a h
  cases h with
  | guard hp' ha => exact hp hp'

theorem call {s : Symbol α} (hs : s.body.Consumes) : (Peg.call s).Consumes := by
  intro room cs rest a h
  cases h with
  | call hs' => exact hs hs'

theorem firstOf {ps : List (Peg α)} (hps : ∀ p ∈ ps, p.Consumes) :
    (Peg.firstOf ps).Consumes := by
  fun_induction Peg.firstOf ps with
  | case1 =>
    intro room cs rest a h
    cases h
  | case2 p => exact hps p (List.mem_singleton_self p)
  | case3 p ps hne ih =>
    exact choice (hps p (List.mem_cons_self ..)) (ih fun q hq => hps q (List.mem_cons_of_mem p hq))

theorem likeness {same : Char → Char → Bool} {ps : List Char} (hps : ps ≠ []) :
    (Peg.likeness same ps).Consumes := by
  cases ps with
  | nil => exact absurd rfl hps
  | cons p ps => exact seqLeft char

end Peg.Consumes

end FilterQuery.Grammar
