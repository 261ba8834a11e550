import FilterQuery.Proofs.Reads

/-!
What is true of everything that the grammar matches. A match consumes a text of its own and is
made of the matches of its parts, so a property of all symbols holds as soon as the body of each
symbol passes it on from the symbols in it. Where the text stands and what comes next play no part.
-/
namespace FilterQuery.Grammar

open Result

/-- A property of symbols, the texts that they match and what these denote. -/
abbrev Property := {α : Type} → Room → Symbol α → List Char → α → Prop

/-- The expression denotes the value of the text, where symbols are taken to match as `G` says. -/
def Peg.Yields (G : Property) : {α : Type} → Room → Peg α → List Char → α → Prop
  | _, _, .never, _, _ => False
  | _, _, .pure b, text, a => text = [] ∧ a = b
  | _, _, .char ok f, text, a => ∃ c, ok c = true ∧ text = [c] ∧ a = f c
  | _, room, .seq f p q, text, c => ∃ t u a b,
      text = t ++ u ∧ p.Yields G room t a ∧ q.Yields G room u b ∧ c = f a b
  | _, room, .choice p q, text, a => p.Yields G room text a ∨ q.Yields G room text a
  | _, room, .star f p, text, b => ∃ parts : List (List Char × _),
      text = parts.flatMap Prod.fst ∧ (∀ part ∈ parts, p.Yields G room part.1 part.2) ∧
        b = f (parts.map Prod.snd)
  | _, _, .absent _ b, text, a => text = [] ∧ a = b
  | _, room, .guard p ok, text, a => p.Yields G room text a ∧ ok a = true
  | _, room, .deeper p, text, a => ∃ inner, room.inner? = some inner ∧ p.Yields G inner text a
  | _, room, .call s, text, a => G room s text a

/-- By induction on the reading, with one case for each operator of the grammar. -/
theorem Reads.yields {G : Property}
    (hG : ∀ {α : Type} {room : Room} {s : Symbol α} {text rest : List Char} {a : α},
      Reads room (.call s) (text ++ rest) (matched a rest) →
        s.body.Yields (@G) room text a → G room s text a)
    {α : Type} {room : Room} {p : Peg α} {cs rest : List Char} {o : Result α} {a : α}
    (h : Reads room p cs o) (ho : o = matched a rest) :
    ∃ text, cs = text ++ rest ∧ p.Yields (@G) room text a := by
  induction h generalizing rest with
  | pure room b cs =>
    cases ho
    exact ⟨[], rfl, rfl, rfl⟩
  | char hc =>
    cases ho
    exact ⟨[_], rfl, _, hc, rfl, rfl⟩
  | seq hp hq ihp ihq =>
    cases ho
    obtain ⟨t, rfl, ht⟩ := ihp rfl
    obtain ⟨u, rfl, hu⟩ := ihq rfl
    exact ⟨t ++ u, (List.append_assoc ..).symm, t, u, _, _, rfl, ht, hu, rfl⟩
  | choiceLeft hp ihp =>
    obtain ⟨text, rfl, htext⟩ := ihp ho
    exact ⟨text, rfl, Or.inl htext⟩
  | choiceRight hp hq ihp ihq =>
    obtain ⟨text, rfl, htext⟩ := ihq ho
    exact ⟨text, rfl, Or.inr htext⟩
  | starEnd hp ihp =>
    cases ho
    exact ⟨[], rfl, [], rfl, by simp, rfl⟩
  | starMore hp hq ihp ihq =>
    obtain ⟨t, rfl, ht⟩ := ihp rfl
    obtain ⟨u, rfl, parts, rfl, hparts, rfl⟩ := ihq ho
    refine ⟨t ++ parts.flatMap Prod.fst, (List.append_assoc ..).symm, (t, _) :: parts, rfl, ?_, rfl⟩
    exact List.forall_mem_cons.mpr ⟨ht, hparts⟩
  | absent hp ihp =>
    cases ho
    exact ⟨[], rfl, rfl, rfl⟩
  | guard hp ha ihp =>
    cases ho
    obtain ⟨text, rfl, htext⟩ := ihp rfl
    exact ⟨text, rfl, htext, ha⟩
  | deeper hroom hp ihp =>
    obtain ⟨text, rfl, htext⟩ := ihp ho
    exact ⟨text, rfl, _, hroom, htext⟩
  | call hp ihp =>
    subst ho
    obtain ⟨text, rfl, htext⟩ := ihp rfl
    exact ⟨text, rfl, hG (.call hp) htext⟩
  | _ => cases ho

/-! ## Values without their texts -/

/-- The expression denotes the value of some text. -/
def Peg.Denotes (G : Property) {α : Type} (room : Room) (p : Peg α) (a : α) : Prop :=
  ∃ text, p.Yields (@G) room text a

section Denotes

variable {G : Property} {α β γ : Type} {room : Room}

theorem denotes_seq {f : α → β → γ} {p : Peg α} {q : Peg β} {c : γ}
    (h : (Peg.seq f p q).Denotes (@G) room c) :
    ∃ a b, c = f a b ∧ p.Denotes (@G) room a ∧ q.Denotes (@G) room b := by
  obtain ⟨_, t, u, a, b, -, ht, hu, rfl⟩ := h
  exact ⟨a, b, rfl, ⟨t, ht⟩, ⟨u, hu⟩⟩

theorem denotes_map {f : α → β} {p : Peg α} {b : β} (h : (p.map f).Denotes (@G) room b) :
    ∃ a, b = f a ∧ p.Denotes (@G) room a := by
  obtain ⟨a, -, hb, ha, -⟩ := denotes_seq h
  exact ⟨a, hb, ha⟩

theorem denotes_before {p : Peg α} {q : Peg β} {b : β}
    (h : (p.before q).Denotes (@G) room b) : q.Denotes (@G) room b := by
  obtain ⟨-, b, rfl, -, hb⟩ := denotes_seq h
  exact hb

theorem denotes_followedBy {p : Peg α} {q : Peg β} {a : α}
    (h : (p.followedBy q).Denotes (@G) room a) : p.Denotes (@G) room a := by
  obtain ⟨a, -, rfl, ha, -⟩ := denotes_seq h
  exact ha

theorem denotes_choice {p q : Peg α} {a : α} (h : (Peg.choice p q).Denotes (@G) room a) :
    p.Denotes (@G) room a ∨ q.Denotes (@G) room a := by
  obtain ⟨text, h | h⟩ := h
  · exact Or.inl ⟨text, h⟩
  · exact Or.inr ⟨text, h⟩

theorem denotes_firstOf {ps : List (Peg α)} {a : α}
    (h : (Peg.firstOf ps).Denotes (@G) room a) : ∃ p ∈ ps, p.Denotes (@G) room a := by
  fun_induction Peg.firstOf ps with
  | case1 =>
    obtain ⟨_, hnever⟩ := h
    exact hnever.elim
  | case2 p => exact ⟨p, List.mem_singleton_self p, h⟩
  | case3 p ps hne ih =>
    rcases denotes_choice h with h | h
    · exact ⟨p, List.mem_cons_self .., h⟩
    · obtain ⟨q, hq, h⟩ := ih h
      exact ⟨q, List.mem_cons_of_mem p hq, h⟩

theorem denotes_optional {p : Peg α} {o : Option α} (h : p.optional.Denotes (@G) room o) :
    ∀ a ∈ o, p.Denotes (@G) room a := by
  rintro a rfl
  rcases denotes_choice h with h | ⟨_, -, hnone⟩
  · obtain ⟨b, hb, hp⟩ := denotes_map h
    exact Option.some.inj hb ▸ hp
  · simp at hnone

theorem denotes_many {p : Peg α} {as : List α} (h : p.many.Denotes (@G) room as) :
    ∀ a ∈ as, p.Denotes (@G) room a := by
  obtain ⟨_, parts, -, hparts, rfl⟩ := h
  intro a ha
  obtain ⟨part, hpart, rfl⟩ := List.mem_map.mp ha
  exact ⟨part.1, hparts part hpart⟩

theorem denotes_commaList {p : Peg α} {as : List α} (h : p.commaList.Denotes (@G) room as) :
    ∀ a ∈ as, p.Denotes (@G) room a := by
  obtain ⟨o, rfl, ho⟩ := denotes_map h
  cases o with
  | none => simp
  | some bs =>
    obtain ⟨b, others, rfl, hb, hothers⟩ := denotes_seq (denotes_optional ho bs rfl)
    refine List.forall_mem_cons.mpr ⟨hb, fun a ha => ?_⟩
    have hpart := denotes_many (denotes_followedBy hothers) a ha
    exact denotes_before (denotes_before (denotes_before hpart))

theorem denotes_deeper {p : Peg α} {a : α} (h : p.deeper.Denotes (@G) room a) :
    ∃ inner, room.inner? = some inner ∧ p.Denotes (@G) inner a := by
  obtain ⟨text, inner, hroom, h⟩ := h
  exact ⟨inner, hroom, text, h⟩

end Denotes

/-! ## Runs of characters -/

variable {G : Property} {room : Room} {text cs : List Char}

theorem yields_oneChar {ok : Char → Bool} {c : Char}
    (h : (Peg.oneChar ok).Yields (@G) room text c) : text = [c] ∧ ok c = true := by
  obtain ⟨d, hd, rfl, rfl⟩ := h
  exact ⟨rfl, hd⟩

theorem yields_manyChars {ok : Char → Bool}
    (h : (Peg.many (Peg.oneChar ok)).Yields (@G) room text cs) :
    text = cs ∧ ∀ c ∈ cs, ok c = true := by
  obtain ⟨parts, rfl, hparts, rfl⟩ := h
  have hchar : ∀ part ∈ parts, part.1 = [part.2] ∧ ok part.2 = true := fun part hpart =>
    yields_oneChar (hparts part hpart)
  refine ⟨?_, fun c hc => ?_⟩
  · induction parts with
    | nil => rfl
    | cons part parts ih =>
      have hrest := ih (fun q hq => hparts q (List.mem_cons_of_mem part hq))
        fun q hq => hchar q (List.mem_cons_of_mem part hq)
      rw [List.flatMap_cons, hrest, (hchar part (List.mem_cons_self ..)).1]
      rfl
  · obtain ⟨part, hpart, rfl⟩ := List.mem_map.mp hc
    exact (hchar part hpart).2

theorem yields_manyChars1 {ok : Char → Bool}
    (h : (Peg.many1 (Peg.oneChar ok)).Yields (@G) room text cs) :
    text = cs ∧ cs ≠ [] ∧ ∀ c ∈ cs, ok c = true := by
  obtain ⟨t, u, c, rest, rfl, hfirst, hrest, rfl⟩ := h
  obtain ⟨rfl, hc⟩ := yields_oneChar hfirst
  obtain ⟨rfl, hothers⟩ := yields_manyChars hrest
  exact ⟨rfl, by simp, List.forall_mem_cons.mpr ⟨hc, hothers⟩⟩

theorem yields_sign (h : Peg.sign.Yields (@G) room text cs) :
    text = cs ∧ (cs = [] ∨ cs = ['-']) := by
  obtain ⟨t, u, a, -, rfl, hsign, ⟨rfl, -⟩, rfl⟩ := h
  rcases hsign with ⟨t, u, c, -, rfl, hchar, ⟨rfl, -⟩, rfl⟩ | ⟨rfl, rfl⟩
  · obtain ⟨rfl, hc⟩ := yields_oneChar hchar
    rw [eq_of_beq hc]
    exact ⟨rfl, Or.inr rfl⟩
  · exact ⟨rfl, Or.inl rfl⟩

theorem yields_whole (h : Peg.whole.Yields (@G) room text cs) :
    text = cs ∧ cs ≠ [] ∧ ∀ c ∈ cs, c.isDigit = true := by
  rcases h with ⟨t, u, c, -, rfl, hzero, ⟨rfl, -⟩, rfl⟩ | ⟨t, u, c, rest, rfl, hfirst, hrest, rfl⟩
  · obtain ⟨rfl, hc⟩ := yields_oneChar hzero
    rw [eq_of_beq hc]
    exact ⟨rfl, by simp, by simp⟩
  · obtain ⟨rfl, hc⟩ := yields_oneChar hfirst
    obtain ⟨rfl, hothers⟩ := yields_manyChars hrest
    exact ⟨rfl, by simp, List.forall_mem_cons.mpr ⟨hc, hothers⟩⟩

theorem yields_fraction (h : Peg.fraction.Yields (@G) room text cs) :
    text = cs ∧ ∃ fs, cs = '.' :: fs ∧ fs ≠ [] ∧ ∀ c ∈ fs, c.isDigit = true := by
  obtain ⟨t, u, c, fs, rfl, hpoint, hdigits, rfl⟩ := h
  obtain ⟨rfl, hc⟩ := yields_oneChar hpoint
  obtain ⟨rfl, hne, hfs⟩ := yields_manyChars1 hdigits
  obtain rfl : c = '.' := eq_of_beq hc
  exact ⟨rfl, u, rfl, hne, hfs⟩

end FilterQuery.Grammar
