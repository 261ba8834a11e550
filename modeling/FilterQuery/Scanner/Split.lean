import FilterQuery.Scanner.Terminal

/-!
Every terminal splits the text: the lexeme that it finds, followed by what it leaves, is the text
it was given. So reading loses nothing and the cursor always stands between two characters.
-/
namespace FilterQuery.Scanner.Terminal

/-- What is found and what remains make up the text. -/
def Splits {α : Type} (t : Terminal α) : Prop :=
  ∀ cs a lexeme rest, t cs = .found a lexeme rest → lexeme ++ rest = cs

theorem stripBy_append {same : Char → Char → Bool} {ps cs lexeme rest : List Char}
    (h : stripBy same ps cs = some (lexeme, rest)) : lexeme ++ rest = cs := by
  fun_induction stripBy same ps cs generalizing lexeme with
  | case1 cs => simp_all
  | case2 p ps => simp at h
  | case3 p ps c cs hsame ih =>
    obtain ⟨⟨l, r⟩, hstrip, heq⟩ := Option.map_eq_some_iff.1 h
    simp only [Prod.mk.injEq] at heq
    obtain ⟨rfl, rfl⟩ := heq
    simp [ih hstrip]
  | case4 p ps c cs hsame => simp at h

theorem splitGap_append (inComment : Bool) (cs : List Char) :
    (splitGap inComment cs).1 ++ (splitGap inComment cs).2 = cs := by
  fun_induction splitGap inComment cs <;> simp_all

theorem literal_splits (text : String) : Splits (literal text) := by
  intro cs a lexeme rest h
  simp only [literal] at h
  split at h
  · next hstrip =>
    injection h with _ hl hr
    subst hl hr
    exact stripBy_append hstrip
  · simp at h

theorem wordBy_splits (same : Char → Char → Bool) (word : String) : Splits (wordBy same word) := by
  intro cs a lexeme rest h
  simp only [wordBy] at h
  split at h
  · next hstrip =>
    split at h
    · simp at h
    · injection h with _ hl hr
      subst hl hr
      exact stripBy_append hstrip
  · simp at h

theorem followedBy_splits {α β : Type} {p : Terminal α} {q : α → Terminal β}
    (hp : Splits p) (hq : ∀ a, Splits (q a)) : Splits (p.followedBy q) := by
  intro cs b lexeme rest h
  simp only [followedBy] at h
  split at h
  · simp at h
  · next a first others hfirst =>
    split at h
    · simp at h
    · next hsecond =>
      injection h with _ hl hr
      subst hl hr
      rw [List.append_assoc, hq a _ _ _ _ hsecond, hp _ _ _ _ hfirst]

theorem map_splits {α β : Type} {t : Terminal α} (f : α → β) (ht : Splits t) :
    Splits (t.map f) := by
  intro cs b lexeme rest h
  simp only [map] at h
  split at h
  · next a l r hfound =>
    injection h with _ hl hr
    subst hl hr
    exact ht _ _ _ _ hfound
  · simp at h

theorem gap_splits : Splits gap := by
  intro cs a lexeme rest h
  have happend := splitGap_append false cs
  simp only [gap, Reading.found.injEq] at h
  obtain ⟨-, rfl, rfl⟩ := h
  exact happend

theorem someGap_splits : Splits someGap := by
  intro cs a lexeme rest h
  have happend := splitGap_append false cs
  simp only [someGap] at h
  split at h
  · simp at h
  · next heq =>
    injection h with _ hl hr
    subst hl hr
    rw [heq] at happend
    exact happend

theorem phrase_splits (words : List String) : Splits (phrase words) := by
  fun_induction phrase words with
  | case1 =>
    intro cs a lexeme rest h
    injection h with _ hl hr
    simp [← hl, hr]
  | case2 word => exact wordBy_splits sameLetter word
  | case3 word words _ ih =>
    refine followedBy_splits (wordBy_splits sameLetter word) fun first => ?_
    exact followedBy_splits someGap_splits fun _ => map_splits _ ih

theorem identifier_splits : Splits identifier := by
  intro cs a lexeme rest h
  unfold identifier at h
  split at h
  · simp at h
  · split at h
    · dsimp only at h
      split at h
      · simp at h
      · injection h with _ hl hr
        simp [← hl, ← hr]
    · simp at h

theorem quoted_splits : Splits quoted := by
  intro cs a lexeme rest h
  unfold quoted at h
  split at h
  · simp at h
  · next q cs =>
    split at h
    · split at h
      · simp at h
      · next close others hdrop =>
        injection h with _ hl hr
        have hsplit := List.takeWhile_append_dropWhile (p := (· != q)) (l := cs)
        rw [hdrop] at hsplit
        subst hl hr
        simpa using hsplit
    · simp at h

theorem splitSign_append (cs : List Char) : (splitSign cs).1 ++ (splitSign cs).2 = cs := by
  unfold splitSign
  split <;> rfl

theorem splitWhole_append {cs whole rest : List Char} (h : splitWhole cs = some (whole, rest)) :
    whole ++ rest = cs := by
  unfold splitWhole at h
  split at h
  · simp at h
  · split at h
    · next hzero =>
      simp only [Option.some.injEq, Prod.mk.injEq] at h
      obtain ⟨rfl, rfl⟩ := h
      simp [eq_of_beq hzero]
    · split at h
      · simp only [splitDigits, Option.some.injEq, Prod.mk.injEq] at h
        obtain ⟨rfl, rfl⟩ := h
        exact List.takeWhile_append_dropWhile
      · simp at h

theorem splitFraction_append {cs fraction rest : List Char}
    (h : splitFraction cs = some (fraction, rest)) : fraction ++ rest = cs := by
  unfold splitFraction at h
  split at h
  · split at h
    · simp only [splitDigits, Option.some.injEq, Prod.mk.injEq] at h
      obtain ⟨rfl, rfl⟩ := h
      simp
    · simp at h
  · simp at h

theorem number_splits : Splits number := by
  intro cs a lexeme rest h
  have hsign := splitSign_append cs
  simp only [number] at h
  split at h
  · simp at h
  · next whole others hwhole =>
    have hbody := splitWhole_append hwhole
    split at h
    · next fraction rest' hfraction =>
      injection h with _ hl hr
      subst hl hr
      rw [List.append_assoc, List.append_assoc, splitFraction_append hfraction, hbody, hsign]
    · injection h with _ hl hr
      subst hl hr
      rw [List.append_assoc, hbody, hsign]

theorem endOfText_splits : Splits endOfText := by
  intro cs a lexeme rest h
  unfold endOfText at h
  split at h
  · injection h with _ hl hr
    simp [← hl, ← hr]
  · simp at h

end FilterQuery.Scanner.Terminal
