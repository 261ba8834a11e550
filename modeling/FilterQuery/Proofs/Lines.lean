import FilterQuery.Proofs.Offsets
import FilterQuery.Text.Position
import Mathlib.Data.List.DropRight

/-!
Lines and columns of offsets. The position of an offset is told by two counts over the text before
it: the line terminators, where a carriage return and the line feed after it are one, and the
characters behind the last of them. From one boundary to the next the position moves on, except
that it stays between a carriage return and its line feed.
-/
namespace FilterQuery.Text

def endsLine (c : Char) : Bool := c == '\r' || c == '\n'

/-- The places where a line feed comes right after a carriage return. -/
def returnFeeds (cs : List Char) : Nat := (cs.zip cs.tail).count ('\r', '\n')

/-- A carriage return and a line feed right after it count once. -/
def terminators (cs : List Char) : Nat := cs.count '\r' + cs.count '\n' - returnFeeds cs

/-- The characters after the last line terminator. -/
def lastLine (cs : List Char) : List Char := cs.rtakeWhile (!endsLine ·)

/-- The offset is between a carriage return and the line feed after it. -/
def SplitsReturnFeed (text : List Char) (offset : Nat) : Prop :=
  ∃ before after, text = before ++ '\r' :: '\n' :: after ∧ offset = byteSize before + 1

variable {before between text cs : List Char} {c : Char} {o₁ o₂ : Nat}

/-! ## Counting -/

theorem returnFeeds_concat (cs : List Char) (c : Char) :
    returnFeeds (cs ++ [c]) =
      returnFeeds cs + if c = '\n' ∧ cs.getLast? = some '\r' then 1 else 0 := by
  induction cs with
  | nil => simp [returnFeeds]
  | cons d ds ih =>
    cases ds with
    | nil =>
      by_cases hd : d = '\r' <;> by_cases hc : c = '\n' <;> simp [returnFeeds, hd, hc]
    | cons e es =>
      have hcons : ∀ rest, returnFeeds (d :: e :: rest) =
          returnFeeds (e :: rest) + if d = '\r' ∧ e = '\n' then 1 else 0 := by
        intro rest
        simp [returnFeeds, List.count_cons]
      rw [List.cons_append, List.cons_append, hcons, hcons, ← List.cons_append, ih,
        List.getLast?_cons_cons]
      omega

/-- Each pair has a carriage return of its own, and one at the end of the text is in no pair. -/
theorem returnFeeds_le (cs : List Char) :
    returnFeeds cs + (if cs.getLast? = some '\r' then 1 else 0) ≤ cs.count '\r' := by
  induction cs using List.reverseRecOn with
  | nil => simp [returnFeeds]
  | append_singleton cs c ih =>
    rw [returnFeeds_concat, List.count_append, List.getLast?_concat]
    by_cases hpair : c = '\n' ∧ cs.getLast? = some '\r'
    · obtain ⟨rfl, hlast⟩ := hpair
      rw [if_pos hlast] at ih
      simpa [hlast] using ih
    · rw [if_neg hpair]
      by_cases hr : c = '\r'
      · subst c
        simp only [List.count_singleton_self, if_true]
        omega
      · rw [if_neg (by simpa using hr)]
        omega

theorem terminators_concat (cs : List Char) (c : Char) :
    terminators (cs ++ [c]) =
      terminators cs +
        if c = '\n' ∧ cs.getLast? = some '\r' then 0 else if endsLine c then 1 else 0 := by
  have hle := returnFeeds_le cs
  rw [terminators, terminators, returnFeeds_concat, List.count_append, List.count_append]
  by_cases hpair : c = '\n' ∧ cs.getLast? = some '\r'
  · obtain ⟨rfl, hlast⟩ := hpair
    simp only [hlast, if_true] at hle
    simp [hlast]
    omega
  · by_cases hr : c = '\r'
    · subst c
      simp [endsLine]
      omega
    · by_cases hn : c = '\n'
      · subst c
        simp_all [endsLine]
        omega
      · simp [endsLine, hr, hn]

theorem lastLine_concat (cs : List Char) (c : Char) :
    lastLine (cs ++ [c]) = if endsLine c then [] else lastLine cs ++ [c] := by
  rw [lastLine, List.rtakeWhile_concat]
  cases endsLine c <;> rfl

theorem lastLine_eq_nil (h : cs.getLast? = some c) (hc : endsLine c = true) : lastLine cs = [] := by
  obtain ⟨ds, rfl⟩ := List.getLast?_eq_some_iff.mp h
  rw [lastLine_concat, if_pos hc]

namespace Position

variable {p q r : Position}

/-- The order of positions in a text: by line, and in one line by column. -/
def Before (p q : Position) : Prop := p.line < q.line ∨ p.line = q.line ∧ p.column < q.column

theorem Before.trans (h : p.Before q) (h' : q.Before r) : p.Before r := by
  unfold Before at *
  omega

theorem Before.ne (h : p.Before q) : p ≠ q := by
  rintro rfl
  unfold Before at h
  omega

/-! ## One character more -/

/-- Where one stands after one character more, given the character before it. -/
def step (last : Option Char) (c : Char) (p : Position) : Position :=
  if c = '\n' ∧ last = some '\r' then p else if endsLine c then p.nextLine else p.nextColumn

theorem step_stays (p : Position) : p.step (some '\r') '\n' = p := rfl

theorem before_step {last : Option Char} (h : ¬ (c = '\n' ∧ last = some '\r')) (p : Position) :
    p.Before (p.step last c) := by
  rw [step, if_neg h]
  cases endsLine c with
  | false => exact Or.inr ⟨rfl, Nat.lt_succ_self _⟩
  | true => exact Or.inl (Nat.lt_succ_self _)

theorem step_cons (d : Char) (p : Position) (h : d = '\r' → cs ≠ [] ∨ c ≠ '\n') :
    p.step ((d :: cs).getLast?) c = p.step cs.getLast? c := by
  cases cs with
  | nil => by_cases hd : d = '\r' <;> simp_all [step]
  | cons e es => rw [List.getLast?_cons_cons]

/-- The scan looks ahead for a line feed, the step looks back for a carriage return. -/
theorem advance_concat (p : Position) (cs : List Char) (c : Char) :
    p.advance (cs ++ [c]) = (p.advance cs).step cs.getLast? c := by
  fun_induction advance p cs with
  | case1 p =>
    by_cases hr : c = '\r'
    · subst c
      rfl
    · by_cases hn : c = '\n'
      · subst c
        rfl
      · simp [advance, step, endsLine, hr, hn]
  | case2 p cs ih =>
    rw [List.getLast?_cons_cons, step_cons _ _ (by simp), ← ih]
    rfl
  | case3 p cs hcs ih =>
    cases cs with
    | nil =>
      by_cases hn : c = '\n'
      · subst c
        rfl
      · rw [step_cons _ _ (by simp [hn]), ← ih]
        simp [advance, hn]
    | cons d ds =>
      rw [step_cons _ _ (by simp), ← ih]
      simp_all [advance]
  | case4 p cs ih =>
    rw [step_cons _ _ (by simp), ← ih]
    rfl
  | case5 p d cs _ hr hn ih =>
    rw [step_cons _ _ (fun h => absurd h hr), ← ih]
    simp_all [advance]

/-- The two counts tell the position at the end of a text. -/
theorem start_advance (cs : List Char) :
    start.advance cs = ⟨1 + terminators cs, 1 + (lastLine cs).length⟩ := by
  induction cs using List.reverseRecOn with
  | nil => rfl
  | append_singleton cs c ih =>
    rw [advance_concat, ih, terminators_concat, lastLine_concat, step]
    by_cases hpair : c = '\n' ∧ cs.getLast? = some '\r'
    · obtain ⟨rfl, hlast⟩ := hpair
      simp [hlast, lastLine_eq_nil hlast (by decide), endsLine]
    · rw [if_neg hpair, if_neg hpair]
      cases endsLine c with
      | false => simp [nextColumn, Nat.add_assoc]
      | true => simp [nextLine, Nat.add_assoc]

/-! ## Any part of the text more -/

theorem advance_feed (p : Position) (h : cs.getLast? = some '\r') :
    p.advance (cs ++ ['\n']) = p.advance cs := by
  rw [advance_concat, h, step_stays]

theorem before_advance (p : Position) (hne : between ≠ [])
    (h : ¬ (between = ['\n'] ∧ cs.getLast? = some '\r')) :
    (p.advance cs).Before (p.advance (cs ++ between)) := by
  induction between using List.reverseRecOn with
  | nil => exact absurd rfl hne
  | append_singleton ds d ih =>
    rw [← List.append_assoc, advance_concat]
    by_cases hds : ds = []
    · subst ds
      rw [List.append_nil]
      exact before_step (by simpa using h) _
    · by_cases hfeed : ds = ['\n'] ∧ cs.getLast? = some '\r'
      · obtain ⟨rfl, hlast⟩ := hfeed
        rw [advance_feed p hlast, List.getLast?_concat]
        exact before_step (by simp) _
      · have hbefore := ih hds hfeed
        by_cases hpair : d = '\n' ∧ (cs ++ ds).getLast? = some '\r'
        · rw [hpair.1, hpair.2, step_stays]
          exact hbefore
        · exact hbefore.trans (before_step hpair _)

/-! ## Offsets -/

theorem locate_append (before after : List Char) :
    locate (before ++ after) (byteSize before) = start.advance before := by
  rw [locate, takeBytes_append]

/-- An offset that is not inside of a character has a position. -/
theorem locate?_of_isBoundary (h : IsBoundary text o₁) :
    locate? text o₁ = some (locate text o₁) := by
  have hle := h.le
  obtain ⟨before, after, rfl, rfl⟩ := h
  rw [locate?, Nat.min_eq_left hle, dropBytes?_append]
  rfl

theorem locate?_of_le (h : byteSize text ≤ o₁) :
    locate? text o₁ = locate? text (byteSize text) := by
  rw [locate?, locate?, Nat.min_eq_right h, Nat.min_self, locate, locate, takeBytes_of_le h,
    takeBytes_of_le le_rfl]

/-- Two boundaries are the two ends of the line feed of a pair. -/
theorem splitsReturnFeed_iff {after : List Char} :
    byteSize (before ++ between) = byteSize before + 1 ∧
        SplitsReturnFeed (before ++ between ++ after) (byteSize before) ↔
      between = ['\n'] ∧ before.getLast? = some '\r' := by
  have hreturn : byteSize ['\r'] = 1 := by decide
  have hfeed : byteSize ['\n'] = 1 := by decide
  constructor
  · rintro ⟨hsize, b, a, htext, hoffset⟩
    have hbefore : before = b ++ ['\r'] := by
      have hsplit : before ++ (between ++ after) = b ++ ['\r'] ++ '\n' :: a := by simpa using htext
      apply eq_of_byteSize_eq hsplit
      rw [hoffset, byteSize_append, hreturn]
    have hboth : before ++ between = b ++ ['\r'] ++ ['\n'] := by
      have hsplit : before ++ between ++ after = b ++ ['\r'] ++ ['\n'] ++ a := by simpa using htext
      apply eq_of_byteSize_eq hsplit
      rw [hsize, hoffset, byteSize_append, byteSize_append, hreturn, hfeed]
    rw [hbefore, List.append_cancel_left_eq] at hboth
    exact ⟨hboth, by rw [hbefore, List.getLast?_concat]⟩
  · rintro ⟨rfl, hlast⟩
    obtain ⟨b, rfl⟩ := List.getLast?_eq_some_iff.mp hlast
    refine ⟨by rw [byteSize_append, hfeed], b, after, by simp, ?_⟩
    rw [byteSize_append, hreturn]

/-- The position of an offset by counting, the order of positions, and offsets past the end. -/
theorem locate_boundaries (text : List Char) :
    (∀ before after, text = before ++ after →
      locate? text (byteSize before) =
        some ⟨1 + terminators before, 1 + (lastLine before).length⟩) ∧
    (∀ o₁ o₂, IsBoundary text o₁ → IsBoundary text o₂ → o₁ < o₂ →
      ∃ p₁ p₂, locate? text o₁ = some p₁ ∧ locate? text o₂ = some p₂ ∧
        (p₁ = p₂ ↔ o₂ = o₁ + 1 ∧ SplitsReturnFeed text o₁) ∧ (p₁ ≠ p₂ → p₁.Before p₂)) ∧
    ∀ o, byteSize text ≤ o → locate? text o = locate? text (byteSize text) := by
  refine ⟨?_, ?_, fun o ho => locate?_of_le ho⟩
  · rintro before after rfl
    rw [locate?_of_isBoundary ⟨before, after, rfl, rfl⟩, locate_append, start_advance]
  · intro o₁ o₂ h₁ h₂ hlt
    refine ⟨locate text o₁, locate text o₂, locate?_of_isBoundary h₁, locate?_of_isBoundary h₂, ?_⟩
    obtain ⟨before, after', htext, rfl⟩ := h₁
    obtain ⟨before', after, htext', rfl⟩ := h₂
    obtain ⟨between, hne, rfl⟩ := exists_between (htext.symm.trans htext') hlt
    have hfirst : locate text (byteSize before) = start.advance before := by
      rw [htext, locate_append]
    have hsecond : locate text (byteSize (before ++ between)) =
        start.advance (before ++ between) := by
      rw [htext', locate_append]
    rw [hfirst, hsecond, htext', splitsReturnFeed_iff]
    by_cases hfeed : between = ['\n'] ∧ before.getLast? = some '\r'
    · obtain ⟨rfl, hlast⟩ := hfeed
      simp [advance_feed start hlast, hlast]
    · have hbefore : (start.advance before).Before _ := before_advance start hne hfeed
      exact ⟨iff_of_false hbefore.ne hfeed, fun _ => hbefore⟩

/-- Of two carriage returns only the one before the line feed shares its terminator, and the
character after it takes four bytes. -/
theorem locate_boundaries_pair :
    let text := ['a', '\r', '\r', '\n', '😀']
    IsBoundary text 3 ∧ IsBoundary text 4 ∧ IsBoundary text 8 ∧
      locate? text 3 = some ⟨3, 1⟩ ∧ locate? text 4 = locate? text 3 ∧
      locate? text 8 ≠ locate? text 4 ∧ locate? text 9 = locate? text 8 := by
  intro text
  have hreturns : IsBoundary text 3 := ⟨['a', '\r', '\r'], ['\n', '😀'], rfl, by decide⟩
  have hfeed : IsBoundary text 4 := ⟨['a', '\r', '\r', '\n'], ['😀'], rfl, by decide⟩
  have hwhole : IsBoundary text 8 := ⟨text, [], by simp, by decide⟩
  obtain ⟨hcounts, horder, hbeyond⟩ := locate_boundaries text
  refine ⟨hreturns, hfeed, hwhole, ?_, ?_, ?_, ?_⟩
  · have hthird := hcounts ['a', '\r', '\r'] ['\n', '😀'] rfl
    rw [show byteSize ['a', '\r', '\r'] = 3 by decide] at hthird
    rw [hthird]
    decide
  · obtain ⟨p₁, p₂, h₁, h₂, hsame, -⟩ := horder 3 4 hreturns hfeed (by decide)
    have hsplit : SplitsReturnFeed text 3 := ⟨['a', '\r'], ['😀'], rfl, by decide⟩
    rw [h₁, h₂, hsame.mpr ⟨rfl, hsplit⟩]
  · obtain ⟨p₁, p₂, h₁, h₂, hsame, -⟩ := horder 4 8 hfeed hwhole (by decide)
    rw [h₁, h₂]
    intro heq
    have hnext := (hsame.mp (Option.some.inj heq).symm).1
    omega
  · exact hbeyond 9 (by decide)

end Position

end FilterQuery.Text
