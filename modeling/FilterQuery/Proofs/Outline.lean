import FilterQuery.Proofs.Behind

/-!
The outline of a text: its round brackets, apart from those in comments and strings. An outline is
walked from some depth, one level up for each opening bracket and one level down for each closing
one. How the outline ends tells whether a comment or a string is still open there.
-/
namespace FilterQuery.Grammar

open Scanner

inductive Bracket where
  | opening
  | closing
deriving DecidableEq, Repr

/-- What a character belongs to. -/
inductive Mode where
  | code
  | comment
  | quoted (quote : Char)
deriving DecidableEq, Repr

namespace Mode

/-- The mode past a character; what follows tells whether it opens a comment. -/
def after : Mode → Char → List Char → Mode
  | code, c, cs =>
    if Terminal.opensComment (c :: cs) then comment
    else if c == '\'' || c == '"' then quoted c
    else code
  | comment, c, _ => if Terminal.isBreak c then code else comment
  | quoted quote, c, _ => if c == quote then code else quoted quote

/-- Only code has brackets. -/
def bracket? : Mode → Char → Option Bracket
  | code, '(' => some .opening
  | code, ')' => some .closing
  | _, _ => none

end Mode

/-- The brackets of a text that begins in the mode. -/
def brackets : Mode → List Char → List Bracket
  | _, [] => []
  | mode, c :: cs => (mode.bracket? c).toList ++ brackets (mode.after c cs) cs

/-- The mode at the end of a text that begins in the mode. -/
def ending : Mode → List Char → Mode
  | mode, [] => mode
  | mode, c :: cs => ending (mode.after c cs) cs

/-! ## Walks -/

/-- The depth at the end, if no bracket is closed that is not open. -/
def walk : Nat → List Bracket → Option Nat
  | n, [] => some n
  | n, .opening :: bs => walk (n + 1) bs
  | 0, .closing :: _ => none
  | n + 1, .closing :: bs => walk n bs

/-- The greatest depth on the way. -/
def peak : Nat → List Bracket → Nat
  | n, [] => n
  | n, .opening :: bs => peak (n + 1) bs
  | 0, .closing :: _ => 0
  | n + 1, .closing :: bs => max (n + 1) (peak n bs)

variable {n m : Nat} {bs bs' : List Bracket}

theorem le_peak (n : Nat) (bs : List Bracket) : n ≤ peak n bs := by
  fun_induction peak n bs with
  | case1 => exact le_rfl
  | case2 n bs ih => omega
  | case3 => exact le_rfl
  | case4 n bs ih => exact Nat.le_max_left _ _

theorem walk_append (h : walk n bs = some m) : walk n (bs ++ bs') = walk m bs' := by
  fun_induction walk n bs with
  | case1 n => simp_all
  | case2 n bs ih => exact ih h
  | case3 => simp at h
  | case4 n bs ih => exact ih h

theorem peak_append (h : walk n bs = some m) :
    peak n (bs ++ bs') = max (peak n bs) (peak m bs') := by
  fun_induction walk n bs with
  | case1 n =>
    obtain rfl : n = m := by simpa using h
    exact (max_eq_right (le_peak n bs')).symm
  | case2 n bs ih => exact ih h
  | case3 => simp at h
  | case4 n bs ih =>
    simp only [List.cons_append, peak]
    rw [ih h, max_assoc]

/-- From any depth with `a` levels more the walk goes to `b` levels more, and no higher than `k`. -/
def Climbs (a b k : Nat) (bs : List Bracket) : Prop :=
  ∀ n, walk (n + a) bs = some (n + b) ∧ peak (n + a) bs ≤ n + k

namespace Climbs

variable {a b c k k' : Nat}

theorem none (a : Nat) : Climbs a a a [] := fun _ => ⟨rfl, le_rfl⟩

theorem append (h : Climbs a b k bs) (h' : Climbs b c k' bs') :
    Climbs a c (max k k') (bs ++ bs') := by
  intro n
  obtain ⟨hwalk, hpeak⟩ := h n
  obtain ⟨hwalk', hpeak'⟩ := h' n
  refine ⟨by rw [walk_append hwalk, hwalk'], ?_⟩
  rw [peak_append hwalk]
  omega

theorem mono (h : Climbs a b k bs) (hk : k ≤ k') : Climbs a b k' bs :=
  fun n => ⟨(h n).1, (h n).2.trans (Nat.add_le_add_left hk n)⟩

theorem inside (h : Climbs a b k bs) : Climbs (a + 1) (b + 1) (k + 1) bs := by
  intro n
  have hstep := h (n + 1)
  simp only [Nat.add_right_comm n 1] at hstep
  exact hstep

theorem opening : Climbs 0 1 1 [.opening] := fun _ => ⟨rfl, le_rfl⟩

theorem closing : Climbs 1 0 1 [.closing] := fun n => ⟨rfl, max_le le_rfl (Nat.le_succ n)⟩

end Climbs

/-! ## Closing brackets behind a text -/

variable {mode : Mode} {c : Char} {cs more : List Char}

/-- A closing bracket behind a text makes no comment of what was none. -/
theorem opensComment_close :
    Terminal.opensComment (c :: (cs ++ ')' :: more)) = Terminal.opensComment (c :: cs) := by
  cases cs with
  | nil =>
    unfold Terminal.opensComment
    split <;> split <;> simp_all
  | cons d cs =>
    unfold Terminal.opensComment
    split <;> split <;> simp_all

theorem Mode.after_close : mode.after c (cs ++ ')' :: more) = mode.after c cs := by
  cases mode with
  | code => simp only [after, opensComment_close]
  | comment | quoted => rfl

theorem brackets_close : brackets mode (cs ++ ')' :: more) =
    brackets mode cs ++ brackets (ending mode cs) (')' :: more) := by
  induction cs generalizing mode with
  | nil => rfl
  | cons c cs ih =>
    simp only [List.cons_append, brackets, ending, Mode.after_close, ih, List.append_assoc]

theorem ending_close :
    ending mode (cs ++ ')' :: more) = ending (ending mode cs) (')' :: more) := by
  induction cs generalizing mode with
  | nil => rfl
  | cons c cs ih => simp only [List.cons_append, ending, Mode.after_close, ih]

/-! ## Passing over a text -/

/-- From the one text to the other, with these brackets between them. Only a comment at the end of
the text is in another mode at its end than at its beginning. -/
structure Passes (cs rest : List Char) (bs : List Bracket) : Prop where
  suffix : rest <:+ cs
  brackets : brackets .code cs = bs ++ brackets .code rest
  ending : ending .code cs = ending .code rest ∨ rest = [] ∧ ending .code cs = .comment

/-- The text is code to its end, and the walk from the depth leaves no bracket open. -/
structure Closed (n : Nat) (cs : List Char) : Prop where
  ending : ending .code cs = .code
  brackets : ∀ m, walk n (brackets .code cs) ≠ some (m + 1)

namespace Passes

variable {mid rest : List Char}

theorem refl (cs : List Char) : Passes cs cs [] := ⟨List.suffix_rfl, rfl, Or.inl rfl⟩

theorem trans (h : Passes cs mid bs) (h' : Passes mid rest bs') : Passes cs rest (bs ++ bs') := by
  refine ⟨h'.suffix.trans h.suffix, by rw [h.brackets, h'.brackets, List.append_assoc], ?_⟩
  rcases h.ending with hsame | ⟨rfl, hcomment⟩
  · rcases h'.ending with hsame' | ⟨hrest, hcomment⟩
    · exact Or.inl (hsame.trans hsame')
    · exact Or.inr ⟨hrest, hsame.trans hcomment⟩
  · exact Or.inr ⟨List.suffix_nil.mp h'.suffix, hcomment⟩

theorem closed (h : Passes cs rest bs) (hwalk : walk n bs = some m) (hcs : Closed n cs) :
    Closed m rest := by
  constructor
  · rcases h.ending with hsame | ⟨-, hcomment⟩
    · exact hsame.symm.trans hcs.ending
    · exact absurd (hcomment.symm.trans hcs.ending) (by decide)
  · intro k hk
    refine hcs.brackets k ?_
    rw [h.brackets, walk_append hwalk]
    exact hk

/-- A character that leaves the text in code. -/
theorem step (hafter : Mode.after .code c cs = .code)
    (hbracket : Mode.bracket? .code c = none) : Passes (c :: cs) cs [] := by
  refine ⟨List.suffix_cons _ _, ?_, Or.inl ?_⟩
  · rw [Grammar.brackets, hafter, hbracket]
    rfl
  · rw [Grammar.ending, hafter]

end Passes

/-- The characters that an outline depends on. -/
def specials : List Char := ['(', ')', '\'', '"', '-', '/']

theorem bracket?_eq_none (hopen : c ≠ '(') (hclose : c ≠ ')') : mode.bracket? c = none := by
  unfold Mode.bracket?
  split <;> simp_all

theorem passes_char (hc : c ∉ specials) : Passes (c :: cs) cs [] := by
  simp only [specials, List.mem_cons, List.not_mem_nil, or_false, not_or] at hc
  obtain ⟨hopen, hclose, hsingle, hdouble, hdash, hslash⟩ := hc
  refine .step ?_ (bracket?_eq_none hopen hclose)
  simp [Mode.after, opensComment_eq_false hdash hslash cs, hsingle, hdouble]

theorem Passes.plain (h : cs.all (!specials.contains ·) = true) (rest : List Char) :
    Passes (cs ++ rest) rest [] := by
  induction cs with
  | nil => exact .refl rest
  | cons c cs ih =>
    obtain ⟨hc, hcs⟩ := Bool.and_eq_true_iff.mp (List.all_cons.symm.trans h)
    exact (passes_char (by simpa using hc)).trans (ih hcs)

theorem passes_opening : Passes ('(' :: cs) cs [.opening] := by
  refine ⟨List.suffix_cons _ _, ?_, Or.inl ?_⟩
  · rfl
  · rfl

theorem passes_closing : Passes (')' :: cs) cs [.closing] := by
  refine ⟨List.suffix_cons _ _, ?_, Or.inl ?_⟩
  · rfl
  · rfl

/-- A closing bracket behind a text that ends in code. -/
theorem Passes.close (h : Passes cs [] bs) (hcs : Grammar.ending .code cs = .code)
    (rest : List Char) : Passes (cs ++ ')' :: rest) rest (bs ++ [.closing]) := by
  refine ⟨⟨cs ++ [')'], by simp⟩, ?_, ?_⟩
  · rw [brackets_close, h.brackets, hcs, passes_closing.brackets, Grammar.brackets,
      List.append_nil, List.append_assoc]
  · rw [ending_close, hcs]
    exact passes_closing.ending

/-- A dash without a second one. -/
theorem passes_dash (hcs : Terminal.startsWith (· == '-') cs = false) :
    Passes ('-' :: cs) cs [] := by
  refine .step ?_ rfl
  simp [Mode.after, opensComment_dash hcs]

/-! ## Gaps -/

/-- Inside of a comment or not. -/
def commentMode (inComment : Bool) : Mode := if inComment then .comment else .code

/-- The condition under which a gap goes on with a comment. -/
theorem after_comment {inComment : Bool}
    (h : (if inComment then !Terminal.isBreak c else Terminal.opensComment (c :: cs)) = true) :
    (commentMode inComment).after c cs = commentMode true ∧
      (commentMode inComment).bracket? c = none := by
  cases inComment with
  | true => exact ⟨if_neg (by simpa using h), rfl⟩
  | false =>
    refine ⟨if_pos h, ?_⟩
    simp only [Bool.false_eq_true, if_false, Terminal.opensComment] at h
    split at h <;> simp_all [commentMode, Mode.bracket?]

/-- A blank leaves a text in code, also when it breaks the line of a comment. -/
theorem after_blank {inComment : Bool}
    (h : ¬ (if inComment then !Terminal.isBreak c else Terminal.opensComment (c :: cs)) = true)
    (hc : Terminal.isBlankChar c = true) :
    (commentMode inComment).after c cs = commentMode false ∧
      (commentMode inComment).bracket? c = none := by
  have hblank : c ∈ [' ', '\t', '\n', '\r'] := by
    simpa [Terminal.isBlankChar, Terminal.isBreak, or_assoc] using hc
  have hplain : [' ', '\t', '\n', '\r'].all (fun c =>
      !(c == '\'' || c == '"') && Mode.bracket? .code c == none) = true := by
    decide
  obtain ⟨hquote, hbracket⟩ : (c == '\'' || c == '"') = false ∧ Mode.bracket? .code c = none := by
    simpa using List.all_eq_true.mp hplain c hblank
  cases inComment with
  | true => exact ⟨if_pos (by simpa using h), rfl⟩
  | false =>
    have hopens : Terminal.opensComment (c :: cs) = false := by simpa using h
    refine ⟨?_, hbracket⟩
    simp [commentMode, Mode.after, hopens, hquote]

theorem splitGap_outline (inComment : Bool) (cs : List Char) :
    brackets (commentMode inComment) cs = brackets .code (Terminal.splitGap inComment cs).2 ∧
      (ending (commentMode inComment) cs = ending .code (Terminal.splitGap inComment cs).2 ∨
        (Terminal.splitGap inComment cs).2 = [] ∧
          ending (commentMode inComment) cs = .comment) := by
  fun_induction Terminal.splitGap inComment cs with
  | case1 inComment =>
    cases inComment with
    | false => exact ⟨rfl, Or.inl rfl⟩
    | true => exact ⟨rfl, Or.inr ⟨rfl, rfl⟩⟩
  | case2 inComment c cs hcomment gap rest hsplit ih =>
    obtain ⟨hafter, hbracket⟩ := after_comment hcomment
    simp only [hsplit] at ih
    simpa only [brackets, ending, hafter, hbracket, Option.toList_none, List.nil_append] using ih
  | case3 inComment c cs hcomment hblank gap rest hsplit ih =>
    obtain ⟨hafter, hbracket⟩ := after_blank hcomment hblank
    simp only [hsplit] at ih
    simpa only [brackets, ending, hafter, hbracket, Option.toList_none, List.nil_append] using ih
  | case4 inComment c cs hcomment hblank =>
    cases inComment with
    | false => exact ⟨rfl, Or.inl rfl⟩
    | true => simp_all [Terminal.isBlankChar]

theorem passes_gap (cs : List Char) : Passes cs (Terminal.splitGap false cs).2 [] := by
  obtain ⟨hbrackets, hending⟩ := splitGap_outline false cs
  have hread : Reads .unlimited Peg.gap cs _ := .gap cs
  exact ⟨hread.suffix rfl, hbrackets, hending⟩

/-- A gap ends at a closing bracket, unless a comment goes on over it. -/
theorem splitGap_close (inComment : Bool) (more : List Char)
    (h : ending (commentMode inComment) cs = .code) :
    Terminal.splitGap inComment (cs ++ ')' :: more) =
      ((Terminal.splitGap inComment cs).1, (Terminal.splitGap inComment cs).2 ++ ')' :: more) := by
  fun_induction Terminal.splitGap inComment cs with
  | case1 inComment =>
    cases inComment with
    | false => rfl
    | true => simp [ending, commentMode] at h
  | case2 inComment c cs hcomment gap rest hsplit ih =>
    obtain ⟨hafter, -⟩ := after_comment hcomment
    rw [ending, hafter] at h
    rw [List.cons_append, Terminal.splitGap, opensComment_close, if_pos hcomment, ih h, hsplit]
  | case3 inComment c cs hcomment hblank gap rest hsplit ih =>
    obtain ⟨hafter, -⟩ := after_blank hcomment hblank
    rw [ending, hafter] at h
    rw [List.cons_append, Terminal.splitGap, opensComment_close, if_neg hcomment, if_pos hblank,
      ih h, hsplit]
  | case4 inComment c cs hcomment hblank =>
    rw [List.cons_append, Terminal.splitGap, opensComment_close, if_neg hcomment, if_neg hblank]

/-! ## Strings -/

theorem quoted_outline {quote : Char} {content : List Char} (h : quote ∉ content) :
    brackets (.quoted quote) (content ++ quote :: cs) = brackets .code cs ∧
      ending (.quoted quote) (content ++ quote :: cs) = ending .code cs := by
  induction content with
  | nil => simp [brackets, ending, Mode.after, Mode.bracket?]
  | cons c content ih =>
    obtain ⟨hc, hcontent⟩ : quote ≠ c ∧ quote ∉ content := by simpa using h
    have hafter : Mode.after (.quoted quote) c (content ++ quote :: cs) = .quoted quote :=
      if_neg (by simpa using Ne.symm hc)
    rw [List.cons_append, brackets, ending, hafter]
    exact ih hcontent

theorem after_quote {quote : Char} (hquote : quote = '\'' ∨ quote = '"') :
    Mode.after .code quote cs = .quoted quote ∧ Mode.bracket? .code quote = none := by
  rcases hquote with rfl | rfl <;> exact ⟨rfl, rfl⟩

theorem passes_quoted {quote : Char} {content : List Char} (hquote : quote = '\'' ∨ quote = '"')
    (h : quote ∉ content) : Passes (quote :: content ++ quote :: cs) cs [] := by
  obtain ⟨hafter, hbracket⟩ : Mode.after .code quote (content ++ quote :: cs) = .quoted quote ∧
      Mode.bracket? .code quote = none := after_quote hquote
  obtain ⟨hbrackets, hending⟩ : brackets (.quoted quote) (content ++ quote :: cs) = _ ∧
      ending (.quoted quote) (content ++ quote :: cs) = _ := quoted_outline h
  refine ⟨⟨quote :: content ++ [quote], by simp⟩, ?_, Or.inl ?_⟩
  · rw [List.cons_append, brackets, hafter, hbracket, hbrackets]
    rfl
  · rw [List.cons_append, ending, hafter, hending]

theorem ending_quoted {quote : Char} (h : quote ∉ cs) :
    ending (.quoted quote) cs = .quoted quote := by
  induction cs with
  | nil => rfl
  | cons c cs ih =>
    obtain ⟨hc, hcs⟩ : quote ≠ c ∧ quote ∉ cs := by simpa using h
    rw [ending, Mode.after, if_neg (by simpa using Ne.symm hc), ih hcs]

/-- A text that ends in code has no string open. -/
theorem not_opensQuote (h : ending .code cs = .code) : ¬ OpensQuote cs := by
  rintro ⟨quote, body, rfl, hquote, hbody⟩
  rw [ending, (after_quote hquote).1, ending_quoted hbody] at h
  cases h

end FilterQuery.Grammar
