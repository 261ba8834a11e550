import FilterQuery.Proofs.Parsing
import FilterQuery.Proofs.Shape
import FilterQuery.Proofs.Yields

/-!
What the grammar derives has the shape of a query tree, and its brackets nest no deeper than there
is room for. The one property that the form of the grammar does not show is that an operand never
begins with a literal word as a name: the word is tried as a literal first.
-/
namespace FilterQuery.Literal

/-- A string misses at least one kind of quote. -/
def IsWritten : Literal → Prop
  | .string content => '\'' ∉ content.toList ∨ '"' ∉ content.toList
  | _ => True

theorem value_isScalar {l : Literal} (hl : l.IsWritten) : l.value.IsScalar := by
  cases l with
  | null | bool b => trivial
  | string content => exact hl
  | integer text =>
    simp only [value, convert, placeholder]
    cases Number.Integer.read text.toList <;> trivial
  | decimal text =>
    simp only [value, convert, placeholder]
    cases Number.Decimal.read text.toList <;> trivial

end FilterQuery.Literal

namespace FilterQuery.Grammar

open Scanner Result

/-! ## Operands that begin with a name -/

theorem stripBy_self (ps rest : List Char) :
    Terminal.stripBy (· == ·) ps (ps ++ rest) = some (ps, rest) := by
  induction ps with
  | nil => rfl
  | cons p ps ih => simp [Terminal.stripBy, ih]

variable {room : Room} {cs rest : List Char}

theorem Reads.exactWord {word : String}
    (hrest : Terminal.startsWith Terminal.isIdentifierChar rest = false) :
    Reads room (Peg.exactWord word) (word.toList ++ rest) (matched () rest) :=
  .seq (.likeness_some (stripBy_self _ _)) (.wordEnd hrest)

theorem startsWith_dropWhile (ok : Char → Bool) (cs : List Char) :
    Terminal.startsWith ok (cs.dropWhile ok) = false := by
  induction cs with
  | nil => rfl
  | cons c cs ih =>
    by_cases hc : ok c = true
    · rwa [List.dropWhile_cons_of_pos hc]
    · simpa [List.dropWhile_cons_of_neg hc, Terminal.startsWith] using hc

/-- A name ends where no character of a name comes next. -/
theorem Reads.identifier_split {name : String}
    (h : Reads room (.call .identifier) cs (matched name rest)) :
    cs = name.toList ++ rest ∧ Terminal.startsWith Terminal.isIdentifierChar rest = false := by
  cases h with
  | call h =>
    cases hread : Terminal.identifier cs with
    | missing passed => cases Reads.unique h (name_obeys.missing hread)
    | found a lexeme rest' =>
      cases Reads.unique h (name_obeys.found hread)
      unfold Terminal.identifier at hread
      split at hread
      · simp at hread
      · split at hread
        · dsimp only at hread
          split at hread
          · simp at hread
          · injection hread with ha hl hr
            subst ha hr
            exact ⟨by simp, startsWith_dropWhile _ _⟩
        · simp at hread

theorem Reads.map_failed {α β : Type} {f : α → β} {p : Peg α}
    (h : Reads room (p.map f) cs (halted .failed)) : Reads room p cs (halted .failed) := by
  cases h with
  | seqLeft hp => exact hp
  | seqRight hp hpure => cases hpure

theorem Reads.firstOf_failed {α : Type} {ps : List (Peg α)}
    (h : Reads room (Peg.firstOf ps) cs (halted .failed)) :
    ∀ p ∈ ps, Reads room p cs (halted .failed) := by
  fun_induction Peg.firstOf ps with
  | case1 => simp
  | case2 p => simpa using h
  | case3 p ps hne ih =>
    cases h with
    | choiceRight hp hps => exact List.forall_mem_cons.mpr ⟨hp, ih hps⟩

/-- A word that is a literal has been tried as one before it is read as a name. -/
theorem Reads.head_not_literal {name : String}
    (hvalue : Reads room (.call .value) cs (halted .failed))
    (hname : Reads room (.call .identifier) cs (matched name rest)) : name ∉ literalWords := by
  intro hword
  obtain ⟨rfl, hrest⟩ := hname.identifier_split
  have hliteral : Reads room (.call .literal) (name.toList ++ rest) (halted .failed) := by
    cases hvalue with
    | call h =>
      cases h with
      | choiceRight hliteral harray => exact hliteral.map_failed
  have hfailed : Reads room (Peg.exactWord name) (name.toList ++ rest) (halted .failed) := by
    cases hliteral with
    | call h =>
    have hall := Reads.firstOf_failed h
    simp only [literalWords, List.mem_cons, List.not_mem_nil, or_false] at hword
    rcases hword with rfl | rfl | rfl | rfl | rfl | rfl
    · exact (hall _ (.head _)).map_failed
    · exact (hall _ (.tail _ (.head _))).map_failed
    · exact (hall _ (.tail _ (.tail _ (.head _)))).map_failed
    · exact (hall _ (.tail _ (.tail _ (.tail _ (.head _))))).map_failed
    · exact (hall _ (.tail _ (.tail _ (.tail _ (.tail _ (.head _)))))).map_failed
    · exact (hall _ (.tail _ (.tail _ (.tail _ (.tail _ (.tail _ (.head _))))))).map_failed
  cases hfailed.unique (.exactWord hrest)

/-! ## The shape of what a symbol denotes -/

/-- Brackets of this depth may still be opened. -/
def Room.Fits : Room → Nat → Prop
  | limited levels, n => n ≤ levels
  | unlimited, _ => True

theorem Room.fits_max {room : Room} {m n : Nat} (hm : room.Fits m) (hn : room.Fits n) :
    room.Fits (max m n) := by
  cases room with
  | limited levels => exact max_le hm hn
  | unlimited => trivial

theorem Room.fits_zero (room : Room) : room.Fits 0 := by
  cases room with
  | limited levels => exact Nat.zero_le levels
  | unlimited => trivial

theorem Room.fits_succ {room inner : Room} (hroom : room.inner? = some inner) {n : Nat}
    (hn : inner.Fits n) : room.Fits (n + 1) := by
  match room, hroom with
  | limited (levels + 1), hroom =>
    obtain rfl := Option.some.inj hroom
    exact Nat.succ_le_succ hn
  | unlimited, _ => trivial

theorem Room.Fits.mono {room : Room} {m n : Nat} (h : room.Fits n) (hle : m ≤ n) :
    room.Fits m := by
  cases room with
  | limited levels => exact hle.trans h
  | unlimited => trivial

/-- Where a level of brackets fits, what is inside fits into the room that is left. -/
theorem Room.Fits.inner {room : Room} {n : Nat} (h : room.Fits (n + 1)) :
    ∃ inner, room.inner? = some inner ∧ inner.Fits n := by
  match room, h with
  | limited (levels + 1), h => exact ⟨limited levels, rfl, Nat.le_of_succ_le_succ h⟩
  | unlimited, _ => exact ⟨unlimited, rfl, trivial⟩

/-- The tree of the draft stands at the level and fits in the room. -/
structure Stands (level : Binding) (room : Room) (d : Draft) : Prop where
  shaped : Shaped level d.build
  fits : room.Fits d.build.nesting

/-- What a symbol can denote. -/
def Symbol.Forms : {α : Type} → Symbol α → Room → α → Prop
  | _, grammar, room, d | _, expression, room, d | _, logicExpression, room, d
  | _, argument, room, d => Stands .logic room d
  | _, notExpression, room, d => Stands .negation room d
  | _, compareExpression, room, d => Stands .comparison room d
  | _, compareInExpression, room, d => Stands .membership room d
  | _, predicateExpression, room, d => Stands .predicate room d
  | _, betweenExpression, room, d => Stands .between room d
  | _, primaryExpression, room, d => Stands .primary room d
  | _, argumentList, room, ds =>
    ∃ inner, room.inner? = some inner ∧ ∀ d ∈ ds, Stands .logic inner d
  | _, reference, _, d => ∃ head dots arrows, d = .ofPath head (Draft.pathSteps dots arrows) ∧
      IsName head ∧ ∀ name ∈ dots ++ arrows, IsName name
  | _, identifier, _, name => IsName name
  | _, compare, _, op => op ∈ Operator.comparisons
  | _, logic, _, op => op.isLogic = true
  | _, test, _, op => op.isPredicate = true
  | _, value, _, d => ∃ v, d.build = .value v ∧ v.IsFlat
  | _, array, _, ls => ∀ l ∈ ls, l.IsWritten
  | _, literal, _, l => l.IsWritten

def Forms : Property := fun room s _ a => s.Forms room a

theorem foldLeft_stands {make : Draft → Operator → Draft → Draft} {level : Binding}
    (inner : Binding) {P : Operator → Prop}
    (hmake : ∀ {l op r}, Stands level room l → P op → Stands inner room r →
      Stands level room (make l op r)) {d : Draft} (hd : Stands level room d)
    {parts : List (Operator × Draft)}
    (hparts : ∀ part ∈ parts, P part.1 ∧ Stands inner room part.2) :
    Stands level room (Draft.foldLeft make d parts) := by
  induction parts generalizing d with
  | nil => exact hd
  | cons part parts ih =>
    obtain ⟨⟨hop, hr⟩, hrest⟩ := List.forall_mem_cons.mp hparts
    exact ih (hmake hd hop hr) hrest

/-- The operators that a slot stands for. -/
theorem denotes_slot {G : Property} {slot : Slot} {op : Operator}
    (h : slot.peg.Denotes (@G) room op) : op ∈ slot.map Spelling.operator := by
  obtain ⟨p, hp, h⟩ := denotes_firstOf h
  obtain ⟨s, hs, rfl⟩ := List.mem_map.mp hp
  refine List.mem_map.mpr ⟨s, hs, ?_⟩
  cases s with
  | symbol text =>
    obtain ⟨-, hop, -⟩ := denotes_map (p := Peg.text text) h
    exact hop.symm
  | phrase words =>
    obtain ⟨-, hop, -⟩ := denotes_map (p := Peg.phrase words) h
    exact hop.symm

/-- A slot stands for operators of one kind only. -/
theorem slot_operators {G : Property} {slot : Slot} (kind : Operator → Bool)
    (hslot : slot.all (fun s => s.isFolded && kind (.ofFolded (String.ofList s.text))) = true)
    {op : Operator} (h : slot.peg.Denotes (@G) room op) : kind op = true := by
  obtain ⟨s, hs, rfl⟩ := List.mem_map.mp (denotes_slot h)
  have hkind := List.all_eq_true.mp hslot s hs
  rw [Bool.and_eq_true] at hkind
  rw [Spelling.operator_of_isFolded hkind.1]
  exact hkind.2

theorem name_forms {name : String} (h : Peg.name.Denotes (@Forms) room name) : IsName name := by
  obtain ⟨chars, rfl, _, hguard, hnot⟩ := denotes_map h
  obtain ⟨t, u, c, others, -, hletter, hothers, rfl⟩ := hguard
  obtain ⟨rfl, hc⟩ := yields_oneChar hletter
  obtain ⟨rfl, hchars⟩ := yields_manyChars hothers
  refine ⟨⟨c, u, String.toList_ofList, hc, hchars⟩, ?_⟩
  simpa [Peg.isNot, imp_iff_not_or] using hnot

theorem quoted_forms {content : String} (h : Peg.quoted.Denotes (@Forms) room content) :
    (Literal.string content).IsWritten := by
  have hquote : ∀ {quote : Char}, (Peg.quotedBy quote).Denotes (@Forms) room content →
      quote ∉ content.toList := by
    intro quote h
    obtain ⟨chars, rfl, _, hchars⟩ := denotes_map (denotes_followedBy (denotes_before h))
    obtain ⟨rfl, hall⟩ := yields_manyChars hchars
    rw [String.toList_ofList]
    exact fun hmem => by simpa using hall quote hmem
  rcases denotes_choice h with h | h
  · exact Or.inl (hquote h)
  · exact Or.inr (hquote h)

theorem number_forms {l : Literal} (h : Peg.number.Denotes (@Forms) room l) : l.IsWritten := by
  obtain ⟨sign, ⟨whole, fraction⟩, rfl, -⟩ := denotes_seq h
  cases fraction <;> trivial

theorem literal_forms {l : Literal} (h : Symbol.literal.body.Denotes (@Forms) room l) :
    l.IsWritten := by
  have hword : ∀ {w : String} (l' : Literal), l'.IsWritten →
      (Peg.map (fun _ => l') (Peg.exactWord w)).Denotes (@Forms) room l → l.IsWritten := by
    intro w l' hl' h
    obtain ⟨-, rfl, -⟩ := denotes_map h
    exact hl'
  obtain ⟨p, hp, h⟩ := denotes_firstOf h
  simp only [List.mem_cons, List.not_mem_nil, or_false] at hp
  rcases hp with rfl | rfl | rfl | rfl | rfl | rfl | rfl | rfl
  · exact hword .null trivial h
  · exact hword .null trivial h
  · exact hword (.bool true) trivial h
  · exact hword (.bool true) trivial h
  · exact hword (.bool false) trivial h
  · exact hword (.bool false) trivial h
  · obtain ⟨content, rfl, hcontent⟩ := denotes_map h
    exact quoted_forms hcontent
  · exact number_forms h

theorem bracketed_forms {opening closing : String} {ls : List Literal}
    (h : (Peg.bracketed opening closing).Denotes (@Forms) room ls) : ∀ l ∈ ls, l.IsWritten := by
  have hlist := denotes_commaList (denotes_followedBy (denotes_before (denotes_before h)))
  intro l hl
  obtain ⟨text, htext⟩ := hlist l hl
  exact htext

theorem bounds_forms {bounds : Draft × Draft} (h : Peg.bounds.Denotes (@Forms) room bounds) :
    Symbol.value.Forms room bounds.1 ∧ Symbol.value.Forms room bounds.2 := by
  rcases denotes_choice h with h | h
  · obtain ⟨low, high, rfl, ⟨_, hlow⟩, hhigh⟩ := denotes_seq h
    obtain ⟨_, hhigh⟩ := denotes_before (denotes_before (denotes_before hhigh))
    exact ⟨hlow, hhigh⟩
  · obtain ⟨low, high, rfl, ⟨_, hlow⟩, hhigh⟩ := denotes_seq (denotes_before (denotes_before h))
    obtain ⟨_, hhigh⟩ :=
      denotes_followedBy (denotes_before (denotes_before (denotes_before hhigh)))
    exact ⟨hlow, hhigh⟩

theorem range_forms {op : Operator} (h : Peg.range.Denotes (@Forms) room op) :
    op.isRange = true := by
  obtain ⟨negation, -, rfl, -⟩ := denotes_seq h
  cases negation <;> rfl

theorem stands_value {d : Draft} (h : Symbol.value.Forms room d) : Stands .primary room d := by
  obtain ⟨v, hbuild, hv⟩ := h
  exact ⟨hbuild ▸ .value hv, hbuild ▸ room.fits_zero⟩

/-- The name that an operand begins with. -/
def headName? : Draft → Option String
  | .identifier name | .function name _ => some name
  | .reference r => some r.head
  | _ => none

theorem headName_ofPath (head : String) (steps : List (Accessor × String)) :
    headName? (Draft.ofPath head steps) = some head := by
  cases steps <;> rfl

theorem Reads.primary_head {d : Draft} {name : String}
    (h : Reads room (.call .primaryExpression) cs (matched d rest))
    (hname : headName? d = some name) : name ∉ literalWords := by
  cases h with
  | call h =>
  cases h with
  | choiceLeft hparentheses =>
    cases hparentheses with
    | seq => simp [headName?] at hname
  | choiceRight _ h =>
  cases h with
  | choiceLeft hvalue =>
    cases hvalue with
    | call h =>
      cases h with
      | choiceLeft hliteral =>
        cases hliteral with
        | seq => simp [headName?] at hname
      | choiceRight _ harray =>
        cases harray with
        | seq => simp [headName?] at hname
  | choiceRight hvalue h =>
  cases h with
  | choiceLeft hfunction =>
    cases hfunction with
    | seq hhead _ =>
      obtain rfl : _ = name := by simpa [headName?] using hname
      exact hvalue.head_not_literal hhead
  | choiceRight _ hreference =>
    cases hreference with
    | call h =>
    cases h with
    | seq hpath _ =>
    cases hpath with
    | seq hhead _ =>
      obtain rfl : _ = name := by simpa [headName_ofPath] using hname
      exact hvalue.head_not_literal hhead

theorem nestingOfAll_fits {ds : List Draft} (h : ∀ d ∈ ds, room.Fits d.build.nesting) :
    room.Fits (Node.nestingOfAll (Draft.buildAll ds)) := by
  induction ds with
  | nil => exact room.fits_zero
  | cons d ds ih =>
    obtain ⟨hd, hds⟩ := List.forall_mem_cons.mp h
    exact Room.fits_max hd (ih hds)

theorem path_shaped {text : List Char} {head : String} {dots arrows : List String}
    (hreads : Reads room (.call .primaryExpression) (text ++ rest)
      (matched (.ofPath head (Draft.pathSteps dots arrows)) rest))
    (hhead : IsName head) (hnames : ∀ name ∈ dots ++ arrows, IsName name) :
    Shaped .primary (Draft.ofPath head (Draft.pathSteps dots arrows)).build := by
  cases hsteps : Draft.pathSteps dots arrows with
  | nil =>
    rw [hsteps] at hreads
    exact .identifier ⟨hhead, hreads.primary_head rfl⟩
  | cons step steps =>
    rw [hsteps] at hreads
    refine .reference ⟨⟨hhead, hreads.primary_head rfl⟩, ⟨dots, arrows, hsteps.symm⟩, ?_, by simp⟩
    intro step' hstep'
    have hmem : step' ∈ Draft.pathSteps dots arrows := hsteps ▸ hstep'
    rcases List.mem_append.mp hmem with hmem | hmem <;>
      · obtain ⟨name, hname, rfl⟩ := List.mem_map.mp hmem
        exact hnames name (List.mem_append.mpr (by simp [hname]))

theorem path_fits (head : String) (steps : List (Accessor × String)) :
    room.Fits (Draft.ofPath head steps).build.nesting := by
  cases steps <;> exact room.fits_zero

theorem primary_forms {text : List Char} {d : Draft}
    (hreads : Reads room (.call .primaryExpression) (text ++ rest) (matched d rest))
    (h : Symbol.primaryExpression.body.Denotes (@Forms) room d) : Stands .primary room d := by
  obtain ⟨p, hp, h⟩ := denotes_firstOf h
  simp only [List.mem_cons, List.not_mem_nil, or_false] at hp
  rcases hp with rfl | rfl | rfl | rfl
  · obtain ⟨inner, rfl, hbrackets⟩ := denotes_map h
    obtain ⟨room', hroom, _, hinner⟩ :=
      denotes_deeper (denotes_followedBy (denotes_before (denotes_before hbrackets)))
    exact ⟨.parentheses hinner.shaped, Room.fits_succ hroom hinner.fits⟩
  · obtain ⟨_, hvalue⟩ := h
    exact stands_value hvalue
  · obtain ⟨name, ds, rfl, ⟨_, hname⟩, ⟨_, room', hroom, hds⟩⟩ := denotes_seq h
    have hhead : IsHead name := ⟨hname, hreads.primary_head rfl⟩
    refine ⟨.function hhead ?_, Room.fits_succ hroom (nestingOfAll_fits fun d hd => (hds d hd).fits)⟩
    rw [Draft.buildAll_eq_map]
    exact List.forall_mem_map.mpr fun d hd => (hds d hd).shaped
  · obtain ⟨_, head, dots, arrows, rfl, hhead, hnames⟩ := h
    exact ⟨path_shaped hreads hhead hnames, path_fits head _⟩

/-- The body of every symbol denotes what the symbol can denote, if the symbols in it do. -/
theorem body_forms {α : Type} {s : Symbol α} {text : List Char} {a : α}
    (hreads : Reads room (.call s) (text ++ rest) (matched a rest))
    (hyields : s.body.Yields (@Forms) room text a) : s.Forms room a := by
  have h : s.body.Denotes (@Forms) room a := ⟨text, hyields⟩
  cases s with
  | grammar =>
    obtain ⟨_, hd⟩ := denotes_followedBy (denotes_before h)
    exact hd
  | expression => exact hyields
  | logicExpression =>
    obtain ⟨d, parts, rfl, ⟨_, hd⟩, hparts⟩ := denotes_seq h
    refine foldLeft_stands .negation (P := fun op => op.isLogic = true) ?_
      ⟨.ofNegation hd.shaped, hd.fits⟩ fun part hpart => ?_
    · exact fun hl hop hr => ⟨.logic hl.shaped hop hr.shaped, Room.fits_max hl.fits hr.fits⟩
    · obtain ⟨op, r, rfl, ⟨_, hop⟩, ⟨_, hr⟩⟩ := denotes_seq (denotes_many hparts part hpart)
      exact ⟨hop, hr⟩
  | notExpression =>
    rcases denotes_choice h with ⟨_, hd⟩ | h
    · exact ⟨.ofComparison hd.shaped, hd.fits⟩
    · obtain ⟨inner, rfl, hword⟩ := denotes_map h
      obtain ⟨_, hd⟩ := denotes_before (denotes_before (denotes_before hword))
      exact ⟨.not hd.shaped, hd.fits⟩
  | compareExpression =>
    obtain ⟨d, parts, rfl, ⟨_, hd⟩, hparts⟩ := denotes_seq h
    refine foldLeft_stands .membership (P := fun op => op ∈ Operator.comparisons) ?_
      ⟨.ofMembership hd.shaped, hd.fits⟩ fun part hpart => ?_
    · exact fun hl hop hr => ⟨.compare hl.shaped hop hr.shaped, Room.fits_max hl.fits hr.fits⟩
    · obtain ⟨op, r, rfl, ⟨_, hop⟩, ⟨_, hr⟩⟩ := denotes_seq (denotes_many hparts part hpart)
      exact ⟨hop, hr⟩
  | compareInExpression =>
    obtain ⟨l, elements, rfl, ⟨_, hl⟩, helements⟩ := denotes_seq h
    cases elements with
    | none => exact ⟨.ofPredicate hl.shaped, hl.fits⟩
    | some part =>
      obtain ⟨op, ls, rfl, hop, hls⟩ := denotes_seq (denotes_before (denotes_optional helements _ rfl))
      obtain ⟨_, hls⟩ := denotes_before hls
      have hop' : op ∈ Operator.memberships :=
        List.contains_iff_mem.mp
          (slot_operators Operator.memberships.contains (by decide) hop)
      refine ⟨.membership hl.shaped hop' ?_, Room.fits_max hl.fits room.fits_zero⟩
      exact List.forall_mem_map.mpr fun l hl => Literal.value_isScalar (hls l hl)
  | predicateExpression =>
    obtain ⟨l, test, rfl, ⟨_, hl⟩, htest⟩ := denotes_seq h
    cases test with
    | none => exact ⟨.ofBetween hl.shaped, hl.fits⟩
    | some op =>
      obtain ⟨_, hop⟩ := denotes_optional htest _ rfl
      exact ⟨.predicate hl.shaped hop, hl.fits⟩
  | betweenExpression =>
    obtain ⟨l, bounds, rfl, ⟨_, hl⟩, hbounds⟩ := denotes_seq h
    cases bounds with
    | none => exact ⟨.ofPrimary hl.shaped, hl.fits⟩
    | some part =>
      obtain ⟨op, bounds, rfl, hop, hbounds⟩ :=
        denotes_seq (denotes_before (denotes_optional hbounds _ rfl))
      obtain ⟨hlow, hhigh⟩ := bounds_forms (denotes_before hbounds)
      have hlowFits := (stands_value hlow).fits
      have hhighFits := (stands_value hhigh).fits
      obtain ⟨low, hlow, hlow'⟩ := hlow
      obtain ⟨high, hhigh, hhigh'⟩ := hhigh
      refine ⟨?_, Room.fits_max hl.fits (Room.fits_max hlowFits hhighFits)⟩
      simp only [Draft.withBounds, Draft.build, hlow, hhigh]
      exact .between hl.shaped (range_forms hop) hlow' hhigh'
  | primaryExpression => exact primary_forms hreads h
  | argumentList =>
    obtain ⟨inner, hroom, hds⟩ :=
      denotes_deeper (denotes_followedBy (denotes_before (denotes_before h)))
    refine ⟨inner, hroom, fun d hd => ?_⟩
    obtain ⟨_, hd⟩ := denotes_commaList hds d hd
    exact hd
  | argument => exact hyields
  | reference =>
    obtain ⟨⟨head, steps⟩, rfl, hpath⟩ := denotes_map h
    obtain ⟨_, _, heq, ⟨_, hhead⟩, hsteps⟩ := denotes_seq hpath
    obtain ⟨rfl, rfl⟩ := Prod.mk.inj heq
    obtain ⟨dots, arrows, rfl, hdots, harrows⟩ := denotes_seq hsteps
    refine ⟨head, dots, arrows, rfl, hhead, fun name hname => ?_⟩
    rcases List.mem_append.mp hname with hname | hname
    · obtain ⟨_, hname⟩ := denotes_before (denotes_many hdots name hname)
      exact hname
    · obtain ⟨_, hname⟩ := denotes_before (denotes_many harrows name hname)
      exact hname
  | identifier => exact name_forms h
  | compare =>
    have hop := denotes_followedBy (denotes_before h)
    exact List.contains_iff_mem.mp
      (slot_operators Operator.comparisons.contains (by decide) hop)
  | logic => exact slot_operators Operator.isLogic (by decide) (denotes_followedBy (denotes_before h))
  | test => exact slot_operators Operator.isPredicate (by decide) (denotes_followedBy (denotes_before h))
  | value =>
    rcases denotes_choice h with h | h
    · obtain ⟨l, rfl, _, hl⟩ := denotes_map h
      have hscalar := Literal.value_isScalar hl
      refine ⟨l.value, rfl, ?_⟩
      revert hscalar
      cases l.value <;> simp [Value.IsFlat, Value.IsScalar]
    · obtain ⟨ls, rfl, _, hls⟩ := denotes_map h
      exact ⟨_, rfl, List.forall_mem_map.mpr fun l hl => Literal.value_isScalar (hls l hl)⟩
  | array =>
    rcases denotes_choice h with h | h
    · exact bracketed_forms h
    · exact bracketed_forms h
  | literal => exact literal_forms h

theorem Reads.forms {α : Type} {s : Symbol α} {a : α}
    (h : Reads room (.call s) cs (matched a rest)) : s.Forms room a := by
  obtain ⟨_, -, hforms⟩ := h.yields (G := Forms) body_forms rfl
  exact hforms

end FilterQuery.Grammar

namespace FilterQuery

open Grammar

/-- Every tree that is parsed has the shape of a query tree and keeps to the nesting limit. -/
theorem shaped_of_parse {q : String} {t : Node} (h : parse q = .ok t) :
    Shaped .logic t ∧ t.nesting ≤ nestingLimit := by
  obtain ⟨d, hread, -, rfl⟩ := parse_eq_ok_iff.mp h
  have hstands : Stands .logic (.limited nestingLimit) d := hread.forms
  exact ⟨hstands.shaped, hstands.fits⟩

end FilterQuery
