import FilterQuery.Json
import FilterQuery.Proofs.Tokens

/-!
Compact JSON text is unambiguous. Values that are written the same are the same, provided that what
stands for a number is made of digits, dashes and points. A value tells by its first character what
it is, and it is told apart from the text behind it: escapes can be undone one at a time, and a
number ends where the next character is none of its own.
-/
namespace FilterQuery.Json

open Grammar Scanner

/-! ## Strings -/

def hexValue (c : Char) : Nat :=
  if c.isDigit then c.toNat - '0'.toNat else c.toNat - 'a'.toNat + 10

/-- The character that a text begins with, escaped or not, and the text after it. -/
def unescape : List Char → Option (Char × List Char)
  | '\\' :: 'b' :: cs => some ('\x08', cs)
  | '\\' :: 'f' :: cs => some ('\x0c', cs)
  | '\\' :: 'n' :: cs => some ('\n', cs)
  | '\\' :: 'r' :: cs => some ('\r', cs)
  | '\\' :: 't' :: cs => some ('\t', cs)
  | '\\' :: 'u' :: '0' :: '0' :: high :: low :: cs =>
    some (Char.ofNat (16 * hexValue high + hexValue low), cs)
  | '\\' :: c :: cs => some (c, cs)
  | c :: cs => some (c, cs)
  | [] => none

theorem hexValue_digitChar {n : Nat} (hn : n < 16) : hexValue (Nat.digitChar n) = n := by
  have hall : ∀ n < 16, hexValue (Nat.digitChar n) = n := by decide
  exact hall n hn

theorem unescape_control {c : Char} (hc : c.toNat < 0x20) (rest : List Char) :
    unescape ("\\u00".toList ++ hexByte c.toNat ++ rest) = some (c, rest) := by
  have hhigh : hexValue (Nat.digitChar (c.toNat / 16)) = c.toNat / 16 :=
    hexValue_digitChar (by omega)
  have hlow : hexValue (Nat.digitChar (c.toNat % 16)) = c.toNat % 16 :=
    hexValue_digitChar (by omega)
  have hbyte : unescape ("\\u00".toList ++ hexByte c.toNat ++ rest) =
      some (Char.ofNat (16 * hexValue (Nat.digitChar (c.toNat / 16)) +
        hexValue (Nat.digitChar (c.toNat % 16))), rest) := rfl
  rw [hbyte, hhigh, hlow, Nat.div_add_mod, Char.ofNat_toNat]

theorem unescape_plain {c : Char} (hc : c ≠ '\\') (rest : List Char) :
    unescape (c :: rest) = some (c, rest) := by
  unfold unescape
  split <;> simp_all

theorem unescape_escape (c : Char) (rest : List Char) :
    unescape (escape c ++ rest) = some (c, rest) := by
  unfold escape
  split
  case h_8 _ hbackslash _ _ _ _ _ =>
    split
    · next hc => exact unescape_control hc rest
    · exact unescape_plain hbackslash rest
  all_goals rfl

theorem escape_head (c : Char) : ∃ d ds, escape c = d :: ds ∧ d ≠ '"' := by
  unfold escape
  split
  case h_8 hquote _ _ _ _ _ _ =>
    split
    · exact ⟨'\\', _, rfl, by decide⟩
    · exact ⟨c, [], rfl, hquote⟩
  all_goals exact ⟨'\\', _, rfl, by decide⟩

variable {rest rest' : List Char}

/-- A string ends at the first quote that is not escaped. -/
theorem escaped_cancel {cs cs' : List Char}
    (h : cs.flatMap escape ++ '"' :: rest = cs'.flatMap escape ++ '"' :: rest') :
    cs = cs' ∧ rest = rest' := by
  induction cs generalizing cs' with
  | nil =>
    cases cs' with
    | nil => simpa using h
    | cons c' cs' =>
      obtain ⟨d, ds, hescape, hd⟩ := escape_head c'
      simp [hescape, Ne.symm hd] at h
  | cons c cs ih =>
    cases cs' with
    | nil =>
      obtain ⟨d, ds, hescape, hd⟩ := escape_head c
      simp [hescape, hd] at h
    | cons c' cs' =>
      rw [List.flatMap_cons, List.flatMap_cons, List.append_assoc, List.append_assoc] at h
      have hfirst := congrArg unescape h
      rw [unescape_escape, unescape_escape, Option.some.injEq, Prod.mk.injEq] at hfirst
      obtain ⟨rfl, hothers⟩ := hfirst
      obtain ⟨rfl, hrest⟩ := ih hothers
      exact ⟨rfl, hrest⟩

theorem writeString_cancel {s s' : String} (h : writeString s ++ rest = writeString s' ++ rest') :
    s = s' ∧ rest = rest' := by
  simp only [writeString, List.cons_append, List.append_assoc, List.nil_append, List.cons.injEq,
    true_and] at h
  obtain ⟨hchars, hrest⟩ := escaped_cancel h
  exact ⟨String.toList_inj.mp hchars, hrest⟩

/-! ## Numbers -/

def isNumeralChar (c : Char) : Bool := c.isDigit || c == '-' || c == '.'

/-- What can be told apart from the text behind it. -/
def IsNumeral (text : List Char) : Prop := text ≠ [] ∧ ∀ c ∈ text, isNumeralChar c = true

/-- A number that comes before the text ends there. -/
def EndsNumeral (rest : List Char) : Prop := Terminal.startsWith isNumeralChar rest = false

theorem numeral_cancel {text text' : List Char} (htext : IsNumeral text) (htext' : IsNumeral text')
    (hrest : EndsNumeral rest) (hrest' : EndsNumeral rest')
    (h : text ++ rest = text' ++ rest') : text = text' ∧ rest = rest' := by
  obtain ⟨htake, hdrop⟩ := takeWhile_run htext.2 hrest
  obtain ⟨htake', hdrop'⟩ := takeWhile_run htext'.2 hrest'
  rw [h, htake'] at htake
  rw [h, hdrop'] at hdrop
  exact ⟨htake.symm, hdrop.symm⟩

mutual

/-- The numbers in the value are numerals. -/
def IsNumeric : Json → Prop
  | number text => IsNumeral text
  | array es => AllNumeric es
  | object fs => FieldsNumeric fs
  | null | bool _ | string _ => True

def AllNumeric : List Json → Prop
  | [] => True
  | v :: vs => v.IsNumeric ∧ AllNumeric vs

def FieldsNumeric : List (String × Json) → Prop
  | [] => True
  | (_, v) :: fs => v.IsNumeric ∧ FieldsNumeric fs

end

/-! ## Values -/

inductive Form where
  | null
  | bool
  | number
  | string
  | array
  | object
deriving DecidableEq, Repr

def form : Json → Form
  | null => .null
  | bool _ => .bool
  | number _ => .number
  | string _ => .string
  | array _ => .array
  | object _ => .object

/-- The form of the values that are written with this character first. -/
def formOf? (c : Char) : Option Form :=
  if isNumeralChar c then some .number
  else
    [('n', Form.null), ('t', .bool), ('f', .bool), ('"', .string), ('[', .array),
      ('\x7b', .object)].lookup c

theorem write_head {j : Json} (hj : j.IsNumeric) :
    ∃ c cs, j.write = c :: cs ∧ formOf? c = some j.form := by
  match j, hj with
  | null, _ => exact ⟨'n', _, rfl, rfl⟩
  | bool true, _ => exact ⟨'t', _, rfl, rfl⟩
  | bool false, _ => exact ⟨'f', _, rfl, rfl⟩
  | number (c :: cs), hj => exact ⟨c, cs, rfl, if_pos (hj.2 c (List.mem_cons_self ..))⟩
  | number [], hj => exact absurd rfl hj.1
  | string s, _ => exact ⟨'"', _, rfl, rfl⟩
  | array [], _ => exact ⟨'[', _, rfl, rfl⟩
  | array (_ :: _), _ => exact ⟨'[', _, rfl, rfl⟩
  | object [], _ => exact ⟨'\x7b', _, rfl, rfl⟩
  | object (_ :: _), _ => exact ⟨'\x7b', _, rfl, rfl⟩

theorem form_eq {j j' : Json} (hj : j.IsNumeric) (hj' : j'.IsNumeric)
    (h : j.write ++ rest = j'.write ++ rest') : j.form = j'.form := by
  obtain ⟨c, cs, hwrite, hform⟩ := write_head hj
  obtain ⟨c', cs', hwrite', hform'⟩ := write_head hj'
  rw [hwrite, hwrite'] at h
  obtain rfl : c = c' := (List.cons.inj h).1
  exact Option.some.inj (hform.symm.trans hform')

/-- No value is written with a closing bracket first. -/
theorem write_ne_close {j : Json} (hj : j.IsNumeric) : j.write ++ rest ≠ ']' :: rest' := by
  obtain ⟨c, cs, hwrite, hform⟩ := write_head hj
  rw [hwrite]
  intro h
  obtain rfl : c = ']' := (List.cons.inj h).1
  cases hform

theorem endsNumeral_elements (vs : List Json) (rest : List Char) :
    EndsNumeral (writeElements vs ++ ']' :: rest) := by
  cases vs <;> rfl

theorem endsNumeral_fields (fs : List (String × Json)) (rest : List Char) :
    EndsNumeral (writeFields fs ++ '\x7d' :: rest) := by
  match fs with
  | [] => rfl
  | (_, _) :: _ => rfl

theorem write_array (v : Json) (vs : List Json) (rest : List Char) :
    (array (v :: vs)).write ++ rest = '[' :: (v.write ++ (writeElements vs ++ ']' :: rest)) := by
  simp [write]

theorem write_object (k : String) (v : Json) (fs : List (String × Json)) (rest : List Char) :
    (object ((k, v) :: fs)).write ++ rest =
      '\x7b' :: (writeString k ++ ':' :: (v.write ++ (writeFields fs ++ '\x7d' :: rest))) := by
  simp [write]

mutual

/-- By induction on the first value: the texts behind the two values grow with what is written
after their parts. -/
theorem write_cancel : ∀ {j j' : Json} {rest rest' : List Char}, j.IsNumeric → j'.IsNumeric →
    EndsNumeral rest → EndsNumeral rest' → j.write ++ rest = j'.write ++ rest' →
      j = j' ∧ rest = rest'
  | null, j', _, _, hj, hj', _, _, h => by
    have hform := form_eq hj hj' h
    cases j' with
    | null => exact ⟨rfl, List.append_cancel_left h⟩
    | _ => cases hform
  | bool b, j', _, _, hj, hj', _, _, h => by
    have hform := form_eq hj hj' h
    match b, j', h with
    | true, bool true, h => exact ⟨rfl, List.append_cancel_left h⟩
    | false, bool false, h => exact ⟨rfl, List.append_cancel_left h⟩
    | true, bool false, h => simp [write] at h
    | false, bool true, h => simp [write] at h
  | number text, j', _, _, hj, hj', hrest, hrest', h => by
    have hform := form_eq hj hj' h
    cases j' with
    | number text' =>
      obtain ⟨rfl, heq⟩ := numeral_cancel hj hj' hrest hrest' h
      exact ⟨rfl, heq⟩
    | _ => cases hform
  | string s, j', _, _, hj, hj', _, _, h => by
    have hform := form_eq hj hj' h
    cases j' with
    | string s' =>
      obtain ⟨rfl, heq⟩ := writeString_cancel h
      exact ⟨rfl, heq⟩
    | _ => cases hform
  | array es, j', _, _, hj, hj', _, _, h => by
    have hform := form_eq hj hj' h
    match es, j', hj, hj', h with
    | [], array [], _, _, h => exact ⟨rfl, List.append_cancel_left h⟩
    | [], array (v' :: vs'), _, hj', h =>
      rw [write_array] at h
      exact absurd (List.cons.inj h).2.symm (write_ne_close hj'.1)
    | v :: vs, array [], hj, _, h =>
      rw [write_array] at h
      exact absurd (List.cons.inj h).2 (write_ne_close hj.1)
    | v :: vs, array (v' :: vs'), hj, hj', h =>
      rw [write_array, write_array] at h
      obtain ⟨rfl, hothers⟩ := write_cancel hj.1 hj'.1 (endsNumeral_elements vs _)
        (endsNumeral_elements vs' _) (List.cons.inj h).2
      obtain ⟨rfl, heq⟩ := elements_cancel hj.2 hj'.2 hothers
      exact ⟨rfl, heq⟩
  | object fs, j', _, _, hj, hj', _, _, h => by
    have hform := form_eq hj hj' h
    match fs, j', hj, hj', h with
    | [], object [], _, _, h => exact ⟨rfl, List.append_cancel_left h⟩
    | [], object ((_, _) :: _), _, _, h => simp [write, writeString] at h
    | (_, _) :: _, object [], _, _, h => simp [write, writeString] at h
    | (k, v) :: fs, object ((k', v') :: fs'), hj, hj', h =>
      rw [write_object, write_object] at h
      obtain ⟨rfl, hvalue⟩ := writeString_cancel (List.cons.inj h).2
      obtain ⟨rfl, hothers⟩ := write_cancel hj.1 hj'.1 (endsNumeral_fields fs _)
        (endsNumeral_fields fs' _) (List.cons.inj hvalue).2
      obtain ⟨rfl, heq⟩ := fields_cancel hj.2 hj'.2 hothers
      exact ⟨rfl, heq⟩

theorem elements_cancel : ∀ {vs vs' : List Json} {rest rest' : List Char},
    AllNumeric vs → AllNumeric vs' →
      writeElements vs ++ ']' :: rest = writeElements vs' ++ ']' :: rest' → vs = vs' ∧ rest = rest'
  | [], [], _, _, _, _, h => ⟨rfl, (List.cons.inj h).2⟩
  | [], _ :: _, _, _, _, _, h => by simp [writeElements] at h
  | _ :: _, [], _, _, _, _, h => by simp [writeElements] at h
  | v :: vs, v' :: vs', _, _, hvs, hvs', h => by
    simp only [writeElements, List.cons_append, List.append_assoc] at h
    obtain ⟨rfl, hothers⟩ := write_cancel hvs.1 hvs'.1 (endsNumeral_elements vs _)
      (endsNumeral_elements vs' _) (List.cons.inj h).2
    obtain ⟨rfl, heq⟩ := elements_cancel hvs.2 hvs'.2 hothers
    exact ⟨rfl, heq⟩

theorem fields_cancel : ∀ {fs fs' : List (String × Json)} {rest rest' : List Char},
    FieldsNumeric fs → FieldsNumeric fs' →
      writeFields fs ++ '\x7d' :: rest = writeFields fs' ++ '\x7d' :: rest' →
        fs = fs' ∧ rest = rest'
  | [], [], _, _, _, _, h => ⟨rfl, (List.cons.inj h).2⟩
  | [], (_, _) :: _, _, _, _, _, h => by simp [writeFields] at h
  | (_, _) :: _, [], _, _, _, _, h => by simp [writeFields] at h
  | (k, v) :: fs, (k', v') :: fs', _, _, hfs, hfs', h => by
    simp only [writeFields, List.cons_append, List.append_assoc] at h
    obtain ⟨rfl, hvalue⟩ := writeString_cancel (List.cons.inj h).2
    obtain ⟨rfl, hothers⟩ := write_cancel hfs.1 hfs'.1 (endsNumeral_fields fs _)
      (endsNumeral_fields fs' _) (List.cons.inj hvalue).2
    obtain ⟨rfl, heq⟩ := fields_cancel hfs.2 hfs'.2 hothers
    exact ⟨rfl, heq⟩

end

theorem eq_of_compact_eq {j j' : Json} (hj : j.IsNumeric) (hj' : j'.IsNumeric)
    (h : j.compact = j'.compact) : j = j' := by
  have hwrite : j.write ++ [] = j'.write ++ [] := by
    simpa using String.ofList_injective h
  have hend : EndsNumeral [] := rfl
  exact (write_cancel hj hj' hend hend hwrite).1

/-- Objects that are the same agree field by field. -/
theorem object_inj {k k' : String} {v v' : Json} {fs fs' : List (String × Json)}
    (h : object ((k, v) :: fs) = object ((k', v') :: fs')) : v = v' ∧ object fs = object fs' := by
  obtain ⟨hfield, rfl⟩ := List.cons.inj (Json.object.inj h)
  exact ⟨(Prod.mk.inj hfield).2, rfl⟩

end FilterQuery.Json
