/-!
Byte offsets into a text. A text is a list of characters and an offset counts the bytes of its
UTF-8 form, so an offset is meaningful only where a character starts or the text ends.
-/
namespace FilterQuery.Text

def byteSize : List Char → Nat
  | [] => 0
  | c :: cs => c.utf8Size + byteSize cs

/-- The whole characters among the first `n` bytes. -/
def takeBytes : Nat → List Char → List Char
  | _, [] => []
  | n, c :: cs => if c.utf8Size ≤ n then c :: takeBytes (n - c.utf8Size) cs else []

/-- What follows the first `n` bytes, if a character starts there or the text ends there. -/
def dropBytes? : Nat → List Char → Option (List Char)
  | 0, cs => some cs
  | _ + 1, [] => none
  | n + 1, c :: cs => if c.utf8Size ≤ n + 1 then dropBytes? (n + 1 - c.utf8Size) cs else none

@[simp] theorem byteSize_append (as bs : List Char) :
    byteSize (as ++ bs) = byteSize as + byteSize bs := by
  induction as with
  | nil => simp [byteSize]
  | cons c cs ih => simp [byteSize, ih, Nat.add_assoc]

theorem takeBytes_append_of_dropBytes? {n : Nat} {cs rest : List Char}
    (h : dropBytes? n cs = some rest) : takeBytes n cs ++ rest = cs := by
  fun_induction dropBytes? n cs with
  | case1 cs =>
    have hnone : takeBytes 0 cs = [] := by
      cases cs with
      | nil => rfl
      | cons c cs =>
        have hpos := c.utf8Size_pos
        rw [takeBytes, if_neg (by omega)]
    simp_all
  | case2 n => simp at h
  | case3 n c cs hc ih => simp [takeBytes, hc, ih h]
  | case4 n c cs hc => simp at h

end FilterQuery.Text
