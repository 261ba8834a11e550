import FilterQuery.Text.Bytes
import Mathlib.Data.List.Infix
import Mathlib.Data.Nat.Init

/-!
Offsets between characters. An offset is a boundary of a text if it is the size of a beginning of
the text. Cutting at a boundary gives the two parts back, and the offset tells which they are.
-/
namespace FilterQuery.Text

/-- A character starts at the offset, or the text ends there. -/
def IsBoundary (text : List Char) (offset : Nat) : Prop :=
  ∃ before after, text = before ++ after ∧ offset = byteSize before

variable {before after before' after' text : List Char} {offset : Nat}

theorem byteSize_eq_zero {cs : List Char} : byteSize cs = 0 ↔ cs = [] := by
  cases cs with
  | nil => simp [byteSize]
  | cons c cs => simp [byteSize, c.utf8Size_pos.ne']

theorem dropBytes?_append (passed ahead : List Char) :
    dropBytes? (byteSize passed) (passed ++ ahead) = some ahead := by
  induction passed with
  | nil => simp [byteSize, dropBytes?]
  | cons c cs ih =>
    obtain ⟨n, hn⟩ := Nat.exists_eq_add_one_of_ne_zero c.utf8Size_pos.ne'
    have hsize : byteSize (c :: cs) = n + byteSize cs + 1 := by
      rw [byteSize, hn]
      omega
    have hleft : n + byteSize cs + 1 - (n + 1) = byteSize cs := by omega
    rw [hsize, List.cons_append, dropBytes?, hn, if_pos (by omega), hleft, ih]

theorem takeBytes_append (before after : List Char) :
    takeBytes (byteSize before) (before ++ after) = before :=
  List.append_cancel_right (takeBytes_append_of_dropBytes? (dropBytes?_append before after))

/-- Beyond the end there is nothing to cut off. -/
theorem takeBytes_of_le (h : byteSize text ≤ offset) : takeBytes offset text = text := by
  induction text generalizing offset with
  | nil => rfl
  | cons c cs ih =>
    rw [byteSize] at h
    rw [takeBytes, if_pos (by omega), ih (by omega)]

theorem IsBoundary.le (h : IsBoundary text offset) : offset ≤ byteSize text := by
  obtain ⟨before, after, rfl, rfl⟩ := h
  rw [byteSize_append]
  omega

/-- Of two beginnings of one text the smaller one is a proper beginning of the other. -/
theorem exists_between (h : before ++ after = before' ++ after')
    (hlt : byteSize before < byteSize before') :
    ∃ between, between ≠ [] ∧ before' = before ++ between := by
  have hpre : before' <+: before ++ after := ⟨after', h.symm⟩
  rcases List.prefix_or_prefix_of_prefix hpre (List.prefix_append _ _) with ⟨more, rfl⟩ | ⟨more, rfl⟩
  · rw [byteSize_append] at hlt
    omega
  · refine ⟨more, ?_, rfl⟩
    rintro rfl
    simp at hlt

/-- An offset has one beginning of the text before it. -/
theorem eq_of_byteSize_eq (h : before ++ after = before' ++ after')
    (heq : byteSize before = byteSize before') : before = before' := by
  have htake := takeBytes_append before after
  rw [heq, h, takeBytes_append] at htake
  exact htake.symm

end FilterQuery.Text
