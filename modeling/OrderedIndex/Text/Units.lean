/-!
# Text in 16-bit units

Text is measured and ordered by 16-bit units: a character beyond the first 65536 counts as two of
them, and so sorts before the last characters of the first 65536.
-/

namespace OrderedIndex

namespace Text

/-- The 16-bit units of a character. -/
def unitsOf (c : Char) : List Nat :=
  if c.toNat < 0x10000 then [c.toNat]
  else [0xD800 + (c.toNat - 0x10000) / 0x400, 0xDC00 + (c.toNat - 0x10000) % 0x400]

def units (s : String) : List Nat := s.toList.flatMap unitsOf

def size (s : String) : Nat := (units s).length

/-- Dictionary order by units. -/
def compare (s t : String) : Ordering := Ord.compare (units s) (units t)

/-! ## Texts from their units -/

theorem unitsOf_ne_nil (c : Char) : unitsOf c ≠ [] := by
  unfold unitsOf
  split <;> exact List.cons_ne_nil _ _

/-- A first unit says whether a second one belongs to the same character. -/
theorem unitsOf_append_inj {c d : Char} {us vs : List Nat} (h : unitsOf c ++ us = unitsOf d ++ vs) :
    c = d ∧ us = vs := by
  have valid (c : Char) : c.toNat < 0xD800 ∨ 0xDFFF < c.toNat ∧ c.toNat < 0x110000 := c.valid
  have hc := valid c
  have hd := valid d
  unfold unitsOf at h
  split at h <;> split at h <;>
    simp only [List.cons_append, List.nil_append, List.cons.injEq] at h
  · exact ⟨Char.toNat_inj.mp h.1, h.2⟩
  · omega
  · omega
  · exact ⟨Char.toNat_inj.mp (by omega), h.2.2⟩

theorem flatMap_unitsOf_injective {cs ds : List Char}
    (h : cs.flatMap unitsOf = ds.flatMap unitsOf) : cs = ds := by
  induction cs generalizing ds with
  | nil =>
    cases ds with
    | nil => rfl
    | cons d ds => exact absurd (List.append_eq_nil_iff.mp h.symm).1 (unitsOf_ne_nil d)
  | cons c cs ih =>
    cases ds with
    | nil => exact absurd (List.append_eq_nil_iff.mp h).1 (unitsOf_ne_nil c)
    | cons d ds =>
      obtain ⟨rfl, hrest⟩ := unitsOf_append_inj h
      rw [ih hrest]

/-- Texts with the same units are the same. -/
theorem units_injective {s t : String} (h : units s = units t) : s = t :=
  String.toList_injective (flatMap_unitsOf_injective h)

end Text

end OrderedIndex
