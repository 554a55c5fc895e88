import Mathlib.Tactic.Linarith

/-!
# Sizes of the bmalloc heap

The constants of `Sizes.h`, and `LineTraits`: the sizes a small or a medium page is cut
into. The page size is a parameter of the port (16 KiB on iOS, 4 KiB elsewhere), so the
line count is a field. The fields that are propositions are the static assertions of
`Line.h` and `Page.h` and the bounds every port meets.
-/

namespace WebKit.Bmalloc

def alignment : Nat := 8
def smallMax : Nat := 256
def smallLineSize : Nat := 256
def mediumMax : Nat := 1024
def mediumLineSize : Nat := 1024
def largeAlignment : Nat := 64
def largeMin : Nat := mediumMax
def largeChunkSize : Nat := 16 * 1024 * 1024
def largeMax : Nat := largeChunkSize * 99 / 100
def freeListSearchDepth : Nat := 16
def freeListGrowFactor : Nat := 2
def vmPageSize : Nat := 4 * 1024
def vmPageSizeIOS : Nat := 16 * 1024

/-- The index of the smallest object size that holds `size` bytes. -/
def sizeClass (size : Nat) : Nat := ((size - 1) / alignment) &&& (mediumMax / alignment - 1)

def objectSize (sizeClass : Nat) : Nat := (sizeClass + 1) * alignment

/-- How a page of one kind is cut into lines, and the object sizes it serves. -/
structure LineTraits where
  lineSize : Nat
  lineCount : Nat
  minimumObjectSize : Nat
  maximumObjectSize : Nat
  minimum_pos : 0 < minimumObjectSize
  maximum_le : maximumObjectSize ≤ lineSize
  maximum_le_mediumMax : maximumObjectSize ≤ mediumMax
  two_le_lineCount : 2 ≤ lineCount
  lineCount_lt : lineCount < 255
  objects_lt : lineSize / minimumObjectSize < 255

def smallTraits : LineTraits where
  lineSize := smallLineSize
  lineCount := vmPageSize / smallLineSize
  minimumObjectSize := alignment
  maximumObjectSize := smallMax
  minimum_pos := by decide
  maximum_le := by decide
  maximum_le_mediumMax := by decide
  two_le_lineCount := by decide
  lineCount_lt := by decide
  objects_lt := by decide

def mediumTraits : LineTraits where
  lineSize := mediumLineSize
  lineCount := vmPageSize / mediumLineSize
  minimumObjectSize := smallMax + alignment
  maximumObjectSize := mediumMax
  minimum_pos := by decide
  maximum_le := by decide
  maximum_le_mediumMax := by decide
  two_le_lineCount := by decide
  lineCount_lt := by decide
  objects_lt := by decide

def smallTraitsIOS : LineTraits where
  __ := smallTraits
  lineCount := vmPageSizeIOS / smallLineSize
  two_le_lineCount := by decide
  lineCount_lt := by decide

def mediumTraitsIOS : LineTraits where
  __ := mediumTraits
  lineCount := vmPageSizeIOS / mediumLineSize
  two_le_lineCount := by decide
  lineCount_lt := by decide

namespace LineTraits

variable (t : LineTraits)

/-- The bytes of one page. -/
def pageSize : Nat := t.lineSize * t.lineCount

/-- The size classes whose objects live in pages of this kind. -/
def Serves (sizeClass : Nat) : Prop :=
  t.minimumObjectSize ≤ objectSize sizeClass ∧ objectSize sizeClass ≤ t.maximumObjectSize

instance : DecidablePred t.Serves := fun _ => inferInstanceAs (Decidable (_ ∧ _))

variable {t}

section

variable {c : Nat} (h : t.Serves c)
include h

theorem Serves.pos : 0 < objectSize c := t.minimum_pos.trans_le h.1

theorem Serves.le_lineSize : objectSize c ≤ t.lineSize :=
  h.2.trans t.maximum_le

theorem Serves.lt_sizeClasses : c < mediumMax / alignment := by
  have := h.2.trans t.maximum_le_mediumMax
  simp only [objectSize, mediumMax, alignment] at *
  omega

theorem Serves.lineSize_pos : 0 < t.lineSize :=
  h.pos.trans_le h.le_lineSize

end

end LineTraits

end WebKit.Bmalloc
