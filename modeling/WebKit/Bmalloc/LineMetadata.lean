import WebKit.Bmalloc.Sizes

/-!
# Where the objects of a line start

`lineMetadata` is the table `Heap::initializeLineMetadata` computes for one object size:
for each line of a page, the offset of the first object that starts in it and the number
of objects that do. An object may straddle into the next line, except from the last one.

Objects of a page sit at the multiples of their size, so the table is described by
`firstObject`: the number of the first object that does not start before a line
(`lineMetadata_startOffset`, `lineMetadata_objectCount`).
-/

namespace WebKit.Bmalloc

structure LineMetadata where
  startOffset : Nat
  objectCount : Nat
  deriving DecidableEq, Repr

/-- Quotient rounded up, and remainder. -/
def divideRoundingUp (numerator denominator : Nat) : Nat × Nat :=
  (if numerator % denominator ≠ 0 then numerator / denominator + 1 else numerator / denominator,
    numerator % denominator)

/-- The table from a line on: `linesBeforeLast` further lines and the last one, the first
of them starting its objects at `startOffset`. -/
def lineMetadataFrom (lineSize size : Nat) : Nat → Nat → List LineMetadata
  | 0, startOffset => [⟨startOffset, (lineSize - startOffset) / size⟩]
  | linesBeforeLast + 1, startOffset =>
    let (objectCount, remainder) := divideRoundingUp (lineSize - startOffset) size
    ⟨startOffset, objectCount⟩ :: lineMetadataFrom lineSize size linesBeforeLast
        (if remainder ≠ 0 then size - remainder else 0)

namespace LineTraits

variable (t : LineTraits)

/-- `Heap::initializeLineMetadata` for one size class. -/
def lineMetadata (sizeClass : Nat) : List LineMetadata :=
  lineMetadataFrom t.lineSize (objectSize sizeClass) (t.lineCount - 1) 0

/-- The lines that `refillSmallBumpRangeCache` considers. Due to overlap from the previous
line, the last line in the page may not be able to fit any objects. -/
def usableLines (sizeClass : Nat) : Nat :=
  if ((t.lineMetadata sizeClass)[t.lineCount - 1]?.map (·.objectCount)) = some 0 then
    t.lineCount - 1
  else t.lineCount

/-- The number of objects of a page that start before a line; behind the last line only
the objects that fit into the page count. -/
def firstObject (sizeClass line : Nat) : Nat :=
  if line < t.lineCount then (line * t.lineSize + (objectSize sizeClass - 1)) / objectSize sizeClass
  else t.pageSize / objectSize sizeClass

end LineTraits

theorem length_lineMetadataFrom (lineSize size n startOffset : Nat) :
    (lineMetadataFrom lineSize size n startOffset).length = n + 1 := by
  induction n generalizing startOffset with
  | zero => rfl
  | succ n ih => simp [lineMetadataFrom, ih]

theorem ceilDiv_spec {size : Nat} (hsize : 0 < size) (x : Nat) :
    x ≤ (x + (size - 1)) / size * size ∧ (x + (size - 1)) / size * size < x + size := by
  have hdiv := Nat.div_add_mod (x + (size - 1)) size
  have hmod := Nat.mod_lt (x + (size - 1)) hsize
  rw [mul_comm] at hdiv
  omega

theorem ceilDiv_unique {size x k : Nat} (hsize : 0 < size) (hle : x ≤ k * size)
    (hlt : k * size < x + size) : (x + (size - 1)) / size = k := by
  obtain ⟨h1, h2⟩ := ceilDiv_spec hsize x
  set q := (x + (size - 1)) / size
  have hqk : q * size < (k + 1) * size := by rw [add_mul]; omega
  have hkq : k * size < (q + 1) * size := by rw [add_mul]; omega
  have := Nat.lt_of_mul_lt_mul_right hqk
  have := Nat.lt_of_mul_lt_mul_right hkq
  omega

/-- The objects that start in `lineSize` bytes, the first at `startOffset`, end where the
next line starts its own. -/
theorem divideRoundingUp_next {lineSize size startOffset : Nat} (hsize : 0 < size)
    (hstart : startOffset ≤ lineSize) :
    startOffset + (divideRoundingUp (lineSize - startOffset) size).1 * size =
      lineSize + (if (lineSize - startOffset) % size ≠ 0 then
        size - (lineSize - startOffset) % size else 0) := by
  have hdiv := Nat.div_add_mod (lineSize - startOffset) size
  have hmod := Nat.mod_lt (lineSize - startOffset) hsize
  rw [mul_comm] at hdiv
  simp only [divideRoundingUp]
  split
  · rw [add_mul]
    omega
  · omega

/-- Every entry of the table from a line on, when `first` objects start before that line:
they end at `startOffset` in it. -/
theorem lineMetadataFrom_getElem {lineSize size : Nat} (hsize : 0 < size) (hle : size ≤ lineSize) :
    ∀ (n startOffset base first i : Nat), startOffset < size →
      first * size = base + startOffset → i ≤ n →
      ∃ md, (lineMetadataFrom lineSize size n startOffset)[i]? = some md ∧
        base + i * lineSize + md.startOffset = (base + i * lineSize + (size - 1)) / size * size ∧
        md.objectCount + (base + i * lineSize + (size - 1)) / size =
          if i < n then (base + (i + 1) * lineSize + (size - 1)) / size
          else (base + (i + 1) * lineSize) / size
  | 0, startOffset, base, first, i, hstart, hfirst, hi => by
    obtain rfl : i = 0 := by omega
    have hceil : (base + (size - 1)) / size = first := ceilDiv_unique hsize (by omega) (by omega)
    refine ⟨_, rfl, ?_, ?_⟩
    · simp only [zero_mul, add_zero, hceil, hfirst]
    · simp only [zero_mul, add_zero, hceil, lt_irrefl, if_false]
      have : base + (0 + 1) * lineSize = lineSize - startOffset + size * first := by
        rw [mul_comm size first]
        omega
      rw [this, Nat.add_mul_div_left _ _ hsize]
  | n + 1, startOffset, base, first, 0, hstart, hfirst, _ => by
    have hceil : (base + (size - 1)) / size = first := ceilDiv_unique hsize (by omega) (by omega)
    refine ⟨_, rfl, ?_, ?_⟩
    · simp only [zero_mul, add_zero, hceil, hfirst]
    · simp only [zero_mul, add_zero, hceil, Nat.zero_lt_succ, if_true]
      have hnext := divideRoundingUp_next hsize (le_of_lt (hstart.trans_le hle))
      set count := (divideRoundingUp (lineSize - startOffset) size).1 with hset
      change count + first = _
      have hmul : (count + first) * size = count * size + first * size := add_mul _ _ _
      refine (ceilDiv_unique hsize ?_ ?_).symm <;> rw [hmul] <;> split at hnext <;> omega
  | n + 1, startOffset, base, first, i + 1, hstart, hfirst, hi => by
    have hnext := divideRoundingUp_next hsize (le_of_lt (hstart.trans_le hle))
    obtain ⟨md, hmd, hoff, hcount⟩ := lineMetadataFrom_getElem hsize hle n
      (if (lineSize - startOffset) % size ≠ 0 then size - (lineSize - startOffset) % size else 0)
      (base + lineSize) (first + (divideRoundingUp (lineSize - startOffset) size).1) i
      (by split <;> omega) (by rw [add_mul]; omega) (by omega)
    have hbase : ∀ k, base + (k + 1) * lineSize = base + lineSize + k * lineSize := by
      intro k
      rw [add_mul]
      omega
    refine ⟨md, by simpa [lineMetadataFrom, divideRoundingUp] using hmd, ?_, ?_⟩
    · rw [hbase]
      exact hoff
    · rw [hbase i, hbase (i + 1), hcount]
      simp only [Nat.add_lt_add_iff_right]

namespace LineTraits

variable {t : LineTraits} {c : Nat}

theorem firstObject_zero (h : t.Serves c) : t.firstObject c 0 = 0 := by
  have := t.two_le_lineCount
  have := h.pos
  rw [firstObject, if_pos (by omega), zero_mul, zero_add]
  exact Nat.div_eq_of_lt (by omega)

variable {line : Nat}

theorem lineMetadata_spec (h : t.Serves c) (hline : line < t.lineCount) :
    ∃ md, (t.lineMetadata c)[line]? = some md ∧
      line * t.lineSize + md.startOffset = t.firstObject c line * objectSize c ∧
      md.objectCount + t.firstObject c line = t.firstObject c (line + 1) := by
  obtain ⟨md, hmd, hoff, hcount⟩ := lineMetadataFrom_getElem h.pos h.le_lineSize
    (t.lineCount - 1) 0 0 0 line h.pos (by simp) (by omega)
  simp only [zero_add] at hoff hcount
  refine ⟨md, hmd, ?_, ?_⟩
  · rw [hoff, firstObject, if_pos hline]
  · rw [firstObject, if_pos hline, hcount, firstObject]
    by_cases hlast : line + 1 < t.lineCount
    · rw [if_pos hlast, if_pos (by omega)]
    · have hlines : t.lineCount = line + 1 := by omega
      rw [if_neg (by omega), if_neg hlast, pageSize, hlines, mul_comm t.lineSize]

/-- The object numbered `i` fits into a page of this kind. -/
def Fits (t : LineTraits) (c i : Nat) : Prop := (i + 1) * objectSize c ≤ t.pageSize

theorem firstObject_le_iff (h : t.Serves c) {line i : Nat} (hline : line < t.lineCount) :
    t.firstObject c line ≤ i ↔ line * t.lineSize ≤ i * objectSize c := by
  obtain ⟨hle, hlt⟩ := ceilDiv_spec h.pos (line * t.lineSize)
  rw [firstObject, if_pos hline]
  set q := (line * t.lineSize + (objectSize c - 1)) / objectSize c
  constructor
  · intro hq
    exact hle.trans (Nat.mul_le_mul_right _ hq)
  · intro hx
    have hmul : q * objectSize c < (i + 1) * objectSize c := by
      rw [add_mul i 1]
      omega
    exact Nat.lt_succ_iff.mp (Nat.lt_of_mul_lt_mul_right hmul)

theorem lt_firstObject_lineCount (h : t.Serves c) {i : Nat} :
    i < t.firstObject c t.lineCount ↔ t.Fits c i := by
  rw [firstObject, if_neg (lt_irrefl _), Fits, ← Nat.succ_le_iff, Nat.le_div_iff_mul_le h.pos]

/-- The objects that start in a line are numbered from its first object to that of the
next line. -/
theorem startsIn_iff (h : t.Serves c) {line i : Nat} (hline : line < t.lineCount) :
    t.firstObject c line ≤ i ∧ i < t.firstObject c (line + 1) ↔
      i * objectSize c / t.lineSize = line ∧ t.Fits c i := by
  have hpos := h.pos
  have hle := h.le_lineSize
  have hmul : (line + 1) * t.lineSize = line * t.lineSize + t.lineSize := Nat.succ_mul _ _
  have hsucc : (i + 1) * objectSize c = i * objectSize c + objectSize c := Nat.succ_mul _ _
  rw [firstObject_le_iff h hline, Nat.div_eq_iff h.lineSize_pos]
  by_cases hlast : line + 1 < t.lineCount
  · have hpage : (line + 2) * t.lineSize ≤ t.pageSize := by
      rw [pageSize, mul_comm t.lineSize]
      exact Nat.mul_le_mul_right _ hlast
    have hmul' : (line + 2) * t.lineSize = (line + 1) * t.lineSize + t.lineSize := Nat.succ_mul _ _
    rw [← not_le, firstObject_le_iff h hlast, Fits]
    omega
  · have hlines : line + 1 = t.lineCount := by omega
    have hpage : t.pageSize = (line + 1) * t.lineSize := by
      rw [pageSize, hlines, mul_comm]
    rw [hlines, lt_firstObject_lineCount h, Fits]
    omega

theorem objectCount_pos (h : t.Serves c) (hline : line + 1 < t.lineCount) :
    t.firstObject c line < t.firstObject c (line + 1) := by
  have hle := h.le_lineSize
  obtain ⟨hlow, hhigh⟩ := ceilDiv_spec h.pos (line * t.lineSize)
  have hmul : (line + 1) * t.lineSize = line * t.lineSize + t.lineSize := Nat.succ_mul _ _
  rw [← not_le, firstObject_le_iff h hline, firstObject, if_pos (by omega)]
  omega

theorem objectCount_lt (h : t.Serves c) (hline : line < t.lineCount) :
    t.firstObject c (line + 1) - t.firstObject c line < 256 := by
  by_contra hge
  have hlow := (firstObject_le_iff h hline).mp le_rfl
  obtain ⟨hdiv, _⟩ := (startsIn_iff h hline (i := t.firstObject c line + 255)).mp (by omega)
  rw [Nat.div_eq_iff h.lineSize_pos, add_mul] at hdiv
  have hcount : 255 * objectSize c ≤ t.lineSize := by omega
  have hmin : 255 ≤ t.lineSize / t.minimumObjectSize := by
    rw [Nat.le_div_iff_mul_le t.minimum_pos]
    exact (Nat.mul_le_mul_left _ h.1).trans hcount
  have := t.objects_lt
  omega

theorem usableLines_spec (h : t.Serves c) : t.usableLines c = t.lineCount ∧
        t.firstObject c (t.lineCount - 1) < t.firstObject c t.lineCount ∨
      t.usableLines c = t.lineCount - 1 ∧
        t.firstObject c (t.lineCount - 1) = t.firstObject c t.lineCount := by
  have := t.two_le_lineCount
  obtain ⟨md, hmd, _, hcount⟩ := lineMetadata_spec h (show t.lineCount - 1 < t.lineCount by omega)
  rw [show t.lineCount - 1 + 1 = t.lineCount by omega] at hcount
  simp only [usableLines, hmd, Option.map_some, Option.some.injEq]
  by_cases hzero : md.objectCount = 0
  · rw [if_pos hzero]
    exact .inr ⟨rfl, by omega⟩
  · rw [if_neg hzero]
    exact .inl ⟨rfl, by omega⟩

theorem usableLines_le_lineCount (t : LineTraits) (c : Nat) : t.usableLines c ≤ t.lineCount := by
  rw [usableLines]
  split <;> omega

theorem usableLines_pos (h : t.Serves c) : 0 < t.usableLines c := by
  have := t.two_le_lineCount
  rcases usableLines_spec h with ⟨hu, _⟩ | ⟨hu, _⟩ <;> omega

theorem firstObject_lt_of_usable (h : t.Serves c) (hline : line < t.usableLines c) :
    t.firstObject c line < t.firstObject c (line + 1) := by
  by_cases hlast : line + 1 < t.lineCount
  · exact objectCount_pos h hlast
  · rcases usableLines_spec h with ⟨_, hlt⟩ | ⟨hu, _⟩
    · rwa [show t.lineCount - 1 = line by omega, show t.lineCount = line + 1 by omega] at hlt
    · omega

theorem lt_usableLines (h : t.Serves c) {line i : Nat} (hline : line < t.lineCount)
    (hlow : t.firstObject c line ≤ i) (hhigh : i < t.firstObject c (line + 1)) :
    line < t.usableLines c := by
  rcases usableLines_spec h with ⟨hu, _⟩ | ⟨hu, heq⟩
  · omega
  · by_contra hge
    rw [show t.lineCount - 1 = line by omega, show t.lineCount = line + 1 by omega] at heq
    omega

end LineTraits

end WebKit.Bmalloc
