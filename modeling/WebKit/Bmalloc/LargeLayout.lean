import WebKit.Bmalloc.LargeObject
import WebKit.Tiling.Region

/-!
# The objects that the boundary tags describe

`Layout` is the abstract view of the large chunks: for each chunk the blocks that tile its
memory. `Describes` says that the tags of a chunk describe its blocks: each block has
equal begin and end tags and null tags strictly in between, and the chunk's edges are
allocated. `merge` and `split` each replace some neighbouring blocks by others of the same
total size (`merge_spec`, `split_spec`), which `Describes.replace` turns into the new
description.
-/

namespace WebKit.Bmalloc

open Tiling Function LargeChunk BoundaryTag

structure Block where
  size : Nat
  isFree : Bool
  owner : Owner
  deriving DecidableEq, Repr

/-- The tags of a block at an address, up to the mark. -/
def Block.tag (x : Block) (address : Nat) (isMarked isEnd : Bool) : BoundaryTag :=
  ⟨x.isFree, isEnd, x.owner, isMarked, compactBeginOf address, x.size⟩

/-- The tags describe a block at an address. -/
structure Tagged (tags : Tags) (address : Nat) (x : Block) : Prop where
  largeMin_le : largeMin ≤ x.size
  aligned : largeAlignment ∣ x.size
  ends : ∃ isMarked,
    tags (beginTag address) = x.tag address isMarked false ∧
    (endTag address x.size ≠ beginTag address →
      tags (endTag address x.size) = x.tag address isMarked true)
  between : ∀ n, beginTag address < n → n < endTag address x.size →
    tags n = .null

/-- The tags of a chunk describe its blocks. -/
structure Describes (tags : Tags) (chunk : Nat) (blocks : List Block) : Prop where
  total_eq : total Block.size blocks = LargeChunk.end chunk - LargeChunk.begin chunk
  tagged : ∀ a x, (a, x) ∈ located Block.size (LargeChunk.begin chunk) blocks → Tagged tags a x
  left : (tags (LargeChunk.beginTag (LargeChunk.begin chunk) - 1)).isFree = false
  right : (tags (LargeChunk.beginTag (LargeChunk.end chunk))).isFree = false

abbrev Layout := Nat → List Block

/-- The tag memory of the created chunks describes a layout; the rest is fresh. -/
structure Layout.Valid (layout : Layout) (tags : Tags) (chunks : List Nat) : Prop where
  describes : ∀ chunk ∈ chunks, Describes tags chunk (layout chunk)
  fresh : ∀ chunk ∉ chunks, ∀ n, chunk * boundaryTagCount ≤ n →
    n < (chunk + 1) * boundaryTagCount → tags n = .null

/-- The block at an address of some chunk. -/
def Layout.Has (layout : Layout) (chunks : List Nat) (address : Nat) (x : Block) : Prop :=
  ∃ chunk ∈ chunks, (address, x) ∈ located Block.size (begin chunk) (layout chunk)

variable {tags tags' : Tags} {chunk a b e s : Nat} {x y : Block} {layout : Layout} {chunks : List Nat}

namespace LargeChunk

theorem begin_eq (chunk : Nat) : LargeChunk.begin chunk = chunk * 16777216 + 65536 := rfl

theorem end_eq (chunk : Nat) : LargeChunk.end chunk = chunk * 16777216 + 16777216 := rfl

theorem beginTag_eq (a : Nat) : beginTag a = a / 1024 - 1 := rfl

section

variable (ha : 65536 ≤ a) (hs : largeMin ≤ s)
include ha hs

theorem endTag_succ : endTag a s + 1 = beginTag (a + s) := by
  simp only [endTag, beginTag, largeMin, mediumMax] at *
  omega

theorem endTag_eq : endTag a s = beginTag (a + s) - 1 := by
  have := endTag_succ ha hs
  omega

theorem beginTag_lt : beginTag a < beginTag (a + s) := by
  simp only [beginTag, largeMin, mediumMax] at *
  omega

end

theorem beginTag_mono {a b : Nat} (h : a ≤ b) : beginTag a ≤ beginTag b := by
  simp only [beginTag_eq]
  omega

theorem beginTag_ge (ha : 65536 ≤ a) : 63 ≤ beginTag a := by
  simp only [beginTag_eq]
  omega

end LargeChunk

open LargeChunk

theorem compactBeginOf_mod (a : Nat) : compactBeginOf a % 2 ^ 4 = compactBeginOf a := by
  simp only [compactBeginOf, largeMin, mediumMax, largeAlignment]
  omega

/-- The tags change only between two addresses. -/
def AgreeOff (tags tags' : Tags) (a e : Nat) : Prop :=
  ∀ n, n < beginTag a ∨ beginTag e ≤ n → tags' n = tags n

theorem AgreeOff.trans {tags'' : Tags} {a' e' : Nat} (h1 : AgreeOff tags tags' a' e')
    (h2 : AgreeOff tags' tags'' a e) (ha : a ≤ a') (he : e' ≤ e) : AgreeOff tags tags'' a e := by
  intro n hn
  have := beginTag_mono ha
  have := beginTag_mono he
  rw [h2 n hn, h1 n (by omega)]

theorem AgreeOff.refl (tags : Tags) (a e : Nat) : AgreeOff tags tags a e := fun _ _ => rfl

theorem Tagged.congr (h : Tagged tags a x) (ha : 65536 ≤ a)
    (heq : ∀ n, beginTag a ≤ n → n < beginTag (a + x.size) → tags' n = tags n) :
    Tagged tags' a x := by
  have hend := endTag_succ ha h.largeMin_le
  have hlt := beginTag_lt ha h.largeMin_le
  obtain ⟨isMarked, hbegin, hends⟩ := h.ends
  refine ⟨h.largeMin_le, h.aligned, ⟨isMarked, ?_, fun hne => ?_⟩, fun n hlow hhigh => ?_⟩
  · rw [heq _ le_rfl hlt, hbegin]
  · rw [heq _ (by omega) (by omega), hends hne]
  · rw [heq n (by omega) (by omega), h.between n hlow hhigh]

theorem Tagged.frame (h : Tagged tags a x) (ha : 65536 ≤ a) (hagree : AgreeOff tags tags' b e)
    (hoff : a + x.size ≤ b ∨ e ≤ a) : Tagged tags' a x := by
  refine h.congr ha fun n hlow hhigh => hagree n ?_
  rcases hoff with hle | hle
  all_goals
    have := beginTag_mono hle
    omega

/-- The tags strictly inside an interval are null. -/
def Blank (tags : Tags) (a e : Nat) : Prop :=
  ∀ n, beginTag a < n → n + 1 < beginTag e → tags n = .null

theorem Tagged.blank (h : Tagged tags a x) (ha : 65536 ≤ a) : Blank tags a (a + x.size) := by
  intro n hlow hhigh
  have hend := endTag_succ ha h.largeMin_le
  exact h.between n hlow (by omega)

theorem Tagged.last (h : Tagged tags a x) (ha : 65536 ≤ a) :
    ∃ isMarked isEnd, tags (beginTag (a + x.size) - 1) = x.tag a isMarked isEnd := by
  obtain ⟨isMarked, hbegin, hend⟩ := h.ends
  rw [← endTag_eq ha h.largeMin_le]
  by_cases heq : endTag a x.size = beginTag a
  · exact ⟨isMarked, false, by rw [heq, hbegin]⟩
  · exact ⟨isMarked, true, hend heq⟩

theorem Blank.join {m : Nat} (h1 : Blank tags a m) (h2 : Blank tags m e) (hm : 0 < beginTag m)
    (hclear : tags' (beginTag m - 1) = .null ∧ tags' (beginTag m) = .null)
    (hother : ∀ n, n ≠ beginTag m - 1 → n ≠ beginTag m → tags' n = tags n) :
    Blank tags' a e := by
  intro n hlow hhigh
  by_cases hn : n = beginTag m - 1
  · rw [hn, hclear.1]
  · by_cases hn' : n = beginTag m
    · rw [hn', hclear.2]
    · rw [hother n hn hn']
      by_cases hside : n < beginTag m
      · exact h1 n hlow (by omega)
      · exact h2 n (by omega) hhigh

theorem Describes.bounds (h : Describes tags chunk (layout chunk))
    (hmem : (a, x) ∈ located Block.size (LargeChunk.begin chunk) (layout chunk)) :
    LargeChunk.begin chunk ≤ a ∧ a + x.size ≤ LargeChunk.end chunk := by
  have hbnd := located_bounds hmem
  have htotal := h.total_eq
  have hle : LargeChunk.begin chunk ≤ LargeChunk.end chunk := by
    rw [begin_eq, end_eq]
    omega
  omega

theorem Describes.replace {before mid mid' after : List Block}
    (h : Describes tags chunk (before ++ mid ++ after))
    (hstart : a = LargeChunk.begin chunk + total Block.size before)
    (htotal : total Block.size mid' = total Block.size mid)
    (hagree : AgreeOff tags tags' a (a + total Block.size mid))
    (hmid : ∀ b y, (b, y) ∈ located Block.size a mid' → Tagged tags' b y) :
    Describes tags' chunk (before ++ mid' ++ after) := by
  have hsum := h.total_eq
  simp only [total_append] at hsum
  simp only [begin_eq, end_eq] at hstart hsum
  refine ⟨?_, ?_, ?_, ?_⟩
  · simp only [total_append, htotal, begin_eq, end_eq]
    omega
  · intro b y hmem
    have hold := h.tagged b y
    rw [mem_located_replace rfl] at hold
    rcases (mem_located_replace htotal).mp hmem with hbef | hnew | hafter
    · have hbnd := located_bounds hbef
      rw [begin_eq] at hbnd
      exact (hold (.inl hbef)).frame (by omega) hagree (.inl (by omega))
    · exact hmid b y (by rwa [hstart])
    · have hbnd := located_bounds hafter
      rw [begin_eq] at hbnd
      exact (hold (.inr (.inr hafter))).frame (by omega) hagree (.inr (by omega))
  · rw [hagree _ (.inl ?_)]
    · exact h.left
    · have hmono := beginTag_mono (show LargeChunk.begin chunk ≤ a by rw [begin_eq]; omega)
      have hpos := beginTag_ge (show 65536 ≤ LargeChunk.begin chunk by rw [begin_eq]; omega)
      omega
  · rw [hagree _ (.inr ?_)]
    · exact h.right
    · exact beginTag_mono (by rw [end_eq]; omega)

theorem Describes.congr {blocks : List Block} (h : Describes tags chunk blocks)
    (heq : ∀ n, chunk * boundaryTagCount ≤ n → n < (chunk + 1) * boundaryTagCount →
      tags' n = tags n) : Describes tags' chunk blocks := by
  have hsum := h.total_eq
  rw [show boundaryTagCount = 16384 from rfl] at heq
  refine ⟨hsum, fun b y hmem => ?_, ?_, ?_⟩
  · have hbnd := located_bounds hmem
    simp only [begin_eq, end_eq] at hbnd hsum
    refine (h.tagged b y hmem).congr (by omega) fun n hlow hhigh => heq n ?_ ?_
    · rw [beginTag_eq] at hlow
      omega
    · rw [beginTag_eq] at hhigh
      omega
  · rw [heq _ (by simp only [begin_eq, beginTag_eq]; omega)
      (by simp only [begin_eq, beginTag_eq]; omega)]
    exact h.left
  · rw [heq _ (by simp only [end_eq, beginTag_eq]; omega)
      (by simp only [end_eq, beginTag_eq]; omega)]
    exact h.right

theorem Describes.other {blocks : List Block} {chunk' : Nat} (h : Describes tags chunk' blocks)
    (hne : chunk' ≠ chunk) (hlow : LargeChunk.begin chunk ≤ a) (hhigh : e ≤ LargeChunk.end chunk)
    (hagree : AgreeOff tags tags' a e) : Describes tags' chunk' blocks := by
  refine h.congr fun n hn1 hn2 => hagree n ?_
  simp only [show boundaryTagCount = 16384 from rfl, begin_eq, end_eq, beginTag_eq] at *
  rcases Nat.lt_or_gt_of_ne hne with hlt | hlt <;> omega

namespace Layout

namespace Valid

section

variable (h : layout.Valid tags chunks) (hx : layout.Has chunks a x)
include h hx

theorem tagged : Tagged tags a x := by
  obtain ⟨chunk, hchunk, hmem⟩ := hx
  exact (h.describes chunk hchunk).tagged a x hmem

theorem bounds :
    ∃ chunk ∈ chunks, LargeChunk.begin chunk ≤ a ∧ a + x.size ≤ LargeChunk.end chunk := by
  obtain ⟨chunk, hchunk, hmem⟩ := hx
  exact ⟨chunk, hchunk, (h.describes chunk hchunk).bounds hmem⟩

theorem address_ge : 65536 ≤ a := by
  obtain ⟨chunk, _, hlow, _⟩ := h.bounds hx
  rw [begin_eq] at hlow
  omega

theorem size_lt : x.size < 2 ^ 24 := by
  obtain ⟨chunk, _, hlow, hhigh⟩ := h.bounds hx
  simp only [begin_eq, end_eq] at hlow hhigh
  omega

theorem unique
    (hy : layout.Has chunks b y) (hax : a ≤ e ∧ e < a + x.size) (hby : b ≤ e ∧ e < b + y.size) :
    a = b ∧ x = y := by
  obtain ⟨chunk, hchunk, hmem⟩ := hx
  obtain ⟨chunk', hchunk', hmem'⟩ := hy
  have hbnd := (h.describes chunk hchunk).bounds hmem
  have hbnd' := (h.describes chunk' hchunk').bounds hmem'
  obtain rfl : chunk = chunk' := by
    simp only [begin_eq, end_eq] at hbnd hbnd'
    omega
  exact located_unique hmem hmem' hax hby

theorem unique_begin (hy : layout.Has chunks a y) : x = y := by
  have hxs := (h.tagged hx).largeMin_le
  have hys := (h.tagged hy).largeMin_le
  simp only [largeMin, mediumMax] at hxs hys
  exact (h.unique hx hy ⟨le_rfl, by omega⟩ ⟨le_rfl, by omega⟩).2

theorem disjoint (hy : layout.Has chunks b y) (hne : a ≠ b) : a + x.size ≤ b ∨ b + y.size ≤ a := by
  by_contra hnot
  have hxs := (h.tagged hx).largeMin_le
  have hys := (h.tagged hy).largeMin_le
  simp only [largeMin, mediumMax] at hxs hys
  rcases Nat.lt_or_gt_of_ne hne with hlt | hlt
  · exact hne (h.unique hx hy (e := b) (by omega) (by omega)).1
  · exact hne (h.unique hx hy (e := a) (by omega) (by omega)).1

end

end Valid

/-- The blocks `mid` at an address became the blocks `mid'`, all other blocks stayed. -/
structure Replaced (chunks : List Nat) (layout : Layout) (address : Nat)
    (mid mid' : List Block) (layout' : Layout) : Prop where
  old : ∀ p ∈ located Block.size address mid, layout.Has chunks p.1 p.2
  new : ∀ a x, layout'.Has chunks a x ↔ (a, x) ∈ located Block.size address mid' ∨
    layout.Has chunks a x ∧ (a, x) ∉ located Block.size address mid

theorem Valid.replace {before mid mid' after : List Block} (h : layout.Valid tags chunks)
    (hchunk : chunk ∈ chunks) (hlayout : layout chunk = before ++ mid ++ after)
    (hstart : a = LargeChunk.begin chunk + total Block.size before)
    (htotal : total Block.size mid' = total Block.size mid)
    (hagree : AgreeOff tags tags' a (a + total Block.size mid))
    (hmid : ∀ b y, (b, y) ∈ located Block.size a mid' → Tagged tags' b y) :
    Valid (update layout chunk (before ++ mid' ++ after)) tags' chunks ∧
      Replaced chunks layout a mid mid' (update layout chunk (before ++ mid' ++ after)) := by
  have hd := h.describes chunk hchunk
  have hsum := hd.total_eq
  rw [hlayout] at hd hsum
  simp only [total_append, begin_eq, end_eq] at hsum
  have hlow : LargeChunk.begin chunk ≤ a := by omega
  have hhigh : a + total Block.size mid ≤ LargeChunk.end chunk := by
    simp only [begin_eq, end_eq] at *
    omega
  have hold : ∀ p ∈ located Block.size a mid, layout.Has chunks p.1 p.2 := by
    intro p hp
    refine ⟨chunk, hchunk, ?_⟩
    rw [hlayout, mem_located_replace rfl, ← hstart]
    exact .inr (.inl hp)
  refine ⟨⟨fun chunk' hchunk' => ?_, fun chunk' hchunk' n hn1 hn2 => ?_⟩, ⟨hold, ?_⟩⟩
  · by_cases hne : chunk' = chunk
    · subst hne
      rw [update_self]
      exact hd.replace hstart htotal hagree hmid
    · rw [update_of_ne hne]
      exact (h.describes chunk' hchunk').other hne hlow hhigh hagree
  · have hne : chunk' ≠ chunk := fun heq => hchunk' (heq ▸ hchunk)
    rw [hagree n ?_, h.fresh chunk' hchunk' n hn1 hn2]
    simp only [boundaryTagCount, largeChunkSize, largeMin, mediumMax, begin_eq, end_eq,
      beginTag_eq] at *
    rcases Nat.lt_or_gt_of_ne hne with hlt | hlt <;> omega
  · intro b y
    have hpos : ∀ {c : Nat} {z : Block}, (c, z) ∈ located Block.size a mid → 0 < z.size := by
      intro c z hz
      have := (h.tagged (hold (c, z) hz)).largeMin_le
      simp only [largeMin, mediumMax] at this
      omega
    constructor
    · rintro ⟨chunk', hchunk', hmem⟩
      by_cases hne : chunk' = chunk
      · subst hne
        rw [update_self, mem_located_replace htotal, ← hstart] at hmem
        have hhas : ∀ {p : Nat × Block}, p ∈ located Block.size (LargeChunk.begin chunk') before ∨
            p ∈ located Block.size (a + total Block.size mid) after →
            p ∈ located Block.size (LargeChunk.begin chunk') (layout chunk') := by
          intro p hp
          rw [hlayout, mem_located_replace rfl, ← hstart]
          rcases hp with hp | hp
          · exact .inl hp
          · exact .inr (.inr hp)
        rcases hmem with hbef | hnew | hafter
        · refine .inr ⟨⟨chunk', hchunk', hhas (.inl hbef)⟩, fun hin => ?_⟩
          have := located_bounds hbef
          have := located_bounds hin
          have := hpos hin
          omega
        · exact .inl hnew
        · refine .inr ⟨⟨chunk', hchunk', hhas (.inr hafter)⟩, fun hin => ?_⟩
          have := located_bounds hafter
          have := located_bounds hin
          have := hpos hin
          omega
      · rw [update_of_ne hne] at hmem
        refine .inr ⟨⟨chunk', hchunk', hmem⟩, fun hin => ?_⟩
        have hbnd := (h.describes chunk' hchunk').bounds hmem
        have := located_bounds hin
        simp only [begin_eq, end_eq] at *
        omega
    · rintro (hnew | ⟨⟨chunk', hchunk', hmem⟩, hout⟩)
      · refine ⟨chunk, hchunk, ?_⟩
        rw [update_self, mem_located_replace htotal, ← hstart]
        exact .inr (.inl hnew)
      · refine ⟨chunk', hchunk', ?_⟩
        by_cases hne : chunk' = chunk
        · subst hne
          rw [hlayout, mem_located_replace rfl, ← hstart] at hmem
          rw [update_self, mem_located_replace htotal, ← hstart]
          rcases hmem with hbef | hin | hafter
          · exact .inl hbef
          · exact absurd hin hout
          · exact .inr (.inr hafter)
        · rwa [update_of_ne hne]

end Layout

end WebKit.Bmalloc
