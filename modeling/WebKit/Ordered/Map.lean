import Mathlib

/-!
# Ordered maps

A map whose keys are read off its values, as the list of the values in the order of their keys.
An insertion under a key that is present changes nothing. An iterator is the list of the values
from its place on, and a scan from it finds the first value that meets a condition (`IsFirst`).
-/

namespace Ordered

open List

variable {α K : Type*}

section Scan

variable {R : α → α → Prop} [Std.Asymm R] {l : List α} {p : α → Bool} {x y : α}

/-- Among the values that meet a condition, the first one of an order. -/
structure IsFirst (R : α → α → Prop) (l : List α) (p : α → Prop) (x : α) : Prop where
  mem : x ∈ l
  meets : p x
  first : ∀ y ∈ l, p y → y = x ∨ R x y

omit [Std.Asymm R] in
theorem IsFirst.congr {l' : List α} {q q' : α → Prop} (h : IsFirst R l q x)
    (hiff : ∀ y, y ∈ l ∧ q y ↔ y ∈ l' ∧ q' y) : IsFirst R l' q' x where
  mem := ((hiff x).mp ⟨h.mem, h.meets⟩).1
  meets := ((hiff x).mp ⟨h.mem, h.meets⟩).2
  first y hy hq := h.first y ((hiff y).mpr ⟨hy, hq⟩).1 ((hiff y).mpr ⟨hy, hq⟩).2

theorem head?_dropWhile_eq_some (h : l.Pairwise R) :
    (l.dropWhile (!p ·)).head? = some x ↔ IsFirst R l (p · = true) x := by
  induction l with
  | nil => exact ⟨nofun, fun hx => absurd hx.mem not_mem_nil⟩
  | cons a l ih =>
    obtain ⟨ha, hl⟩ := pairwise_cons.mp h
    cases hp : p a with
    | false =>
      rw [dropWhile_cons_of_pos (by simp [hp]), ih hl]
      constructor <;> refine (·.congr fun y => ?_) <;> grind
    | true =>
      rw [dropWhile_cons_of_neg (by simp [hp]), head?_cons, Option.some_inj]
      constructor
      · rintro rfl
        exact ⟨mem_cons_self, hp, fun y hy _ => (mem_cons.mp hy).imp_right (ha y)⟩
      · intro hx
        refine (hx.first a mem_cons_self hp).elim id fun hxa => ?_
        have hmem := mem_cons.mp hx.mem
        exact hmem.elim Eq.symm fun hmem => absurd hxa (Std.Asymm.asymm _ _ (ha x hmem))

theorem mem_takeWhile_iff (h : l.Pairwise R) :
    y ∈ l.takeWhile p ↔ y ∈ l ∧ ∀ z ∈ l, z = y ∨ R z y → p z = true := by
  induction l with
  | nil => simp
  | cons a l ih =>
    obtain ⟨ha, hl⟩ := pairwise_cons.mp h
    have hasymm := fun z => Std.Asymm.asymm (r := R) a z
    rw [takeWhile_cons]
    split <;> grind

end Scan

variable [LinearOrder K]

/-- The values of a map in the order of their keys. -/
structure Map (key : α → K) where
  entries : List α
  sorted : entries.Pairwise (key · < key ·)

namespace Map

variable {key : α → K} {m : Map key} {x y : α} {k : K}

def empty : Map key := ⟨[], .nil⟩

/-- Inserts a value unless its key is present. -/
def insert (m : Map key) (x : α) : Map key where
  entries := if ∃ y ∈ m.entries, key y = key x then m.entries else
    m.entries.filter (key · < key x) ++ x :: m.entries.filter (key x < key ·)
  sorted := by
    split
    · exact m.sorted
    · refine pairwise_append.mpr ⟨m.sorted.filter _, pairwise_cons.mpr ⟨?_, m.sorted.filter _⟩, ?_⟩
      · grind
      · grind

def erase (m : Map key) (k : K) : Map key :=
  ⟨m.entries.filter (key · ≠ k), m.sorted.filter _⟩

/-- The iterator to the value under a key. -/
def find (m : Map key) (k : K) : List α :=
  m.entries.dropWhile (key · ≠ k)

theorem eq_of_key (hx : x ∈ m.entries) (hy : y ∈ m.entries) (h : key x = key y) : x = y :=
  inj_on_of_nodup_map (Pairwise.map key (fun _ _ => ne_of_lt) m.sorted) hx hy h

theorem insert_of_mem (h : ∃ y ∈ m.entries, key y = key x) : (m.insert x).entries = m.entries :=
  if_pos h

theorem insert_perm (h : ∀ y ∈ m.entries, key y ≠ key x) :
    (m.insert x).entries.Perm (x :: m.entries) := by
  have hins : (m.insert x).entries = _ := if_neg fun ⟨y, hy, heq⟩ => h y hy heq
  have hfilter : m.entries.filter (key x < key ·) =
      m.entries.filter fun y => !(key y < key x : Bool) :=
    filter_congr fun y hy => by grind [h y hy]
  rw [hins, hfilter]
  exact perm_middle.trans (.cons x (filter_append_perm _ _))

theorem exists_split (hx : x ∈ m.entries) : ∃ before after, m.entries = before ++ x :: after ∧
    (∀ y ∈ before, key y < key x) ∧ ∀ y ∈ after, key x < key y := by
  obtain ⟨before, after, h⟩ := append_of_mem hx
  have hsorted := m.sorted
  rw [h, pairwise_append, pairwise_cons] at hsorted
  exact ⟨before, after, h, fun y hy => hsorted.2.2 y hy x mem_cons_self, hsorted.2.1.1⟩

theorem perm_erase (hx : x ∈ m.entries) : m.entries.Perm (x :: (m.erase (key x)).entries) := by
  obtain ⟨before, after, h, hbef, hafter⟩ := exists_split hx
  have herase : (m.erase (key x)).entries = before ++ after := by
    change m.entries.filter _ = _
    rw [h, filter_append, filter_cons_of_neg (by simp),
      filter_eq_self.mpr (by simpa using fun y hy => ne_of_lt (hbef y hy)),
      filter_eq_self.mpr (by simpa using fun y hy => ne_of_gt (hafter y hy))]
  rw [herase, h]
  exact perm_middle

theorem find_of_split {before after : List α} (h : m.entries = before ++ x :: after)
    (hbef : ∀ y ∈ before, key y < key x) : m.find (key x) = x :: after := by
  rw [find, h, dropWhile_append_of_pos (by simpa using fun y hy => ne_of_lt (hbef y hy)),
    dropWhile_cons_of_neg (by simp)]

theorem find_suffix (m : Map key) (k : K) : m.find k <:+ m.entries := dropWhile_suffix _

theorem mem_find (hx : x ∈ m.entries) : y ∈ m.find (key x) ↔ y ∈ m.entries ∧ key x ≤ key y := by
  obtain ⟨before, after, h, hbef, hafter⟩ := exists_split hx
  rw [find_of_split h hbef, h]
  grind

end Map

end Ordered
