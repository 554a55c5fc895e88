import Mathlib

/-!
# Step functions

A list of steps, each a key and a value, describes a function of an ordered type that is
constant between the keys: before the first key it has a value `d`, and from every key on the
value that comes with it. In a canonical list the keys ascend and every step changes the value.
Two canonical lists of one function are equal (`Canonical.ext`). A binary operation on the
values is a merge of the lists, which skips steps that change nothing (`valueAt_merge`,
`Canonical.merge`).
-/

open List

namespace Scanline

variable {K V V' W : Type*} {l l' : List (K × V)} {d v : V} {k x : K}

/-! ## Lists of steps -/

def keys (l : List (K × V)) : List K := l.map Prod.fst

@[simp] theorem keys_nil : keys ([] : List (K × V)) = [] := rfl

@[simp] theorem keys_cons : keys ((k, v) :: l) = k :: keys l := rfl

/-- Every step changes the value. -/
def Changes (d : V) : List (K × V) → Prop
  | [] => True
  | (_, v) :: l => v ≠ d ∧ Changes v l

/-- The value after all steps. -/
def finalValue (d : V) : List (K × V) → V
  | [] => d
  | (_, v) :: l => finalValue v l

variable [LinearOrder K]

/-- The value at a place is that of the last step up to there. -/
def valueAt (d : V) : List (K × V) → K → V
  | [], _ => d
  | (k, v) :: l, x => if x < k then d else valueAt v l x

/-- The keys ascend. -/
def Ascending (l : List (K × V)) : Prop := (keys l).Pairwise (· < ·)

structure Canonical (d : V) (l : List (K × V)) : Prop where
  ascending : Ascending l
  changes : Changes d l

theorem ascending_cons : Ascending ((k, v) :: l) ↔ (∀ k' ∈ keys l, k < k') ∧ Ascending l :=
  pairwise_cons

theorem Canonical.tail (h : Canonical d ((k, v) :: l)) : Canonical v l :=
  ⟨(ascending_cons.mp h.ascending).2, h.changes.2⟩

theorem valueAt_nil : valueAt d ([] : List (K × V)) x = d := rfl

theorem valueAt_of_lt (h : x < k) : valueAt d ((k, v) :: l) x = d := if_pos h

theorem valueAt_of_le (h : k ≤ x) : valueAt d ((k, v) :: l) x = valueAt v l x :=
  if_neg (not_lt.mpr h)

theorem valueAt_of_forall_lt (h : ∀ k ∈ keys l, x < k) : valueAt d l x = d := by
  cases l with
  | nil => rfl
  | cons p l => exact valueAt_of_lt (h p.1 mem_cons_self)

theorem valueAt_key (h : Ascending ((k, v) :: l)) : valueAt d ((k, v) :: l) k = v := by
  rw [valueAt_of_le le_rfl]
  exact valueAt_of_forall_lt (ascending_cons.mp h).1

theorem valueAt_of_forall_le (h : ∀ k ∈ keys l, k ≤ x) : valueAt d l x = finalValue d l := by
  induction l generalizing d with
  | nil => rfl
  | cons p l ih =>
    obtain ⟨k, v⟩ := p
    rw [valueAt_of_le (h k mem_cons_self), finalValue]
    exact ih fun k' hk' => h k' (mem_cons_of_mem k hk')

theorem forall_valueAt {P : V → Prop} (hd : P d) (h : ∀ p ∈ l, P p.2) (x : K) :
    P (valueAt d l x) := by
  induction l generalizing d with
  | nil => exact hd
  | cons p l ih =>
    rcases lt_or_ge x p.1 with hx | hx
    · rw [valueAt_of_lt hx]
      exact hd
    · rw [valueAt_of_le hx]
      exact ih (h p mem_cons_self) fun q hq => h q (mem_cons_of_mem p hq)

theorem valueAt_of_mem (h : Ascending l) (hk : (k, v) ∈ l) : valueAt d l k = v := by
  induction l generalizing d with
  | nil => cases hk
  | cons p l ih =>
    rcases mem_cons.mp hk with rfl | hk
    · exact valueAt_key h
    · obtain ⟨hlt, h⟩ := ascending_cons.mp h
      rw [valueAt_of_le (hlt k (mem_map_of_mem hk)).le]
      exact ih h hk

theorem valueAt_append_of_lt (h : x < k) : valueAt d (l ++ [(k, v)]) x = valueAt d l x := by
  induction l generalizing d with
  | nil => exact valueAt_of_lt h
  | cons p l ih =>
    rw [cons_append, valueAt, valueAt, ih]

theorem mem_or_eq_valueAt (d : V) (l : List (K × V)) (x : K) :
    valueAt d l x = d ∨ ∃ k, (k, valueAt d l x) ∈ l := by
  induction l generalizing d with
  | nil => exact .inl rfl
  | cons p l ih =>
    obtain ⟨k, v⟩ := p
    rcases lt_or_ge x k with hx | hx
    · exact .inl (valueAt_of_lt hx)
    · rw [valueAt_of_le hx]
      rcases ih v with heq | ⟨k', hk'⟩
      · exact .inr ⟨k, by rw [heq]; exact mem_cons_self⟩
      · exact .inr ⟨k', mem_cons_of_mem _ hk'⟩

section Map

variable {K' : Type*} {g : K → K'} {f : V → W}

omit [LinearOrder K] in
theorem keys_map : keys (l.map (Prod.map g f)) = (keys l).map g := by
  rw [keys, keys, map_map, map_map]
  rfl

omit [LinearOrder K] in
theorem Changes.map (hf : Function.Injective f) (h : Changes d l) :
    Changes (f d) (l.map (Prod.map g f)) := by
  induction l generalizing d with
  | nil => trivial
  | cons p l ih => exact ⟨hf.ne h.1, ih h.2⟩

omit [LinearOrder K] in
theorem finalValue_map : finalValue (f d) (l.map (Prod.map g f)) = f (finalValue d l) := by
  induction l generalizing d with
  | nil => rfl
  | cons p l ih => exact ih

theorem valueAt_map [LinearOrder K'] {x' : K'} (hg : ∀ k, x' < g k ↔ x < k) :
    valueAt (f d) (l.map (Prod.map g f)) x' = f (valueAt d l x) := by
  induction l generalizing d with
  | nil => rfl
  | cons p l ih =>
    obtain ⟨k, v⟩ := p
    rw [map_cons, Prod.map_apply, valueAt, valueAt, ih, apply_ite f]
    exact if_congr (hg k) rfl rfl

end Map

theorem Canonical.ext (h : Canonical d l) (h' : Canonical d l')
    (heq : ∀ x, valueAt d l x = valueAt d l' x) : l = l' := by
  induction l generalizing d l' with
  | nil =>
    cases l' with
    | nil => rfl
    | cons p l' =>
      have hp := heq p.1
      rw [valueAt_nil, valueAt_key h'.ascending] at hp
      exact absurd hp.symm h'.changes.1
  | cons p l ih =>
    obtain ⟨k, v⟩ := p
    cases l' with
    | nil =>
      have hp := heq k
      rw [valueAt_nil, valueAt_key h.ascending] at hp
      exact absurd hp h.changes.1
    | cons p' l' =>
      obtain ⟨k', v'⟩ := p'
      have hk := heq k
      have hk' := heq k'
      rw [valueAt_key h.ascending] at hk
      rw [valueAt_key h'.ascending] at hk'
      -- neither list can begin before the other
      rcases lt_trichotomy k k' with hlt | rfl | hlt
      · rw [valueAt_of_lt hlt] at hk
        exact absurd hk h.changes.1
      · rw [valueAt_key h'.ascending] at hk
        subst hk
        rw [ih h.tail h'.tail fun x => ?_]
        rcases lt_or_ge x k with hx | hx
        · rw [valueAt_of_forall_lt fun k'' hk'' => hx.trans ((ascending_cons.mp h.ascending).1 _ hk''),
            valueAt_of_forall_lt fun k'' hk'' => hx.trans ((ascending_cons.mp h'.ascending).1 _ hk'')]
        · have hx' := heq x
          rwa [valueAt_of_le hx, valueAt_of_le hx] at hx'
      · rw [valueAt_of_lt hlt] at hk'
        exact absurd hk'.symm h'.changes.1

/-! ## Merging -/

section Merge

variable [DecidableEq W] {op : V → V' → W} {w z : W} {m : List (K × W)} {d' : V'}
  {r : List (K × V')}

/-- A step, unless it changes nothing. -/
def emit (w : W) (k : K) (z : W) (m : List (K × W)) : List (K × W) :=
  if z = w then m else (k, z) :: m

omit [LinearOrder K] in
theorem mem_keys_emit (h : x ∈ keys (emit w k z m)) : x = k ∨ x ∈ keys m := by
  unfold emit at h
  split at h
  · exact .inr h
  · exact mem_cons.mp h

theorem valueAt_emit (h : ∀ k' ∈ keys m, k < k') :
    valueAt w (emit w k z m) x = if x < k then w else valueAt z m x := by
  unfold emit
  split
  · rename_i hz
    subst hz
    split
    · rename_i hx
      exact valueAt_of_forall_lt fun k' hk' => hx.trans (h k' hk')
    · rfl
  · rfl

omit [LinearOrder K] in
theorem finalValue_emit : finalValue w (emit w k z m) = finalValue z m := by
  unfold emit
  split
  · rename_i hz
    rw [hz]
  · rfl

theorem Canonical.emit (h : Canonical z m) (hk : ∀ k' ∈ keys m, k < k') :
    Canonical w (emit w k z m) := by
  unfold Scanline.emit
  split
  · rename_i hz
    rwa [← hz]
  · rename_i hz
    exact ⟨ascending_cons.mpr ⟨hk, h.ascending⟩, hz, h.changes⟩

/-- The steps of an operation on two step functions. -/
def merge (op : V → V' → W) (d : V) (d' : V') : List (K × V) → List (K × V') → List (K × W)
  | [], [] => []
  | (k, v) :: l, [] => emit (op d d') k (op v d') (merge op v d' l [])
  | [], (k', v') :: r => emit (op d d') k' (op d v') (merge op d v' [] r)
  | (k, v) :: l, (k', v') :: r =>
    if k < k' then emit (op d d') k (op v d') (merge op v d' l ((k', v') :: r))
    else if k' < k then emit (op d d') k' (op d v') (merge op d v' ((k, v) :: l) r)
    else emit (op d d') k (op v v') (merge op v v' l r)
  termination_by l r => l.length + r.length

theorem mem_keys_merge (h : x ∈ keys (merge op d d' l r)) : x ∈ keys l ∨ x ∈ keys r := by
  fun_induction merge op d d' l r with
  | case1 => exact .inl h
  | case2 _ _ k _ _ ih | case4 _ _ k _ _ _ _ _ _ ih =>
    rcases mem_keys_emit h with rfl | h
    · exact .inl mem_cons_self
    · exact (ih h).imp_left (mem_cons_of_mem k)
  | case3 _ _ k' _ _ ih | case5 _ _ _ _ _ k' _ _ _ _ ih =>
    rcases mem_keys_emit h with rfl | h
    · exact .inr mem_cons_self
    · exact (ih h).imp_right (mem_cons_of_mem k')
  | case6 d d' k v l k' v' r _ _ ih =>
    rcases mem_keys_emit h with rfl | h
    · exact .inl mem_cons_self
    · exact (ih h).imp (mem_cons_of_mem k) (mem_cons_of_mem k')

theorem lt_keys_merge (hl : ∀ k' ∈ keys l, k < k') (hr : ∀ k' ∈ keys r, k < k') :
    ∀ k' ∈ keys (merge op d d' l r), k < k' :=
  fun k' hk' => (mem_keys_merge hk').elim (hl k') (hr k')

section

variable (op : V → V' → W) (d : V) (d' : V')

theorem Canonical.merge (hl : Ascending l) (hr : Ascending r) :
    Canonical (op d d') (merge op d d' l r) := by
  fun_induction Scanline.merge op d d' l r with
  | case1 => exact ⟨List.Pairwise.nil, trivial⟩
  | case2 d d' k v l ih =>
    obtain ⟨hk, hl'⟩ := ascending_cons.mp hl
    exact (ih hl' hr).emit (lt_keys_merge hk (by simp))
  | case3 d d' k' v' r ih =>
    obtain ⟨hk, hr'⟩ := ascending_cons.mp hr
    exact (ih hl hr').emit (lt_keys_merge (by simp) hk)
  | case4 d d' k v l k' v' r hlt ih =>
    obtain ⟨hk, hl'⟩ := ascending_cons.mp hl
    refine (ih hl' hr).emit (lt_keys_merge hk ?_)
    intro k'' hk''
    rcases mem_cons.mp hk'' with rfl | hk''
    · exact hlt
    · exact hlt.trans ((ascending_cons.mp hr).1 _ hk'')
  | case5 d d' k v l k' v' r _ hlt ih =>
    obtain ⟨hk, hr'⟩ := ascending_cons.mp hr
    refine (ih hl hr').emit (lt_keys_merge ?_ hk)
    intro k'' hk''
    rcases mem_cons.mp hk'' with rfl | hk''
    · exact hlt
    · exact hlt.trans ((ascending_cons.mp hl).1 _ hk'')
  | case6 d d' k v l k' v' r hge hle ih =>
    obtain rfl := le_antisymm (not_lt.mp hle) (not_lt.mp hge)
    obtain ⟨hk, hl'⟩ := ascending_cons.mp hl
    obtain ⟨hk', hr'⟩ := ascending_cons.mp hr
    exact (ih hl' hr').emit (lt_keys_merge hk hk')

theorem valueAt_merge (hl : Ascending l) (hr : Ascending r)
    (x : K) :
    valueAt (op d d') (merge op d d' l r) x = op (valueAt d l x) (valueAt d' r x) := by
  fun_induction merge op d d' l r with
  | case1 => rfl
  | case2 d d' k v l ih =>
    obtain ⟨hk, hl'⟩ := ascending_cons.mp hl
    rw [valueAt_emit (lt_keys_merge hk (by simp)), ih hl' hr]
    rcases lt_or_ge x k with hx | hx
    · rw [if_pos hx, valueAt_of_lt hx, valueAt_nil]
    · rw [if_neg (not_lt.mpr hx), valueAt_of_le hx]
  | case3 d d' k' v' r ih =>
    obtain ⟨hk, hr'⟩ := ascending_cons.mp hr
    rw [valueAt_emit (lt_keys_merge (by simp) hk), ih hl hr']
    rcases lt_or_ge x k' with hx | hx
    · rw [if_pos hx, valueAt_of_lt hx, valueAt_nil]
    · rw [if_neg (not_lt.mpr hx), valueAt_of_le hx]
  | case4 d d' k v l k' v' r hlt ih =>
    obtain ⟨hk, hl'⟩ := ascending_cons.mp hl
    have hk' : ∀ k'' ∈ keys ((k', v') :: r), k < k'' := by
      intro k'' hk''
      rcases mem_cons.mp hk'' with rfl | hk''
      · exact hlt
      · exact hlt.trans ((ascending_cons.mp hr).1 _ hk'')
    rw [valueAt_emit (lt_keys_merge hk hk'), ih hl' hr]
    rcases lt_or_ge x k with hx | hx
    · rw [if_pos hx, valueAt_of_lt hx, valueAt_of_lt (hx.trans hlt)]
    · rw [if_neg (not_lt.mpr hx), valueAt_of_le hx]
  | case5 d d' k v l k' v' r _ hlt ih =>
    obtain ⟨hk, hr'⟩ := ascending_cons.mp hr
    have hk' : ∀ k'' ∈ keys ((k, v) :: l), k' < k'' := by
      intro k'' hk''
      rcases mem_cons.mp hk'' with rfl | hk''
      · exact hlt
      · exact hlt.trans ((ascending_cons.mp hl).1 _ hk'')
    rw [valueAt_emit (lt_keys_merge hk' hk), ih hl hr']
    rcases lt_or_ge x k' with hx | hx
    · rw [if_pos hx, valueAt_of_lt hx, valueAt_of_lt (hx.trans hlt)]
    · rw [if_neg (not_lt.mpr hx), valueAt_of_le hx]
  | case6 d d' k v l k' v' r hge hle ih =>
    obtain rfl := le_antisymm (not_lt.mp hle) (not_lt.mp hge)
    obtain ⟨hk, hl'⟩ := ascending_cons.mp hl
    obtain ⟨hk', hr'⟩ := ascending_cons.mp hr
    rw [valueAt_emit (lt_keys_merge hk hk'), ih hl' hr']
    rcases lt_or_ge x k with hx | hx
    · rw [if_pos hx, valueAt_of_lt hx, valueAt_of_lt hx]
    · rw [if_neg (not_lt.mpr hx), valueAt_of_le hx, valueAt_of_le hx]

theorem finalValue_merge (l : List (K × V))
    (r : List (K × V')) :
    finalValue (op d d') (merge op d d' l r) = op (finalValue d l) (finalValue d' r) := by
  fun_induction merge op d d' l r with
  | case1 => rfl
  | case2 _ _ _ _ _ ih | case3 _ _ _ _ _ ih | case4 _ _ _ _ _ _ _ _ _ ih
  | case5 _ _ _ _ _ _ _ _ _ _ ih | case6 _ _ _ _ _ _ _ _ _ _ ih => rw [finalValue_emit, ih]; rfl

end

theorem forall_mem_merge {P : V → Prop} {P' : V' → Prop} {Q : W → Prop}
    (hop : ∀ v v', P v → P' v' → Q (op v v')) (hd : P d) (hd' : P' d') (hl : ∀ p ∈ l, P p.2)
    (hr : ∀ p ∈ r, P' p.2) : ∀ p ∈ merge op d d' l r, Q p.2 := by
  have hemit : ∀ {w z : W} {k : K} {m : List (K × W)}, Q z → (∀ p ∈ m, Q p.2) →
      ∀ p ∈ emit w k z m, Q p.2 := by
    intro w z k m hz hm p hp
    unfold emit at hp
    split at hp
    · exact hm p hp
    · rcases mem_cons.mp hp with rfl | hp
      · exact hz
      · exact hm p hp
  fun_induction merge op d d' l r with
  | case1 => simp
  | case2 _ _ _ _ _ ih | case4 _ _ _ _ _ _ _ _ _ ih =>
    obtain ⟨hv, hl⟩ := forall_mem_cons.mp hl
    exact hemit (hop _ _ hv hd') (ih hv hd' hl hr)
  | case3 _ _ _ _ _ ih | case5 _ _ _ _ _ _ _ _ _ _ ih =>
    obtain ⟨hv, hr⟩ := forall_mem_cons.mp hr
    exact hemit (hop _ _ hd hv) (ih hd hv hl hr)
  | case6 d d' k v l k' v' r _ _ ih =>
    obtain ⟨hv, hl⟩ := forall_mem_cons.mp hl
    obtain ⟨hv', hr⟩ := forall_mem_cons.mp hr
    exact hemit (hop _ _ hv hv') (ih hv hv' hl hr)

/-- When one list has ended with a value that makes the operation constant, no step is left. -/
theorem merge_nil_right_of_const {c : W} (h : ∀ v, op v d' = c) : merge op d d' l [] = [] := by
  induction l generalizing d with
  | nil => rw [merge]
  | cons p l ih => rw [merge, ih, h, h, emit, if_pos rfl]

theorem merge_nil_left_of_const {c : W} (h : ∀ v', op d v' = c) : merge op d d' [] r = [] := by
  induction r generalizing d' with
  | nil => rw [merge]
  | cons p r ih => rw [merge, ih, h, h, emit, if_pos rfl]

end Merge

theorem merge_nil_right_of_id [DecidableEq V] {op : V → V' → V} {d' : V'} (h : ∀ v, op v d' = v)
    (hl : Changes d l) : merge op d d' l [] = l := by
  induction l generalizing d with
  | nil => rw [merge]
  | cons p l ih => rw [merge, ih hl.2, h, h, emit, if_neg hl.1]

theorem merge_nil_left_of_id [DecidableEq V] {op : V' → V → V} {d' : V'} (h : ∀ v, op d' v = v)
    (hl : Changes d l) : merge op d' d [] l = l := by
  induction l generalizing d with
  | nil => rw [merge]
  | cons p l ih => rw [merge, ih hl.2, h, h, emit, if_neg hl.1]

/-!
## Sets of intervals

A list of ascending places at which a truth value toggles describes a set. From outside to
outside it has an even number of places, and the set consists of the half-open intervals
between the first and the second place, the third and the fourth, and so on.
-/

variable {K : Type*} {xs ys : List K} {b : Bool} {x y z : K}

/-- The steps of a truth value. -/
def toggles (b : Bool) : List K → List (K × Bool)
  | [] => []
  | x :: xs => (x, !b) :: toggles (!b) xs

@[simp] theorem keys_toggles : keys (toggles b xs) = xs := by
  induction xs generalizing b with
  | nil => rfl
  | cons x xs ih => rw [toggles, keys_cons, ih]

theorem changes_toggles : Changes b (toggles b xs) := by
  induction xs generalizing b with
  | nil => trivial
  | cons x xs ih => exact ⟨by simp, ih⟩

theorem toggles_map {K' : Type*} (g : K → K') :
    toggles b (xs.map g) = (toggles b xs).map (Prod.map g id) := by
  induction xs generalizing b with
  | nil => rfl
  | cons x xs ih =>
    rw [map_cons, toggles, toggles, map_cons, ih]
    rfl

theorem finalValue_toggles_cons : finalValue b (toggles b (x :: xs)) =
    finalValue (!b) (toggles (!b) xs) := rfl

/-- The set ends outside. -/
def Closed (xs : List K) : Prop := finalValue false (toggles false xs) = false

theorem closed_nil : Closed ([] : List K) := rfl

theorem closed_cons_cons : Closed (x :: y :: xs) ↔ Closed xs := Iff.rfl

theorem not_closed_singleton : ¬ Closed [x] := by
  intro h
  cases h

theorem closed_iff_even : Closed xs ↔ xs.length % 2 = 0 := by
  induction xs using twoStepInduction with
  | nil => exact ⟨fun _ => rfl, fun _ => rfl⟩
  | singleton x => exact ⟨fun h => absurd h not_closed_singleton, fun h => absurd h (by simp)⟩
  | cons_cons x y xs ih _ =>
    rw [closed_cons_cons, ih, length_cons, length_cons]
    omega

variable [LinearOrder K]

/-- The truth value at a place. -/
def inside (b : Bool) (xs : List K) (x : K) : Bool := valueAt b (toggles b xs) x

theorem inside_nil : inside b [] x = b := rfl

theorem inside_of_lt (h : x < y) : inside b (y :: xs) x = b := if_pos h

theorem inside_of_le (h : y ≤ x) : inside b (y :: xs) x = inside (!b) xs x := if_neg (not_lt.mpr h)

/-- An ascending list of places with an end outside. -/
structure Intervals (xs : List K) : Prop where
  ascending : xs.Pairwise (· < ·)
  closed : Closed xs

theorem inside_map {K' : Type*} [LinearOrder K'] {g : K → K'} {x' : K'}
    (hg : ∀ k, x' < g k ↔ x < k) : inside b (xs.map g) x' = inside b xs x := by
  rw [inside, toggles_map]
  exact valueAt_map (f := id) hg

theorem intervals_nil : Intervals ([] : List K) := ⟨List.Pairwise.nil, closed_nil⟩

theorem Intervals.canonical (h : Intervals xs) : Canonical false (toggles false xs) :=
  ⟨by rw [Ascending, keys_toggles]; exact h.ascending, changes_toggles⟩

theorem Intervals.ext (h : Intervals xs) (h' : Intervals ys)
    (heq : ∀ x, inside false xs x = inside false ys x) : xs = ys := by
  have htoggles := h.canonical.ext h'.canonical heq
  rw [← @keys_toggles _ xs false, htoggles, keys_toggles]

theorem intervals_cons_cons : Intervals (x :: y :: xs) ↔
    x < y ∧ (∀ z ∈ xs, y < z) ∧ Intervals xs := by
  constructor
  · rintro ⟨ha, hc⟩
    obtain ⟨hx, ha⟩ := pairwise_cons.mp ha
    obtain ⟨hy, ha⟩ := pairwise_cons.mp ha
    exact ⟨hx y mem_cons_self, hy, ha, hc⟩
  · rintro ⟨hxy, hy, ha, hc⟩
    refine ⟨pairwise_cons.mpr ⟨?_, pairwise_cons.mpr ⟨hy, ha⟩⟩, hc⟩
    intro z hz
    rcases mem_cons.mp hz with rfl | hz
    · exact hxy
    · exact hxy.trans (hy z hz)

theorem not_intervals_singleton : ¬ Intervals [x] := fun h => not_closed_singleton h.closed

theorem inside_cons_cons (h : Intervals (x :: y :: xs)) :
    inside false (x :: y :: xs) z = true ↔ x ≤ z ∧ z < y ∨ inside false xs z = true := by
  obtain ⟨hxy, hy, -⟩ := intervals_cons_cons.mp h
  have hrest : z ≤ y → inside false xs z = false := by
    intro hz
    exact valueAt_of_forall_lt (by rw [keys_toggles]; exact fun k hk => hz.trans_lt (hy k hk))
  rcases lt_or_ge z x with hzx | hxz
  · rw [inside_of_lt hzx, hrest (hzx.trans hxy).le]
    simp [not_le.mpr hzx]
  · rw [inside_of_le hxz]
    rcases lt_or_ge z y with hzy | hyz
    · rw [inside_of_lt hzy]
      simp [hxz, hzy]
    · rw [inside_of_le hyz]
      simp [not_lt.mpr hyz]

theorem Intervals.exists_inside (h : Intervals xs) (hne : xs ≠ []) :
    ∃ x ∈ xs, xs.head? = some x ∧ inside false xs x = true := by
  match xs, h, hne with
  | [x], h, _ => exact absurd h not_intervals_singleton
  | x :: y :: xs, h, _ =>
    refine ⟨x, mem_cons_self, rfl, (inside_cons_cons h).mpr (.inl ⟨le_rfl, ?_⟩)⟩
    exact (intervals_cons_cons.mp h).1

/-- The intervals between the places. -/
def pairs : List K → List (K × K)
  | x :: y :: xs => (x, y) :: pairs xs
  | _ => []

theorem Intervals.inside_iff (h : Intervals xs) :
    inside false xs z = true ↔ ∃ p ∈ pairs xs, p.1 ≤ z ∧ z < p.2 := by
  induction xs using twoStepInduction with
  | nil => simp [pairs, inside_nil]
  | singleton x => exact absurd h not_intervals_singleton
  | cons_cons x y xs ih _ =>
    rw [inside_cons_cons h, ih (intervals_cons_cons.mp h).2.2, pairs]
    simp only [mem_cons, exists_eq_or_imp]

omit [LinearOrder K] in
theorem mem_of_mem_pairs {p : K × K} (h : p ∈ pairs xs) : p.1 ∈ xs ∧ p.2 ∈ xs := by
  induction xs using twoStepInduction with
  | nil | singleton => cases h
  | cons_cons x y xs ih _ =>
    rcases mem_cons.mp h with rfl | h
    · exact ⟨mem_cons_self, mem_cons_of_mem _ mem_cons_self⟩
    · obtain ⟨h1, h2⟩ := ih h
      exact ⟨mem_cons_of_mem _ (mem_cons_of_mem _ h1), mem_cons_of_mem _ (mem_cons_of_mem _ h2)⟩

omit [LinearOrder K] in
theorem exists_mem_pairs (h : Closed xs) (hx : x ∈ xs) : ∃ p ∈ pairs xs, x = p.1 ∨ x = p.2 := by
  induction xs using twoStepInduction with
  | nil => cases hx
  | singleton y => exact absurd h not_closed_singleton
  | cons_cons y z xs ih _ =>
    rcases mem_cons.mp hx with rfl | hx
    · exact ⟨_, mem_cons_self, .inl rfl⟩
    · rcases mem_cons.mp hx with rfl | hx
      · exact ⟨_, mem_cons_self, .inr rfl⟩
      · obtain ⟨p, hp, hxp⟩ := ih h hx
        exact ⟨p, mem_cons_of_mem _ hp, hxp⟩

theorem Intervals.lt_of_mem_pairs (h : Intervals xs) {p : K × K} (hp : p ∈ pairs xs) :
    p.1 < p.2 := by
  induction xs using twoStepInduction with
  | nil | singleton => cases hp
  | cons_cons x y xs ih _ =>
    obtain ⟨hxy, -, h⟩ := intervals_cons_cons.mp h
    rcases mem_cons.mp hp with rfl | hp
    · exact hxy
    · exact ih h hp

theorem Intervals.pairwise_pairs (h : Intervals xs) : (pairs xs).Pairwise fun p q => p.2 < q.1 := by
  induction xs using twoStepInduction with
  | nil => exact List.Pairwise.nil
  | singleton x => exact absurd h not_intervals_singleton
  | cons_cons x y xs ih _ =>
    obtain ⟨-, hy, h⟩ := intervals_cons_cons.mp h
    exact pairwise_cons.mpr ⟨fun p hp => hy _ (mem_of_mem_pairs hp).1, ih h⟩

end Scanline
