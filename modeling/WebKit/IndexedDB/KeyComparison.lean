import WebKit.IndexedDB.KeyData

/-!
# The comparisons of keys

`IDBKey` and `IDBKeyData` each compare keys on their own: recursions over the arrays, with the
integers -1, 0 and 1 as results. Both give the order of `Key.compare` (`IDBKeyData.compare_eq`,
`IDBKey.compare_eq`), which is a total preorder.
-/

namespace WebKit.IndexedDB

open Enumeration List Key KeyType Std.OrientedCmp

/-- `codePointCompare`, which compares code units. -/
def codePointCompare : List UInt16 → List UInt16 → ℤ
  | c₁ :: s₁, c₂ :: s₂ =>
    if c₁ = c₂ then codePointCompare s₁ s₂ else if c₁ > c₂ then 1 else -1
  | s₁, s₂ =>
    if s₁.length = s₂.length then 0 else if s₁.length > s₂.length then 1 else -1

/-- The end of both comparisons of arrays, after the elements in both were found equal. -/
def compareSizes (size otherSize : ℕ) : ℤ :=
  if size < otherSize then -1 else if size > otherSize then 1 else 0

inductive IDBKeyData
  | mk (type : KeyType) (arrayValue : List IDBKeyData) (stringValue : List UInt16)
    (numberValue : Double) (isNull : Bool)

namespace IDBKeyData

def type : IDBKeyData → KeyType
  | mk type _ _ _ _ => type

mutual

/-- `IDBKeyData::compare`. -/
def compare : IDBKeyData → IDBKeyData → ℤ
  | mk type arrayValue stringValue numberValue _,
    mk otherType otherArrayValue otherStringValue otherNumberValue _ =>
    if type = .invalid then
      if otherType ≠ .invalid then -1 else 0
    else if otherType = .invalid then 1
    -- The types are in reverse sort order.
    else if type ≠ otherType then if type.value < otherType.value then 1 else -1
    else
      match type with
      | .invalid => 0
      | .array =>
        let result := compareElements arrayValue otherArrayValue
        if result ≠ 0 then result else compareSizes arrayValue.length otherArrayValue.length
      | .string => codePointCompare stringValue otherStringValue
      | .date | .number =>
        if numberValue.order = otherNumberValue.order then 0
        else if numberValue.order > otherNumberValue.order then 1 else -1
      | .max | .min => 0

/-- The first result for a pair of elements that is not zero. -/
def compareElements : List IDBKeyData → List IDBKeyData → ℤ
  | a :: as, b :: bs =>
    let result := compare a b
    if result ≠ 0 then result else compareElements as bs
  | _, _ => 0

end

mutual

/-- The key that the object stands for. -/
def key : IDBKeyData → Key
  | mk type arrayValue stringValue numberValue _ =>
    match type with
    | .invalid => .invalid
    | .array => .array (keys arrayValue)
    | .string => .string stringValue
    | .date => .date numberValue
    | .number => .number numberValue
    | .max => .max
    | .min => .min

def keys : List IDBKeyData → List Key
  | [] => []
  | a :: as => key a :: keys as

end

end IDBKeyData

/-! ## `IDBKey` -/

/-- A key with the member for its type. No key has the least or the greatest type. -/
inductive IDBKey
  | invalid
  | array (array : List IDBKey)
  | string (string : List UInt16)
  | date (number : Double)
  | number (number : Double)

namespace IDBKey

def type : IDBKey → KeyType
  | .invalid => .invalid
  | .array _ => .array
  | .string _ => .string
  | .date _ => .date
  | .number _ => .number

mutual

def isValid : IDBKey → Bool
  | .invalid => false
  | .array a => areValid a
  | _ => true

def areValid : List IDBKey → Bool
  | [] => true
  | a :: as => isValid a && areValid as

end

mutual

/-- `IDBKey::compare`. -/
def compare : IDBKey → IDBKey → ℤ
  | .array a, .array b =>
    let result := compareElements a b
    if result ≠ 0 then result else compareSizes a.length b.length
  | .string s, .string t => -codePointCompare t s
  | .date m, .date n | .number m, .number n =>
    if m.order < n.order then -1
    else if m.order > n.order then 1 else 0
  -- Two invalid keys are never compared.
  | .invalid, .invalid => 0
  | a, b => if a.type.value > b.type.value then -1 else 1

def compareElements : List IDBKey → List IDBKey → ℤ
  | a :: as, b :: bs =>
    let result := compare a b
    if result ≠ 0 then result else compareElements as bs
  | _, _ => 0

end

def isLessThan (a b : IDBKey) : Bool := a.compare b = -1

def isEqual (a b : IDBKey) : Bool := a.compare b = 0

/-- A step of the loop of `createMultiEntryArray`. -/
def addEntry (result : List IDBKey) (key : IDBKey) : List IDBKey :=
  if !key.isValid then result
  else if result.any (key.isEqual ·) then result
  else result ++ [key]

def createMultiEntryArray (array : List IDBKey) : IDBKey := .array (array.foldl addEntry [])

mutual

/-- The key that the object stands for. -/
def key : IDBKey → Key
  | .invalid => .invalid
  | .array a => .array (keys a)
  | .string s => .string s
  | .date n => .date n
  | .number n => .number n

def keys : List IDBKey → List Key
  | [] => []
  | a :: as => key a :: keys as

end

end IDBKey

namespace IDBKeyData

mutual

/-- The constructor from a key that is no null pointer. -/
def ofIDBKey : IDBKey → IDBKeyData
  | .invalid => mk .invalid [] [] .zero false
  | .array a => mk .array (ofIDBKeys a) [] .zero false
  | .string s => mk .string [] s .zero false
  | .date n => mk .date [] [] n false
  | .number n => mk .number [] [] n false

def ofIDBKeys : List IDBKey → List IDBKeyData
  | [] => []
  | a :: as => ofIDBKey a :: ofIDBKeys as

end

mutual

def maybeCreateIDBKey : IDBKeyData → Option IDBKey
  | mk type arrayValue stringValue numberValue isNull =>
    if isNull then none
    else
      match type with
      | .invalid => some .invalid
      | .array => (createIDBKeys arrayValue).map .array
      | .string => some (.string stringValue)
      | .date => some (.date numberValue)
      | .number => some (.number numberValue)
      | .max | .min => none

/-- An element for which there is no key is excluded by an assertion. -/
def createIDBKeys : List IDBKeyData → Option (List IDBKey)
  | [] => some []
  | a :: as => do
    let array ← createIDBKeys as
    return (← maybeCreateIDBKey a) :: array

end

end IDBKeyData

/-! ## The order -/

theorem codePointCompare_eq (a b : List UInt16) :
    codePointCompare a b = toInt (Key.codePointCompare a b) := by
  induction a generalizing b with
  | nil =>
    cases b with
    | nil => rfl
    | cons y b => rfl
  | cons x a ih =>
    cases b with
    | nil => rfl
    | cons y b =>
      have hcons : Key.codePointCompare (x :: a) (y :: b) =
          (compareInt x.toNat y.toNat).then (Key.codePointCompare a b) :=
        List.compareLex_cons_cons
      rw [codePointCompare, ih, hcons, toInt_then]
      rcases Nat.lt_trichotomy x.toNat y.toNat with hlt | heq | hgt
      · have hint : compareInt x.toNat y.toNat = .lt := compareInt_eq_lt.mpr (by omega)
        have hne : x ≠ y := fun h => hlt.ne (congrArg UInt16.toNat h)
        have hnot : ¬ x > y := fun h => lt_asymm hlt (UInt16.lt_iff_toNat_lt.mp h)
        simp [hint, hne, hnot]
      · obtain rfl := UInt16.toNat_inj.mp heq
        simp
      · have hint : compareInt x.toNat y.toNat = .gt := compareInt_eq_gt.mpr (by omega)
        have hne : x ≠ y := fun h => hgt.ne' (congrArg UInt16.toNat h)
        have hlt : x > y := UInt16.lt_iff_toNat_lt.mpr hgt
        simp [hint, hne, hlt]

theorem toInt_compareNumbers (a b : Double) : toInt (compareNumbers a b) =
      if a.order = b.order then 0 else if a.order > b.order then 1 else -1 := by
  unfold compareNumbers
  split_ifs <;> rfl

theorem compareSizes_succ (m n : ℕ) : compareSizes (m + 1) (n + 1) = compareSizes m n := by
  unfold compareSizes
  simp

namespace IDBKeyData

mutual

theorem compare_eq : ∀ a b : IDBKeyData, a.compare b = toInt (a.key.compare b.key)
  | mk type as s m _, mk otherType bs t n _ => by
    have harrays := compareElements_eq as bs
    cases type <;> cases otherType
    all_goals
      simp [compare, key, Key.compare, Key.type, KeyType.value, codePointCompare_eq,
        toInt_compareNumbers, ← harrays]

theorem compareElements_eq : ∀ as bs : List IDBKeyData,
    (if compareElements as bs ≠ 0 then compareElements as bs
      else compareSizes as.length bs.length) = toInt (compareArrays (keys as) (keys bs))
  | [], [] => rfl
  | [], _ :: _ => rfl
  | _ :: _, [] => rfl
  | a :: as, b :: bs => by
    rw [keys, keys, compareArrays, toInt_then, ← compare_eq a b, ← compareElements_eq as bs,
      compareElements, length_cons, length_cons, compareSizes_succ]
    split_ifs <;> simp_all

end

end IDBKeyData

namespace IDBKey

variable {a b : IDBKey}

mutual

theorem compare_eq : ∀ a b : IDBKey, a.isValid = true → b.isValid = true →
    a.compare b = toInt (a.key.compare b.key)
  | .invalid, _, ha, _ => by simp [isValid] at ha
  | .array as, b, ha, hb => by
    cases b with
    | array bs =>
      have harrays := compareElements_eq as bs (by simpa [isValid] using ha)
        (by simpa [isValid] using hb)
      simp [compare, key, Key.compare, ← harrays]
    | invalid => simp [isValid] at hb
    | _ => simp [compare, key, Key.compare, type, Key.type, KeyType.value]
  | .string s, b, ha, hb => by
    cases b with
    | string t =>
      have hswap : Key.codePointCompare t s = (Key.codePointCompare s t).swap :=
        (Std.OrientedCmp.eq_swap : Key.compare (.string t) (.string s) = _)
      simp [compare, key, Key.compare, codePointCompare_eq, hswap, toInt_swap]
    | invalid => simp [isValid] at hb
    | _ => simp [compare, key, Key.compare, type, Key.type, KeyType.value]
  | .date m, b, ha, hb => by
    cases b with
    | date n =>
      simp only [compare, key, Key.compare, toInt_compareNumbers]
      split_ifs <;> omega
    | invalid => simp [isValid] at hb
    | _ => simp [compare, key, Key.compare, type, Key.type, KeyType.value]
  | .number m, b, ha, hb => by
    cases b with
    | number n =>
      simp only [compare, key, Key.compare, toInt_compareNumbers]
      split_ifs <;> omega
    | invalid => simp [isValid] at hb
    | _ => simp [compare, key, Key.compare, type, Key.type, KeyType.value]

theorem compareElements_eq : ∀ as bs : List IDBKey, areValid as = true → areValid bs = true →
    (if compareElements as bs ≠ 0 then compareElements as bs
      else compareSizes as.length bs.length) = toInt (compareArrays (keys as) (keys bs))
  | [], [], _, _ => rfl
  | [], _ :: _, _, _ => rfl
  | _ :: _, [], _, _ => rfl
  | a :: as, b :: bs, has, hbs => by
    rw [areValid, Bool.and_eq_true] at has hbs
    rw [keys, keys, compareArrays, toInt_then, ← compare_eq a b has.1 hbs.1,
      ← compareElements_eq as bs has.2 hbs.2, compareElements, length_cons,
      length_cons, compareSizes_succ]
    split_ifs <;> simp_all

end

section

variable (ha : a.isValid = true) (hb : b.isValid = true)
include ha hb

theorem isEqual_iff :
    a.isEqual b = true ↔ a.key.compare b.key = .eq := by
  rw [isEqual, decide_eq_true_iff, compare_eq a b ha hb, toInt_eq_zero]

theorem isLessThan_iff :
    a.isLessThan b = true ↔ a.key.compare b.key = .lt := by
  rw [isLessThan, decide_eq_true_iff, compare_eq a b ha hb, toInt_eq_neg_one]

theorem isEqual_congr (hc : c.isValid = true)
    (hab : a.isEqual b = true) : a.isEqual c = b.isEqual c := by
  rw [Bool.eq_iff_iff, isEqual_iff ha hc, isEqual_iff hb hc]
  rw [isEqual_iff ha hb] at hab
  rw [Std.TransCmp.congr_left hab]

end

/-- The valid keys among the first ones, each once. -/
structure Entries (keys result : List IDBKey) : Prop where
  mem : ∀ r ∈ result, r ∈ keys ∧ r.isValid = true
  once : ∀ k : IDBKey, k.isValid = true → result.countP (k.isEqual ·) =
    if ∃ x ∈ keys, x.isValid = true ∧ k.isEqual x = true then 1 else 0

theorem Entries.add {keys result : List IDBKey} (h : Entries keys result) (x : IDBKey) :
    Entries (keys ++ [x]) (addEntry result x) := by
  have hor (k : IDBKey) : (∃ y ∈ keys ++ [x], y.isValid = true ∧ k.isEqual y = true) ↔
      (∃ y ∈ keys, y.isValid = true ∧ k.isEqual y = true) ∨
        x.isValid = true ∧ k.isEqual x = true := by
    simp [or_and_right, exists_or]
  cases hx : x.isValid with
  | false =>
    have hkeep : addEntry result x = result := by simp [addEntry, hx]
    rw [hkeep]
    refine ⟨fun r hr => ?_, fun k hk => ?_⟩
    · exact ⟨mem_append_left _ (h.mem r hr).1, (h.mem r hr).2⟩
    · rw [h.once k hk]
      simp [hx]
  | true =>
    cases hany : result.any (x.isEqual ·) with
    | true =>
      have hkeep : addEntry result x = result := by simp [addEntry, hx, hany]
      rw [hkeep]
      refine ⟨fun r hr => ?_, fun k hk => ?_⟩
      · exact ⟨mem_append_left _ (h.mem r hr).1, (h.mem r hr).2⟩
      · -- The element that is found stands for the new key, too.
        obtain ⟨r, hr, hxr⟩ := any_eq_true.mp hany
        obtain ⟨hmem, hvalid⟩ := h.mem r hr
        have himp : k.isEqual x = true → ∃ y ∈ keys, y.isValid = true ∧ k.isEqual y = true := by
          intro hkx
          exact ⟨r, hmem, hvalid, by rw [isEqual_congr hk hx hvalid hkx, hxr]⟩
        have hiff := hor k
        rw [hx] at hiff
        simp only [true_and, or_iff_left_of_imp himp] at hiff
        rw [h.once k hk]
        simp only [hiff]
    | false =>
      have hadd : addEntry result x = result ++ [x] := by simp [addEntry, hx, hany]
      rw [hadd]
      refine ⟨fun r hr => ?_, fun k hk => ?_⟩
      · rcases mem_append.mp hr with hr | hr
        · exact ⟨mem_append_left _ (h.mem r hr).1, (h.mem r hr).2⟩
        · obtain rfl := mem_singleton.mp hr
          exact ⟨mem_append_right _ hr, hx⟩
      · have hnone : ∀ y ∈ result, x.isEqual y = false := by simpa using hany
        have hzero : k.isEqual x = true → result.countP (k.isEqual ·) = 0 := by
          intro hkx
          refine countP_eq_zero.mpr fun y hy => ?_
          rw [isEqual_congr hk hx (h.mem y hy).2 hkx, hnone y hy]
          decide
        rw [countP_append, countP_singleton]
        cases hkx : k.isEqual x with
        | true =>
          rw [hzero hkx, if_pos ((hor k).mpr (.inr ⟨hx, hkx⟩))]
          rfl
        | false =>
          rw [h.once k hk]
          simp [hkx]

theorem entries_foldl {keys result : List IDBKey} (h : Entries keys result)
    (array : List IDBKey) : Entries (keys ++ array) (array.foldl addEntry result) := by
  induction array generalizing keys result with
  | nil => rwa [append_nil]
  | cons x array ih =>
    rw [append_cons]
    exact ih (h.add x)

theorem entries_createMultiEntryArray (array : List IDBKey) :
    ∃ result, createMultiEntryArray array = .array result ∧ Entries array result := by
  have hnil : Entries [] [] := ⟨fun r hr => absurd hr not_mem_nil, fun k _ => by simp⟩
  exact ⟨_, rfl, entries_foldl hnil array⟩

end IDBKey

namespace IDBKeyData

mutual

theorem key_ofIDBKey : ∀ k : IDBKey, (ofIDBKey k).key = k.key
  | .invalid => rfl
  | .array a => by simp [ofIDBKey, key, IDBKey.key, keys_ofIDBKeys a]
  | .string _ => rfl
  | .date _ => rfl
  | .number _ => rfl

theorem keys_ofIDBKeys : ∀ a : List IDBKey, keys (ofIDBKeys a) = IDBKey.keys a
  | [] => rfl
  | k :: a => by simp [ofIDBKeys, keys, IDBKey.keys, key_ofIDBKey k, keys_ofIDBKeys a]

end

mutual

theorem maybeCreateIDBKey_ofIDBKey : ∀ k : IDBKey, (ofIDBKey k).maybeCreateIDBKey = some k
  | .invalid => rfl
  | .array a => by simp [ofIDBKey, maybeCreateIDBKey, createIDBKeys_ofIDBKeys a]
  | .string _ => rfl
  | .date _ => rfl
  | .number _ => rfl

theorem createIDBKeys_ofIDBKeys : ∀ a : List IDBKey, createIDBKeys (ofIDBKeys a) = some a
  | [] => rfl
  | k :: a => by
    simp [ofIDBKeys, createIDBKeys, maybeCreateIDBKey_ofIDBKey k, createIDBKeys_ofIDBKeys a]

end

variable {a b c : IDBKeyData}

theorem compare_swap : b.compare a = -a.compare b := by
  rw [compare_eq, compare_eq, ← toInt_swap, ← eq_swap]

theorem compare_self (a : IDBKeyData) : a.compare a = 0 := by
  rw [compare_eq, toInt_eq_zero]
  exact Std.ReflCmp.compare_self

theorem compare_trans (hab : a.compare b ≤ 0) (hbc : b.compare c ≤ 0) : a.compare c ≤ 0 := by
  rw [compare_eq, toInt_nonpos] at *
  exact Std.TransCmp.isLE_trans hab hbc

theorem compare_invalid (ha : a.type = .invalid) (hb : b.type ≠ .invalid) : a.compare b = -1 := by
  obtain ⟨t, as, s, m, _⟩ := a
  obtain ⟨u, bs, s', n, _⟩ := b
  simp only [type] at ha hb
  simp [compare, ha, hb]

theorem compare_of_type_lt (ha : a.type ≠ .invalid) (hb : b.type ≠ .invalid)
    (h : b.type.value < a.type.value) : a.compare b = -1 := by
  obtain ⟨t, as, s, m, _⟩ := a
  obtain ⟨u, bs, s', n, _⟩ := b
  simp only [type] at ha hb h
  have hne : t ≠ u := by
    rintro rfl
    exact lt_irrefl _ h
  unfold compare
  rw [if_neg ha, if_neg hb, if_pos hne, if_neg h.not_gt]

theorem value_lt_min {t : KeyType} (ht : t ≠ .min) : t.value < min.value := by
  cases t <;> simp_all [value]

theorem max_lt_value {t : KeyType} (ht : t ≠ .max) : max.value < t.value := by
  cases t <;> simp_all [value]

/-- The comparison of the data is a total preorder with the invalid keys at the bottom and the
valid ones between the least and the greatest key; the comparison of the keys is the same; and
the elements of a multi-entry array are the valid elements, each once. -/
theorem keys_compare (a b c : IDBKeyData) (k l : IDBKey) (array : List IDBKey) :
    ((a.compare b = -1 ∨ a.compare b = 0 ∨ a.compare b = 1) ∧ a.compare a = 0 ∧
        b.compare a = -a.compare b ∧
        (a.compare b ≤ 0 → b.compare c ≤ 0 → a.compare c ≤ 0)) ∧
      ((a.type = .invalid → b.type ≠ .invalid → a.compare b = -1) ∧
        (a.type = .min → b.type ≠ .invalid → b.type ≠ .min → a.compare b = -1) ∧
        (a.type = .max → b.type ≠ .invalid → b.type ≠ .max → a.compare b = 1)) ∧
      (k.isValid = true → l.isValid = true → (ofIDBKey k).compare (ofIDBKey l) = k.compare l ∧
          (k.compare l = -1 ∨ k.compare l = 0 ∨ k.compare l = 1) ∧
          (k.isLessThan l = true ↔ k.compare l ≤ 0 ∧ ¬ l.compare k ≤ 0)) ∧
      (k.isValid = true → ∃ k', (ofIDBKey k).maybeCreateIDBKey = some k' ∧ k'.compare k = 0) ∧
      ∃ result, IDBKey.createMultiEntryArray array = .array result ∧
        (∀ r ∈ result, r ∈ array ∧ r.isValid = true) ∧
        ∀ x ∈ array, x.isValid = true → result.countP (x.isEqual ·) = 1 := by
  refine ⟨⟨?_, compare_self a, compare_swap, compare_trans⟩, ⟨compare_invalid, ?_, ?_⟩, ?_, ?_, ?_⟩
  · rw [compare_eq]
    exact toInt_cases _
  · intro ha hb hne
    exact compare_of_type_lt (by simp [ha]) hb (by rw [ha]; exact value_lt_min hne)
  · intro ha hb hne
    have hlt : b.compare a = -1 :=
      compare_of_type_lt hb (by simp [ha]) (by rw [ha]; exact max_lt_value hne)
    rw [compare_swap, hlt]
    rfl
  · intro hk hl
    refine ⟨?_, ?_, ?_⟩
    · rw [compare_eq, key_ofIDBKey, key_ofIDBKey, IDBKey.compare_eq k l hk hl]
    · rw [IDBKey.compare_eq k l hk hl]
      exact toInt_cases _
    · have hswap : l.key.compare k.key = (k.key.compare l.key).swap := eq_swap
      rw [IDBKey.isLessThan_iff hk hl, IDBKey.compare_eq k l hk hl, IDBKey.compare_eq l k hl hk,
        toInt_nonpos, toInt_nonpos, hswap]
      cases k.key.compare l.key <;> simp
  · intro hk
    refine ⟨k, maybeCreateIDBKey_ofIDBKey k, ?_⟩
    rw [IDBKey.compare_eq k k hk hk, toInt_eq_zero]
    exact Std.ReflCmp.compare_self
  · obtain ⟨result, heq, hentries⟩ := IDBKey.entries_createMultiEntryArray array
    refine ⟨result, heq, hentries.mem, fun x hx hvalid => ?_⟩
    have hself : x.isEqual x = true :=
      (IDBKey.isEqual_iff hvalid hvalid).mpr Std.ReflCmp.compare_self
    rw [hentries.once x hvalid, if_pos ⟨x, hx, hvalid, hself⟩]

/-- The theorem for two arrays that differ in the length, and for an array with an invalid
element and an element twice. -/
theorem keys_compare_arrays :
    (ofIDBKey (.array [.string [97]])).compare (ofIDBKey (.array [.string [97], .number .one])) =
        IDBKey.compare (.array [.string [97]]) (.array [.string [97], .number .one]) ∧
      ∃ result, IDBKey.createMultiEntryArray [.number .zero, .invalid, .number .negativeZero] =
          .array result ∧
        (∀ r ∈ result, r ∈ [IDBKey.number .zero, .invalid, .number .negativeZero] ∧
          r.isValid = true) ∧
        ∀ x ∈ [IDBKey.number .zero, .invalid, .number .negativeZero], x.isValid = true →
          result.countP (x.isEqual ·) = 1 := by
  obtain ⟨_, _, hsame, _, hentries⟩ := keys_compare (ofIDBKey .invalid) (ofIDBKey .invalid)
    (ofIDBKey .invalid) (.array [.string [97]]) (.array [.string [97], .number .one])
    [.number .zero, .invalid, .number .negativeZero]
  exact ⟨(hsame (by decide) (by decide)).1, hentries⟩

end IDBKeyData

end WebKit.IndexedDB
