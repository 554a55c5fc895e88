import WebKit.Enumeration.Collation

/-!
# Keys

`IDBKeyData`: the keys of records and indexes, their order (`IDBKeyData::compare`), and the
decoding of a stored key into a given object. The text that `serializeIDBKeyData` stores is
represented by what it encodes: nothing for a null key, else the type with the value of that
type. A stored key is decoded into an object whose other members stay as they are, and the
elements of an array are appended to those already there.
-/

namespace WebKit.IndexedDB

open Enumeration

/-- A double that is not a NaN. -/
structure Double where
  bits : UInt64
  notNaN : bits.toNat % 2 ^ 63 ≤ 0x7ff0000000000000
  deriving DecidableEq

namespace Double

/-- The place of the double in the order of the doubles, `0` for both zeros. -/
def order (d : Double) : ℤ :=
  if d.bits.toNat < 2 ^ 63 then d.bits.toNat else 2 ^ 63 - d.bits.toNat

def zero : Double := ⟨0, by decide⟩

def negativeZero : Double := ⟨0x8000000000000000, by decide⟩

def one : Double := ⟨0x3ff0000000000000, by decide⟩

/-- The conversion of a non-negative 64-bit integer, exact up to `2 ^ 53 + 1`. -/
def ofNat (n : ℕ) : Double :=
  if n = 0 then zero
  else
    let exponent := min (Nat.log2 n) 63
    let mantissa := n * 2 ^ 52 / 2 ^ exponent % 2 ^ 52
    ⟨UInt64.ofNat ((1023 + exponent) * 2 ^ 52 + mantissa), by
      have hmantissa : mantissa < 2 ^ 52 := Nat.mod_lt _ (by decide)
      have hexponent : exponent ≤ 63 := Nat.min_le_right _ _
      rw [UInt64.toNat_ofNat']
      omega⟩

end Double

/-- The keys that `IDBKey` and a non-null `IDBKeyData` stand for. -/
inductive Key
  | invalid
  | array (arrayValue : List Key)
  | string (stringValue : List UInt16)
  | date (numberValue : Double)
  | number (numberValue : Double)
  | max
  | min

/-- `IDBKey::Type`. -/
inductive KeyType
  | max
  | invalid
  | array
  | string
  | date
  | number
  | min
  deriving DecidableEq

def KeyType.value : KeyType → ℤ
  | .max => -1
  | .invalid => 0
  | .array => 1
  | .string => 2
  | .date => 3
  | .number => 4
  | .min => 5

namespace Key

def type : Key → KeyType
  | .invalid => .invalid
  | .array _ => .array
  | .string _ => .string
  | .date _ => .date
  | .number _ => .number
  | .max => .max
  | .min => .min

/-- `codePointCompare`, which compares code units. -/
def codePointCompare (a b : List UInt16) : Ordering :=
  List.compareLex (fun x y => compareInt x.toNat y.toNat) a b

def compareNumbers (a b : Double) : Ordering :=
  if a.order = b.order then .eq else if a.order > b.order then .gt else .lt

mutual

/-- `IDBKeyData::compare`. -/
def compare : Key → Key → Ordering
  | .invalid, .invalid => .eq
  | .invalid, _ => .lt
  | _, .invalid => .gt
  | .array a, .array b => compareArrays a b
  | .string a, .string b => codePointCompare a b
  | .date a, .date b => compareNumbers a b
  | .number a, .number b => compareNumbers a b
  | .max, .max => .eq
  | .min, .min => .eq
  -- The types are in reverse sort order.
  | a, b => if a.type.value < b.type.value then .gt else .lt

def compareArrays : List Key → List Key → Ordering
  | [], [] => .eq
  | [], _ :: _ => .lt
  | _ :: _, [] => .gt
  | a :: as, b :: bs => (compare a b).then (compareArrays as bs)

end

mutual

/-- The equality of the stored texts. -/
def beq : Key → Key → Bool
  | .invalid, .invalid => true
  | .array a, .array b => beqArrays a b
  | .string a, .string b => a == b
  | .date a, .date b => decide (a = b)
  | .number a, .number b => decide (a = b)
  | .max, .max => true
  | .min, .min => true
  | _, _ => false

def beqArrays : List Key → List Key → Bool
  | [], [] => true
  | a :: as, b :: bs => beq a b && beqArrays as bs
  | _, _ => false

end

mutual

theorem beq_iff : ∀ a b : Key, a.beq b = true ↔ a = b
  | .invalid, b => by cases b <;> simp [beq]
  | .array a, b => by
    cases b <;> simp [beq]
    exact beqArrays_iff _ _
  | .string a, b => by cases b <;> simp [beq]
  | .date a, b => by cases b <;> simp [beq]
  | .number a, b => by cases b <;> simp [beq]
  | .max, b => by cases b <;> simp [beq]
  | .min, b => by cases b <;> simp [beq]

theorem beqArrays_iff : ∀ a b : List Key, beqArrays a b = true ↔ a = b
  | [], b => by cases b <;> simp [beqArrays]
  | a :: as, b => by
    cases b with
    | nil => simp [beqArrays]
    | cons b bs => simp [beqArrays, beq_iff a b, beqArrays_iff as bs]

end

instance : DecidableEq Key := fun a b => decidable_of_iff _ (beq_iff a b)

/-- The code of a string: its code units, and an end that is less than each of them. -/
def stringCode (s : List UInt16) : List ℤ := s.map (fun c => (c.toNat : ℤ) + 1) ++ [0]

mutual

/-- A list of integers that stands for the place of the key in the order. -/
def code : Key → List ℤ
  | .invalid => [1]
  | .min => [2]
  | .number n => [3, n.order]
  | .date n => [4, n.order]
  | .string s => 5 :: stringCode s
  | .array a => 6 :: codeArray a
  | .max => [7]

/-- An array ends with an integer that is less than the first of each key. -/
def codeArray : List Key → List ℤ
  | [] => [0]
  | a :: as => code a ++ codeArray as

end

theorem compareNumbers_eq (a b : Double) : compareNumbers a b = compareInt a.order b.order := by
  unfold compareNumbers compareInt
  split_ifs
  all_goals first | rfl | omega

theorem compareCodes_stringCode (a b : List UInt16) (s t : List ℤ) :
    compareCodes (stringCode a ++ s) (stringCode b ++ t) =
      (codePointCompare a b).then (compareCodes s t) := by
  induction a generalizing b with
  | nil =>
    cases b with
    | nil => rfl
    | cons y b =>
      apply compareCodes_cons_of_lt
      show (0 : ℤ) < (y.toNat : ℤ) + 1
      omega
  | cons x a ih =>
    cases b with
    | nil =>
      apply compareCodes_cons_of_gt
      show (0 : ℤ) < (x.toNat : ℤ) + 1
      omega
    | cons y b =>
      have hint : compareInt ((x.toNat : ℤ) + 1) ((y.toNat : ℤ) + 1) =
          compareInt x.toNat y.toNat := by
        unfold compareInt
        split_ifs
        all_goals first | rfl | omega
      have hx : stringCode (x :: a) ++ s = ((x.toNat : ℤ) + 1) :: (stringCode a ++ s) := rfl
      have hy : stringCode (y :: b) ++ t = ((y.toNat : ℤ) + 1) :: (stringCode b ++ t) := rfl
      rw [hx, hy, compareCodes_cons, ih, hint]
      unfold codePointCompare
      rw [List.compareLex_cons_cons, Ordering.then_assoc]

theorem code_pos (a : Key) : ∃ x s, a.code = x :: s ∧ 0 < x := by
  cases a
  all_goals exact ⟨_, _, by rw [code], by decide⟩

mutual

theorem codes : ∀ a : Key, Codes code compare a
  | .invalid => by
    intro b s t
    cases b
    all_goals simp [code, compare, compareCodes_cons_of_lt]
  | .min => by
    intro b s t
    cases b
    all_goals simp [code, compare, type, KeyType.value, compareCodes_cons_of_lt,
      compareCodes_cons_of_gt]
  | .number n => by
    intro b s t
    cases b
    all_goals simp [code, compare, type, KeyType.value, compareCodes_cons_of_lt,
      compareCodes_cons_of_gt, compareNumbers_eq, compareCodes_cons]
  | .date n => by
    intro b s t
    cases b
    all_goals simp [code, compare, type, KeyType.value, compareCodes_cons_of_lt,
      compareCodes_cons_of_gt, compareNumbers_eq, compareCodes_cons]
  | .string a => by
    intro b s t
    cases b
    all_goals simp [code, compare, type, KeyType.value, compareCodes_cons_of_lt,
      compareCodes_cons_of_gt, compareCodes_stringCode]
  | .array a => by
    intro b s t
    cases b
    all_goals simp [code, compare, type, KeyType.value, compareCodes_cons_of_lt,
      compareCodes_cons_of_gt, codesArray a]
  | .max => by
    intro b s t
    cases b
    all_goals simp [code, compare, type, KeyType.value, compareCodes_cons_of_gt]

theorem codesArray : ∀ (a b : List Key) (s t : List ℤ),
    compareCodes (codeArray a ++ s) (codeArray b ++ t) = (compareArrays a b).then (compareCodes s t)
  | [], [], s, t => by simp [codeArray, compareArrays]
  | [], b :: bs, s, t => by
    obtain ⟨x, r, hx, hpos⟩ := code_pos b
    simp [codeArray, compareArrays, hx, compareCodes_cons_of_lt hpos]
  | a :: as, [], s, t => by
    obtain ⟨x, r, hx, hpos⟩ := code_pos a
    simp [codeArray, compareArrays, hx, compareCodes_cons_of_gt hpos]
  | a :: as, b :: bs, s, t => by
    rw [codeArray, codeArray, List.append_assoc, List.append_assoc, codes a, codesArray as bs,
      compareArrays, Ordering.then_assoc]

end

/-- The comparison of keys is a total preorder. -/
instance : Std.TransCmp compare := transCmp_of_code codes

end Key

/-- `IDBKeyData`. -/
structure KeyData where
  type : KeyType := .invalid
  arrayValue : List Key := []
  stringValue : List UInt16 := []
  numberValue : Double := .zero
  isNull : Bool := true

namespace KeyData

def minimum : KeyData := { type := .min, isNull := false }

def maximum : KeyData := { type := .max, isNull := false }

/-- The object made from a key. -/
def ofKey : Key → KeyData
  | .invalid => { type := .invalid, isNull := false }
  | .array a => { type := .array, arrayValue := a, isNull := false }
  | .string s => { type := .string, stringValue := s, isNull := false }
  | .date n => { type := .date, numberValue := n, isNull := false }
  | .number n => { type := .number, numberValue := n, isNull := false }
  | .max => maximum
  | .min => minimum

/-- The key that the object stands for: its type, and the member for that type. -/
def key (k : KeyData) : Key :=
  match k.type with
  | .invalid => .invalid
  | .array => .array k.arrayValue
  | .string => .string k.stringValue
  | .date => .date k.numberValue
  | .number => .number k.numberValue
  | .max => .max
  | .min => .min

/-- What `encode` writes. -/
def encode (k : KeyData) : Option Key := if k.isNull then none else some k.key

/-- `decode`, into the given object. -/
def decode : Option Key → KeyData → KeyData
  | none, result => { result with isNull := true }
  | some .invalid, result => { result with isNull := false, type := .invalid }
  | some .max, result => { result with isNull := false, type := .max }
  | some .min, result => { result with isNull := false, type := .min }
  | some (.string s), result => { result with isNull := false, type := .string, stringValue := s }
  | some (.number n), result => { result with isNull := false, type := .number, numberValue := n }
  | some (.date n), result => { result with isNull := false, type := .date, numberValue := n }
  -- `decodeObjects` appends to the vector it is given.
  | some (.array a), result =>
    { result with isNull := false, type := .array, arrayValue := result.arrayValue ++ a }

def compare (a b : KeyData) : Ordering := a.key.compare b.key

end KeyData

/-- `idbKeyCollate`, the collation of the key columns. -/
def idbKeyCollate (a b : Option Key) : Ordering :=
  (KeyData.decode a {}).compare (KeyData.decode b {})

namespace KeyData

variable {k : KeyData} {key : Key}

@[simp]
theorem isNull_ofKey (key : Key) : (ofKey key).isNull = false := by cases key <;> rfl

@[simp]
theorem key_ofKey (key : Key) : (ofKey key).key = key := by cases key <;> rfl

@[simp]
theorem encode_ofKey (key : Key) : (ofKey key).encode = some key := by simp [encode]

@[simp]
theorem isNull_decode (key : Key) (k : KeyData) : (decode (some key) k).isNull = false := by
  cases key <;> rfl

theorem key_decode_array (a : List Key) (k : KeyData) :
    (decode (some (.array a)) k).key = .array (k.arrayValue ++ a) := rfl

theorem key_decode_of_nil (hk : k.arrayValue = []) (key : Key) :
    (decode (some key) k).key = key := by
  cases key with
  | array a => rw [key_decode_array, hk, List.nil_append]
  | _ => rfl

end KeyData

@[simp]
theorem idbKeyCollate_some (a b : Key) : idbKeyCollate (some a) (some b) = a.compare b := by
  unfold idbKeyCollate KeyData.compare
  rw [KeyData.key_decode_of_nil rfl, KeyData.key_decode_of_nil rfl]

end WebKit.IndexedDB
