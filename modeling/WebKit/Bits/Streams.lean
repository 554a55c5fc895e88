import Mathlib

/-!
# Streams of bits

The bits of words of one width, a word after the other, the most significant bit of a word first.
Words of another width may have the same stream: that is how data is regrouped into digits. A
stream determines its words (`stream_inj`), and two lists of as many words are the same when both
streams begin a third (`eq_of_stream_prefix`).
-/

namespace Bits

open List

variable {w x y : ℕ} {words words' : List ℕ} {bits : List Bool}

def msbFirst : ℕ → ℕ → List Bool
  | 0, _ => []
  | w + 1, x => x.testBit w :: msbFirst w x

@[simp] theorem length_msbFirst (w x : ℕ) : (msbFirst w x).length = w := by
  induction w with
  | zero => rfl
  | succ w ih => rw [msbFirst, length_cons, ih]

theorem testBit_eq_of_msbFirst_eq (h : msbFirst w x = msbFirst w y) :
    ∀ i < w, x.testBit i = y.testBit i := by
  induction w with
  | zero => exact fun i hi => absurd hi (Nat.not_lt_zero i)
  | succ w ih =>
    obtain ⟨hfirst, hrest⟩ := cons.inj h
    intro i hi
    rcases Nat.lt_succ_iff_lt_or_eq.mp hi with hlt | rfl
    · exact ih hrest i hlt
    · exact hfirst

theorem msbFirst_inj (hx : x < 2 ^ w) (hy : y < 2 ^ w) (h : msbFirst w x = msbFirst w y) :
    x = y := by
  apply Nat.eq_of_testBit_eq
  intro i
  by_cases hi : i < w
  · exact testBit_eq_of_msbFirst_eq h i hi
  · have hpow : 2 ^ w ≤ 2 ^ i := Nat.pow_le_pow_right (by decide) (Nat.not_lt.mp hi)
    rw [Nat.testBit_lt_two_pow (by omega), Nat.testBit_lt_two_pow (by omega)]

def stream (w : ℕ) (words : List ℕ) : List Bool := words.flatMap (msbFirst w)

@[simp] theorem stream_nil : stream w [] = [] := rfl

@[simp] theorem stream_cons : stream w (x :: words) = msbFirst w x ++ stream w words := rfl

@[simp] theorem length_stream : (stream w words).length = words.length * w := by
  induction words with
  | nil => exact (Nat.zero_mul w).symm
  | cons x words ih =>
    rw [stream_cons, length_append, length_msbFirst, ih, length_cons, Nat.succ_mul, Nat.add_comm]

theorem stream_inj (hwords : ∀ x ∈ words, x < 2 ^ w) (hwords' : ∀ x ∈ words', x < 2 ^ w)
    (hlen : words.length = words'.length) (h : stream w words = stream w words') :
    words = words' := by
  induction words generalizing words' with
  | nil => exact (eq_nil_of_length_eq_zero hlen.symm).symm
  | cons x words ih =>
    cases words' with
    | nil => cases hlen
    | cons y words' =>
      obtain ⟨hfirst, hrest⟩ := append_inj h (by rw [length_msbFirst, length_msbFirst])
      have heq := msbFirst_inj (hwords x mem_cons_self) (hwords' y mem_cons_self) hfirst
      have hwords1 : ∀ z ∈ words, z < 2 ^ w := fun z hz => hwords z (mem_cons_of_mem x hz)
      have hwords2 : ∀ z ∈ words', z < 2 ^ w := fun z hz => hwords' z (mem_cons_of_mem y hz)
      rw [heq, ih hwords1 hwords2 (Nat.succ.inj hlen) hrest]

theorem eq_of_stream_prefix (hwords : ∀ x ∈ words, x < 2 ^ w) (hwords' : ∀ x ∈ words', x < 2 ^ w)
    (hlen : words.length = words'.length) (h : stream w words <+: bits)
    (h' : stream w words' <+: bits) : words = words' := by
  apply stream_inj hwords hwords' hlen
  have hsame : (stream w words).length = (stream w words').length := by
    rw [length_stream, length_stream, hlen]
  exact (prefix_of_prefix_length_le h h' (Nat.le_of_eq hsame)).eq_of_length hsame

end Bits
