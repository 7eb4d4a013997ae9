/-
  MemoSeq/Number/Words.lean
  =========================
  **Long magnitudes in words of 64 bits.**

  Rounding keeps the leading bits of a magnitude, and of the rest it needs to
  know only whether any bit is set.  That is asked of a part of the rest: the two
  leading words are looked at whole, and in each word below them as many low bits
  as the leading word has.  All other bits pass for zeros.

  A magnitude of at most two words is therefore looked at whole
  (`sightedBits_of_lt`).  Of a longer one only a tie can be misjudged, which is
  when just the bits that were passed over would have broken it.
-/

namespace MemoSeq

/-- The number of bits in a word. -/
def wordBits : Nat := 64

/-- Keeps the `width` low bits of each of the `count` lowest words of a magnitude,
    and every bit above those words. -/
def thinWords (width : Nat) : Nat → Nat → Nat
  | 0, n => n
  | count + 1, n =>
    n % Nat.pow 2 width + Nat.pow 2 wordBits * thinWords width count (n / Nat.pow 2 wordBits)

/-- The bits of a magnitude that rounding looks at. -/
def sightedBits (n : Nat) : Nat :=
  thinWords (n.log2 % wordBits + 1) (n.log2 / wordBits - 1) n

/-- A magnitude of at most two words is looked at whole. -/
theorem sightedBits_of_lt {n : Nat} (h : n < Nat.pow 2 (2 * wordBits)) : sightedBits n = n := by
  have short : n.log2 / wordBits - 1 = 0 := by
    by_cases zero : n = 0
    · subst zero
      rfl
    · have log : n.log2 < 2 * wordBits := (Nat.log2_lt zero).2 h
      have words : n.log2 / wordBits < 2 := Nat.div_lt_of_lt_mul (Nat.mul_comm 2 _ ▸ log)
      omega
  rw [sightedBits, short, thinWords]

end MemoSeq
