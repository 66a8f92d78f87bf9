import Mathlib.Data.Nat.Digits.Defs

/-! # Decimal text

The decimal digits of a number as ASCII bytes, most significant first, and the rule for a loop that
reads them from the left (`foldl_decimal`): a property of the value read so far that every further
digit keeps holds of the number in the end. In the rule no value exceeds the number, which is what a
loop in bounded arithmetic needs. -/

namespace RedisClient.Lib.Decimal

/-- The byte of a digit. -/
def digit (d : ℕ) : UInt8 := UInt8.ofNat (48 + d)

/-- The decimal text of `n`. -/
def decimal (n : ℕ) : List UInt8 :=
  if n = 0 then [digit 0] else (Nat.digits 10 n).reverse.map digit

theorem toNat_digit {d : ℕ} (h : d < 10) : (digit d).toNat = 48 + d := by
  simp only [digit, UInt8.toNat_ofNat']
  omega

theorem mem_decimal {n : ℕ} {b : UInt8} (h : b ∈ decimal n) : 48 ≤ b.toNat ∧ b.toNat ≤ 57 := by
  have hd : ∃ d, d < 10 ∧ b = digit d := by
    unfold decimal at h
    split_ifs at h
    · exact ⟨0, by omega, by simpa using h⟩
    · obtain ⟨d, hd, rfl⟩ := List.mem_map.mp h
      exact ⟨d, Nat.digits_lt_base (by omega) (List.mem_reverse.mp hd), rfl⟩
  obtain ⟨d, hd, rfl⟩ := hd
  rw [toNat_digit hd]
  omega

theorem decimal_ne_nil (n : ℕ) : decimal n ≠ [] := by
  unfold decimal
  split_ifs with h
  · simp
  · simpa using Nat.digits_ne_nil_iff_ne_zero.mpr h

section Fold
variable {α : Type*} {f : α → UInt8 → α} {a : α} {P : ℕ → α → Prop} {n : ℕ}
  (h0 : P 0 a)
  (hstep : ∀ v d x, d < 10 → v * 10 + d ≤ n → P v x → P (v * 10 + d) (f x (digit d)))
include h0 hstep

theorem foldl_digits : ∀ ds : List ℕ, (∀ d ∈ ds, d < 10) → Nat.ofDigits 10 ds ≤ n →
    P (Nat.ofDigits 10 ds) ((ds.reverse.map digit).foldl f a)
  | [], _, _ => h0
  | d :: ds, hd, hn => by
    rw [Nat.ofDigits_cons] at hn ⊢
    have ih := foldl_digits ds (fun e he => hd e (by simp [he])) (by omega)
    rw [List.reverse_cons, List.map_append, List.foldl_append,
      show d + 10 * Nat.ofDigits 10 ds = Nat.ofDigits 10 ds * 10 + d by omega]
    exact hstep _ d _ (hd d (by simp)) (by omega) ih

/-- **Reading decimal text from the left.** -/
theorem foldl_decimal : P n ((decimal n).foldl f a) := by
  unfold decimal
  split_ifs with h
  · subst h
    exact hstep 0 0 a (by omega) (by omega) h0
  · have := foldl_digits h0 hstep (Nat.digits 10 n)
      (fun d hd => Nat.digits_lt_base (by omega) hd) (by rw [Nat.ofDigits_digits])
    rwa [Nat.ofDigits_digits] at this

end Fold

end RedisClient.Lib.Decimal
