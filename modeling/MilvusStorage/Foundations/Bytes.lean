import Mathlib.Algebra.Order.Ring.Nat
import Mathlib.Data.List.Basic
import Mathlib.Tactic.NormNum

/-!
# Numbers and digits as bytes

* `hex`: the two hexadecimal digits of a byte. Bytes can be told from their digits
  (`flatMap_hex_injective`).
-/

namespace Bytes

/-! ## Little-endian numbers -/

/-- The `w` bytes of a number. -/
def toLE : ℕ → ℕ → List UInt8
  | 0, _ => []
  | w + 1, n => UInt8.ofNat (n % 256) :: toLE w (n / 256)

/-- The number with these bytes. -/
def ofLE : List UInt8 → ℕ
  | [] => 0
  | b :: bs => b.toNat + 256 * ofLE bs

@[simp] theorem length_toLE (w n : ℕ) : (toLE w n).length = w := by
  induction w generalizing n with
  | zero => rfl
  | succ w ih => rw [toLE, List.length_cons, ih]

theorem ofLE_toLE (w n : ℕ) : ofLE (toLE w n) = n % 256 ^ w := by
  induction w generalizing n with
  | zero => rw [toLE, ofLE, pow_zero, Nat.mod_one]
  | succ w ih =>
    have hbyte : (UInt8.ofNat (n % 256)).toNat = n % 256 := by
      rw [UInt8.toNat_ofNat']
      omega
    rw [toLE, ofLE, ih, hbyte, pow_succ', Nat.mod_mul]

/-! ## Hexadecimal digits -/

def hex (b : UInt8) : List Char := [Nat.digitChar (b.toNat / 16), Nat.digitChar (b.toNat % 16)]

theorem digitChar_injOn : ∀ m < 16, ∀ n < 16, Nat.digitChar m = Nat.digitChar n → m = n := by decide

theorem hex_injective : Function.Injective hex := by
  intro a b h
  have ha := a.toNat_lt
  have hb := b.toNat_lt
  obtain ⟨hhigh, hlow⟩ := List.cons.inj h
  have hhigh := digitChar_injOn _ (by omega) _ (by omega) hhigh
  have hlow := digitChar_injOn _ (by omega) _ (by omega) (List.cons.inj hlow).1
  apply UInt8.toNat_inj.mp
  omega

theorem flatMap_hex_injective : Function.Injective fun bs : List UInt8 => bs.flatMap hex := by
  intro as bs h
  induction as generalizing bs with
  | nil =>
    cases bs with
    | nil => rfl
    | cons b bs => cases h
  | cons a as ih =>
    cases bs with
    | nil => cases h
    | cons b bs =>
      obtain ⟨hhead, htail⟩ := List.append_inj
        (h : hex a ++ as.flatMap hex = hex b ++ bs.flatMap hex) rfl
      rw [hex_injective hhead, ih htail]

/-- Digits are letters and digits. -/
theorem notMem_hex {c : Char} (hc : ∀ n < 16, Nat.digitChar n ≠ c) (bs : List UInt8) :
    c ∉ bs.flatMap hex := by
  intro hmem
  obtain ⟨b, -, hb⟩ := List.mem_flatMap.mp hmem
  have hlt := b.toNat_lt
  obtain rfl | hb := List.mem_cons.mp hb
  · exact hc _ (by omega) rfl
  · exact hc _ (by omega) (List.mem_singleton.mp hb).symm

end Bytes
