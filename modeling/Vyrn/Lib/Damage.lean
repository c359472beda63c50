import Mathlib.Data.Nat.Bitwise
import Vyrn.Lib.Bytes

/-!
# One damaged byte

A digest that is a fold, and whose step loses neither the state nor the byte, notices every change
of a single byte: from there on the two states differ, and stay different (`foldl_set_ne`). Both a
big-endian field (`fromBE_set_ne`) and CRC-32 (`crc32_set_ne`) are such folds. A flipped bit is a
changed byte (`flipByte_ne`).
-/

namespace ByteString

open List

/-! ## Folds that lose nothing -/

section Folds

variable {σ α : Type} {step : σ → α → σ}

theorem foldl_injective (hstate : ∀ b, Function.Injective (step · b)) (bs : List α) :
    Function.Injective (fun s => bs.foldl step s) := by
  induction bs with
  | nil => exact fun _ _ h => h
  | cons b bs ih => exact fun s t h => hstate b (ih h)

/-- **DAMAGE**: the fold over a string with one changed element differs. -/
theorem foldl_set_ne (hstate : ∀ b, Function.Injective (step · b))
    (hbyte : ∀ s, Function.Injective (step s)) {bs : List α} {i : Nat} (hi : i < bs.length) {b : α}
    (hb : b ≠ bs[i]) (s : σ) : (bs.set i b).foldl step s ≠ bs.foldl step s := by
  induction bs generalizing i s with
  | nil => exact absurd hi (Nat.not_lt_zero i)
  | cons head bs ih =>
    cases i with
    | zero =>
      intro heq
      exact hb (hbyte s (foldl_injective hstate bs heq))
    | succ i => exact ih (Nat.lt_of_succ_lt_succ hi) hb (step s head)

end Folds

/-! ## Fields and checksums -/

section Digests

variable {bs : Bytes} {i n o : Nat} {b : Byte}

/-- A read beside the damage is unchanged. -/
theorem slice_set_outside (h : i < o ∨ o + n ≤ i) : slice (bs.set i b) o n = slice bs o n := by
  rw [slice, slice, drop_set]
  split_ifs with hi
  · rfl
  · rw [take_set_of_le (by omega)]

/-- A read around the damage is damaged. -/
theorem slice_set_inside (h : o ≤ i) (n : Nat) :
    slice (bs.set i b) o n = (slice bs o n).set (i - o) b := by
  rw [slice, slice, drop_set, if_neg (not_lt.mpr h), take_set]

theorem getElem_slice (ho : o ≤ i) (hn : i < o + n) (hi : i < bs.length) :
    ∃ hlt : i - o < (slice bs o n).length, (slice bs o n)[i - o] = bs[i] := by
  have hlt : i - o < (slice bs o n).length := by
    rw [length_slice]
    omega
  refine ⟨hlt, ?_⟩
  simp only [slice, getElem_take, getElem_drop]
  congr 1
  omega

theorem fromBE_set_ne (hi : i < bs.length) (hb : b ≠ bs[i]) : fromBE (bs.set i b) ≠ fromBE bs := by
  refine foldl_set_ne ?_ ?_ hi hb 0
  · intro c m n heq
    have heq : m * 256 + c.val = n * 256 + c.val := heq
    omega
  · intro n c d heq
    have heq : n * 256 + c.val = n * 256 + d.val := heq
    exact Fin.ext (by omega)

/-- The polynomial has its top bit set, so the bit that is shifted out is not lost. -/
theorem crcBit_injective : Function.Injective crcBit := by
  have hshift : ∀ {x y : BitVec 32}, x.getLsbD 0 = y.getLsbD 0 → x >>> 1 = y >>> 1 → x = y := by
    intro x y hlow hhigh
    apply BitVec.eq_of_getLsbD_eq
    intro i hi
    cases i with
    | zero => exact hlow
    | succ i =>
      have hbit := congrArg (fun z => z.getLsbD i) hhigh
      simpa [add_comm] using hbit
  intro x y heq
  rw [crcBit, crcBit] at heq
  cases hx : x.getLsbD 0 <;> cases hy : y.getLsbD 0 <;>
    simp only [hx, hy, if_true, if_false, Bool.false_eq_true] at heq
  · exact hshift (hx.trans hy.symm) heq
  · have htop := congrArg (fun z => z.getLsbD 31) heq
    simp at htop
  · have htop := congrArg (fun z => z.getLsbD 31) heq
    simp at htop
  · exact hshift (hx.trans hy.symm) ((BitVec.xor_left_inj _).mp heq)

/-- The eight divisions of one byte lose nothing either. -/
theorem crcByte_eq {s t : BitVec 32} {c d : Byte} (h : crcByte s c = crcByte t d) :
    s ^^^ BitVec.ofNat 32 c.val = t ^^^ BitVec.ofNat 32 d.val := by
  have hinj := crcBit_injective
  exact hinj (hinj (hinj (hinj (hinj (hinj (hinj (hinj h)))))))

/-- **CRC-32** notices every change of one byte. -/
theorem crc32_set_ne (hi : i < bs.length) (hb : b ≠ bs[i]) : crc32 (bs.set i b) ≠ crc32 bs := by
  have hstate : ∀ c : Byte, Function.Injective (crcByte · c) :=
    fun c s t heq => (BitVec.xor_left_inj _).mp (crcByte_eq heq)
  have hbyte : ∀ s, Function.Injective (crcByte s) := by
    intro s c d heq
    have hval := congrArg BitVec.toNat ((BitVec.xor_right_inj _).mp (crcByte_eq heq))
    simp only [BitVec.toNat_ofNat] at hval
    exact Fin.ext (by omega)
  intro heq
  exact foldl_set_ne hstate hbyte hi hb _ ((BitVec.xor_left_inj _).mp heq)

/-- Nor does it lose one behind a front. -/
theorem crc32_append_set_ne (front : Bytes) (hi : i < bs.length) (hb : b ≠ bs[i]) :
    crc32 (front ++ bs.set i b) ≠ crc32 (front ++ bs) := by
  have hset := set_append_right (s := front) (t := bs) (i := front.length + i) b
    (Nat.le_add_right _ _)
  rw [Nat.add_sub_cancel_left] at hset
  rw [← hset]
  refine crc32_set_ne (by rw [length_append]; omega) ?_
  rw [getElem_append_right (Nat.le_add_right _ _)]
  simpa using hb

end Digests

/-! ## Flipped bits -/

/-- A byte with one bit flipped. -/
def flipByte (bit : Fin 8) (byte : Byte) : Byte :=
  ⟨byte.val ^^^ 2 ^ bit.val, Nat.xor_lt_two_pow (n := 8) byte.isLt
    (Nat.pow_lt_pow_right (by decide) bit.isLt)⟩

/-- A string with one bit flipped. -/
def flipBit (bs : Bytes) (i : Nat) (bit : Fin 8) : Bytes := bs.modify i (flipByte bit)

theorem flipByte_ne (bit : Fin 8) (byte : Byte) : flipByte bit byte ≠ byte := by
  intro heq
  have hval : byte.val ^^^ 2 ^ bit.val = byte.val ^^^ 0 := by
    rw [Nat.xor_zero]
    exact congrArg Fin.val heq
  have hzero := Nat.xor_right_injective hval
  exact absurd hzero (Nat.pow_pos (by decide)).ne'

end ByteString
