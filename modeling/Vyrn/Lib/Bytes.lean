import Mathlib.Data.List.Induction
import Mathlib.Data.List.Lex
import Mathlib.Order.Fin.Basic
import Mathlib.Tactic.Ring

/-!
# Byte strings — slices, big-endian fields, a checksum

Files, keys and values are byte strings ordered lexicographically. This file gives the
three ways binary formats look into them:

* **`slice`** — a positioned read, stable when the file grows (`slice_append`);
* **`toBE` / `fromBE`** — fixed-width big-endian fields and their round trip;
* **`crc32`** — the reflected CRC-32 (polynomial `0xEDB88320`), computed bit by bit.
-/

/-- One byte. -/
abbrev Byte := Fin 256

/-- A byte's range is not empty: the one instance behind every byte literal. -/
instance Byte.neZero : NeZero 256 := ⟨by decide⟩

/-- A byte string; `<` is the lexicographic order. -/
abbrev Bytes := List Byte

namespace ByteString

open List

variable {a b bs c x y : Bytes} {n offset w : Nat}

/-! ## Positioned reads -/

/-- The `n` bytes at `offset`; fewer when the string ends first. -/
def slice (bs : Bytes) (offset n : Nat) : Bytes :=
  (bs.drop offset).take n

theorem length_slice (bs : Bytes) (offset n : Nat) :
    (slice bs offset n).length = min n (bs.length - offset) := by
  rw [slice, length_take, length_drop]

/-- A read that lies inside a string is unchanged when the string grows. -/
theorem slice_append (more : Bytes) (h : offset + n ≤ bs.length) :
    slice (bs ++ more) offset n = slice bs offset n := by
  rw [slice, slice]
  rw [drop_append_of_le_length (by omega), take_append_of_le_length (by rw [length_drop]; omega)]

/-- A read of exactly the part that follows a known head. -/
theorem slice_middle (h : bs = a ++ b ++ c) (ha : a.length = offset) (hb : b.length = n) :
    slice bs offset n = b := by
  rw [slice, h, append_assoc, ← ha, ← hb, drop_left, take_left]

/-- A read inside a read. -/
theorem slice_slice (bs : Bytes) {o o' n' : Nat} (h : o' + n' ≤ n) :
    slice (slice bs o n) o' n' = slice bs (o + o') n' := by
  simp only [slice]
  rw [drop_take, take_take, drop_drop, min_eq_left (by omega)]

/-- Cutting a string behind a read leaves the read alone. -/
theorem slice_take {k : Nat} (h : offset + n ≤ k) :
    slice (bs.take k) offset n = slice bs offset n := by
  simp only [slice]
  rw [drop_take, take_take, min_eq_left (by omega)]

/-! ## Big-endian fields -/

/-- The low `w` bytes of `n`, most significant first. -/
def toBE : Nat → Nat → Bytes
  | 0, _ => []
  | w + 1, n => toBE w (n / 256) ++ [⟨n % 256, Nat.mod_lt n (by decide)⟩]

/-- The number a big-endian field holds. -/
def fromBE (bs : Bytes) : Nat :=
  bs.foldl (fun acc b => acc * 256 + b.val) 0

@[simp] theorem length_toBE : ∀ w n : Nat, (toBE w n).length = w := by
  intro w
  induction w with
  | zero => intro n; rfl
  | succ w ih =>
    intro n
    rw [toBE, length_append, ih]
    rfl

theorem fromBE_concat (bs : Bytes) (b : Byte) :
    fromBE (bs ++ [b]) = fromBE bs * 256 + b.val := by
  rw [fromBE, foldl_append]
  rfl

/-- **ROUND TRIP**: a number that fits its field reads back. -/
theorem fromBE_toBE (h : n < 256 ^ w) : fromBE (toBE w n) = n := by
  induction w generalizing n with
  | zero => rw [show n = 0 by simpa using h]; rfl
  | succ w ih =>
    have hdiv : n / 256 < 256 ^ w :=
      Nat.div_lt_of_lt_mul (by rw [pow_succ] at h; omega)
    rw [toBE, fromBE_concat, ih hdiv]
    show n / 256 * 256 + n % 256 = n
    omega

theorem fromBE_lt (bs : Bytes) : fromBE bs < 256 ^ bs.length := by
  induction bs using reverseRecOn with
  | nil => exact one_pos
  | append_singleton _ b =>
    have hb := b.isLt
    rw [fromBE_concat, length_append, length_singleton, pow_succ]
    omega

/-- **ROUND TRIP**: a field is the number it holds, written in its own width. -/
theorem toBE_fromBE (bs : Bytes) : toBE bs.length (fromBE bs) = bs := by
  induction bs using reverseRecOn with
  | nil => rfl
  | append_singleton bs b ih =>
    have hb := b.isLt
    have hdiv : (fromBE bs * 256 + b.val) / 256 = fromBE bs := by omega
    have hmod : (fromBE bs * 256 + b.val) % 256 = b.val := by omega
    rw [fromBE_concat, length_append, length_singleton, toBE, hdiv, ih]
    congr 2
    exact Fin.ext hmod

/-- A field that fits reads back from wherever it stands. -/
theorem fromBE_slice (h : bs = a ++ toBE w n ++ c) (ha : a.length = offset) (hn : n < 256 ^ w) :
    fromBE (slice bs offset w) = n := by
  rw [slice_middle h ha (length_toBE w n), fromBE_toBE hn]

/-- A string behind its length, passed over. -/
theorem drop_measured (h : bs.length < 256 ^ w) (rest : Bytes) :
    (toBE w bs.length ++ (bs ++ rest)).drop
      (w + fromBE ((toBE w bs.length ++ (bs ++ rest)).take w)) = rest := by
  have hw : (toBE w bs.length).length = w := length_toBE w _
  rw [take_left' hw, fromBE_toBE h, ← drop_drop, drop_left' hw, drop_left]

/-- What a string behind its length looks like. -/
theorem measured_iff {w : Nat} {encoded value : Bytes} :
    (encoded = toBE w value.length ++ value ∧ value.length < 256 ^ w) ↔
      w ≤ encoded.length ∧ fromBE (encoded.take w) + w = encoded.length ∧
        value = encoded.drop w := by
  constructor
  · rintro ⟨rfl, hshort⟩
    have hlen : (toBE w value.length).length = w := length_toBE w _
    rw [take_left' hlen, drop_left' hlen, fromBE_toBE hshort, length_append, hlen]
    exact ⟨Nat.le_add_right _ _, add_comm _ _, rfl⟩
  · rintro ⟨hle, _, rfl⟩
    have htake : (encoded.take w).length = w := length_take_of_le hle
    have hdrop : (encoded.drop w).length = fromBE (encoded.take w) := by
      rw [length_drop]
      omega
    have hback := toBE_fromBE (encoded.take w)
    have hbound := fromBE_lt (encoded.take w)
    rw [htake] at hback hbound
    rw [hdrop, hback, take_append_drop]
    exact ⟨rfl, hbound⟩

/-- A string behind its length is told from what follows it. -/
theorem measured_inj (ha : a.length < 256 ^ w) (hb : b.length < 256 ^ w) :
    toBE w a.length ++ (a ++ x) = toBE w b.length ++ (b ++ y) ↔ a = b ∧ x = y := by
  constructor
  · intro h
    obtain ⟨hlen, hrest⟩ := append_inj h (by rw [length_toBE, length_toBE])
    have hsame : a.length = b.length := by rw [← fromBE_toBE ha, hlen, fromBE_toBE hb]
    exact append_inj hrest hsame
  · rintro ⟨rfl, rfl⟩
    rfl

/-- Fields one after the other: the width and the number of each. -/
def packed : List (Nat × Nat) → Bytes
  | [] => []
  | (w, n) :: rest => toBE w n ++ packed rest

theorem packed_append (front rest : List (Nat × Nat)) :
    packed (front ++ rest) = packed front ++ packed rest := by
  induction front with
  | nil => rfl
  | cons field front ih =>
    obtain ⟨w, n⟩ := field
    rw [cons_append, packed, packed, ih, append_assoc]

@[simp] theorem length_packed (fields : List (Nat × Nat)) :
    (packed fields).length = (fields.map Prod.fst).sum := by
  induction fields with
  | nil => rfl
  | cons field fields ih =>
    obtain ⟨w, n⟩ := field
    simp [packed, ih]

/-- A field among others reads back. -/
theorem fromBE_packed (a more : Bytes) (front : List (Nat × Nat)) (rest : List (Nat × Nat))
    (hn : n < 256 ^ w) :
    fromBE (slice (a ++ packed (front ++ (w, n) :: rest) ++ more)
      (a.length + (front.map Prod.fst).sum) w) = n := by
  refine fromBE_slice (a := a ++ packed front) (c := packed rest ++ more) ?_ ?_ hn
  · rw [packed_append, packed]
    simp only [append_assoc]
  · rw [length_append, length_packed]

/-! ## CRC-32 -/

/-- One bit of the reflected CRC-32 division. -/
def crcBit (x : BitVec 32) : BitVec 32 :=
  if x.getLsbD 0 then (x >>> 1) ^^^ 0xEDB88320#32 else x >>> 1

/-- One byte of the division. -/
def crcByte (state : BitVec 32) (b : Byte) : BitVec 32 :=
  crcBit (crcBit (crcBit (crcBit (crcBit (crcBit (crcBit (crcBit
    (state ^^^ BitVec.ofNat 32 b.val))))))))

/-- CRC-32 with the usual preset and final complement. -/
def crc32 (bs : Bytes) : BitVec 32 :=
  bs.foldl crcByte 0xFFFFFFFF#32 ^^^ 0xFFFFFFFF#32

-- The published check value of CRC-32: the digest of the digits one to nine.
example : crc32 [49, 50, 51, 52, 53, 54, 55, 56, 57] = 0xCBF43926#32 := by
  decide +kernel

/-! ## Prefixes and the lexicographic order -/

/-- The smallest string above every string that starts with `p`, when there is one: the
    last byte that is not `0xFF` is raised and what follows it dropped. -/
def successor (p : Bytes) : Option Bytes :=
  match p with
  | [] => none
  | b :: rest =>
    match successor rest with
    | some rest' => some (b :: rest')
    | none => if h : b.val + 1 < 256 then some [⟨b.val + 1, h⟩] else none

theorem exists_cons_of_le {b : Byte} {k : Bytes} (h : b :: x ≤ k) :
    ∃ c y, k = c :: y ∧ (b < c ∨ b = c ∧ x ≤ y) := by
  cases k with
  | nil => exact absurd h (by simp)
  | cons c y =>
    refine ⟨c, y, rfl, (cons_le_cons_iff.mp (not_lt.mpr h)).imp_right ?_⟩
    exact And.imp_right not_lt.mp

/-- A prefix is at most the string. -/
theorem le_of_isPrefix {p k : Bytes} (h : p <+: k) : p ≤ k := not_lt.mp h.le

/-- Behind a common front only the ends are compared. -/
theorem append_le_append_iff (p : Bytes) : p ++ a ≤ p ++ b ↔ a ≤ b :=
  ⟨fun hle => not_lt.mp (fun hlt => not_lt.mpr hle (append_left_lt hlt)),
    fun hle => not_lt.mp (append_left_le (not_lt.mpr hle))⟩

/-- **PREFIX RANGE**: among the strings from `p` on, those that start with `p` are exactly
    those below its successor, and all of them when it has none. -/
theorem prefix_iff_lt_successor {p k : Bytes} (hle : p ≤ k) :
    p <+: k ↔ ∀ s, successor p = some s → k < s := by
  fun_induction successor p generalizing k with
  | case1 => simp
  | case2 b p s hs ih =>
    obtain ⟨c, k, rfl, hbc | ⟨rfl, hpk⟩⟩ := exists_cons_of_le hle
    · simp [cons_lt_cons_iff, hbc.ne, hbc.ne', hbc.not_gt]
    · simp [ih hpk, hs]
  | case3 b p hs hb ih =>
    obtain ⟨c, k, rfl, hbc | ⟨rfl, hpk⟩⟩ := exists_cons_of_le hle
    · -- the first byte is already past `b`: not a prefix, and not below
      have hpast : ¬ c < ⟨b.val + 1, hb⟩ := not_lt.mpr (Nat.succ_le_of_lt hbc)
      simp [cons_lt_cons_iff, hbc.ne, hpast]
    · simp [cons_lt_cons_iff, ih hpk, hs, Fin.lt_def]
  | case4 b _ hs _ ih =>
    obtain ⟨c, k, rfl, hbc | ⟨rfl, hpk⟩⟩ := exists_cons_of_le hle
    · have : b.val < c.val := hbc
      omega
    · simp [ih hpk, hs]

/-- A successor lies above its prefix. -/
theorem lt_successor {p s : Bytes} (h : successor p = some s) : p < s :=
  (prefix_iff_lt_successor le_rfl).mp (prefix_refl p) s h

end ByteString
