import Qine.Lib.Memory

/-!
# Little-endian words

`leBytes n v` is the little-endian layout of `v` in `n` bytes and `leNat` reads a byte list back.
The two are inverse up to truncation, which is all that storing a register in memory and loading
it again needs (`loadWord_storeWord`).
-/

/-- A memory cell. -/
abbrev Byte := BitVec 8

/-- The `n` low bytes of `v`, least significant first. -/
def leBytes : Nat → Nat → List Byte
  | 0, _ => []
  | n + 1, v => BitVec.ofNat 8 v :: leBytes n (v / 256)

/-- The number a little-endian byte list stands for. -/
def leNat : List Byte → Nat
  | [] => 0
  | b :: bs => b.toNat + 256 * leNat bs

@[simp] theorem length_leBytes (n v : Nat) : (leBytes n v).length = n := by
  induction n generalizing v with
  | zero => rfl
  | succ n ih => simp [leBytes, ih]

/-- Decoding an encoded value truncates it to the encoded width. -/
theorem leNat_leBytes (n v : Nat) : leNat (leBytes n v) = v % 256 ^ n := by
  induction n generalizing v with
  | zero => simp [leBytes, leNat, Nat.mod_one]
  | succ n ih =>
      have hpow : 256 ^ (n + 1) = 256 * 256 ^ n := Nat.pow_succ'
      rw [leBytes, leNat, ih, BitVec.toNat_ofNat, hpow, Nat.mod_mul]

/-- A byte list stands for a number of its width. -/
theorem leNat_lt (bs : List Byte) : leNat bs < 256 ^ bs.length := by
  induction bs with
  | nil => simp [leNat]
  | cons b bs ih =>
      have hb := b.isLt
      have hpow : 256 ^ (b :: bs).length = 256 * 256 ^ bs.length := Nat.pow_succ'
      rw [leNat, hpow]
      omega

namespace Memory

variable {m : Memory Byte} {a : Nat} {w : Nat}

/-- Load a `w`-byte word. -/
def loadWord (m : Memory Byte) (w a : Nat) : BitVec (8 * w) :=
  BitVec.ofNat _ (leNat (m.read a w))

/-- Store a `w`-byte word. -/
def storeWord (m : Memory Byte) (w a : Nat) (v : BitVec (8 * w)) : Memory Byte :=
  m.write a (leBytes w v.toNat)

theorem loadWord_storeWord (v : BitVec (8 * w)) : (m.storeWord w a v).loadWord w a = v := by
  have hlen : (leBytes w v.toNat).length = w := length_leBytes w v.toNat
  have hread : (m.storeWord w a v).read a w = leBytes w v.toNat := by
    have hself : (m.write a (leBytes w v.toNat)).read a (leBytes w v.toNat).length =
        leBytes w v.toNat := read_write_self
    rwa [hlen] at hself
  have hpow : 256 ^ w = 2 ^ (8 * w) := by rw [Nat.pow_mul]
  rw [loadWord, hread, leNat_leBytes, hpow, Nat.mod_eq_of_lt v.isLt, BitVec.ofNat_toNat,
    BitVec.setWidth_eq]

/-- A word store changes its own cells only. -/
theorem storeWord_of_not_mem {v : BitVec (8 * w)} {x : Nat} (h : x < a ∨ a + w ≤ x) :
    m.storeWord w a v x = m x := by
  rcases h with h | h
  · exact write_of_lt h
  · exact write_of_ge (by simpa using h)

/-- A load only looks at its own cells. -/
theorem loadWord_congr {m' : Memory Byte} (h : ∀ x, a ≤ x → x < a + w → m x = m' x) :
    m.loadWord w a = m'.loadWord w a := by
  rw [loadWord, loadWord, read_congr h]

end Memory
