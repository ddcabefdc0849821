import Mathlib.Tactic

/-!
# Byte-addressed memory with 32-bit words

A memory maps every 32-bit address to one byte.  Words are stored in
little-endian order, at any address, and address arithmetic wraps.  The lemmas
below say when a word read sees an earlier word write or block fill and when
it does not; the aligned forms are the ones that clients use, because two
different word-aligned addresses never share a byte.
-/

namespace ByteMemory

abbrev Word := BitVec 32

abbrev Memory := Word → BitVec 8

def read32 (mem : Memory) (addr : Word) : Word :=
  mem (addr + 3) ++ mem (addr + 2) ++ mem (addr + 1) ++ mem addr

def write32 (mem : Memory) (addr value : Word) : Memory := fun query =>
  if (query - addr).toNat < 4 then
    value.extractLsb' (8 * (query - addr).toNat) 8
  else
    mem query

/-- Fill `count` consecutive bytes, as the C library's `memset` does. -/
def memset (mem : Memory) (addr : Word) (value : BitVec 8) (count : ℕ) :
    Memory := fun query =>
  if (query - addr).toNat < count then value else mem query

def Aligned (addr : Word) : Prop := addr.toNat % 4 = 0

instance (addr : Word) : Decidable (Aligned addr) :=
  inferInstanceAs (Decidable (_ = _))

theorem write32_of_far
    (mem : Memory) (addr value query : Word)
    (hfar : 4 ≤ (query - addr).toNat) :
    write32 mem addr value query = mem query := by
  unfold write32
  exact if_neg (Nat.not_lt.mpr hfar)

theorem memset_of_far
    {mem : Memory} {addr query : Word} {value : BitVec 8} {count : ℕ}
    (hfar : count ≤ (query - addr).toNat) :
    memset mem addr value count query = mem query := by
  unfold memset
  exact if_neg (Nat.not_lt.mpr hfar)

theorem memset_of_near
    {mem : Memory} {addr query : Word} {value : BitVec 8} {count : ℕ}
    (hnear : (query - addr).toNat < count) :
    memset mem addr value count query = value := by
  unfold memset
  exact if_pos hnear

/-- A word depends on its four bytes only. -/
theorem read32_congr
    {mem mem' : Memory} {addr : Word}
    (hbytes : ∀ offset : Word, offset.toNat < 4 →
      mem' (addr + offset) = mem (addr + offset)) :
    read32 mem' addr = read32 mem addr := by
  have h0 : mem' addr = mem addr := by
    simpa using hbytes 0 (by decide)
  have h1 := hbytes 1 (by decide)
  have h2 := hbytes 2 (by decide)
  have h3 := hbytes 3 (by decide)
  simp only [read32, h0, h1, h2, h3]

theorem word_of_bytes (value : Word) :
    value.extractLsb' 24 8 ++ value.extractLsb' 16 8 ++
      value.extractLsb' 8 8 ++ value.extractLsb' 0 8 = value := by
  apply BitVec.eq_of_getLsbD_eq
  intro i hi
  simp
  grind

@[simp] theorem read32_write32_self
    (mem : Memory) (addr value : Word) :
    read32 (write32 mem addr value) addr = value := by
  have h1 : addr + 1 - addr = 1 := by bv_omega
  have h2 : addr + 2 - addr = 2 := by bv_omega
  have h3 : addr + 3 - addr = 3 := by bv_omega
  simp only [read32, write32, h1, h2, h3, BitVec.sub_self]
  exact word_of_bytes value

theorem read32_write32_of_disjoint
    (mem : Memory) (addr other value : Word)
    (hbelow : 4 ≤ (addr - other).toNat) (habove : 4 ≤ (other - addr).toNat) :
    read32 (write32 mem addr value) other = read32 mem other := by
  apply read32_congr
  intro offset hoffset
  apply write32_of_far
  bv_omega

theorem disjoint_of_aligned_ne
    {addr other : Word} (haddr : Aligned addr) (hother : Aligned other)
    (hne : other ≠ addr) :
    4 ≤ (addr - other).toNat ∧ 4 ≤ (other - addr).toNat := by
  unfold Aligned at haddr hother
  constructor <;> bv_omega

theorem read32_write32_of_ne
    {mem : Memory} {addr other value : Word}
    (haddr : Aligned addr) (hother : Aligned other) (hne : other ≠ addr) :
    read32 (write32 mem addr value) other = read32 mem other := by
  have hfar := disjoint_of_aligned_ne haddr hother hne
  exact read32_write32_of_disjoint mem addr other value hfar.1 hfar.2

/-- Among aligned addresses, a write changes exactly the word it names. -/
theorem read32_write32_aligned
    (mem : Memory) {addr other : Word} (value : Word)
    (haddr : Aligned addr) (hother : Aligned other) :
    read32 (write32 mem addr value) other =
      if other = addr then value else read32 mem other := by
  by_cases heq : other = addr
  · subst other
    simp
  · rw [if_neg heq]
    exact read32_write32_of_ne haddr hother heq

theorem read32_memset_inside
    {mem : Memory} {addr other : Word} {count : ℕ}
    (hinside : (other - addr).toNat + 4 ≤ count) :
    read32 (memset mem addr 0 count) other = 0 := by
  have hbyte : ∀ offset : Word, offset.toNat < 4 →
      memset mem addr 0 count (other + offset) = 0 := by
    intro offset hoffset
    apply memset_of_near
    have hsum : other + offset - addr = (other - addr) + offset := by bv_omega
    rw [hsum, BitVec.toNat_add]
    have hle := Nat.mod_le ((other - addr).toNat + offset.toNat) (2 ^ 32)
    omega
  have h0 : memset mem addr 0 count other = 0 := by
    simpa using hbyte 0 (by decide)
  simp only [read32, h0, hbyte 1 (by decide), hbyte 2 (by decide),
    hbyte 3 (by decide)]
  decide

theorem read32_memset_outside
    {mem : Memory} {addr other : Word} {value : BitVec 8} {count : ℕ}
    (hbelow : 4 ≤ (addr - other).toNat)
    (habove : count ≤ (other - addr).toNat) :
    read32 (memset mem addr value count) other = read32 mem other := by
  apply read32_congr
  intro offset hoffset
  apply memset_of_far
  have hlt := (addr - other).isLt
  bv_omega

/-! ## Fields of a word -/

theorem field_of_low {m n : ℕ} (high : BitVec m) (low : BitVec n) :
    (high ++ low).extractLsb' 0 n = low := by
  apply BitVec.eq_of_getLsbD_eq
  intro i hi
  simp [BitVec.getLsbD_append, hi]

theorem field_of_high
    {m n start len : ℕ} (high : BitVec m) (low : BitVec n)
    (hstart : n ≤ start) :
    (high ++ low).extractLsb' start len =
      high.extractLsb' (start - n) len := by
  rw [BitVec.extractLsb'_append_eq_ite, dif_neg (Nat.not_lt.mpr hstart)]

end ByteMemory
