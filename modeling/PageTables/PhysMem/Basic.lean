import Mathlib

/-!
# Machine words and the physical region

The managers of physical memory compute on `uint64_t`, `size_t` and
`uintptr_t`.  We keep every quantity a natural number and write the wrap of
the 64-bit operations explicitly, at the places where an argument chosen by the
caller can carry a result past `2 ^ 64`.
-/

namespace PageTables

def physMemBase : Nat := 16 * 1024 * 1024 * 1024

/-- The circuit breaker of both constructors: at most 2 GiB of memory. -/
def maxMemorySize : Nat := 2 * 1024 * 1024 * 1024

def add64 (a b : Nat) : Nat := (a + b) % 2 ^ 64

def sub64 (a b : Nat) : Nat := (a + 2 ^ 64 - b % 2 ^ 64) % 2 ^ 64

inductive MemOp
  | allocatePages (count : Nat)
  | releasePages (addr count : Nat)
deriving DecidableEq, Repr

/-! ## The region of both managers

Both constructors check `nPages * pageSize` against `maxMemorySize` and place the
region at `physMemBase`; the bounds that follow are stated once, over those fields. -/

theorem nPages_le_maxMemorySize {nPages pageSize : Nat}
    (hsize : nPages * pageSize ≤ maxMemorySize) (hpos : pageSize = 0 → nPages = 0) :
    nPages ≤ maxMemorySize := by
  rcases Nat.eq_zero_or_pos pageSize with h0 | h0
  · simp [hpos h0, maxMemorySize]
  · exact le_trans (Nat.le_mul_of_pos_right _ h0) hsize

theorem region_page_addr_lt {nPages pageSize s : Nat}
    (hsize : nPages * pageSize ≤ maxMemorySize) (hs : s ≤ nPages) :
    physMemBase + s * pageSize < 2 ^ 64 := by
  have := Nat.mul_le_mul_right pageSize hs
  unfold physMemBase
  unfold maxMemorySize at hsize
  omega

theorem add64_of_lt {a b : Nat} (h : a + b < 2 ^ 64) : add64 a b = a + b :=
  Nat.mod_eq_of_lt h

theorem sub64_of_le {a b : Nat} (hb : b ≤ a) (ha : a < 2 ^ 64) : sub64 a b = a - b := by
  unfold sub64
  rw [Nat.mod_eq_of_lt (by omega : b < 2 ^ 64)]
  rw [show a + 2 ^ 64 - b = (a - b) + 2 ^ 64 by omega, Nat.add_mod_right]
  exact Nat.mod_eq_of_lt (by omega)

end PageTables
