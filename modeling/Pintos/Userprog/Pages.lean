import Pintos.Userprog.Memory

/-!
# Pages — the arithmetic of addresses and pages

The macros of `threads/vaddr.h` mask bits; as numbers they are the quotient and the remainder by
`PGSIZE`.
-/

namespace Pintos
namespace Userprog

variable {a b : Word}

theorem toNat_physBase : PHYS_BASE.toNat = 3221225472 := rfl

theorem toNat_pgsize : (BitVec.ofNat 32 PGSIZE).toNat = 4096 := rfl

theorem toNat_pgOfs (a : Word) : (pgOfs a).toNat = a.toNat % PGSIZE := by
  rw [pgOfs, BitVec.toNat_and]
  exact Nat.and_two_pow_sub_one_eq_mod a.toNat 12

theorem pgOfs_eq_zero : pgOfs a = 0 ↔ a.toNat % PGSIZE = 0 := by
  have hzero : (0 : Word).toNat = 0 := rfl
  rw [← BitVec.toNat_inj, toNat_pgOfs, hzero]

/-- An address is its page and its offset in the page. -/
theorem pgRoundDown_add_pgOfs (a : Word) : pgRoundDown a + pgOfs a = a := by
  have hdisjoint : pgRoundDown a &&& pgOfs a = 0#32 := by
    unfold pgRoundDown pgOfs
    ext i hi
    simp only [BitVec.getElem_and, BitVec.getElem_not, BitVec.getElem_zero]
    cases a[i] <;> cases PGMASK[i] <;> rfl
  have hall : ~~~PGMASK ||| PGMASK = BitVec.allOnes 32 := by decide
  rw [BitVec.add_eq_or_of_and_eq_zero _ _ hdisjoint, pgRoundDown, pgOfs,
    ← BitVec.and_or_distrib_left, hall, BitVec.and_allOnes]

theorem toNat_pgRoundDown (a : Word) : (pgRoundDown a).toNat = a.toNat - a.toNat % PGSIZE := by
  have hsum := congrArg BitVec.toNat (pgRoundDown_add_pgOfs a)
  have hle : (pgRoundDown a).toNat ≤ a.toNat := by
    rw [pgRoundDown, BitVec.toNat_and]
    exact Nat.and_le_left
  have hlt := a.isLt
  rw [BitVec.toNat_add, toNat_pgOfs] at hsum
  simp only [PGSIZE] at hsum ⊢
  omega

theorem pgOfs_pgRoundDown (a : Word) : pgOfs (pgRoundDown a) = 0 := by
  rw [pgOfs_eq_zero, toNat_pgRoundDown]
  simp only [PGSIZE]
  omega

theorem pgRoundDown_idem (a : Word) : pgRoundDown (pgRoundDown a) = pgRoundDown a := by
  apply BitVec.eq_of_toNat_eq
  rw [toNat_pgRoundDown (pgRoundDown a), toNat_pgRoundDown]
  simp only [PGSIZE]
  omega

/-- `PHYS_BASE` is the start of a page. -/
theorem pgRoundDown_lt_physBase : pgRoundDown a < PHYS_BASE ↔ a < PHYS_BASE := by
  rw [BitVec.lt_def, BitVec.lt_def, toNat_pgRoundDown, toNat_physBase]
  simp only [PGSIZE]
  omega

theorem pgRoundDown_mono (h : a ≤ b) : pgRoundDown a ≤ pgRoundDown b := by
  rw [BitVec.le_def] at h ⊢
  rw [toNat_pgRoundDown, toNat_pgRoundDown]
  simp only [PGSIZE]
  omega

/-- The start of a page that lies between the page of `a` and `a`. -/
theorem eq_pgRoundDown (hpage : pgOfs b = 0) (hfirst : pgRoundDown a ≤ b) (hle : b ≤ a) :
    b = pgRoundDown a := by
  apply BitVec.eq_of_toNat_eq
  rw [pgOfs_eq_zero] at hpage
  rw [BitVec.le_def, toNat_pgRoundDown] at hfirst
  rw [BitVec.le_def] at hle
  rw [toNat_pgRoundDown]
  simp only [PGSIZE] at *
  omega

/-- An offset that does not wrap around. -/
theorem toNat_offset {i : ℕ} (h : a.toNat + i < 2 ^ 32) :
    (a + BitVec.ofNat 32 i).toNat = a.toNat + i := by
  rw [BitVec.toNat_add, BitVec.toNat_ofNat]
  omega

end Userprog
end Pintos
