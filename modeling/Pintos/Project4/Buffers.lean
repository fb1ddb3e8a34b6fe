import Pintos.Project4.Handler
import Pintos.Userprog.Pages

/-!
# Buffers — what do the checks of user buffers and strings let through?

`check_valid_buffer` and `check_str` walk over the pages from the first byte on and stop at the end
of the range, which is computed modulo `2 ^ 32`.  Neither of them asks in which direction the kernel
is going to access the bytes.
-/

namespace Pintos
namespace Project4

open Userprog

/-! ## The pages that the loops go through -/

/-- Some page between the page of `a` and the address `stop`. -/
structure LoopPage (a stop u : Word) : Prop where
  aligned : pgOfs u = 0
  first : pgRoundDown a ≤ u
  last : u < stop

/-- The loop comes to its end just when its body does so on every page. -/
theorem pageLoop_ok_iff {body : Word → Access Unit}
    (hkernel : ∀ p, (body p).result = .ok () → p < PHYS_BASE) (n : ℕ) :
    ∀ {ptr stop : Word}, PHYS_BASE.toNat ≤ ptr.toNat + n * PGSIZE →
      ((pageLoop body (n + 1) ptr stop).result = .ok () ↔
        ∀ k, ptr.toNat + k * PGSIZE < stop.toNat →
          (body (BitVec.ofNat 32 (ptr.toNat + k * PGSIZE))).result = .ok ()) := by
  induction n with
  | zero =>
      intro ptr stop hn
      rw [pageLoop]
      split
      case isTrue hlt =>
        rw [BitVec.lt_def] at hlt
        -- the body does not accept this page
        have hnot : (body ptr).result ≠ .ok () := by
          intro hok
          have hbase := hkernel ptr hok
          rw [BitVec.lt_def] at hbase
          omega
        refine iff_of_false (fun hloop => ?_) fun hall => hnot ?_
        · cases hr : (body ptr).result with
          | error s =>
              rw [Access.bind_error hr] at hloop
              cases hloop
          | ok u =>
              exact hnot hr
        · have hfirst := hall 0 (by simpa using hlt)
          simpa using hfirst
      case isFalse hge =>
        rw [BitVec.lt_def] at hge
        exact iff_of_true rfl fun k hk => by omega
  | succ n ih =>
      intro ptr stop hn
      rw [pageLoop]
      split
      case isTrue hlt =>
        rw [BitVec.lt_def] at hlt
        cases hr : (body ptr).result with
        | error s =>
            rw [Access.bind_error hr]
            refine iff_of_false (by simp) fun hall => ?_
            have hfirst := hall 0 (by simpa using hlt)
            rw [Nat.zero_mul, Nat.add_zero, BitVec.ofNat_toNat, BitVec.setWidth_eq, hr] at hfirst
            cases hfirst
        | ok u =>
            rw [Access.bind_ok hr]
            have hbase := hkernel ptr hr
            rw [BitVec.lt_def, toNat_physBase] at hbase
            -- the next page does not wrap around
            have hnext : (ptr + BitVec.ofNat 32 PGSIZE).toNat = ptr.toNat + PGSIZE := by
              rw [BitVec.toNat_add, toNat_pgsize, PGSIZE]
              omega
            have hrest := @ih (ptr + BitVec.ofNat 32 PGSIZE) stop (by rw [hnext]; linarith)
            refine hrest.trans ⟨fun hall k hk => ?_, fun hall k hk => ?_⟩
            · cases k with
              | zero =>
                  rw [Nat.zero_mul, Nat.add_zero, BitVec.ofNat_toNat, BitVec.setWidth_eq]
                  exact hr
              | succ k =>
                  have hk' := hall k (by rw [hnext]; linarith)
                  rwa [hnext, Nat.add_assoc, Nat.add_comm PGSIZE, ← Nat.succ_mul] at hk'
            · have hk' := hall (k + 1) (by rw [hnext] at hk; linarith)
              rwa [hnext, Nat.add_assoc, Nat.add_comm PGSIZE, ← Nat.succ_mul]
      case isFalse hge =>
        rw [BitVec.lt_def] at hge
        exact iff_of_true rfl fun k hk => by omega

theorem loopPage_iff {a stop u : Word} :
    LoopPage a stop u ↔ ∃ k, (pgRoundDown a).toNat + k * PGSIZE < stop.toNat ∧
      u = BitVec.ofNat 32 ((pgRoundDown a).toNat + k * PGSIZE) := by
  have hstop := stop.isLt
  constructor
  · intro h
    have haligned := pgOfs_eq_zero.1 h.aligned
    have hfirst := h.first
    have hlast := h.last
    rw [BitVec.le_def] at hfirst
    rw [BitVec.lt_def] at hlast
    have hpage := toNat_pgRoundDown a
    simp only [PGSIZE] at haligned hpage ⊢
    -- both are multiples of the page size
    have hsum : (pgRoundDown a).toNat + (u.toNat - (pgRoundDown a).toNat) / 4096 * 4096 =
        u.toNat := by
      omega
    refine ⟨(u.toNat - (pgRoundDown a).toNat) / 4096, by rw [hsum]; exact hlast, ?_⟩
    rw [hsum, BitVec.ofNat_toNat, BitVec.setWidth_eq]
  · rintro ⟨k, hk, rfl⟩
    have hpage := toNat_pgRoundDown a
    have hu : (BitVec.ofNat 32 ((pgRoundDown a).toNat + k * PGSIZE)).toNat =
        (pgRoundDown a).toNat + k * PGSIZE := by
      rw [BitVec.toNat_ofNat]
      exact Nat.mod_eq_of_lt (hk.trans hstop)
    refine ⟨?_, ?_, ?_⟩
    · rw [pgOfs_eq_zero, hu]
      simp only [PGSIZE] at hpage ⊢
      omega
    · rw [BitVec.le_def, hu]
      exact Nat.le_add_right _ _
    · rw [BitVec.lt_def, hu]
      exact hk

/-! ## What the checks accept -/

section Checks

variable {entry : Word → Option Bool} {buffer size a stop p : Word}

/-- The page lies in the user's part of the address space, and its entry is writable. -/
def WritablePage (entry : Word → Option Bool) (u : Word) : Prop :=
  u < PHYS_BASE ∧ entry (pgRoundDown u) = some true

theorem checkBufferPage_ok : (checkBufferPage entry p).result = .ok () ↔ WritablePage entry p := by
  rw [checkBufferPage_result, WritablePage]
  split
  · next hpage => exact iff_of_true rfl hpage
  · next hpage => exact iff_of_false nofun hpage

theorem checkStrPage_ok : (checkStrPage entry p).result = .ok () ↔ WritablePage entry p := by
  rw [checkStrPage_result]
  exact checkBufferPage_ok

/-- A loop over pages whose body accepts the writable ones. -/
theorem checkPages_ok {body : Word → Access Unit}
    (hbody : ∀ p, (body p).result = .ok () ↔ WritablePage entry p) :
    (pageLoop body pageFuel (pgRoundDown a) stop).result = .ok () ↔
      ∀ u, LoopPage a stop u → WritablePage entry u := by
  have hfuel : PHYS_BASE.toNat ≤ (pgRoundDown a).toNat + 2 ^ 20 * PGSIZE := by
    rw [toNat_physBase, PGSIZE]
    omega
  refine (pageLoop_ok_iff (fun p hp => ((hbody p).1 hp).1) (2 ^ 20) hfuel).trans ?_
  constructor
  · intro hall u hu
    obtain ⟨k, hk, rfl⟩ := loopPage_iff.1 hu
    exact (hbody _).1 (hall k hk)
  · intro hall k hk
    exact (hbody _).2 (hall _ (loopPage_iff.2 ⟨k, hk, rfl⟩))

theorem checkValidBuffer_ok : (checkValidBuffer entry buffer size).result = .ok () ↔
    ∀ u, LoopPage buffer (buffer + size) u → WritablePage entry u :=
  checkPages_ok fun _ => checkBufferPage_ok

theorem checkStr_ok {len : ℕ} : (checkStr entry a len).result = .ok () ↔
    ∀ u, LoopPage a (a + BitVec.ofNat 32 len) u → WritablePage entry u :=
  checkPages_ok fun _ => checkStrPage_ok

theorem writablePage_pgRoundDown : WritablePage entry (pgRoundDown a) ↔ WritablePage entry a := by
  rw [WritablePage, WritablePage, pgRoundDown_lt_physBase, pgRoundDown_idem]

/-- The page of a byte that lies below `stop`. -/
theorem LoopPage.of_byte {i : ℕ} (h : a.toNat + i < stop.toNat) :
    LoopPage a stop (pgRoundDown (a + BitVec.ofNat 32 i)) := by
  have haddr : (a + BitVec.ofNat 32 i).toNat = a.toNat + i :=
    toNat_offset (h.trans stop.isLt)
  refine ⟨pgOfs_pgRoundDown _, pgRoundDown_mono ?_, ?_⟩
  · rw [BitVec.le_def, haddr]
    exact Nat.le_add_right _ _
  · rw [BitVec.lt_def, toNat_pgRoundDown, haddr]
    exact lt_of_le_of_lt (Nat.sub_le _ _) h

/-! ## The whole buffer -/

/-- When the check returns, the bytes of the buffer, counted without wrapping around, lie below
`PHYS_BASE` in pages with a writable entry. -/
def CoversBuffer (entry : Word → Option Bool) (buffer size : Word) : Prop :=
  (checkValidBuffer entry buffer size).result = .ok () →
    ∀ i < size.toNat, buffer.toNat + i < PHYS_BASE.toNat ∧
      entry (pgRoundDown (BitVec.ofNat 32 (buffer.toNat + i))) = some true

theorem coversBuffer_of_noWrap (h : buffer.toNat + size.toNat < 2 ^ 32) :
    CoversBuffer entry buffer size := by
  intro hok i hi
  have hstop : (buffer + size).toNat = buffer.toNat + size.toNat := by
    rw [BitVec.toNat_add]
    exact Nat.mod_eq_of_lt h
  have hbyte : buffer.toNat + i < (buffer + size).toNat := by omega
  have hpage := checkValidBuffer_ok.1 hok _ (LoopPage.of_byte hbyte)
  rw [writablePage_pgRoundDown] at hpage
  obtain ⟨huser, hentry⟩ := hpage
  have haddr : (buffer + BitVec.ofNat 32 i).toNat = buffer.toNat + i := toNat_offset (by omega)
  refine ⟨?_, ?_⟩
  · rwa [BitVec.lt_def, haddr] at huser
  · rwa [← haddr, BitVec.ofNat_toNat, BitVec.setWidth_eq]

/-- `check_valid_buffer` comes to an end.  It covers the buffer exactly when the buffer's end does
not wrap around, or comes to lie in the first page again and that page does not pass. -/
theorem check_valid_buffer_covers_iff (entry : Word → Option Bool) (buffer size : Word) :
    (checkValidBuffer entry buffer size).result ≠ .error .endless ∧
      (CoversBuffer entry buffer size ↔ buffer.toNat + size.toNat < 2 ^ 32 ∨
        (pgRoundDown buffer < buffer + size ∧ ¬ WritablePage entry buffer)) := by
  refine ⟨checkValidBuffer_ne_endless _ _, ?_⟩
  constructor
  · intro hcovers
    by_contra hnot
    rw [not_or, not_lt] at hnot
    obtain ⟨hwrap, hpage⟩ := hnot
    have hbuffer := buffer.isLt
    have hsize := size.isLt
    have hstop : (buffer + size).toNat < buffer.toNat := by
      rw [BitVec.toNat_add]
      omega
    -- the loop goes through the first page at most
    have hok : (checkValidBuffer entry buffer size).result = .ok () := by
      refine checkValidBuffer_ok.2 fun u hu => ?_
      have hlast := hu.last
      have hle : u ≤ buffer := by
        rw [BitVec.lt_def] at hlast
        rw [BitVec.le_def]
        omega
      have heq := eq_pgRoundDown hu.aligned hu.first hle
      rw [heq] at hlast ⊢
      rw [writablePage_pgRoundDown]
      by_contra hwritable
      exact hpage ⟨hlast, hwritable⟩
    -- the last byte of the address space belongs to the buffer
    have hbyte := (hcovers hok (2 ^ 32 - 1 - buffer.toNat) (by omega)).1
    rw [toNat_physBase] at hbyte
    omega
  · rintro (hno | ⟨hfirst, hpage⟩)
    · exact coversBuffer_of_noWrap hno
    · intro hok
      -- the first page has been checked
      have hpass := checkValidBuffer_ok.1 hok (pgRoundDown buffer)
        ⟨pgOfs_pgRoundDown _, le_refl _, hfirst⟩
      exact absurd (writablePage_pgRoundDown.1 hpass) hpage

/-- A page in the middle of the address space and a size that leads to its start. -/
theorem check_valid_buffer_wraps :
    ¬ ∀ (entry : Word → Option Bool) (buffer size : Word), CoversBuffer entry buffer size := by
  intro hall
  rcases (check_valid_buffer_covers_iff (fun _ => none) 0x08048000 0xf7fb8000).2.1
    (hall _ _ _) with hno | ⟨hfirst, -⟩
  · exact absurd hno (by decide)
  · exact absurd hfirst (by decide)

end Checks

/-! ## The calls that hand over a range -/

theorem Access.bind_result {α β : Type} (x : Access α) (f : α → Access β) :
    (x >>= f).result = x.result.bind fun a => (f a).result := by
  cases hx : x.result with
  | error s =>
      rw [Access.bind_error hx]
      rfl
  | ok a =>
      rw [Access.bind_ok hx]
      rfl

theorem map_unit_eq_ok {α : Type} {x : Except Stop Unit} {b : α} :
    (x.map fun _ => b) = .ok b ↔ x = .ok () := by
  cases x <;> simp [Except.map]

theorem map_unit_endless {α : Type} {x : Except Stop Unit} {b : α} (h : x ≠ .error .endless) :
    (x.map fun _ => b) ≠ .error .endless := by
  cases x with
  | error e => simpa [Except.map] using h
  | ok u => simp [Except.map]

section Calls

variable {mem : Word → Option Byte} {entry : Word → Option Bool} {esp a fd size : Word} {n : ℕ}

/-- The four bytes at the address `p` are there and are those of `w`. -/
def Fetches (mem : Word → Option Byte) (p w : Word) : Prop := (readWord mem p).result = .ok w

/-- A string of length `n` lies at `a`. -/
structure StringAt (mem : Word → Option Byte) (a : Word) (n : ℕ) : Prop where
  chars : ∀ i < n, ∃ c, mem (a + BitVec.ofNat 32 i) = some c ∧ c ≠ 0
  zero : mem (a + BitVec.ofNat 32 n) = some 0

theorem readByte_ok {p : Word} {c : Byte} : (readByte mem p).result = .ok c ↔ mem p = some c := by
  cases hp : mem p <;> simp [readByte, hp]

/-- The scan goes on over the bytes that are not zero, up to the first zero byte. -/
theorem scanString_ok {charAt : Word → Access Byte} (fuel : ℕ) : ∀ {len m : ℕ},
    (scanString charAt fuel len).result = .ok m ↔ ∃ k < fuel, m = len + k ∧
      (∀ i < k, ∃ c, (charAt (BitVec.ofNat 32 (len + i))).result = .ok c ∧ c ≠ 0) ∧
      (charAt (BitVec.ofNat 32 (len + k))).result = .ok 0 := by
  induction fuel with
  | zero =>
      intro len m
      simp [scanString, Access.stop]
  | succ fuel ih =>
      intro len m
      rw [scanString]
      cases hr : (charAt (BitVec.ofNat 32 len)).result with
      | error e =>
          rw [Access.bind_error hr]
          refine iff_of_false (by simp) ?_
          -- neither a byte of the string nor its end
          rintro ⟨k, -, -, hchars, hzero⟩
          cases k with
          | zero =>
              rw [Nat.add_zero, hr] at hzero
              cases hzero
          | succ k =>
              obtain ⟨c, hc, -⟩ := hchars 0 (Nat.succ_pos k)
              rw [Nat.add_zero, hr] at hc
              cases hc
      | ok c =>
          rw [Access.bind_ok hr]
          by_cases hc : c = 0
          · subst hc
            rw [if_pos rfl]
            constructor
            · intro hm
              cases hm
              exact ⟨0, Nat.succ_pos fuel, rfl, fun i hi => absurd hi (Nat.not_lt_zero i), hr⟩
            · rintro ⟨k, -, rfl, hchars, -⟩
              cases k with
              | zero => rfl
              | succ k =>
                  obtain ⟨c, hfirst, hne⟩ := hchars 0 (Nat.succ_pos k)
                  rw [Nat.add_zero, hr] at hfirst
                  exact absurd (Except.ok.inj hfirst).symm hne
          · rw [if_neg hc]
            refine ih.trans ⟨?_, ?_⟩
            · rintro ⟨k, hk, rfl, hchars, hzero⟩
              refine ⟨k + 1, Nat.succ_lt_succ hk, by omega, fun i hi => ?_, ?_⟩
              · cases i with
                | zero => exact ⟨c, hr, hc⟩
                | succ i =>
                    have hnext := hchars i (Nat.lt_of_succ_lt_succ hi)
                    rwa [Nat.add_assoc, Nat.add_comm 1] at hnext
              · rwa [Nat.add_assoc, Nat.add_comm 1] at hzero
            · rintro ⟨k, hk, rfl, hchars, hzero⟩
              cases k with
              | zero =>
                  rw [Nat.add_zero, hr] at hzero
                  exact absurd (Except.ok.inj hzero) hc
              | succ k =>
                  refine ⟨k, Nat.lt_of_succ_lt_succ hk, by omega, fun i hi => ?_, ?_⟩
                  · have hnext := hchars (i + 1) (Nat.succ_lt_succ hi)
                    rwa [Nat.add_comm i, ← Nat.add_assoc] at hnext
                  · rwa [Nat.add_comm k, ← Nat.add_assoc] at hzero

/-- A length is measured just when a string lies where the characters are read. -/
theorem strlenFrom_ok {charAt : Word → Access Byte} {p : Word} {m : ℕ}
    (hchar : ∀ i c, (charAt i).result = .ok c ↔ mem (p + i) = some c) :
    (strlenFrom charAt).result = .ok m ↔ m < 2 ^ 32 ∧ StringAt mem p m := by
  refine (scanString_ok (2 ^ 32)).trans ?_
  simp only [Nat.zero_add, hchar]
  constructor
  · rintro ⟨k, hk, rfl, hchars, hzero⟩
    exact ⟨hk, hchars, hzero⟩
  · rintro ⟨hm, hstr⟩
    exact ⟨m, hm, rfl, hstr.chars, hstr.zero⟩

theorem strlen_open (harg : Fetches mem (esp + 4) a) (hstr : StringAt mem a n) (hn : n < 2 ^ 32) :
    (strlenFrom fun i => do
      let str ← readWord mem (esp + 4)
      readByte mem (str + i)).result = .ok n := by
  refine (strlenFrom_ok fun i c => ?_).2 ⟨hn, hstr⟩
  rw [Access.bind_ok harg]
  exact readByte_ok

theorem dispatch_write (hfd : Fetches mem (esp + 4) fd) (hbuffer : Fetches mem (esp + 8) a)
    (hsize : Fetches mem (esp + 12) size) :
    (dispatch mem entry esp (some .write)).result =
      (checkValidBuffer entry a size).result.map fun _ => .write fd a size := by
  unfold Fetches at hfd hbuffer hsize
  simp only [dispatch, Access.bind_result, hfd, hbuffer, hsize, Except.bind]
  cases (checkValidBuffer entry a size).result <;> rfl

theorem dispatch_read (huser : esp + 4 < PHYS_BASE ∧ esp + 8 < PHYS_BASE ∧ esp + 12 < PHYS_BASE)
    (hfd : Fetches mem (esp + 4) fd) (hbuffer : Fetches mem (esp + 8) a)
    (hsize : Fetches mem (esp + 12) size) :
    (dispatch mem entry esp (some .read)).result =
      (checkValidBuffer entry a size).result.map fun _ => .read fd a size := by
  unfold Fetches at hfd hbuffer hsize
  simp only [dispatch, Access.bind_result, checkUserVaddr_user huser.1,
    checkUserVaddr_user huser.2.1, checkUserVaddr_user huser.2.2, hfd, hbuffer, hsize, Except.bind]
  cases (checkValidBuffer entry a size).result <;> rfl

theorem dispatch_open (huser : esp + 4 < PHYS_BASE) (harg : Fetches mem (esp + 4) a)
    (hstr : StringAt mem a n) (hn : n < 2 ^ 32) :
    (dispatch mem entry esp (some .open)).result =
      (checkStr entry a n).result.map fun _ => .open a := by
  have hlen := strlen_open harg hstr hn
  unfold Fetches at harg
  simp only [dispatch]
  rw [Access.bind_result, checkUserVaddr_user huser]
  simp only [Except.bind]
  rw [Access.bind_result, hlen]
  simp only [Access.bind_result, harg, Except.bind]
  cases (checkStr entry a n).result <;> rfl

/-- The length that `exec` checks is that of the string which starts at `esp + 4`, on the stack. -/
theorem dispatch_exec (huser : esp + 4 < PHYS_BASE) (harg : Fetches mem (esp + 4) a) :
    (dispatch mem entry esp (some .exec)).result = .ok (.exec a) ↔
      ∃ k < 2 ^ 32, StringAt mem (esp + 4) k ∧ (checkStr entry a k).result = .ok () := by
  have hlen : ∀ k, (strlenFrom fun i => readByte mem (esp + 4 + i)).result = .ok k ↔
      k < 2 ^ 32 ∧ StringAt mem (esp + 4) k :=
    fun k => strlenFrom_ok fun i c => readByte_ok
  unfold Fetches at harg
  simp only [dispatch]
  rw [Access.bind_result, checkUserVaddr_user huser]
  simp only [Except.bind]
  rw [Access.bind_result]
  cases hscan : (strlenFrom fun i => readByte mem (esp + 4 + i)).result with
  | error e =>
      refine iff_of_false nofun ?_
      rintro ⟨k, hk, hstr, -⟩
      have hok := (hlen k).2 ⟨hk, hstr⟩
      rw [hscan] at hok
      cases hok
  | ok k =>
      have hone : ∀ k', (k' < 2 ^ 32 ∧ StringAt mem (esp + 4) k') ↔ k' = k := fun k' => by
        rw [← hlen k', hscan, Except.ok.injEq, eq_comm]
      simp only [Except.bind, Access.bind_result, harg]
      constructor
      · intro hok
        obtain ⟨hk, hstr⟩ := (hone k).2 rfl
        refine ⟨k, hk, hstr, ?_⟩
        cases hcheck : (checkStr entry a k).result with
        | error e =>
            rw [hcheck] at hok
            cases hok
        | ok u => rfl
      · rintro ⟨k', hk, hstr, hcheck⟩
        rw [← (hone k').1 ⟨hk, hstr⟩, hcheck]
        rfl


/-- With a zero byte in the memory the scan of `exec` ends. -/
theorem dispatch_exec_ends {p : Word} (huser : esp + 4 < PHYS_BASE)
    (harg : Fetches mem (esp + 4) a) (hzero : mem p = some 0) :
    (dispatch mem entry esp (some .exec)).result ≠ .error .endless := by
  have hbyte : ∀ i, (readByte mem (esp + 4 + i)).result ≠ .error .endless := by
    intro i
    unfold readByte
    cases mem (esp + 4 + i) <;> simp
  have hscan : (strlenFrom fun i => readByte mem (esp + 4 + i)).result ≠ .error .endless := by
    intro hend
    obtain ⟨c, hc, hne⟩ := scanString_endless hbyte (2 ^ 32) hend (p - (esp + 4)).toNat
      (Nat.zero_le _) (by rw [Nat.zero_add]; exact (p - (esp + 4)).isLt)
    rw [BitVec.ofNat_toNat, BitVec.setWidth_eq, add_sub_cancel] at hc
    exact hne (Option.some.inj ((readByte_ok.1 hc).symm.trans hzero))
  unfold Fetches at harg
  simp only [dispatch]
  rw [Access.bind_result, checkUserVaddr_user huser]
  simp only [Except.bind]
  rw [Access.bind_result]
  cases hlen : (strlenFrom fun i => readByte mem (esp + 4 + i)).result with
  | error e =>
      rw [hlen] at hscan
      simpa [Except.bind] using hscan
  | ok k =>
      simp only [Except.bind, Access.bind_result, harg]
      have hcheck := @checkStr_ne_endless entry a k
      cases hr : (checkStr entry a k).result with
      | error e =>
          rw [hr] at hcheck
          simpa using hcheck
      | ok u =>
          exact nofun

/-! ## Ranges of correct programs -/

/-- Every byte of the range lies in a page with a writable entry. -/
def WritableRange (entry : Word → Option Bool) (a : Word) (n : ℕ) : Prop :=
  ∀ i < n, entry (pgRoundDown (a + BitVec.ofNat 32 i)) = some true

/-- The calls that hand over a range of user memory. -/
inductive RangeCall
  | write (fd : Word)
  | openString
  | execString
  | read (fd : Word)
  deriving DecidableEq

namespace RangeCall

def nr : RangeCall → SyscallNr
  | .write _ => .write
  | .openString => .open
  | .execString => .exec
  | .read _ => .read

/-- The call that the handler goes on to make. -/
def request (a : Word) (n : ℕ) : RangeCall → Request
  | .write fd => .write fd a (BitVec.ofNat 32 n)
  | .openString => .open a
  | .execString => .exec a
  | .read fd => .read fd a (BitVec.ofNat 32 n)

/-- The memory of a process that calls with the `n` bytes at `a`: its arguments lie above `esp`, and
the bytes are those of the string where the call takes one. -/
def Made (mem : Word → Option Byte) (esp a : Word) (n : ℕ) : RangeCall → Prop
  | .write fd => Fetches mem (esp + 4) fd ∧ Fetches mem (esp + 8) a ∧
      Fetches mem (esp + 12) (BitVec.ofNat 32 n)
  | .openString | .execString => esp + 4 < PHYS_BASE ∧ Fetches mem (esp + 4) a ∧ StringAt mem a n
  | .read fd => (esp + 4 < PHYS_BASE ∧ esp + 8 < PHYS_BASE ∧ esp + 12 < PHYS_BASE) ∧
      Fetches mem (esp + 4) fd ∧ Fetches mem (esp + 8) a ∧
        Fetches mem (esp + 12) (BitVec.ofNat 32 n)

/-- The handler makes the call. -/
def Proceeds (mem : Word → Option Byte) (entry : Word → Option Bool) (esp a : Word) (n : ℕ)
    (call : RangeCall) : Prop :=
  (dispatch mem entry esp (some call.nr)).result = .ok (call.request a n)

/-- Data that the kernel only reads get through, and those that it writes to where they may be
written. -/
def LetsThrough (mem : Word → Option Byte) (entry : Word → Option Bool) (esp a : Word) (n : ℕ) :
    RangeCall → Prop
  | .read fd => (RangeCall.read fd).Proceeds mem entry esp a n ↔ WritableRange entry a n
  | call => call.Proceeds mem entry esp a n

/-- An empty range starts at a page or in a writable one. -/
def EmptyOk (entry : Word → Option Bool) (a : Word) (n : ℕ) : Prop :=
  n = 0 → pgOfs a = 0 ∨ entry (pgRoundDown a) = some true

/-- What it takes: for `exec` the range that counts is as long as the string at `esp + 4`. -/
def Suits (mem : Word → Option Byte) (entry : Word → Option Bool) (esp a : Word) (n : ℕ) :
    RangeCall → Prop
  | .write _ | .openString => WritableRange entry a n ∧ EmptyOk entry a n
  | .execString => ∃ k < 2 ^ 32, StringAt mem (esp + 4) k ∧
      ∀ u, LoopPage a (a + BitVec.ofNat 32 k) u → WritablePage entry u
  | .read _ => EmptyOk entry a n

end RangeCall

/-- The loops accept a range just when it is writable, with the page of the address of an empty
range that does not start at a page. -/
theorem loopPages_writable_iff (hrange : a.toNat + n ≤ PHYS_BASE.toNat) :
    (∀ u, LoopPage a (a + BitVec.ofNat 32 n) u → WritablePage entry u) ↔
      WritableRange entry a n ∧ RangeCall.EmptyOk entry a n := by
  have hbase := toNat_physBase
  have hstop : (a + BitVec.ofNat 32 n).toNat = a.toNat + n := toNat_offset (by omega)
  constructor
  · intro hall
    refine ⟨fun i hi => ?_, fun hn => ?_⟩
    · have hpage := hall _ (LoopPage.of_byte (a := a) (i := i) (by rw [hstop]; omega))
      exact (writablePage_pgRoundDown.1 hpage).2
    · by_cases haligned : pgOfs a = 0
      · exact Or.inl haligned
      · refine Or.inr (writablePage_pgRoundDown.1 (hall (pgRoundDown a) ?_)).2
        refine ⟨pgOfs_pgRoundDown a, le_refl _, ?_⟩
        -- the page starts before the address
        rw [pgOfs_eq_zero] at haligned
        rw [BitVec.lt_def, hstop, toNat_pgRoundDown]
        simp only [PGSIZE] at haligned ⊢
        omega
  · rintro ⟨hwritable, hempty⟩ u hu
    have hlast := hu.last
    rw [BitVec.lt_def, hstop] at hlast
    have huser : u < PHYS_BASE := by
      rw [BitVec.lt_def]
      omega
    have hself : pgRoundDown u = u := (eq_pgRoundDown hu.aligned (by
      rw [BitVec.le_def, toNat_pgRoundDown]
      exact Nat.sub_le _ _) (le_refl u)).symm
    refine ⟨huser, ?_⟩
    by_cases hle : u ≤ a
    · have hfirst := eq_pgRoundDown hu.aligned hu.first hle
      rw [hself, hfirst]
      rw [BitVec.le_def] at hle
      by_cases hn : n = 0
      · rcases hempty hn with haligned | hentry
        · -- an empty range at the start of a page
          have hpage := toNat_pgRoundDown a
          rw [pgOfs_eq_zero] at haligned
          rw [← BitVec.toNat_inj] at hfirst
          omega
        · exact hentry
      · have hbyte := hwritable 0 (Nat.pos_of_ne_zero hn)
        rwa [BitVec.add_zero] at hbyte
    · have hgt : a.toNat < u.toNat := by
        rw [BitVec.le_def] at hle
        omega
      have hbyte := hwritable (u.toNat - a.toNat) (by omega)
      have haddr : a + BitVec.ofNat 32 (u.toNat - a.toNat) = u := by
        apply BitVec.eq_of_toNat_eq
        rw [toNat_offset (by omega)]
        omega
      rwa [haddr] at hbyte

/-- The handler comes to an end for a correct program.  It lets the program through exactly when the
range is writable, and an empty range starts at a page or in a writable one; `read` asks no more
than that of an empty range, and `exec` asks for the writable pages of a range of another length. -/
theorem checks_let_through_iff (entry : Word → Option Bool) (hrange : a.toNat + n ≤ PHYS_BASE.toNat)
    {call : RangeCall} (hmade : call.Made mem esp a n) :
    (dispatch mem entry esp (some call.nr)).result ≠ .error .endless ∧
      (call.LetsThrough mem entry esp a n ↔ call.Suits mem entry esp a n) := by
  have hn : n < 2 ^ 32 := by
    have hbase := toNat_physBase
    omega
  have hbuffer : (checkValidBuffer entry a (BitVec.ofNat 32 n)).result = .ok () ↔
      WritableRange entry a n ∧ RangeCall.EmptyOk entry a n :=
    checkValidBuffer_ok.trans (loopPages_writable_iff hrange)
  cases call with
  | write fd =>
      obtain ⟨hfd, ha, hsize⟩ := hmade
      have hwrite := @dispatch_write mem entry esp a fd _ hfd ha hsize
      refine ⟨?_, Iff.trans ?_ hbuffer⟩
      · rw [RangeCall.nr, hwrite]
        exact map_unit_endless (checkValidBuffer_ne_endless _ _)
      · show (dispatch mem entry esp (some .write)).result = _ ↔ _
        rw [hwrite]
        exact map_unit_eq_ok
  | openString =>
      obtain ⟨huser, harg, hstr⟩ := hmade
      have hopen := @dispatch_open mem entry esp a n huser harg hstr hn
      refine ⟨?_, Iff.trans ?_ (checkStr_ok.trans (loopPages_writable_iff hrange))⟩
      · rw [RangeCall.nr, hopen]
        exact map_unit_endless (checkStr_ne_endless _ _)
      · show (dispatch mem entry esp (some .open)).result = _ ↔ _
        rw [hopen]
        exact map_unit_eq_ok
  | execString =>
      obtain ⟨huser, harg, hstr⟩ := hmade
      refine ⟨dispatch_exec_ends huser harg hstr.zero, (dispatch_exec huser harg).trans ?_⟩
      simp only [RangeCall.Suits, checkStr_ok]
  | read fd =>
      obtain ⟨huser, hfd, ha, hsize⟩ := hmade
      have hread := @dispatch_read mem entry esp a fd _ huser hfd ha hsize
      have hproceeds : (RangeCall.read fd).Proceeds mem entry esp a n ↔
          WritableRange entry a n ∧ RangeCall.EmptyOk entry a n := by
        refine Iff.trans ?_ hbuffer
        show (dispatch mem entry esp (some .read)).result = _ ↔ _
        rw [hread]
        exact map_unit_eq_ok
      refine ⟨?_, (iff_congr hproceeds Iff.rfl).trans ⟨fun h hn => ?_, and_iff_left⟩⟩
      · rw [RangeCall.nr, hread]
        exact map_unit_endless (checkValidBuffer_ne_endless _ _)
      · -- an empty range is writable
        refine (h.2 fun i hi => ?_).2 hn
        omega

/-- Memory that holds the given bytes, and zeros elsewhere. -/
def bytesAt (bs : List (Word × Byte)) (p : Word) : Option Byte :=
  some ((bs.lookup p).getD 0)

/-- The stack of a call `write (1, 0x08048000, 5)`. -/
def writeMemory : Word → Option Byte :=
  bytesAt [(0xbfffff04, 1), (0xbfffff09, 0x80), (0xbfffff0a, 0x04), (0xbfffff0b, 0x08),
    (0xbfffff0c, 5)]

theorem writeMemory_made : (RangeCall.write 1).Made writeMemory 0xbfffff00 0x08048000 5 :=
  ⟨rfl, rfl, rfl⟩

theorem checks_let_through_writable :
    (RangeCall.write 1).LetsThrough writeMemory (fun _ => some true) 0xbfffff00 0x08048000 5 := by
  refine (checks_let_through_iff (fun _ => some true) (by decide) writeMemory_made).2.2 ?_
  refine ⟨fun _ _ => rfl, fun hn => ?_⟩
  exact absurd hn (by decide)

/-- The five bytes lie in a page that has an entry and is not writable. -/
theorem checks_stop_read_only :
    ¬ ∀ (mem : Word → Option Byte) (entry : Word → Option Bool) (esp a : Word) (n : ℕ)
        (call : RangeCall), a.toNat + n ≤ PHYS_BASE.toNat →
        (∀ i < n, entry (pgRoundDown (a + BitVec.ofNat 32 i)) ≠ none) → call.Made mem esp a n →
        call.LetsThrough mem entry esp a n := by
  intro hall
  have hrange : (0x08048000 : Word).toNat + 5 ≤ PHYS_BASE.toNat := by decide
  have hthrough := hall writeMemory (fun _ => some false) 0xbfffff00 0x08048000 5 (.write 1) hrange
    (fun _ _ => nofun) writeMemory_made
  have hsuits := (checks_let_through_iff (fun _ => some false) hrange writeMemory_made).2.1 hthrough
  cases hsuits.1 0 (by decide)

/-- The stack of a call of `exec` with the string `a` at `0x0804affe`. -/
def execMemory : Word → Option Byte :=
  bytesAt [(0x0804affe, 0x61), (0xbfffff04, 0xfe), (0xbfffff05, 0xaf), (0xbfffff06, 0x04),
    (0xbfffff07, 0x08)]

/-- The bytes of the pointer are four, so the page behind the string is checked as well. -/
example : (dispatch execMemory (fun p => some (p ≠ 0x0804b000)) 0xbfffff00 (some .exec)).result =
    .error (.exit (-1)) := by decide +kernel

end Calls

end Project4
end Pintos
