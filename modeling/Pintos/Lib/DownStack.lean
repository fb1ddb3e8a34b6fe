import Mathlib.Data.BitVec
import Mathlib.Data.List.Range

/-!
# DownStack — a stack in a memory that is addressed modulo `2 ^ w`

A stack pointer moves down from `top`; a block that is pushed lies at the new stack pointer.
`Contains` relates such a stack to the list of the cells between the stack pointer and `top`.

* `Contains.push`: a push puts its block in front of the list;
* `Contains.skip`: moving the pointer alone puts cells with unknown contents there;
* `holds_append`: what lies at which address is read off the list.
-/

namespace Pintos
namespace Lib

variable {w : ℕ} {α : Type*}

/-! ## Lists in memory -/

section Holds

variable {mem mem' : BitVec w → α} {p a : BitVec w} {bs cs : List α} {n : ℕ}

/-- The cells from `p` on hold the list. -/
def Holds (mem : BitVec w → α) (p : BitVec w) (bs : List α) : Prop :=
  ∀ i b, bs[i]? = some b → mem (p + BitVec.ofNat w i) = b

/-- Overwrite the cells from `p` on. -/
def storeAt (mem : BitVec w → α) (p : BitVec w) (bs : List α) : BitVec w → α :=
  fun a => bs[(a - p).toNat]?.getD (mem a)

theorem toNat_add_ofNat_sub (h : n < 2 ^ w) : (p + BitVec.ofNat w n - p).toNat = n := by
  rw [add_sub_cancel_left, BitVec.toNat_ofNat, Nat.mod_eq_of_lt h]

theorem storeAt_holds (mem : BitVec w → α) (p : BitVec w) (h : bs.length ≤ 2 ^ w) :
    Holds (storeAt mem p bs) p bs := by
  intro i b hb
  have hi : i < bs.length := (List.getElem?_eq_some_iff.1 hb).1
  rw [storeAt, toNat_add_ofNat_sub (hi.trans_le h), hb]
  rfl

theorem storeAt_outside (h : bs.length ≤ (a - p).toNat) : storeAt mem p bs a = mem a := by
  rw [storeAt, List.getElem?_eq_none h]
  rfl

theorem holds_nil : Holds mem p [] := by
  intro i b hb
  cases hb

theorem Holds.congr (h : Holds mem p bs)
    (heq : ∀ i < bs.length, mem' (p + BitVec.ofNat w i) = mem (p + BitVec.ofNat w i)) :
    Holds mem' p bs := by
  intro i b hb
  rw [heq i (List.getElem?_eq_some_iff.1 hb).1]
  exact h i b hb

theorem holds_append :
    Holds mem p (bs ++ cs) ↔ Holds mem p bs ∧ Holds mem (p + BitVec.ofNat w bs.length) cs := by
  constructor
  · intro h
    refine ⟨fun i b hb => h i b ?_, fun i b hb => ?_⟩
    · rw [List.getElem?_append_left (List.getElem?_eq_some_iff.1 hb).1]
      exact hb
    · have hb' : (bs ++ cs)[bs.length + i]? = some b := by
        rw [List.getElem?_append_right (Nat.le_add_right _ _), Nat.add_sub_cancel_left]
        exact hb
      have hi := h (bs.length + i) b hb'
      rwa [BitVec.ofNat_add, ← add_assoc] at hi
  · rintro ⟨hleft, hright⟩ i b hb
    by_cases hi : i < bs.length
    · rw [List.getElem?_append_left hi] at hb
      exact hleft i b hb
    · rw [List.getElem?_append_right (not_lt.1 hi)] at hb
      have hcell := hright _ b hb
      rwa [add_assoc, ← BitVec.ofNat_add, Nat.add_sub_cancel' (not_lt.1 hi)] at hcell

end Holds

/-! ## The stack -/

/-- The memory, the stack pointer, and the addresses of the cells that have been written. -/
structure DownStack (w : ℕ) (α : Type*) where
  mem : BitVec w → α
  sp : BitVec w
  written : List (BitVec w)

namespace DownStack

/-- Move the pointer down by the length of the block and write the block there. -/
def push (s : DownStack w α) (bs : List α) : DownStack w α :=
  let sp := s.sp - BitVec.ofNat w bs.length
  { mem := storeAt s.mem sp bs
    sp := sp
    written := s.written ++ (List.range bs.length).map fun i => sp + BitVec.ofNat w i }

/-- Move the pointer only. -/
def skip (s : DownStack w α) (n : ℕ) : DownStack w α := { s with sp := s.sp - BitVec.ofNat w n }

/-- Only cells that have been written differ from `mem₀`. -/
def Tracks (mem₀ : BitVec w → α) (s : DownStack w α) : Prop := ∀ a ∉ s.written, s.mem a = mem₀ a

variable {mem₀ : BitVec w → α} {s : DownStack w α}

theorem Tracks.push (h : Tracks mem₀ s) (bs : List α) : Tracks mem₀ (s.push bs) := by
  intro a ha
  simp only [DownStack.push, List.mem_append, List.mem_map, List.mem_range, not_or, not_exists,
    not_and] at ha
  refine (storeAt_outside ?_).trans (h a ha.1)
  by_contra hlt
  refine ha.2 _ (not_le.1 hlt) ?_
  rw [BitVec.ofNat_toNat, BitVec.setWidth_eq, add_sub_cancel]

theorem Tracks.skip (h : Tracks mem₀ s) (n : ℕ) : Tracks mem₀ (s.skip n) := h

end DownStack

/-- The cells from the stack pointer up to `top` hold `cs`, and only cells among them have been
written since the memory was `mem₀`. -/
structure Contains (top : BitVec w) (mem₀ : BitVec w → α) (s : DownStack w α) (cs : List α) :
    Prop where
  sp : s.sp = top - BitVec.ofNat w cs.length
  cells : Holds s.mem s.sp cs
  outside : ∀ a, cs.length ≤ (a - s.sp).toNat → s.mem a = mem₀ a
  written : ∀ a ∈ s.written, (a - s.sp).toNat < cs.length

namespace Contains

variable {top : BitVec w} {mem₀ : BitVec w → α} {s : DownStack w α} {bs cs : List α} {n : ℕ}

theorem start (top : BitVec w) (mem₀ : BitVec w → α) : Contains top mem₀ ⟨mem₀, top, []⟩ [] := by
  refine ⟨?_, holds_nil, fun _ _ => rfl, fun a ha => ?_⟩
  · exact (sub_zero top).symm
  · cases ha

/-- An address as seen from a pointer that lies `n` cells lower. -/
theorem toNat_sub_lower {a p : BitVec w} (h : (a - p).toNat + n < 2 ^ w) :
    (a - (p - BitVec.ofNat w n)).toNat = (a - p).toNat + n := by
  have hn : (BitVec.ofNat w n).toNat = n := by
    rw [BitVec.toNat_ofNat, Nat.mod_eq_of_lt (lt_of_le_of_lt (Nat.le_add_left _ _) h)]
  calc
    (a - (p - BitVec.ofNat w n)).toNat = (a - p + BitVec.ofNat w n).toNat := by
      rw [sub_sub_eq_add_sub, add_sub_right_comm]
    _ = (a - p).toNat + (BitVec.ofNat w n).toNat :=
      BitVec.toNat_add_of_lt (by rw [hn]; exact h)
    _ = (a - p).toNat + n := by rw [hn]

/-- Lowering the pointer over cells that hold `bs`. -/
theorem lower (h : Contains top mem₀ s cs) {s' : DownStack w α}
    (hlen : bs.length + cs.length ≤ 2 ^ w) (hsp : s'.sp = s.sp - BitVec.ofNat w bs.length)
    (hcells : Holds s'.mem s'.sp bs)
    (hmem : ∀ a, bs.length ≤ (a - s'.sp).toNat → s'.mem a = s.mem a)
    (hwritten : ∀ a ∈ s'.written, a ∈ s.written ∨ (a - s'.sp).toNat < bs.length) :
    Contains top mem₀ s' (bs ++ cs) := by
  have hlower : ∀ a, (a - s.sp).toNat < cs.length →
      (a - s'.sp).toNat = (a - s.sp).toNat + bs.length := by
    intro a ha
    rw [hsp]
    exact toNat_sub_lower (by omega)
  refine ⟨?_, ?_, fun a ha => ?_, fun a ha => ?_⟩
  · calc
      s'.sp = top - BitVec.ofNat w cs.length - BitVec.ofNat w bs.length := by rw [hsp, h.sp]
      _ = top - (BitVec.ofNat w bs.length + BitVec.ofNat w cs.length) := by
        rw [sub_add_eq_sub_sub_swap]
      _ = top - BitVec.ofNat w (bs ++ cs).length := by
        rw [List.length_append, BitVec.ofNat_add]
  · -- the cells above the new block are the old ones
    rw [holds_append]
    refine ⟨hcells, ?_⟩
    rw [hsp, sub_add_cancel]
    refine h.cells.congr fun i hi => hmem _ ?_
    have hoff : (s.sp + BitVec.ofNat w i - s.sp).toNat = i := toNat_add_ofNat_sub (by omega)
    rw [hlower _ (by rw [hoff]; exact hi), hoff]
    exact Nat.le_add_left _ _
  · rw [List.length_append] at ha
    rw [hmem a (by omega)]
    refine h.outside a ?_
    by_contra hlt
    rw [hlower a (not_le.1 hlt)] at ha
    omega
  · rw [List.length_append]
    rcases hwritten a ha with hold | hnew
    · have hlt := h.written a hold
      rw [hlower a hlt]
      omega
    · omega

theorem push (h : Contains top mem₀ s cs) (hlen : bs.length + cs.length ≤ 2 ^ w) :
    Contains top mem₀ (s.push bs) (bs ++ cs) := by
  have hbs : bs.length ≤ 2 ^ w := by omega
  refine h.lower hlen rfl (storeAt_holds _ _ hbs) (fun a ha => storeAt_outside ha) fun a ha => ?_
  rcases List.mem_append.1 ha with hold | hnew
  · exact Or.inl hold
  · obtain ⟨i, hi, rfl⟩ := List.mem_map.1 hnew
    rw [List.mem_range] at hi
    refine Or.inr ?_
    rw [show (s.push bs).sp = s.sp - BitVec.ofNat w bs.length from rfl,
      toNat_add_ofNat_sub (hi.trans_le hbs)]
    exact hi

theorem skip (h : Contains top mem₀ s cs) (hlen : n + cs.length ≤ 2 ^ w) :
    ∃ gap : List α, gap.length = n ∧ Contains top mem₀ (s.skip n) (gap ++ cs) := by
  let sp := s.sp - BitVec.ofNat w n
  let gap := (List.range n).map fun i => s.mem (sp + BitVec.ofNat w i)
  have hgap : gap.length = n := by simp [gap]
  refine ⟨gap, hgap, h.lower (by rw [hgap]; exact hlen) ?_ ?_ (fun _ _ => rfl)
    fun a ha => Or.inl ha⟩
  · rw [hgap]
    rfl
  · intro i b hb
    simp only [gap, List.getElem?_map, Option.map_eq_some_iff] at hb
    obtain ⟨k, hk, rfl⟩ := hb
    obtain ⟨hi, hik⟩ := List.getElem?_eq_some_iff.1 hk
    rw [List.getElem_range] at hik
    rw [← hik]
    rfl

/-- The pointers of two stacks, the first of which has `n` cells more. -/
theorem sp_eq_add {s' : DownStack w α} {mem₁ : BitVec w → α} {cs' : List α}
    (h : Contains top mem₀ s cs') (h' : Contains top mem₁ s' cs)
    (hlen : cs'.length = n + cs.length) : s'.sp = s.sp + BitVec.ofNat w n := by
  calc
    s'.sp = top - BitVec.ofNat w cs.length := h'.sp
    _ = top - (BitVec.ofNat w n + BitVec.ofNat w cs.length) + BitVec.ofNat w n := by
      rw [sub_add_eq_sub_sub_swap, sub_add_cancel]
    _ = s.sp + BitVec.ofNat w n := by rw [h.sp, hlen, BitVec.ofNat_add]

/-- In a stack that stays above address 0 the pointer is a plain difference. -/
theorem toNat_sp (h : Contains top mem₀ s cs) (htop : cs.length ≤ top.toNat) :
    s.sp.toNat + cs.length = top.toNat := by
  have hofNat : (BitVec.ofNat w cs.length).toNat = cs.length := by
    rw [BitVec.toNat_ofNat, Nat.mod_eq_of_lt (lt_of_le_of_lt htop top.isLt)]
  rw [h.sp, BitVec.toNat_sub_of_le (by rw [BitVec.le_def, hofNat]; exact htop), hofNat]
  exact Nat.sub_add_cancel htop

/-- All that has been written lies between the pointer and `top`. -/
theorem written_between (h : Contains top mem₀ s cs) (htop : cs.length ≤ top.toNat) :
    ∀ a ∈ s.written, s.sp.toNat ≤ a.toNat ∧ a.toNat < top.toNat := by
  intro a ha
  have hlt := h.written a ha
  have hsp := h.toNat_sp htop
  have hsum : s.sp.toNat + (a - s.sp).toNat < 2 ^ w := by
    have := top.isLt
    omega
  have haddr : a.toNat = s.sp.toNat + (a - s.sp).toNat := by
    rw [← BitVec.toNat_add_of_lt hsum, add_sub_cancel]
  exact ⟨by omega, by omega⟩

end Contains

end Lib
end Pintos
