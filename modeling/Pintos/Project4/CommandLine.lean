import Pintos.Project4.InitialStack

/-!
# CommandLine — the arrays into which the command line is copied (`userprog/process.c`)

`parse_filename` and `construct_esp` copy the whole line, with a size taken from the line and not
from the array.  `parse_filename` cuts its copy at the first space; `strtok_r`, which finds `argv[0]`
for `construct_esp`, first skips the spaces.
-/

namespace Pintos
namespace Project4

open Lib Userprog

/-! ## The code -/

/-- An array of `char`, with the indices that have been written so far.  Behind its end lies what
the compiler has put there. -/
structure CharArray where
  bytes : ℕ → Byte
  written : List ℕ

/-- An array that has not been written. -/
def CharArray.raw (bytes : ℕ → Byte) : CharArray := ⟨bytes, []⟩

def CharArray.store (a : CharArray) (i : ℕ) (bs : List Byte) : CharArray :=
  ⟨storeBytes a.bytes i bs, a.written ++ List.range' i bs.length⟩

/-- `strlcpy (dest, src, size)` -/
def strlcpy (dest : CharArray) (src : List Byte) (size : ℕ) : CharArray :=
  if size > 0 then
    let dstLen := min src.length (size - 1)
    (dest.store 0 (src.take dstLen)).store dstLen [0]
  else dest

/-- `for (i = 0; dest[i] != '\0' && dest[i] != ' '; i++);` from `i` on, for at most `n` turns. -/
def nameEnd (dest : ℕ → Byte) : ℕ → ℕ → ℕ
  | 0, i => i
  | n + 1, i => if dest i ≠ 0 ∧ dest i ≠ SPACE then nameEnd dest n (i + 1) else i

def parseFilename (src : List Byte) (dest : CharArray) : CharArray :=
  let dest := strlcpy dest src (src.length + 1)
  dest.store (nameEnd dest.bytes src.length 0) [0]

/-- `strlcpy (fn_copy, file_name, PGSIZE)`: the line that the child gets. -/
def fnCopy (fileName : List Byte) : List Byte := fileName.take (PGSIZE - 1)

/-- The string from index `i` on, of at most `n` bytes. -/
def stringAt (bytes : ℕ → Byte) : ℕ → ℕ → List Byte
  | 0, _ => []
  | n + 1, i => if bytes i = 0 then [] else bytes i :: stringAt bytes n (i + 1)

/-- `cmd_name` behind `parse_filename`, in an array of the given size. -/
def cmdName (size : ℕ) (fileName : List Byte) (bytes : ℕ → Byte) : List Byte :=
  stringAt (parseFilename fileName (.raw bytes)).bytes size 0

/-- The indices at which the calls of `strtok_r` in a loop write their zeros, for the string `s` at
the index `pos`: behind every token but one that ends with the string. -/
def tokenWrites : ℕ → ℕ → List Byte → List ℕ
  | 0, _, _ => []
  | n + 1, pos, s =>
      match strtokR s with
      | none => []
      | some (token, last) =>
          let stop := pos + (s.takeWhile (· == SPACE)).length + token.length
          if stop < pos + s.length then stop :: tokenWrites n (stop + 1) last
          else tokenWrites n stop last

/-- What `construct_esp` writes in `stored_file_name`: the two copies, and the zeros of the loop that
counts the tokens and of the loop that stores them. -/
def storedWrites (fileName : List Byte) (bytes : ℕ → Byte) : List ℕ :=
  let stored := strlcpy (.raw bytes) fileName (fileName.length + 1)
  let zeros := tokenWrites (fileName.length + 1) 0 fileName
  stored.written ++ zeros ++ stored.written ++ zeros

/-! ## Strings in arrays -/

section Strings

variable {bytes bytes' : ℕ → Byte} {s : List Byte} {i n : ℕ} {b : Byte}

/-- From index `i` on lies the string, with its terminating zero. -/
def HasString (bytes : ℕ → Byte) (i : ℕ) (s : List Byte) : Prop :=
  ∀ k b, (s ++ [0])[k]? = some b → bytes (i + k) = b

theorem hasString_nil : HasString bytes i [] ↔ bytes i = 0 := by
  constructor
  · intro h
    exact h 0 0 rfl
  · intro h k b hk
    obtain ⟨hlt, hb⟩ := List.getElem?_eq_some_iff.1 hk
    have hzero : k = 0 := by simpa using hlt
    subst hzero
    rw [Nat.add_zero, h]
    exact hb

theorem hasString_cons : HasString bytes i (b :: s) ↔ bytes i = b ∧ HasString bytes (i + 1) s := by
  constructor
  · intro h
    refine ⟨h 0 b rfl, fun k c hk => ?_⟩
    rw [Nat.add_assoc, Nat.add_comm 1 k]
    exact h (k + 1) c hk
  · rintro ⟨hb, hs⟩ k c hk
    cases k with
    | zero =>
        cases hk
        exact hb
    | succ k =>
        rw [Nat.add_comm k 1, ← Nat.add_assoc]
        exact hs k c hk

theorem stringAt_eq (h : HasString bytes i s) (hzero : 0 ∉ s) (hlen : s.length < n) :
    stringAt bytes n i = s := by
  induction s generalizing i n with
  | nil =>
      obtain ⟨n, rfl⟩ := Nat.exists_eq_succ_of_ne_zero (Nat.ne_of_gt (Nat.zero_lt_of_lt hlen))
      rw [stringAt, if_pos (hasString_nil.1 h)]
  | cons b s ih =>
      obtain ⟨n, rfl⟩ := Nat.exists_eq_succ_of_ne_zero (Nat.ne_of_gt (Nat.zero_lt_of_lt hlen))
      obtain ⟨hb, hs⟩ := hasString_cons.1 h
      obtain ⟨hne, hrest⟩ := not_or.1 (mt List.mem_cons.2 hzero)
      rw [stringAt, hb, if_neg (Ne.symm hne), ih hs hrest (Nat.lt_of_succ_lt_succ hlen)]

/-- The loop stops at the first space, or else at the end of the string. -/
theorem nameEnd_eq (h : HasString bytes i s) (hzero : 0 ∉ s) :
    nameEnd bytes s.length i = i + (s.takeWhile (· != SPACE)).length := by
  induction s generalizing i with
  | nil =>
      rfl
  | cons b s ih =>
      obtain ⟨hb, hs⟩ := hasString_cons.1 h
      obtain ⟨hne, hrest⟩ := not_or.1 (mt List.mem_cons.2 hzero)
      rw [List.length_cons, nameEnd, hb]
      by_cases hspace : b = SPACE
      · rw [if_neg (fun hgo => hgo.2 hspace), List.takeWhile_cons_of_neg (by simpa using hspace)]
        rfl
      · rw [if_pos ⟨Ne.symm hne, hspace⟩, ih hs hrest,
          List.takeWhile_cons_of_pos (by simpa using hspace), List.length_cons]
        omega

theorem nameEnd_le (n i : ℕ) : nameEnd bytes n i ≤ i + n := by
  induction n generalizing i with
  | zero =>
      exact le_rfl
  | succ n ih =>
      rw [nameEnd]
      split
      · have hle := ih (i + 1)
        omega
      · omega

/-- A zero in the place of a string's byte cuts the string there. -/
theorem HasString.cut (h : HasString bytes 0 s) {t : List Byte} (ht : t <+: s) :
    HasString (storeBytes bytes t.length [0]) 0 t := by
  intro k b hk
  have hlt := (List.getElem?_eq_some_iff.1 hk).1
  rw [List.length_append, List.length_singleton] at hlt
  rw [Nat.zero_add]
  rcases Nat.lt_succ_iff_lt_or_eq.1 hlt with hk' | rfl
  · rw [List.getElem?_append_left hk'] at hk
    rw [storeBytes_lt hk', ← Nat.zero_add k]
    obtain ⟨rest, rfl⟩ := ht
    refine h k b ?_
    rw [List.append_assoc, List.getElem?_append_left hk']
    exact hk
  · rw [storeBytes_mem le_rfl (Nat.lt_succ_self _)]
    simpa using hk

end Strings

/-! ## `parse_filename` -/

section ParseFilename

variable {src : List Byte} {bytes : ℕ → Byte} {i : ℕ}

theorem strlcpy_written :
    (strlcpy (.raw bytes) src (src.length + 1)).written = List.range (src.length + 1) := by
  simp [strlcpy, CharArray.store, CharArray.raw, List.range_eq_range', List.range'_concat]

/-- `strlcpy` copies the string with its terminating zero. -/
theorem strlcpy_hasString : HasString (strlcpy (.raw bytes) src (src.length + 1)).bytes 0 src := by
  intro k b hk
  have hlt := (List.getElem?_eq_some_iff.1 hk).1
  rw [List.length_append, List.length_singleton] at hlt
  simp only [strlcpy, CharArray.store, Nat.succ_pos, if_true, Nat.add_sub_cancel, min_self,
    List.take_length, Nat.zero_add]
  rcases Nat.lt_succ_iff_lt_or_eq.1 hlt with hk' | rfl
  · rw [List.getElem?_append_left hk'] at hk
    rw [storeBytes_lt hk', storeBytes_mem (Nat.zero_le k) (by omega), Nat.sub_zero, hk]
    rfl
  · rw [storeBytes_mem le_rfl (Nat.lt_succ_self _)]
    simpa using hk

/-- The name is what stands in front of the first space. -/
theorem cmdName_eq (hzero : 0 ∉ src) {size : ℕ} (hlen : src.length < size) :
    cmdName size src bytes = src.takeWhile (· != SPACE) := by
  have hcut : src.takeWhile (· != SPACE) <+: src := List.takeWhile_prefix _
  refine stringAt_eq ?_ (fun h0 => hzero (hcut.subset h0)) (hcut.length_le.trans_lt hlen)
  rw [parseFilename, CharArray.store, nameEnd_eq strlcpy_hasString hzero, Nat.zero_add]
  exact strlcpy_hasString.cut hcut

theorem mem_parseFilename_written :
    i ∈ (parseFilename src (.raw bytes)).written ↔ i < src.length + 1 := by
  have hend : nameEnd (strlcpy (.raw bytes) src (src.length + 1)).bytes src.length 0 <
      src.length + 1 :=
    Nat.lt_succ_of_le ((nameEnd_le _ _).trans (Nat.zero_add _).le)
  rw [parseFilename, CharArray.store, List.mem_append, strlcpy_written, List.mem_range]
  constructor
  · rintro (hi | hi)
    · exact hi
    · rw [List.length_singleton, List.range'_one, List.mem_singleton] at hi
      rw [hi]
      exact hend
  · exact Or.inl

end ParseFilename

/-! ## `strtok_r` in `stored_file_name` -/

section StoredName

variable {s token last fileName : List Byte} {bytes : ℕ → Byte} {i n pos : ℕ}

/-- The spaces, the token and the rest lie one after the other in the string. -/
theorem strtokR_length (h : strtokR s = some (token, last)) :
    let stop := (s.takeWhile (· == SPACE)).length + token.length
    stop + last.length ≤ s.length ∧ (stop < s.length → stop + 1 + last.length = s.length) := by
  have hspaces := congrArg List.length (@List.takeWhile_append_dropWhile _ (· == SPACE) s)
  rw [List.length_append] at hspaces
  unfold strtokR at h
  split at h
  · cases h
  · next c cs hdrop =>
      have hsplit := congrArg List.length (@List.takeWhile_append_dropWhile _ (· != SPACE) (c :: cs))
      rw [List.length_append] at hsplit
      simp only [Option.some.injEq, Prod.mk.injEq] at h
      rw [← h.1, ← h.2, List.length_drop]
      rw [hdrop] at hspaces
      dsimp only
      omega

theorem tokenWrites_lt (h : i ∈ tokenWrites n pos s) : i < pos + s.length := by
  induction n generalizing pos s with
  | zero =>
      cases h
  | succ n ih =>
      rw [tokenWrites] at h
      split at h
      · cases h
      · next token last hstr =>
          obtain ⟨hle, hstop⟩ := strtokR_length hstr
          dsimp only at h
          split at h
          · rcases List.mem_cons.1 h with rfl | hrest
            · assumption
            · have hlt := ih hrest
              omega
          · have hlt := ih h
            omega

theorem storedWrites_lt (h : i ∈ storedWrites fileName bytes) : i < fileName.length + 1 := by
  simp only [storedWrites, List.mem_append, strlcpy_written, List.mem_range] at h
  rcases h with ((hi | hi) | hi) | hi
  · exact hi
  · exact (tokenWrites_lt hi).trans_le (by omega)
  · exact hi
  · exact (tokenWrites_lt hi).trans_le (by omega)

end StoredName

/-! ## The program that is loaded -/

section Loaded

variable {fileName : List Byte}

/-- The names that `process_execute` and `start_process` use are `argv[0]` of the stack that
`construct_esp` builds. -/
def LoadsFirstToken (fileName : List Byte) : Prop :=
  ∀ (executeName startName : ℕ → Byte) (mem : Word → Byte), ∃ st,
    constructEsp true (fnCopy fileName) ⟨mem, PHYS_BASE, []⟩ = some st ∧
      (readArgs st.mem st.sp).head? = some (cmdName 256 fileName executeName) ∧
      (readArgs st.mem st.sp).head? = some (cmdName 500 (fnCopy fileName) startName)

theorem fnCopy_eq (hlen : fileName.length ≤ 255) : fnCopy fileName = fileName :=
  List.take_of_length_le (hlen.trans (by decide))

theorem loadsFirstToken_iff_head (hzero : 0 ∉ fileName) (hlen : fileName.length ≤ 255) :
    LoadsFirstToken fileName ↔
      (tokensOf fileName).head? = some (fileName.takeWhile (· != SPACE)) := by
  have hname (bytes : ℕ → Byte) := @cmdName_eq fileName bytes hzero 256 (by omega)
  have hstart (bytes : ℕ → Byte) := @cmdName_eq fileName bytes hzero 500 (by omega)
  simp only [LoadsFirstToken, fnCopy_eq hlen, hname, hstart]
  constructor
  · intro h
    obtain ⟨st, hst, hhead, -⟩ := h (fun _ => 0) (fun _ => 0) (fun _ => 0)
    obtain ⟨st', hst', hstack⟩ := constructEsp_initialStack (fun _ => 0) hzero hlen
    obtain rfl : st' = st := Option.some.inj (hst'.symm.trans hst)
    rwa [hstack.readBack] at hhead
  · intro hhead _ _ mem
    obtain ⟨st, hst, hstack⟩ := constructEsp_initialStack mem hzero hlen
    rw [← hstack.readBack] at hhead
    exact ⟨st, hst, hhead, hhead⟩

/-- `strtok_r` and `parse_filename` find the same word, if no space stands in front of it. -/
theorem head_tokensOf_iff (htoken : tokensOf fileName ≠ []) :
    (tokensOf fileName).head? = some (fileName.takeWhile (· != SPACE)) ↔
      fileName.head? ≠ some SPACE := by
  cases fileName with
  | nil =>
      exact absurd rfl htoken
  | cons c cs =>
      rw [List.head?_cons, ne_eq, Option.some_inj]
      constructor
      · rintro hhead rfl
        -- `parse_filename` finds the empty word, which is no token
        rw [List.takeWhile_cons_of_neg (by simp)] at hhead
        simpa [tokensOf] using List.mem_of_head? hhead
      · intro hc
        have hdrop : (c :: cs).dropWhile (· == SPACE) = c :: cs :=
          List.dropWhile_cons_of_neg (by simpa using hc)
        have hstr : strtokR (c :: cs) = some ((c :: cs).takeWhile (· != SPACE),
            ((c :: cs).dropWhile (· != SPACE)).drop 1) := by
          rw [strtokR, hdrop]
        rw [(strtokR_some hstr).tokens]
        rfl

/-- The program that is loaded is `argv[0]`, unless the command line starts with a space. -/
theorem loads_first_token_iff (hzero : 0 ∉ fileName) (hlen : fileName.length ≤ 255)
    (htoken : tokensOf fileName ≠ []) :
    LoadsFirstToken fileName ↔ fileName.head? ≠ some SPACE :=
  (loadsFirstToken_iff_head hzero hlen).trans (head_tokensOf_iff htoken)

/-- `a  b` -/
theorem loads_first_token_repeated :
    LoadsFirstToken [0x61, 0x20, 0x20, 0x62] ↔
      ([0x61, 0x20, 0x20, 0x62] : List Byte).head? ≠ some SPACE :=
  loads_first_token_iff (by decide) (by decide) (by decide)

/-- For ` a` the empty name is looked up, while `argv[0]` is `a`. -/
theorem leading_space_loads_empty :
    tokensOf [0x20, 0x61] ≠ [] ∧ ¬ LoadsFirstToken [0x20, 0x61] := by
  refine ⟨by decide, fun h => ?_⟩
  have hhead := (loadsFirstToken_iff_head (by decide) (by decide)).1 h
  revert hhead
  decide

end Loaded

/-! ## Bounds -/

section Bounds

variable {fileName : List Byte} {mem : Word → Byte} {st : UserStack} {block : Bool}

/-- Every byte that is written for the command line lies in its array, or in the one page of the
stack. -/
structure InBounds (fileName : List Byte) : Prop where
  executeName : ∀ bytes, ∀ i ∈ (parseFilename fileName (.raw bytes)).written, i < 256
  startName : ∀ bytes, ∀ i ∈ (parseFilename (fnCopy fileName) (.raw bytes)).written, i < 500
  storedName : ∀ bytes, ∀ i ∈ storedWrites (fnCopy fileName) bytes, i < 256
  stack : ∀ block mem st, constructEsp block (fnCopy fileName) ⟨mem, PHYS_BASE, []⟩ = some st →
    ∀ a ∈ st.written, PHYS_BASE.toNat - PGSIZE ≤ a.toNat ∧ a.toNat < PHYS_BASE.toNat

/-- `malloc` decides only whether `construct_esp` gets through. -/
theorem constructEsp_block {st₀ : UserStack} (h : constructEsp block fileName st₀ = some st) :
    constructEsp true fileName st₀ = some st := by
  cases block with
  | true =>
      exact h
  | false =>
      simp only [constructEsp, Option.bind_eq_bind] at h ⊢
      split at h
      · cases h
      · next hfits =>
          rw [if_neg hfits]
          cases hcount : countTokens (fileName.length + 1) fileName with
          | none =>
              rw [hcount] at h
              cases h
          | some argc =>
              rw [hcount, Option.bind_some] at h
              split at h
              · cases h
              · simpa using h

theorem length_le_of_inBounds (h : InBounds fileName) : fileName.length ≤ 255 := by
  have hlt := h.executeName (fun _ => 0) fileName.length
    (mem_parseFilename_written.2 (Nat.lt_succ_self _))
  omega

/-- The copies stay in their arrays exactly as long as the line has at most 255 bytes. -/
theorem in_bounds_iff (hzero : 0 ∉ fileName) : InBounds fileName ↔ fileName.length ≤ 255 := by
  constructor
  · exact length_le_of_inBounds
  · intro hlen
    have hcopy := fnCopy_eq hlen
    refine ⟨fun bytes i hi => ?_, fun bytes i hi => ?_, fun bytes i hi => ?_,
      fun block mem st hst => ?_⟩
    · have hlt := mem_parseFilename_written.1 hi
      omega
    · rw [hcopy] at hi
      have hlt := mem_parseFilename_written.1 hi
      omega
    · rw [hcopy] at hi
      have hlt := storedWrites_lt hi
      omega
    · rw [hcopy] at hst
      obtain ⟨st', hst', hstack⟩ := constructEsp_initialStack mem hzero hlen
      obtain rfl : st' = st := Option.some.inj (hst'.symm.trans (constructEsp_block hst))
      exact hstack.written

/-- `echo x` -/
theorem in_bounds_echo :
    InBounds [0x65, 0x63, 0x68, 0x6f, 0x20, 0x78] ↔
      ([0x65, 0x63, 0x68, 0x6f, 0x20, 0x78] : List Byte).length ≤ 255 :=
  in_bounds_iff (by decide)

/-- A line of 256 bytes fits into the page, but its terminating zero lies behind `cmd_name`. -/
theorem long_line_overflows :
    0 ∉ List.replicate 256 (0x61 : Byte) ∧
      (List.replicate 256 (0x61 : Byte)).length ≤ PGSIZE - 1 ∧
      ¬ InBounds (List.replicate 256 (0x61 : Byte)) := by
  refine ⟨?_, ?_, fun h => ?_⟩
  · rw [List.mem_replicate]
    exact fun hzero => absurd hzero.2 (by decide)
  · rw [List.length_replicate]
    decide
  · have hlen := length_le_of_inBounds h
    rw [List.length_replicate] at hlen
    omega

end Bounds

end Project4
end Pintos
