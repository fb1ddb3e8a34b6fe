import Mathlib.Data.List.TakeWhile
import Pintos.Lib.DownStack
import Pintos.Userprog.Pages

/-!
# InitialStack — the stack with which a program starts (`userprog/process.c`)

`construct_esp` splits the command line at its spaces and pushes the words, an alignment, the
addresses of the words and the arguments of `main` below `PHYS_BASE`.
-/

namespace Pintos
namespace Project4

open Lib Userprog

/-! ## Splitting the command line -/

def SPACE : Byte := 0x20

/-- `strtok_r (s, " ", &last)`: the token and what `last` points to. -/
def strtokR (s : List Byte) : Option (List Byte × List Byte) :=
  match s.dropWhile (· == SPACE) with
  | [] => none
  | c :: cs =>
      some ((c :: cs).takeWhile (· != SPACE), ((c :: cs).dropWhile (· != SPACE)).drop 1)

/-- The loop that counts the tokens, with fuel. -/
def countTokens : ℕ → List Byte → Option ℕ
  | 0, _ => none
  | n + 1, s =>
      match strtokR s with
      | none => some 0
      | some (_, last) => (countTokens n last).map (· + 1)

/-- The loop that stores `argc` tokens; it follows a null pointer when there are fewer. -/
def storeArgv : ℕ → List Byte → Option (List (List Byte))
  | 0, _ => some []
  | n + 1, s =>
      match strtokR s with
      | none => none
      | some (token, last) => (storeArgv n last).map (token :: ·)

/-! ## Pushing -/

/-- The user's memory, `*esp`, and the addresses that have been written. -/
abbrev UserStack := DownStack 32 Byte

/-- Little endian. -/
def wordBytes (x : Word) : List Byte :=
  [x.extractLsb' 0 8, x.extractLsb' 8 8, x.extractLsb' 16 8, x.extractLsb' 24 8]

/-- `*esp -= len + 1; strlcpy (*esp, s, len + 1);` -/
def pushString (st : UserStack) (s : List Byte) : UserStack := st.push (s ++ [0])

/-- `*esp -= 4; **(uint32_t **) esp = x;` -/
def pushWord (st : UserStack) (x : Word) : UserStack := st.push (wordBytes x)

/-- The loop from `argv[argc-1]` down to `argv[0]`, with the addresses that replace the tokens in
`argv` and with `total_len`. -/
def pushArgs (st : UserStack) : List (List Byte) → UserStack × List Word × ℕ
  | [] => (st, [], 0)
  | token :: tokens =>
      let (st, argv, totalLen) := pushArgs st tokens
      let st := pushString st token
      (st, st.sp :: argv, totalLen + (token.length + 1))

/-- The loop that pushes `argv[argc-1]` down to `argv[0]`. -/
def pushAddresses (st : UserStack) : List Word → UserStack
  | [] => st
  | p :: argv => pushWord (pushAddresses st argv) p

/-- What is pushed below the strings: the alignment, `argv` with a null pointer behind it, its
address, `argc` and the return address. -/
def pushFrame (argc : ℕ) (argv : List Word) (totalLen : ℕ) (st : UserStack) : UserStack :=
  let st := st.skip (if totalLen % 4 ≠ 0 then 4 - totalLen % 4 else 0)
  let st := pushWord st 0
  let st := pushAddresses st argv
  let st := pushWord st (st.sp - 4 + 4)
  let st := pushWord st (BitVec.ofNat 32 argc)
  pushWord st 0

/-- `block` says whether `malloc` has a block for `argv`, which is used if there are tokens.  A
command line that does not fit into `stored_file_name` overwrites what lies behind it. -/
def constructEsp (block : Bool) (fileName : List Byte) (st : UserStack) : Option UserStack :=
  if fileName.length + 1 > 256 then none
  else do
    let argc ← countTokens (fileName.length + 1) fileName
    if argc ≠ 0 ∧ block = false then none
    else do
      let tokens ← storeArgv argc fileName
      let (st, argv, totalLen) := pushArgs st tokens
      pure (pushFrame argc argv totalLen st)

/-! ## What the program finds -/

/-- `*(uint32_t *) p` -/
def loadWord (mem : Word → Byte) (p : Word) : Word :=
  mem (p + 3) ++ mem (p + 2) ++ mem (p + 1) ++ mem p

/-- `argv[i]` -/
def argvAt (mem : Word → Byte) (argv : Word) (i : ℕ) : Word :=
  loadWord mem (argv + BitVec.ofNat 32 (4 * i))

/-- The string at `p`, of at most `n` bytes. -/
def readString (mem : Word → Byte) : ℕ → Word → List Byte
  | 0, _ => []
  | n + 1, p => if mem p = 0 then [] else mem p :: readString mem n (p + 1)

/-- The strings that a program reads through its `argc` and `argv`. -/
def readArgs (mem : Word → Byte) (esp : Word) : List (List Byte) :=
  (List.range (loadWord mem (esp + 4)).toNat).map fun i =>
    readString mem PGSIZE (argvAt mem (loadWord mem (esp + 8)) i)

/-- The words of the command line. -/
def tokensOf (fileName : List Byte) : List (List Byte) :=
  (fileName.splitOn SPACE).filter (· ≠ [])

/-- From `esp` on there are the return address, `argc`, the address of `argv`, `argv` and a zero
word; above them, one after the other, lie the copies of the tokens, and nothing outside of the
page below `PHYS_BASE` has been written. -/
structure InitialStack (st : UserStack) (tokens : List (List Byte)) : Prop where
  aligned : st.sp.toNat % 4 = 0
  returnAddress : loadWord st.mem st.sp = 0
  argc : loadWord st.mem (st.sp + 4) = BitVec.ofNat 32 tokens.length
  argv : loadWord st.mem (st.sp + 8) = st.sp + 12
  null : argvAt st.mem (st.sp + 12) tokens.length = 0
  copy : ∀ i t, tokens[i]? = some t → Holds st.mem (argvAt st.mem (st.sp + 12) i) (t ++ [0])
  fits : st.sp.toNat + (16 + 4 * tokens.length) ≤ PHYS_BASE.toNat
  above : ∀ i t, tokens[i]? = some t →
    st.sp.toNat + (16 + 4 * tokens.length) ≤ (argvAt st.mem (st.sp + 12) i).toNat ∧
      (argvAt st.mem (st.sp + 12) i).toNat + (t.length + 1) ≤ PHYS_BASE.toNat
  apart : ∀ i j t, i < j → j < tokens.length → tokens[i]? = some t →
    (argvAt st.mem (st.sp + 12) i).toNat + (t.length + 1) ≤ (argvAt st.mem (st.sp + 12) j).toNat
  written : ∀ a ∈ st.written, PHYS_BASE.toNat - PGSIZE ≤ a.toNat ∧ a.toNat < PHYS_BASE.toNat
  readBack : readArgs st.mem st.sp = tokens

/-! ## `strtok_r` finds the words -/

section Tokens

variable {s t last : List Byte} {c : Byte}

theorem tokensOf_space : tokensOf (SPACE :: s) = tokensOf s := by
  have h := @List.splitOn_append_cons_self _ _ _ SPACE [] s
  simp only [List.nil_append] at h
  simp [tokensOf, h, List.splitOn_nil]

theorem tokensOf_dropWhile : tokensOf (s.dropWhile (· == SPACE)) = tokensOf s := by
  induction s with
  | nil =>
      rfl
  | cons b s ih =>
      by_cases hb : b = SPACE
      · subst hb
        rw [List.dropWhile_cons_of_pos (by simp), ih, tokensOf_space]
      · rw [List.dropWhile_cons_of_neg (by simpa using hb)]

theorem strtokR_none (h : strtokR s = none) : tokensOf s = [] := by
  have hnil : s.dropWhile (· == SPACE) = [] := by
    unfold strtokR at h
    split at h
    · next heq => exact heq
    · cases h
  rw [← tokensOf_dropWhile, hnil]
  simp [tokensOf]

/-- `strtok_r` has found the token `t` in `s`; `last` is what comes after it. -/
structure Splits (s t last : List Byte) : Prop where
  tokens : tokensOf s = t :: tokensOf last
  shorter : last.length < s.length
  length : t.length + 1 + last.length ≤ s.length ∨ last = [] ∧ t.length ≤ s.length
  mem_token : ∀ b ∈ t, b ∈ s
  mem_last : ∀ b ∈ last, b ∈ s

theorem tokensOf_single (ht : t ≠ []) (hspace : SPACE ∉ t) : tokensOf t = [t] := by
  rw [tokensOf, List.splitOn_eq_singleton hspace]
  simp [ht]

theorem tokensOf_append (ht : t ≠ []) (hspace : SPACE ∉ t) :
    tokensOf (t ++ SPACE :: last) = t :: tokensOf last := by
  rw [tokensOf, List.splitOn_append_cons_self_of_not_mem hspace]
  simp [ht, tokensOf]

theorem strtokR_some (h : strtokR s = some (t, last)) : Splits s t last := by
  unfold strtokR at h
  have hsuffix : s.dropWhile (· == SPACE) <:+ s := List.dropWhile_suffix _
  split at h
  · cases h
  · next c cs hdrop =>
      rw [hdrop] at hsuffix
      have hc : c ≠ SPACE := by
        have hne : s.dropWhile (· == SPACE) ≠ [] := by
          rw [hdrop]
          exact List.cons_ne_nil c cs
        simpa [hdrop] using List.head_dropWhile_not (· == SPACE) hne
      simp only [Option.some.injEq, Prod.mk.injEq] at h
      obtain ⟨htoken, hlast⟩ := h
      -- the token and what follows it are what is left after the leading spaces
      have hjoin : t ++ (c :: cs).dropWhile (· != SPACE) = c :: cs := by
        rw [← htoken]
        exact List.takeWhile_append_dropWhile
      have ht : t ≠ [] := by
        rw [← htoken, List.takeWhile_cons_of_pos (by simpa using hc)]
        exact List.cons_ne_nil _ _
      have hspace : SPACE ∉ t := by
        intro hmem
        rw [← htoken] at hmem
        simpa using List.mem_takeWhile_imp hmem
      have htokens : tokensOf s = tokensOf (c :: cs) := by rw [← hdrop, tokensOf_dropWhile]
      have hlength := hsuffix.length_le
      cases hrest : (c :: cs).dropWhile (· != SPACE) with
      | nil =>
          rw [hrest] at hjoin hlast
          rw [List.append_nil] at hjoin
          have hnil : last = [] := hlast.symm
          subst hnil
          refine ⟨?_, ?_, Or.inr ⟨rfl, ?_⟩, fun b hb => hsuffix.subset (hjoin ▸ hb), nofun⟩
          · rw [htokens, ← hjoin, tokensOf_single ht hspace]
            rfl
          · rw [← hjoin] at hlength
            exact (List.length_pos_iff.2 ht).trans_le hlength
          · rw [← hjoin] at hlength
            exact hlength
      | cons d rest =>
          rw [hrest] at hjoin hlast
          have hd : d = SPACE := by
            have hne : (c :: cs).dropWhile (· != SPACE) ≠ [] := by
              rw [hrest]
              exact List.cons_ne_nil d rest
            simpa [hrest] using List.head_dropWhile_not (· != SPACE) hne
          have hrest' : last = rest := by simpa using hlast.symm
          subst hd hrest'
          have hlen : t.length + (last.length + 1) = (c :: cs).length := by
            rw [← hjoin, List.length_append, List.length_cons]
          refine ⟨?_, by omega, Or.inl (by omega), fun b hb => hsuffix.subset ?_,
            fun b hb => hsuffix.subset ?_⟩
          · rw [htokens, ← hjoin, tokensOf_append ht hspace]
          · rw [← hjoin]
            exact List.mem_append_left _ hb
          · rw [← hjoin]
            exact List.mem_append_right _ (List.mem_cons_of_mem _ hb)

/-- Along the tokens that `strtok_r` finds one after the other. -/
theorem strtokR_induction {P : List Byte → Prop} (done : ∀ s, strtokR s = none → P s)
    (token : ∀ s t last, strtokR s = some (t, last) → P last → P s) (s : List Byte) : P s := by
  induction hn : s.length using Nat.strong_induction_on generalizing s with
  | h n ih =>
      cases hstr : strtokR s with
      | none =>
          exact done s hstr
      | some r =>
          obtain ⟨t, last⟩ := r
          have hshorter := (strtokR_some hstr).shorter
          exact token s t last hstr (ih last.length (hn ▸ hshorter) last rfl)

theorem countTokens_eq {n : ℕ} (h : s.length < n) :
    countTokens n s = some (tokensOf s).length := by
  induction s using strtokR_induction generalizing n with
  | done s hstr =>
      obtain ⟨n, rfl⟩ := Nat.exists_eq_succ_of_ne_zero (Nat.ne_of_gt (Nat.zero_lt_of_lt h))
      rw [countTokens, hstr, strtokR_none hstr]
      rfl
  | token s t last hstr ih =>
      obtain ⟨n, rfl⟩ := Nat.exists_eq_succ_of_ne_zero (Nat.ne_of_gt (Nat.zero_lt_of_lt h))
      have hsplit := strtokR_some hstr
      have hlast : last.length < n := hsplit.shorter.trans_le (Nat.le_of_lt_succ h)
      rw [countTokens, hstr]
      dsimp only
      rw [ih hlast, hsplit.tokens]
      rfl

theorem storeArgv_eq (s : List Byte) : storeArgv (tokensOf s).length s = some (tokensOf s) := by
  induction s using strtokR_induction with
  | done s hstr =>
      rw [strtokR_none hstr]
      rfl
  | token s t last hstr ih =>
      rw [(strtokR_some hstr).tokens, List.length_cons, storeArgv, hstr]
      dsimp only
      rw [ih]
      rfl

/-- The tokens with their terminating zeros, one after the other. -/
def strings (tokens : List (List Byte)) : List Byte := tokens.flatMap (· ++ [0])

@[simp] theorem strings_cons (t : List Byte) (tokens : List (List Byte)) :
    strings (t :: tokens) = t ++ [0] ++ strings tokens := rfl

@[simp] theorem length_strings_cons (t : List Byte) (tokens : List (List Byte)) :
    (strings (t :: tokens)).length = t.length + 1 + (strings tokens).length := by
  rw [strings_cons, List.length_append, List.length_append, List.length_singleton]

/-- Every token but the last is followed by a space in the command line. -/
theorem length_strings_le (s : List Byte) : (strings (tokensOf s)).length ≤ s.length + 1 := by
  induction s using strtokR_induction with
  | done s hstr =>
      rw [strtokR_none hstr]
      exact Nat.zero_le _
  | token s t last hstr ih =>
      have hsplit := strtokR_some hstr
      rw [hsplit.tokens, length_strings_cons]
      rcases hsplit.length with hlen | ⟨rfl, hlen⟩
      · omega
      · have hnil : (strings (tokensOf [])).length = 0 := rfl
        omega

theorem length_le_strings (tokens : List (List Byte)) :
    tokens.length ≤ (strings tokens).length := by
  induction tokens with
  | nil =>
      exact le_rfl
  | cons t tokens ih =>
      rw [length_strings_cons, List.length_cons]
      omega

theorem mem_of_mem_tokens (s : List Byte) : ∀ t ∈ tokensOf s, ∀ b ∈ t, b ∈ s := by
  induction s using strtokR_induction with
  | done s hstr =>
      rw [strtokR_none hstr]
      exact fun t ht => absurd ht List.not_mem_nil
  | token s t last hstr ih =>
      have hsplit := strtokR_some hstr
      rw [hsplit.tokens]
      intro t' ht' b hb
      rcases List.mem_cons.1 ht' with rfl | ht'
      · exact hsplit.mem_token b hb
      · exact hsplit.mem_last b (ih t' ht' b hb)

end Tokens

/-! ## What lies on the stack -/

section Layout

variable {mem₀ : Word → Byte} {st : UserStack} {cs : List Byte} {tokens : List (List Byte)}
  {argv : List Word} {p x : Word}

@[simp] theorem length_wordBytes (x : Word) : (wordBytes x).length = 4 := rfl

theorem wordBytes_append (x : Word) :
    (x.extractLsb' 24 8 ++ x.extractLsb' 16 8 ++ x.extractLsb' 8 8 ++ x.extractLsb' 0 8 : Word) =
      x := by
  have h16 : (24 : ℕ) = 16 + 8 := rfl
  have h8 : (16 : ℕ) = 8 + 8 := rfl
  have h0 : (8 : ℕ) = 0 + 8 := rfl
  rw [BitVec.extractLsb'_append_extractLsb'_eq_extractLsb' h16,
    BitVec.extractLsb'_append_extractLsb'_eq_extractLsb' h8,
    BitVec.extractLsb'_append_extractLsb'_eq_extractLsb' h0]
  exact BitVec.extractLsb'_eq_self

/-- A word that has been stored is loaded again. -/
theorem loadWord_eq {mem : Word → Byte} (h : Holds mem p (wordBytes x)) : loadWord mem p = x := by
  have h0 : mem p = x.extractLsb' 0 8 := by simpa using h 0 _ rfl
  have h1 : mem (p + 1) = x.extractLsb' 8 8 := h 1 _ rfl
  have h2 : mem (p + 2) = x.extractLsb' 16 8 := h 2 _ rfl
  have h3 : mem (p + 3) = x.extractLsb' 24 8 := h 3 _ rfl
  rw [loadWord, h0, h1, h2, h3]
  exact wordBytes_append x

/-- Words that lie one after the other. -/
theorem loadWord_getElem {mem : Word → Byte} {i : ℕ}
    (h : Holds mem p (argv.flatMap wordBytes)) (hi : argv[i]? = some x) :
    loadWord mem (p + BitVec.ofNat 32 (4 * i)) = x := by
  induction argv generalizing p i with
  | nil =>
      cases hi
  | cons y argv ih =>
      rw [List.flatMap_cons, holds_append] at h
      cases i with
      | zero =>
          cases hi
          rw [Nat.mul_zero, BitVec.add_zero]
          exact loadWord_eq h.1
      | succ i =>
          have hrest := ih h.2 hi
          rw [length_wordBytes, add_assoc, ← BitVec.ofNat_add] at hrest
          rwa [Nat.mul_succ, Nat.add_comm]

/-- A string that lies among others. -/
theorem holds_getElem {mem : Word → Byte} {i : ℕ} {t : List Byte}
    (h : Holds mem p (strings tokens)) (hi : tokens[i]? = some t) :
    Holds mem (p + BitVec.ofNat 32 (strings (tokens.take i)).length) (t ++ [0]) := by
  induction tokens generalizing p i with
  | nil =>
      cases hi
  | cons t' tokens ih =>
      rw [strings_cons, holds_append] at h
      cases i with
      | zero =>
          cases hi
          rw [List.take_zero]
          simpa [strings] using h.1
      | succ i =>
          have hrest := ih h.2 hi
          rw [List.take_succ_cons, length_strings_cons]
          rwa [List.length_append, List.length_singleton, add_assoc, ← BitVec.ofNat_add] at hrest

theorem readString_eq {mem : Word → Byte} {n : ℕ} {t : List Byte} (h : Holds mem p (t ++ [0]))
    (hzero : 0 ∉ t) (hn : t.length < n) : readString mem n p = t := by
  induction t generalizing n p with
  | nil =>
      obtain ⟨n, rfl⟩ := Nat.exists_eq_succ_of_ne_zero (Nat.ne_of_gt hn)
      have hend : mem p = 0 := by simpa using h 0 0 rfl
      rw [readString, if_pos hend]
  | cons b t ih =>
      obtain ⟨n, rfl⟩ := Nat.exists_eq_succ_of_ne_zero (Nat.ne_of_gt (Nat.zero_lt_of_lt hn))
      have hfirst : mem p = b := by simpa using h 0 b rfl
      have hb : b ≠ 0 := fun heq => hzero (heq ▸ List.mem_cons_self)
      have hrest : Holds mem (p + 1) (t ++ [0]) := by
        have happend : Holds mem p ([b] ++ (t ++ [0])) := h
        exact (holds_append.1 happend).2
      rw [readString, hfirst, if_neg hb,
        ih hrest (fun hmem => hzero (List.mem_cons_of_mem b hmem)) (Nat.lt_of_succ_lt_succ hn)]

theorem length_flatMap_wordBytes (argv : List Word) :
    (argv.flatMap wordBytes).length = 4 * argv.length := by
  induction argv with
  | nil =>
      rfl
  | cons x argv ih =>
      rw [List.flatMap_cons, List.length_append, ih, length_wordBytes, List.length_cons]
      omega

/-- Where the copy of a token starts among the copies. -/
def offset (tokens : List (List Byte)) (i : ℕ) : ℕ := (strings (tokens.take i)).length

theorem offset_succ {i : ℕ} {t : List Byte} (h : tokens[i]? = some t) :
    offset tokens (i + 1) = offset tokens i + (t.length + 1) := by
  have htake : tokens.take (i + 1) = tokens.take i ++ [t] := by
    rw [List.take_add_one, h]
    rfl
  rw [offset, htake, strings, List.flatMap_append, List.length_append]
  simp [offset, strings]

theorem offset_mono {i j : ℕ} (h : i ≤ j) : offset tokens i ≤ offset tokens j := by
  have hprefix : strings (tokens.take i) <+: strings (tokens.take j) := by
    obtain ⟨rest, hrest⟩ := List.take_prefix_take_left h (l := tokens)
    rw [← hrest, strings, strings, List.flatMap_append]
    exact List.prefix_append _ _
  exact hprefix.length_le

theorem offset_le (tokens : List (List Byte)) (i : ℕ) :
    offset tokens i ≤ (strings tokens).length := by
  have hall : offset tokens (i + tokens.length) = (strings tokens).length := by
    rw [offset, List.take_of_length_le (Nat.le_add_left _ _)]
  rw [← hall]
  exact offset_mono (Nat.le_add_right _ _)

/-- The copies of the tokens lie one after the other, `argv` has their addresses, and `total_len` is
their length. -/
structure ArgsPushed (mem₀ : Word → Byte) (cs : List Byte) (tokens : List (List Byte))
    (r : UserStack × List Word × ℕ) : Prop where
  contains : Contains PHYS_BASE mem₀ r.1 (strings tokens ++ cs)
  argv_length : r.2.1.length = tokens.length
  argv_get : ∀ i < tokens.length, r.2.1[i]? = some (r.1.sp + BitVec.ofNat 32 (offset tokens i))
  totalLen : r.2.2 = (strings tokens).length

theorem pushArgs_pushed (h : Contains PHYS_BASE mem₀ st cs)
    (hlen : (strings tokens).length + cs.length ≤ 2 ^ 32) :
    ArgsPushed mem₀ cs tokens (pushArgs st tokens) := by
  induction tokens with
  | nil =>
      exact ⟨h, rfl, fun i hi => absurd hi (Nat.not_lt_zero i), rfl⟩
  | cons t tokens ih =>
      rw [length_strings_cons] at hlen
      have hrest := ih (by omega)
      rw [pushArgs]
      rcases hr : pushArgs st tokens with ⟨st', argv, totalLen⟩
      rw [hr] at hrest
      have hstrings : Contains PHYS_BASE mem₀ (pushString st' t)
          (t ++ [0] ++ (strings tokens ++ cs)) := by
        refine hrest.contains.push ?_
        rw [List.length_append, List.length_append, List.length_singleton]
        omega
      refine ⟨?_, ?_, ?_, ?_⟩
      · rw [strings_cons, List.append_assoc]
        exact hstrings
      · exact congrArg (· + 1) hrest.argv_length
      · intro i hi
        cases i with
        | zero =>
            simp [offset, strings]
        | succ i =>
            -- the pointer has moved down by the new string
            have hget := hrest.argv_get i (Nat.lt_of_succ_lt_succ hi)
            have hsp : st'.sp = (pushString st' t).sp + BitVec.ofNat 32 (t.length + 1) := by
              rw [pushString, DownStack.push, List.length_append, List.length_singleton,
                sub_add_cancel]
            rw [List.getElem?_cons_succ]
            dsimp only at hget ⊢
            rw [hget, hsp, add_assoc, ← BitVec.ofNat_add, offset, offset, List.take_succ_cons,
              length_strings_cons]
      · have htotal := hrest.totalLen
        dsimp only at htotal ⊢
        rw [length_strings_cons, ← htotal, Nat.add_comm]

theorem pushWord_contains (x : Word) (h : Contains PHYS_BASE mem₀ st cs)
    (hlen : 4 + cs.length ≤ 2 ^ 32) :
    Contains PHYS_BASE mem₀ (pushWord st x) (wordBytes x ++ cs) :=
  h.push hlen

theorem pushAddresses_contains (h : Contains PHYS_BASE mem₀ st cs)
    (hlen : 4 * argv.length + cs.length ≤ 2 ^ 32) :
    Contains PHYS_BASE mem₀ (pushAddresses st argv) (argv.flatMap wordBytes ++ cs) := by
  induction argv with
  | nil =>
      exact h
  | cons x argv ih =>
      rw [List.length_cons] at hlen
      rw [List.flatMap_cons, List.append_assoc]
      refine pushWord_contains x (ih (by omega)) ?_
      rw [List.length_append, length_flatMap_wordBytes]
      omega

/-- The bytes from the stack pointer up to `PHYS_BASE`. -/
def stackBytes (esp : Word) (tokens : List (List Byte)) (argv : List Word) (gap : List Byte) :
    List Byte :=
  wordBytes 0 ++ (wordBytes (BitVec.ofNat 32 tokens.length) ++ (wordBytes (esp + 12) ++
    (argv.flatMap wordBytes ++ (wordBytes 0 ++ (gap ++ strings tokens)))))

theorem length_stackBytes {gap : List Byte} (h : argv.length = tokens.length) :
    (stackBytes p tokens argv gap).length =
      16 + 4 * tokens.length + gap.length + (strings tokens).length := by
  simp only [stackBytes, List.length_append, length_wordBytes, length_flatMap_wordBytes, h]
  omega

/-- What `construct_esp` leaves below `PHYS_BASE`. -/
structure StackLayout (mem₀ : Word → Byte) (st : UserStack) (tokens : List (List Byte))
    (argv : List Word) (gap : List Byte) : Prop where
  contains : Contains PHYS_BASE mem₀ st (stackBytes st.sp tokens argv gap)
  argv_length : argv.length = tokens.length
  argv_get : ∀ i < tokens.length, argv[i]? =
    some (st.sp + BitVec.ofNat 32 (16 + 4 * tokens.length + gap.length + offset tokens i))
  gap_lt : gap.length < 4
  gap_aligns : (gap.length + (strings tokens).length) % 4 = 0

/-- Below the strings the frame is laid out, aligned to a multiple of four. -/
theorem pushFrame_layout {r : UserStack × List Word × ℕ} (h : ArgsPushed mem₀ [] tokens r)
    (hlen : (strings tokens).length ≤ 256) :
    ∃ gap, StackLayout mem₀ (pushFrame tokens.length r.2.1 r.2.2 r.1) tokens r.2.1 gap := by
  have hcount := length_le_strings tokens
  obtain ⟨s₁, argv, totalLen⟩ := r
  have hstrings : Contains PHYS_BASE mem₀ s₁ (strings tokens) := by
    simpa using h.contains
  have htotal : totalLen = (strings tokens).length := h.totalLen
  have hargv : argv.length = tokens.length := h.argv_length
  let pad := if totalLen % 4 ≠ 0 then 4 - totalLen % 4 else 0
  have hpad : pad < 4 ∧ (pad + totalLen) % 4 = 0 := by
    simp only [pad]
    split <;> omega
  obtain ⟨gap, hgap, hskip⟩ := hstrings.skip (show pad + _ ≤ 2 ^ 32 by omega)
  have hgapLen : (gap ++ strings tokens).length = pad + (strings tokens).length := by
    rw [List.length_append, hgap]
  have hnull := pushWord_contains 0 hskip (by omega)
  let s₄ := pushAddresses (pushWord (s₁.skip pad) 0) argv
  let below := argv.flatMap wordBytes ++ (wordBytes 0 ++ (gap ++ strings tokens))
  have hbelow : below.length = 4 * tokens.length + (4 + (pad + (strings tokens).length)) := by
    rw [List.length_append, List.length_append, length_flatMap_wordBytes, length_wordBytes, hargv,
      hgapLen]
  have haddresses : Contains PHYS_BASE mem₀ s₄ below := by
    refine pushAddresses_contains hnull ?_
    rw [List.length_append, length_wordBytes]
    omega
  have hbase := pushWord_contains (s₄.sp - 4 + 4) haddresses (by omega)
  have hargc := pushWord_contains (BitVec.ofNat 32 tokens.length) hbase (by
    rw [List.length_append, length_wordBytes]
    omega)
  have hret := pushWord_contains 0 hargc (by
    rw [List.length_append, List.length_append, length_wordBytes, length_wordBytes]
    omega)
  -- the word that has been stored is the address of `argv`
  have hsp : s₄.sp - 4 + 4 = (pushFrame tokens.length argv totalLen s₁).sp + 12 := by
    rw [sub_add_cancel]
    refine hret.sp_eq_add haddresses ?_
    simp only [List.length_append, length_wordBytes]
    omega
  have hframe : Contains PHYS_BASE mem₀ (pushFrame tokens.length argv totalLen s₁)
      (stackBytes (pushFrame tokens.length argv totalLen s₁).sp tokens argv gap) := by
    rw [stackBytes, ← hsp]
    exact hret
  refine ⟨gap, hframe, hargv, fun i hi => ?_, by omega, by omega⟩
  have hget := h.argv_get i hi
  have hfirst : s₁.sp = (pushFrame tokens.length argv totalLen s₁).sp +
      BitVec.ofNat 32 (16 + 4 * tokens.length + gap.length) :=
    hframe.sp_eq_add hstrings (length_stackBytes hargv)
  dsimp only at hget ⊢
  rw [hget, hfirst, add_assoc, ← BitVec.ofNat_add]

/-- The pieces of the layout at their addresses. -/
structure StackPieces (st : UserStack) (tokens : List (List Byte)) (argv : List Word) (n : ℕ) :
    Prop where
  returnAddress : Holds st.mem st.sp (wordBytes 0)
  argc : Holds st.mem (st.sp + 4) (wordBytes (BitVec.ofNat 32 tokens.length))
  argvAddress : Holds st.mem (st.sp + 8) (wordBytes (st.sp + 12))
  words : Holds st.mem (st.sp + 12) (argv.flatMap wordBytes)
  null : Holds st.mem (st.sp + 12 + BitVec.ofNat 32 (4 * tokens.length)) (wordBytes 0)
  copies : Holds st.mem (st.sp + BitVec.ofNat 32 (16 + 4 * tokens.length + n)) (strings tokens)

namespace StackLayout

variable {gap : List Byte}

theorem pieces (h : StackLayout mem₀ st tokens argv gap) :
    StackPieces st tokens argv gap.length := by
  obtain ⟨hret, hrest⟩ := holds_append.1 h.contains.cells
  obtain ⟨hargc, hrest⟩ := holds_append.1 hrest
  obtain ⟨hbase, hrest⟩ := holds_append.1 hrest
  obtain ⟨hwords, hrest⟩ := holds_append.1 hrest
  obtain ⟨hnull, hrest⟩ := holds_append.1 hrest
  obtain ⟨-, hstrings⟩ := holds_append.1 hrest
  have h8 : st.sp + 4 + 4 = st.sp + 8 := add_assoc _ _ _
  have h12 : st.sp + 4 + 4 + 4 = st.sp + 12 := by
    rw [h8]
    exact add_assoc _ _ _
  simp only [length_wordBytes] at hargc hbase hwords
  simp only [length_wordBytes, length_flatMap_wordBytes, h.argv_length] at hnull hstrings
  refine ⟨hret, hargc, h8 ▸ hbase, h12 ▸ hwords, h12 ▸ hnull, ?_⟩
  have hsum : 16 + 4 * tokens.length + gap.length =
      4 + 4 + 4 + 4 * tokens.length + 4 + gap.length := by
    omega
  rw [hsum]
  simpa only [BitVec.ofNat_add, add_assoc] using hstrings

/-- The stack pointer as a number. -/
theorem toNat_sp (h : StackLayout mem₀ st tokens argv gap) (hlen : (strings tokens).length ≤ 256) :
    st.sp.toNat + (16 + 4 * tokens.length + gap.length + (strings tokens).length) =
      PHYS_BASE.toNat := by
  have hcount := length_le_strings tokens
  have hgap := h.gap_lt
  have hbytes := @length_stackBytes tokens argv st.sp gap h.argv_length
  have hsp := h.contains.toNat_sp (by rw [hbytes, toNat_physBase]; omega)
  rwa [hbytes] at hsp

/-- `argv` as the program reads it. -/
theorem argvAt_eq (h : StackLayout mem₀ st tokens argv gap) {i : ℕ} (hi : i < tokens.length) :
    argvAt st.mem (st.sp + 12) i =
      st.sp + BitVec.ofNat 32 (16 + 4 * tokens.length + gap.length + offset tokens i) :=
  loadWord_getElem h.pieces.words (h.argv_get i hi)

theorem toNat_argvAt (h : StackLayout mem₀ st tokens argv gap)
    (hlen : (strings tokens).length ≤ 256) {i : ℕ} (hi : i < tokens.length) :
    (argvAt st.mem (st.sp + 12) i).toNat =
      st.sp.toNat + (16 + 4 * tokens.length + gap.length + offset tokens i) := by
  have hsp := h.toNat_sp hlen
  have hle := offset_le tokens i
  have hbase := toNat_physBase
  rw [h.argvAt_eq hi]
  exact toNat_offset (by omega)

theorem copy (h : StackLayout mem₀ st tokens argv gap) {i : ℕ} {t : List Byte}
    (ht : tokens[i]? = some t) : Holds st.mem (argvAt st.mem (st.sp + 12) i) (t ++ [0]) := by
  have hcopy := holds_getElem h.pieces.copies ht
  rwa [add_assoc, ← BitVec.ofNat_add, ← offset,
    ← h.argvAt_eq (List.getElem?_eq_some_iff.1 ht).1] at hcopy

/-- A program that reads its arguments finds the tokens. -/
theorem readArgs_eq (h : StackLayout mem₀ st tokens argv gap)
    (hlen : (strings tokens).length ≤ 256) (hzero : ∀ t ∈ tokens, 0 ∉ t) :
    readArgs st.mem st.sp = tokens := by
  have hcount := length_le_strings tokens
  have hargc : (loadWord st.mem (st.sp + 4)).toNat = tokens.length := by
    rw [loadWord_eq h.pieces.argc, BitVec.toNat_ofNat]
    omega
  rw [readArgs, hargc, loadWord_eq h.pieces.argvAddress]
  apply List.ext_getElem?
  intro i
  rw [List.getElem?_map]
  by_cases hi : i < tokens.length
  · have ht : tokens[i]? = some tokens[i] := List.getElem?_eq_getElem hi
    have hshort : tokens[i].length < PGSIZE := by
      have hsucc := offset_succ ht
      have hle := offset_le tokens (i + 1)
      simp only [PGSIZE]
      omega
    have hrange : (List.range tokens.length)[i]? = some i := List.getElem?_range hi
    rw [ht, hrange]
    exact congrArg some (readString_eq (h.copy ht) (hzero _ (List.getElem_mem hi)) hshort)
  · rw [List.getElem?_eq_none (not_lt.1 hi), List.getElem?_eq_none (by simpa using hi)]
    rfl

theorem initialStack (h : StackLayout mem₀ st tokens argv gap)
    (hlen : (strings tokens).length ≤ 256) (hzero : ∀ t ∈ tokens, 0 ∉ t) :
    InitialStack st tokens := by
  have hcount := length_le_strings tokens
  have hgap := h.gap_lt
  have haligns := h.gap_aligns
  have hsp := h.toNat_sp hlen
  have hbase := toNat_physBase
  refine ⟨by omega, loadWord_eq h.pieces.returnAddress, loadWord_eq h.pieces.argc,
    loadWord_eq h.pieces.argvAddress, loadWord_eq h.pieces.null, fun i t ht => h.copy ht, by omega,
    fun i t ht => ?_, fun i j t hij hj ht => ?_, fun a ha => ?_, h.readArgs_eq hlen hzero⟩
  · have hi := (List.getElem?_eq_some_iff.1 ht).1
    have hsucc := offset_succ ht
    have hle := offset_le tokens (i + 1)
    rw [h.toNat_argvAt hlen hi]
    omega
  · have hi := (List.getElem?_eq_some_iff.1 ht).1
    have hsucc := offset_succ ht
    have hmono := @offset_mono tokens (i + 1) j hij
    rw [h.toNat_argvAt hlen hi, h.toNat_argvAt hlen hj]
    omega
  · have hwritten := h.contains.written_between
      (by rw [length_stackBytes h.argv_length]; omega) a ha
    simp only [PGSIZE]
    omega

end StackLayout

end Layout

/-! ## The result -/

theorem constructEsp_initialStack (mem : Word → Byte) {fileName : List Byte}
    (hzero : 0 ∉ fileName) (hlen : fileName.length ≤ 255) :
    ∃ st, constructEsp true fileName ⟨mem, PHYS_BASE, []⟩ = some st ∧
      InitialStack st (tokensOf fileName) := by
  have hstrings : (strings (tokensOf fileName)).length ≤ 256 :=
    (length_strings_le fileName).trans (Nat.succ_le_succ hlen)
  have hpushed : ArgsPushed mem [] (tokensOf fileName)
      (pushArgs ⟨mem, PHYS_BASE, []⟩ (tokensOf fileName)) := by
    refine pushArgs_pushed (Contains.start PHYS_BASE mem) ?_
    rw [List.length_nil]
    omega
  obtain ⟨gap, hlayout⟩ := pushFrame_layout hpushed hstrings
  refine ⟨_, ?_, hlayout.initialStack hstrings fun t ht h0 =>
    hzero (mem_of_mem_tokens fileName t ht 0 h0)⟩
  have hfits : ¬ fileName.length + 1 > 256 := by omega
  rw [constructEsp, if_neg hfits, countTokens_eq (Nat.lt_succ_self _)]
  simp only [Option.bind_eq_bind, Option.bind_some, Bool.true_eq_false, and_false, if_false,
    storeArgv_eq]
  rfl

/-- For a command line of at most 255 bytes `construct_esp` builds the stack that the program
expects. -/
theorem construct_esp_builds_stack (mem : Word → Byte) {fileName : List Byte}
    (hzero : 0 ∉ fileName) (hlen : fileName.length ≤ 255) :
    ∃ st, constructEsp true fileName ⟨mem, PHYS_BASE, []⟩ = some st ∧
      InitialStack st (tokensOf fileName) :=
  constructEsp_initialStack mem hzero hlen

/-- `echo x`, with a space in front. -/
theorem construct_esp_builds_echo :
    ∃ st, constructEsp true [0x20, 0x65, 0x63, 0x68, 0x6f, 0x20, 0x78]
        ⟨fun _ => 0, PHYS_BASE, []⟩ = some st ∧
      InitialStack st [[0x65, 0x63, 0x68, 0x6f], [0x78]] := by
  have htokens : tokensOf [0x20, 0x65, 0x63, 0x68, 0x6f, 0x20, 0x78] =
      [[0x65, 0x63, 0x68, 0x6f], [0x78]] := by decide
  rw [← htokens]
  exact construct_esp_builds_stack (fun _ => 0) (by decide) (by decide)

end Project4
end Pintos
