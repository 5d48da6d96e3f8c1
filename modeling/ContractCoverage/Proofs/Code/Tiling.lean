import ContractCoverage.Code.Bytecode
import ContractCoverage.Code.Instruction
import Mathlib.Data.List.Basic

/-! How the walk tiles a code.

The mnemonic of an instruction says how long it is: `PUSHn` asks for `n` bytes behind the
opcode (`Opcode.asked`), and has those of them that the code still has, so that the end of
the code may cut a push (`Instruction.stop`). `Walked` is the way of the walk: what starts
at an address is the instruction that stands there, and behind all that its mnemonic asks
for the walk goes on.

`walk_tiles`: laid out like this the instructions are the code, each byte of it in one
instruction and in no other. -/
namespace ContractCoverage

/-! ### What a mnemonic asks for -/

namespace Opcode

/-- The mnemonic of the opcode that pushes `n` bytes. -/
def push (n : Nat) : String := s!"PUSH{n}"

/-- The number of operand bytes that a mnemonic asks for: `n` for `PUSHn`, none for any other. -/
def asked (name : String) : Nat :=
  ((List.range 33).find? fun n => name == push n).getD 0

theorem asked_push {n : Nat} (h : n ≤ 32) : asked (push n) = n := by
  have hall : ∀ n : Fin 33, asked (push n) = n := by decide +kernel
  exact hall ⟨n, Nat.lt_succ_of_le h⟩

/-- What is not the mnemonic of a push that pushes something asks for nothing. -/
theorem asked_of_ne_push {name : String} (h : ∀ n ≤ 32, 0 < n → name ≠ push n) :
    asked name = 0 := by
  unfold asked
  cases hfind : (List.range 33).find? fun n => name == push n with
  | none => rfl
  | some n =>
    have hn : n ≤ 32 := Nat.le_of_lt_succ (List.mem_range.1 (List.mem_of_find?_eq_some hfind))
    have hname : name = push n := by simpa using List.find?_some hfind
    rcases Nat.eq_zero_or_pos n with rfl | hpos
    · rfl
    · exact absurd hname (h n hn hpos)

theorem mnemonic_eq_push {b : UInt8} (h : 0x5f ≤ b.toNat ∧ b.toNat ≤ 0x7f) :
    mnemonic b = push (b.toNat - 0x5f) := by
  rw [mnemonic, mnemonic?, if_pos h]
  rfl

/-- The other opcodes have other names: that of a push is told by its fourth letter. -/
theorem mnemonic_ne_push {b : UInt8} (h : ¬ (0x5f ≤ b.toNat ∧ b.toNat ≤ 0x7f)) (n : Nat) :
    mnemonic b ≠ push n := by
  let bytes (s : String) : List UInt8 := s.toByteArray.data.toList
  have hall : ∀ n : Fin 256, ¬ (0x5f ≤ n.val ∧ n.val ≤ 0x7f) →
      (bytes (mnemonic (.ofNat n)))[3]? ≠ some 'H'.toUInt8 := by decide +kernel
  have hb := hall ⟨b.toNat, b.toNat_lt⟩ h
  rw [UInt8.ofNat_toNat] at hb
  intro hname
  have happend : bytes (push n) = bytes "PUSH" ++ bytes (toString n) := by
    show ("PUSH" ++ toString n).toByteArray.data.toList = _
    rw [String.toByteArray_append, ByteArray.data_append, Array.toList_append]
  refine hb ?_
  rw [hname, happend, List.getElem?_append_left (by decide)]
  rfl

/-- The mnemonic of an opcode asks for the operand of the opcode. -/
theorem asked_mnemonic (b : UInt8) : asked (mnemonic b) = operandWidth b := by
  by_cases h : 0x5f ≤ b.toNat ∧ b.toNat ≤ 0x7f
  · rw [mnemonic_eq_push h, asked_push (by omega), operandWidth]
    split <;> omega
  · rw [asked_of_ne_push fun n _ _ => mnemonic_ne_push h n, operandWidth, if_neg (by omega)]

end Opcode

namespace Instruction

/-! ### Instructions in a code -/

/-- The place behind an instruction and all that its mnemonic asks for. -/
def next (i : Instruction) : Nat := i.address + 1 + Opcode.asked i.mnemonic

/-- The place where an instruction stops in a code, which is at the end of the code at the latest. -/
def stop (i : Instruction) (code : List UInt8) : Nat := min i.next code.length

/-- An instruction covers the bytes from its address up to where it stops. -/
def Covers (i : Instruction) (code : List UInt8) (place : Nat) : Prop :=
  i.address ≤ place ∧ place < i.stop code

/-- The bytes that the argument of an instruction stands for. -/
def pushed (i : Instruction) : List UInt8 :=
  match i.argument? with
  | none => []
  | some text => (Text.Hex.decode (Bytecode.dropMark text.toList)).toOption.getD []

/-- An instruction stands in a code: at its address is its opcode, and behind that its operand. -/
structure StandsIn (code : List UInt8) (i : Instruction) : Prop where
  opcode : code[i.address]? = some i.opcode
  operand : i.operand = (code.drop (i.address + 1)).take (Opcode.asked i.mnemonic)

theorem exists_standsIn {code : List UInt8} {address : Nat} (h : address < code.length) :
    ∃ i : Instruction, i.address = address ∧ i.StandsIn code := by
  refine ⟨⟨address, code[address],
    (code.drop (address + 1)).take (Opcode.operandWidth code[address])⟩, rfl, ?_, ?_⟩
  · exact List.getElem?_eq_getElem h
  · rw [mnemonic, Opcode.asked_mnemonic]

namespace StandsIn
variable {code : List UInt8} {i : Instruction} (h : i.StandsIn code)
include h

theorem lt_length : i.address < code.length := (List.getElem?_eq_some_iff.1 h.opcode).1

theorem lt_stop : i.address < i.stop code := by
  have hlt := h.lt_length
  unfold stop next
  omega

/-- An instruction that asks for nothing covers one byte. -/
theorem stop_of_asked_eq_zero (hzero : Opcode.asked i.mnemonic = 0) :
    i.stop code = i.address + 1 := by
  have hlt := h.lt_length
  unfold stop next
  omega

/-- The operand is what an instruction covers behind its opcode. -/
theorem operand_eq_extract : i.operand = code.extract (i.address + 1) (i.stop code) := by
  have hlt := h.lt_length
  rw [h.operand, List.extract_eq_take_drop, List.take_eq_take_iff, List.length_drop, stop, next]
  omega

/-- The argument, where there is one, is the operand in hexadecimal. -/
theorem argument?_eq : i.argument? = if Opcode.asked i.mnemonic = 0 then none
    else some ("0x" ++ Text.Hex.encodeText (code.extract (i.address + 1) (i.stop code))) := by
  rw [argument?, h.operand_eq_extract, mnemonic, Opcode.asked_mnemonic]

/-- Read back, the argument is the operand. -/
theorem pushed_eq : i.pushed = i.operand := by
  have hmark : Bytecode.dropMark ("0x" ++ Text.Hex.encodeText i.operand).toList =
      Text.Hex.encode i.operand := by
    have hdigits : (Text.Hex.encodeText i.operand).toList = Text.Hex.encode i.operand :=
      String.toList_ofList
    rw [String.toList_append, hdigits]
    rfl
  unfold pushed
  by_cases hzero : Opcode.asked i.mnemonic = 0
  · rw [h.argument?_eq, if_pos hzero, h.operand, hzero, List.take_zero]
  · rw [h.argument?_eq, if_neg hzero, ← h.operand_eq_extract]
    show (Text.Hex.decode (Bytecode.dropMark _)).toOption.getD [] = _
    rw [hmark, Text.Hex.decode_encode]
    rfl

/-- The byte at the address and the argument, read back, are the bytes of the instruction. -/
theorem bytes_eq : code[i.address]?.toList ++ i.pushed = i.bytes := by
  rw [h.opcode, h.pushed_eq]
  rfl

/-- The walk from the address of an instruction gives it and goes on behind it. -/
theorem walkFrom_drop :
    walkFrom i.address (code.drop i.address) = i :: walkFrom i.next (code.drop i.next) := by
  obtain ⟨hlt, hget⟩ := List.getElem?_eq_some_iff.1 h.opcode
  have hwidth : Opcode.operandWidth i.opcode = Opcode.asked i.mnemonic :=
    (Opcode.asked_mnemonic i.opcode).symm
  rw [List.drop_eq_getElem_cons hlt, walkFrom_cons, List.drop_drop, hget, hwidth, ← h.operand]
  rfl

end StandsIn

/-! ### The way of the walk -/

/-- No instruction of a walk stands in front of where it begins. -/
theorem le_address {address : Nat} {code : List UInt8} :
    ∀ i ∈ walkFrom address code, address ≤ i.address := by
  fun_induction walkFrom address code with
  | case1 => exact fun i hi => absurd hi List.not_mem_nil
  | case2 address b rest width ih =>
    refine List.forall_mem_cons.2 ⟨Nat.le_refl _, fun i hi => ?_⟩
    have hle := ih i hi
    omega

theorem pairwise_walkFrom (address : Nat) (code : List UInt8) :
    (walkFrom address code).Pairwise fun i j => i.address < j.address := by
  fun_induction walkFrom address code with
  | case1 => exact .nil
  | case2 address b rest width ih =>
    refine List.pairwise_cons.2 ⟨fun j hj => ?_, ih⟩
    have hle := le_address j hj
    show address < j.address
    omega

/-- The instructions of a code from an address on, each behind the one before. -/
inductive Walked (code : List UInt8) : Nat → List Instruction → Prop
  | done {address : Nat} (h : code.length ≤ address) : Walked code address []
  | step {address : Nat} {i : Instruction} {rest : List Instruction} (haddress : i.address = address)
      (h : i.StandsIn code) (hrest : Walked code i.next rest) : Walked code address (i :: rest)

theorem walked_walkFrom (code : List UInt8) (address : Nat) :
    Walked code address (walkFrom address (code.drop address)) := by
  induction hn : code.length - address using Nat.strongRecOn generalizing address with
  | ind n ih =>
    by_cases hlt : address < code.length
    · obtain ⟨i, rfl, hi⟩ := exists_standsIn hlt
      rw [hi.walkFrom_drop]
      exact .step rfl hi (ih _ (by unfold next; omega) i.next rfl)
    · rw [List.drop_of_length_le (Nat.le_of_not_lt hlt), walkFrom_nil]
      exact .done (Nat.le_of_not_lt hlt)

theorem walked_walk (code : List UInt8) : Walked code 0 (walk code) := walked_walkFrom code 0

namespace Walked
variable {code : List UInt8} {address : Nat} {is : List Instruction} (h : Walked code address is)
include h

/-- There is one way only. -/
theorem eq_walkFrom : is = walkFrom address (code.drop address) := by
  induction h with
  | done h => rw [List.drop_of_length_le h, walkFrom_nil]
  | step haddress hi _ ih => rw [← haddress, hi.walkFrom_drop, ← ih]

theorem standsIn : ∀ i ∈ is, i.StandsIn code := by
  induction h with
  | done => exact fun i hi => absurd hi List.not_mem_nil
  | step _ hi _ ih => exact List.forall_mem_cons.2 ⟨hi, ih⟩

theorem start : ∀ i ∈ is.head?, i.address = address := by
  intro i hi
  cases h with
  | done => cases hi
  | step haddress =>
    cases hi
    exact haddress

/-- Where an instruction stops, the next one starts. -/
theorem isChain : is.IsChain fun i j => j.address = i.stop code := by
  induction h with
  | done => exact .nil
  | @step _ i rest _ _ hrest ih =>
    cases hrest with
    | done => exact .singleton i
    | step haddress hj hrest =>
      refine List.isChain_cons_cons.2 ⟨?_, ih⟩
      have hlt := hj.lt_length
      unfold stop
      omega

/-- The last instruction stops at the end of the code. -/
theorem stop_getLast? : ∀ i ∈ is.getLast?, i.stop code = code.length := by
  induction h with
  | done => exact fun i hi => by cases hi
  | @step _ i rest _ _ hrest ih =>
    cases hrest with
    | done hle =>
      intro j hj
      cases hj
      exact Nat.min_eq_right hle
    | step => exact ih

/-- An instruction stops before those behind it start. -/
theorem pairwise_stop : is.Pairwise fun i j => i.stop code ≤ j.address := by
  induction h with
  | done => exact .nil
  | step _ _ hrest ih =>
    refine List.pairwise_cons.2 ⟨fun j hj => ?_, ih⟩
    rw [hrest.eq_walkFrom] at hj
    exact Nat.le_trans (Nat.min_le_left ..) (le_address j hj)

/-- Every byte from the address on is covered. -/
theorem exists_covers {place : Nat} (hle : address ≤ place) (hlt : place < code.length) :
    ∃ i ∈ is, i.Covers code place := by
  induction h with
  | done h => omega
  | @step _ i rest haddress _ _ ih =>
    by_cases hnext : i.next ≤ place
    · obtain ⟨j, hj, hcovers⟩ := ih hnext
      exact ⟨j, List.mem_cons_of_mem _ hj, hcovers⟩
    · refine ⟨i, List.mem_cons_self .., by omega, ?_⟩
      unfold stop
      omega

end Walked

/-- Two instructions of a walk do not cover the same byte. -/
theorem eq_of_covers {code : List UInt8} {k l place : Nat} {i j : Instruction}
    (hi : (walk code)[k]? = some i) (hj : (walk code)[l]? = some j) (hki : i.Covers code place)
    (hlj : j.Covers code place) : k = l := by
  have hpairwise := List.pairwise_iff_getElem.1 (walked_walk code).pairwise_stop
  obtain ⟨hk, rfl⟩ := List.getElem?_eq_some_iff.1 hi
  obtain ⟨hl, rfl⟩ := List.getElem?_eq_some_iff.1 hj
  obtain ⟨hstart, hstop⟩ := hki
  obtain ⟨hstart', hstop'⟩ := hlj
  rcases Nat.lt_trichotomy k l with hlt | heq | hlt
  · have hle := hpairwise k l hk hl hlt
    omega
  · exact heq
  · have hle := hpairwise l k hl hk hlt
    omega

/-- Every byte of a code is covered by one instruction of its walk. -/
theorem existsUnique_covers {code : List UInt8} {place : Nat} (h : place < code.length) :
    ∃! k : Nat, ∃ i : Instruction, (walk code)[k]? = some i ∧ i.Covers code place := by
  obtain ⟨i, hi, hcovers⟩ := (walked_walk code).exists_covers (Nat.zero_le place) h
  obtain ⟨k, hk⟩ := List.getElem?_of_mem hi
  refine ⟨k, ⟨i, hk, hcovers⟩, ?_⟩
  rintro l ⟨j, hl, hcovers'⟩
  exact eq_of_covers hl hk hcovers' hcovers

/-! ### Tiles -/

/-- What instructions owe to the code that they are laid out over. -/
structure Tiles (code : List UInt8) (is : List Instruction) : Prop where
  start : ∀ i ∈ is.head?, i.address = 0
  next : is.IsChain fun i j => j.address = i.stop code
  last : ∀ i ∈ is.getLast?, i.stop code = code.length
  opcode : ∀ i ∈ is, code[i.address]? = some i.opcode
  push : ∀ i ∈ is, ∀ n ≤ 32, i.mnemonic = Opcode.push n →
    i.stop code = min (i.address + 1 + n) code.length
  single : ∀ i ∈ is, (∀ n ≤ 32, i.mnemonic ≠ Opcode.push n) → i.stop code = i.address + 1
  undefined : ∀ i ∈ is, Opcode.mnemonic? i.opcode = none →
    i.mnemonic = "INVALID" ∧ i.stop code = i.address + 1
  once : ∀ place < code.length, ∃! k : Nat, ∃ i : Instruction, is[k]? = some i ∧ i.Covers code place
  argument : ∀ i ∈ is, ∀ n ≤ 32, 0 < n → i.mnemonic = Opcode.push n →
    i.argument? =
      some ("0x" ++ Text.Hex.encodeText (code.extract (i.address + 1) (i.stop code)))
  noArgument : ∀ i ∈ is, (∀ n ≤ 32, 0 < n → i.mnemonic ≠ Opcode.push n) → i.argument? = none
  whole : is.flatMap (fun i => code[i.address]?.toList ++ i.pushed) = code

/-- **The walk tiles the code.** -/
theorem walk_tiles (code : List UInt8) : Tiles code (walk code) := by
  have hwalked := walked_walk code
  have hstands := hwalked.standsIn
  exact {
    start := hwalked.start
    next := hwalked.isChain
    last := hwalked.stop_getLast?
    opcode := fun i hi => (hstands i hi).opcode
    push := by
      intro i _ n hn hname
      rw [stop, Instruction.next, hname, Opcode.asked_push hn]
    single := fun i hi hname => (hstands i hi).stop_of_asked_eq_zero
      (Opcode.asked_of_ne_push fun n hn _ => hname n hn)
    undefined := by
      intro i hi hnone
      have hname : i.mnemonic = "INVALID" := by
        rw [mnemonic, Opcode.mnemonic, hnone]
        rfl
      refine ⟨hname, (hstands i hi).stop_of_asked_eq_zero ?_⟩
      rw [hname]
      decide +kernel
    once := fun _ hlt => existsUnique_covers hlt
    argument := by
      intro i hi n hn hpos hname
      have hasked : Opcode.asked i.mnemonic ≠ 0 := by
        rw [hname, Opcode.asked_push hn]
        exact Nat.ne_of_gt hpos
      rw [(hstands i hi).argument?_eq, if_neg hasked]
    noArgument := fun i hi hname => by
      rw [(hstands i hi).argument?_eq, if_pos (Opcode.asked_of_ne_push hname)]
    whole := by
      rw [List.flatMap_congr fun i hi => (hstands i hi).bytes_eq, flatMap_bytes_walk] }

end Instruction

end ContractCoverage
