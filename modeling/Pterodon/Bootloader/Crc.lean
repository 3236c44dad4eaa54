import Pterodon.Bootloader.BootControl

/-!
# The CRC of the boot control

`CRC32` builds its table in the first call and keeps it. A look-up stands for eight steps of a
register that takes in the bits one by one. The steps are linear, so the byte that is looked up and
the rest of the register can be followed apart: the rest is shifted out only. No step loses
anything, so two valid blocks differ in more than one byte.
-/

namespace Pterodon.Bootloader

open Lib List

/-- `crc_table`, once it is built. -/
def crcTable : List (BitVec 32) := (List.range 256).map fun i => crcEntry (BitVec.ofNat 32 i)

/-- `CRC32` with its `crc_table`, and the table after the call. -/
def crc32Call (table : List (BitVec 32)) (buf : Bytes) : BitVec 32 × List (BitVec 32) :=
  let table := if table.getD 1 0 = 0 then crcTable else table
  (~~~ buf.foldl (fun ret b => (ret >>> 8) ^^^
    table.getD ((ret ^^^ BitVec.ofNat 32 b.toNat) &&& 0xFF).toNat 0) (-1), table)

/-- One call after the other. -/
def crc32Calls (table : List (BitVec 32)) : List Bytes → List (BitVec 32)
  | [] => []
  | buf :: bufs => (crc32Call table buf).1 :: crc32Calls (crc32Call table buf).2 bufs

/-- The register takes in a bit. -/
def shiftIn (reg : BitVec 32) (bit : Bool) : BitVec 32 :=
  if reg.getLsbD 0 ^^ bit then (reg >>> 1) ^^^ 0xEDB88320#32 else reg >>> 1

/-- The reflected CRC-32: the bits of each byte from the lowest on. -/
def bitSerialCrc (buf : Bytes) : BitVec 32 :=
  ~~~ buf.foldl (fun reg b =>
    (List.range 8).foldl (fun reg k => shiftIn reg (b.toNat.testBit k)) reg) (BitVec.allOnes 32)

section Register

variable {x y : BitVec 32}

theorem shiftIn_xor (a b : Bool) : shiftIn (x ^^^ y) (a ^^ b) = shiftIn x a ^^^ shiftIn y b := by
  have hbit : ((x ^^^ y).getLsbD 0 ^^ (a ^^ b)) = ((x.getLsbD 0 ^^ a) ^^ (y.getLsbD 0 ^^ b)) := by
    rw [BitVec.getLsbD_xor, Bool.xor_assoc, Bool.xor_left_comm (y.getLsbD 0), ← Bool.xor_assoc]
  unfold shiftIn
  rw [hbit, BitVec.ushiftRight_xor_distrib]
  generalize x >>> 1 = x', y >>> 1 = y', 0xEDB88320#32 = p
  cases x.getLsbD 0 ^^ a <;> cases y.getLsbD 0 ^^ b
  · rfl
  · exact BitVec.xor_assoc ..
  · show x' ^^^ y' ^^^ p = x' ^^^ p ^^^ y'
    ac_rfl
  · show x' ^^^ y' = x' ^^^ p ^^^ (y' ^^^ p)
    rw [show x' ^^^ p ^^^ (y' ^^^ p) = x' ^^^ y' ^^^ (p ^^^ p) by ac_rfl, BitVec.xor_self,
      BitVec.xor_zero]

theorem foldl_shiftIn_xor (ks : List Nat) (a b : Nat → Bool) :
    ks.foldl (fun reg k => shiftIn reg (a k ^^ b k)) (x ^^^ y) =
      ks.foldl (fun reg k => shiftIn reg (a k)) x ^^^
        ks.foldl (fun reg k => shiftIn reg (b k)) y := by
  induction ks generalizing x y with
  | nil => rfl
  | cons k ks ih => rw [foldl_cons, shiftIn_xor, ih, foldl_cons, foldl_cons]

theorem shiftIn_false (crc : BitVec 32) :
    shiftIn crc false = (crc >>> 1) ^^^ (0xEDB88320#32 &&& -(crc &&& 1)) := by
  rw [shiftIn, Bool.xor_false, show crc &&& 1 = crc &&& 1#32 from rfl,
    BitVec.and_one_eq_setWidth_ofBool_getLsbD]
  cases crc.getLsbD 0
  · simp
  · rfl

theorem crcEntry_eq (i : BitVec 32) :
    crcEntry i = (List.range 8).foldl (fun reg _ => shiftIn reg false) i := by
  simp only [crcEntry, shiftIn_false]

theorem crcEntry_xor : crcEntry (x ^^^ y) = crcEntry x ^^^ crcEntry y := by
  simp only [crcEntry_eq]
  exact foldl_shiftIn_xor _ (fun _ => false) fun _ => false

/-- A byte may as well be taken in at once. -/
theorem foldl_shiftIn_byte (b : UInt8) :
    (List.range 8).foldl (fun reg k => shiftIn reg (b.toNat.testBit k)) x =
      crcEntry (x ^^^ BitVec.ofNat 32 b.toNat) := by
  have hbyte : ∀ n < 256, (List.range 8).foldl (fun reg k => shiftIn reg (n.testBit k)) 0#32 =
      crcEntry (BitVec.ofNat 32 n) := by
    decide +kernel
  have hsplit := @foldl_shiftIn_xor x 0#32 (List.range 8) (fun _ => false) b.toNat.testBit
  simp only [Bool.false_xor, BitVec.xor_zero] at hsplit
  rw [hsplit, hbyte _ b.toNat_lt, crcEntry_xor, crcEntry_eq x]

theorem crcEntry_high (hx : x.toNat < 2 ^ 24) : crcEntry (x <<< 8) = x := by
  have hstep : ∀ k < 8, shiftIn (x <<< (k + 1)) false = x <<< k := fun k hk => by
    have hlow : (x <<< (k + 1)).getLsbD 0 = false := by simp
    have hmul : x.toNat * 2 ^ (k + 1) < 2 ^ 32 :=
      Nat.lt_of_lt_of_le (Nat.mul_lt_mul_of_pos_right hx (Nat.two_pow_pos _)) (by
        rw [← Nat.pow_add]
        exact Nat.pow_le_pow_right Nat.two_pos (by omega))
    rw [shiftIn, hlow, Bool.xor_false, if_neg Bool.false_ne_true]
    apply BitVec.eq_of_toNat_eq
    rw [BitVec.toNat_ushiftRight, BitVec.toNat_shiftLeft, BitVec.toNat_shiftLeft, Nat.shiftLeft_eq,
      Nat.shiftLeft_eq, Nat.mod_eq_of_lt hmul, Nat.pow_succ, ← Nat.mul_assoc,
      Nat.shiftRight_eq_div_pow, Nat.pow_one, Nat.mul_div_cancel _ Nat.two_pos, Nat.mod_eq_of_lt]
    rw [Nat.pow_succ, ← Nat.mul_assoc] at hmul
    omega
  have hrounds : ∀ n ≤ 8, (List.range n).foldl (fun reg _ => shiftIn reg false) (x <<< 8) =
      x <<< (8 - n) := by
    intro n hn
    induction n with
    | zero => rfl
    | succ n ih =>
      rw [range_succ, foldl_append, ih (Nat.le_of_succ_le hn), foldl_cons, foldl_nil,
        show 8 - n = 8 - (n + 1) + 1 by omega, hstep _ (by omega)]
  rw [crcEntry_eq, hrounds 8 (Nat.le_refl 8), Nat.sub_self, BitVec.shiftLeft_zero]

theorem crcEntry_lookup (b : UInt8) :
    (x >>> 8) ^^^ crcEntry ((x ^^^ BitVec.ofNat 32 b.toNat) &&& 0xFF) =
      crcEntry (x ^^^ BitVec.ofNat 32 b.toNat) := by
  have hbyte : BitVec.ofNat 32 b.toNat >>> 8 = 0#32 := by
    apply BitVec.eq_of_toNat_eq
    have := b.toNat_lt
    simp [Nat.shiftRight_eq_div_pow]
    omega
  have hhigh : x >>> 8 = (x ^^^ BitVec.ofNat 32 b.toNat) >>> 8 := by
    rw [BitVec.ushiftRight_xor_distrib, hbyte, BitVec.xor_zero]
  generalize x ^^^ BitVec.ofNat 32 b.toNat = z at hhigh ⊢
  have hlt : (z >>> 8).toNat < 2 ^ 24 := by
    rw [BitVec.toNat_ushiftRight, Nat.shiftRight_eq_div_pow]
    exact Nat.div_lt_of_lt_mul z.isLt
  have hparts : z >>> 8 <<< 8 ^^^ (z &&& 0xFF) = z := by
    have hmask : ∀ i < 32, (0xFF : BitVec 32).getLsbD i = decide (i < 8) := by decide
    apply BitVec.eq_of_getLsbD_eq
    intro i hi
    rw [BitVec.getLsbD_xor, BitVec.getLsbD_shiftLeft, BitVec.getLsbD_ushiftRight,
      BitVec.getLsbD_and, hmask i hi]
    by_cases hlow : i < 8
    · simp [hlow]
    · simp [hlow, hi, Nat.add_sub_cancel' (Nat.le_of_not_lt hlow)]
  rw [hhigh]
  nth_rewrite 1 [← crcEntry_high hlt]
  rw [← crcEntry_xor, hparts]

theorem crc32_eq_bitSerial (buf : Bytes) : crc32 buf = bitSerialCrc buf := by
  simp only [crc32, bitSerialCrc, foldl_shiftIn_byte, crcEntry_lookup]
  rfl

end Register

theorem crc32Call_eq {table : List (BitVec 32)} (h : table.getD 1 0 = 0 ∨ table = crcTable)
    (buf : Bytes) : crc32Call table buf = (crc32 buf, crcTable) := by
  have hentry : ∀ x : BitVec 32, crcTable.getD (x &&& 0xFF).toNat 0 = crcEntry (x &&& 0xFF) := by
    intro x
    have hlt : (x &&& 0xFF).toNat < 256 := Nat.lt_of_le_of_lt Nat.and_le_right (by decide)
    rw [crcTable, getD_eq_getElem?_getD, getElem?_map, getElem?_range hlt, Option.map_some,
      Option.getD_some, BitVec.ofNat_toNat, BitVec.setWidth_eq]
  have htable : (if table.getD 1 0 = 0 then crcTable else table) = crcTable := by
    rcases h with h | h
    · rw [if_pos h]
    · rw [h, ite_self]
  simp only [crc32Call, htable, hentry]
  rfl

/-- Every call, the first one and the later ones, gives the bit-serial CRC. -/
theorem crc32_bit_serial (bufs : List Bytes) :
    crc32Calls (replicate 256 0) bufs = bufs.map bitSerialCrc := by
  have hcalls : ∀ table : List (BitVec 32), table.getD 1 0 = 0 ∨ table = crcTable →
      crc32Calls table bufs = bufs.map bitSerialCrc := by
    induction bufs with
    | nil => exact fun _ _ => rfl
    | cons buf bufs ih =>
      intro table htable
      rw [crc32Calls, crc32Call_eq htable, ih _ (.inr rfl), map_cons, crc32_eq_bitSerial]
  exact hcalls _ (.inl rfl)

/-! ## A byte that has changed -/

open BootloaderControl

variable {x y : BitVec 32}

theorem shiftIn_eq_zero (h : shiftIn x false = 0#32) : x = 0#32 := by
  rw [shiftIn, Bool.xor_false] at h
  cases hlow : x.getLsbD 0 with
  | true =>
    -- the polynomial has the highest bit, which a shift leaves clear
    rw [hlow, if_pos rfl] at h
    have hhigh := congrArg (BitVec.getLsbD · 31) h
    simp at hhigh
  | false =>
    rw [hlow, if_neg Bool.false_ne_true] at h
    apply BitVec.eq_of_getLsbD_eq
    intro i _
    cases i with
    | zero => rw [hlow, BitVec.getLsbD_zero]
    | succ i =>
      have hbit := congrArg (BitVec.getLsbD · i) h
      simpa [Nat.add_comm] using hbit

theorem crcEntry_inj (h : crcEntry x = crcEntry y) : x = y := by
  have hzero : ∀ (ks : List Nat) (z : BitVec 32),
      ks.foldl (fun reg _ => shiftIn reg false) z = 0#32 → z = 0#32 := by
    intro ks
    induction ks with
    | nil => exact fun _ hz => hz
    | cons k ks ih => exact fun _ hz => shiftIn_eq_zero (ih _ hz)
  refine BitVec.xor_eq_zero_iff.mp (hzero (List.range 8) _ ?_)
  rw [← crcEntry_eq, crcEntry_xor, h, BitVec.xor_self]

theorem foldl_crcEntry_inj {bs : Bytes}
    (h : bs.foldl (fun reg b => crcEntry (reg ^^^ BitVec.ofNat 32 b.toNat)) x =
      bs.foldl (fun reg b => crcEntry (reg ^^^ BitVec.ofNat 32 b.toNat)) y) : x = y := by
  induction bs generalizing x y with
  | nil => exact h
  | cons b bs ih => exact (BitVec.xor_left_inj _).mp (crcEntry_inj (ih h))

theorem crc32_set_inj {bs : Bytes} {i : Nat} {v : UInt8} (hi : i < bs.length)
    (h : crc32 (bs.set i v) = crc32 bs) : bs.set i v = bs := by
  have hbs : bs.take i ++ bs[i] :: bs.drop (i + 1) = bs := by
    rw [getElem_cons_drop, take_append_drop]
  rw [set_eq_take_append_cons_drop, if_pos hi] at h ⊢
  nth_rewrite 3 [← hbs] at h
  simp only [crc32, crcEntry_lookup, foldl_append, foldl_cons] at h
  have hbyte := (BitVec.xor_right_inj _).mp (crcEntry_inj
    (foldl_crcEntry_inj (BitVec.not_inj.mp h)))
  have hval := congrArg BitVec.toNat hbyte
  have := v.toNat_lt
  have := bs[i].toNat_lt
  rw [BitVec.toNat_ofNat, BitVec.toNat_ofNat] at hval
  rw [show v = bs[i] from UInt8.toNat_inj.mp (by omega), hbs]

/-- A valid block in which one byte is changed, wherever it is, is not valid. -/
theorem corrupted_byte_noticed {c c' : BootloaderControl} {i : Nat} {v : UInt8}
    (hset : c'.bytes.val = c.bytes.val.set i v) (hne : c'.bytes ≠ c.bytes) (hvalid : c.crcValid) :
    ¬ c'.crcValid := by
  intro hvalid'
  refine hne (Subtype.ext ?_)
  change c'.checked ++ c'.crc32Le.val = (c.checked ++ c.crc32Le.val).set i v at hset
  change c'.checked ++ c'.crc32Le.val = c.checked ++ c.crc32Le.val
  rw [set_append] at hset
  split_ifs at hset with hi
  · obtain ⟨hchecked, hcrc⟩ := append_inj hset (by simp [checked_length])
    have hnat := congrArg (leNat ·.val) (hvalid'.symm.trans ((Subtype.ext hcrc).trans hvalid))
    simp only [leCRC] at hnat
    rw [leNat_leBytes (BitVec.isLt _), leNat_leBytes (BitVec.isLt _), hchecked] at hnat
    rw [hset, crc32_set_inj hi (BitVec.eq_of_toNat_eq hnat)]
  · obtain ⟨hchecked, -⟩ := append_inj hset (by simp [checked_length])
    have hcrc : c'.leCRC = c.leCRC := by
      unfold leCRC
      rw [Subtype.mk.injEq, hchecked]
    rw [hchecked, hvalid', hcrc, ← hvalid]

theorem corrupted_version_noticed :
    ¬ ({ ofBytes (save (ofBytes (.zero 32))) with version := 1 } : BootloaderControl).crcValid :=
  @corrupted_byte_noticed (ofBytes (save (ofBytes (.zero 32)))) _ 8 1 (by decide +kernel)
    (by decide +kernel) (by decide +kernel)

end Pterodon.Bootloader
