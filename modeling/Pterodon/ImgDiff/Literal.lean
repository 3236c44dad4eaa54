import Pterodon.ImgDiff.Decode

/-!
# A library without matches

The laws of the libraries can be met: here is `deflate` in a single block of the fixed
Huffman code, every byte a literal, which is also what zlib makes of a few bytes that do
not repeat; `inflate` for such blocks; and `bsdiff` that finds nothing of the old file in
the new one. `deflate` holds its output back until the last input is in.
-/

namespace Pterodon.ImgDiff.Literal

open Lib ApplyPatch List

/-! ## Bits -/

/-- The bits of a byte, in the order of a deflate stream. -/
def bitsOf (b : UInt8) : List Bool := (List.range 8).map (fun i => b.toNat.testBit i)

/-- The bits of a code word, the most significant first. -/
def codeBits (width n : Nat) : List Bool := ((List.range width).map (fun i => n.testBit i)).reverse

/-- The number that reads as the bits, the most significant first. -/
def number (bits : List Bool) : Nat := bits.foldl (fun n b => 2 * n + b.toNat) 0

/-- Bits packed into `n` bytes. -/
def pack : Nat → List Bool → Bytes
  | 0, _ => []
  | n + 1, bits => UInt8.ofNat (number (bits.take 8).reverse) :: pack n (bits.drop 8)

theorem bitsOf_length (b : UInt8) : (bitsOf b).length = 8 := by
  rw [bitsOf, length_map, length_range]

theorem flatMap_bitsOf_length (data : Bytes) : (data.flatMap bitsOf).length = 8 * data.length := by
  induction data with
  | nil => rfl
  | cons b data ih =>
    rw [flatMap_cons, length_append, bitsOf_length, length_cons]
    omega

theorem flatMap_bitsOf_take (data : Bytes) (n : Nat) :
    (data.take n).flatMap bitsOf = (data.flatMap bitsOf).take (8 * n) := by
  rcases Nat.le_total n data.length with hn | hn
  · have hsplit : data.flatMap bitsOf
        = (data.take n).flatMap bitsOf ++ (data.drop n).flatMap bitsOf := by
      rw [← flatMap_append, take_append_drop]
    have hlen : ((data.take n).flatMap bitsOf).length = 8 * n := by
      rw [flatMap_bitsOf_length, length_take, Nat.min_eq_left hn]
    rw [hsplit, ← hlen, take_left]
  · rw [take_of_length_le hn, take_of_length_le]
    rw [flatMap_bitsOf_length]
    omega

/-! ## The fixed Huffman code -/

def literalCode (b : UInt8) : List Bool :=
  if b.toNat < 144 then codeBits 8 (48 + b.toNat) else codeBits 9 (256 + b.toNat)

def endOfBlock : List Bool := List.replicate 7 false

/-- The last block, with the fixed code. -/
def blockHeader : List Bool := [true, true, false]

def compress (contents : Bytes) : Bytes :=
  let bits := blockHeader ++ (contents.flatMap literalCode ++ endOfBlock)
  pack ((bits.length + 7) / 8) bits

/-- The symbol at the start, `none` being the end of the block, and the bits behind it. The codes
of matches are not read. -/
def symbol (bits : List Bool) : Option (Option UInt8 × List Bool) :=
  if bits.take 7 = endOfBlock then some (none, bits.drop 7)
  else if bits.length < 8 then none
  else if 48 ≤ number (bits.take 8) ∧ number (bits.take 8) < 192 then
    some (some (UInt8.ofNat (number (bits.take 8) - 48)), bits.drop 8)
  else if bits.length < 9 then none
  else if 400 ≤ number (bits.take 9) then
    some (some (UInt8.ofNat (number (bits.take 9) - 256)), bits.drop 9)
  else none

/-- Literals up to the end of the block, and the bits behind it. -/
def literals : Nat → List Bool → Option (Bytes × List Bool)
  | 0, _ => none
  | n + 1, bits =>
    match symbol bits with
    | none => none
    | some (none, rest) => some ([], rest)
    | some (some b, rest) => (literals n rest).map (fun r => (b :: r.1, r.2))

def inflateStream (data : Bytes) : Option (Bytes × Nat) :=
  let bits := data.flatMap bitsOf
  if bits.take 3 = blockHeader then
    (literals bits.length (bits.drop 3)).map (fun r => (r.1, data.length - r.2.length / 8))
  else none

/-! ## Patches -/

/-- The new file with its length before it. -/
def bsdiff (_old new : Bytes) : Option Bytes :=
  if new.length < 2 ^ 64 then some (leBytes 8 new.length ++ new) else none

def bspatch (_old patch : Bytes) : List Bytes × Bool :=
  ([(patch.drop 8).take (leNat (patch.take 8))], decide (8 ≤ patch.length))

def literalLib : DiffLib where
  bspatch := bspatch
  inflate data := (inflateStream data).map (fun r => r.1)
  deflateInit params := decide (1 ≤ params.level ∧ params.level ≤ 9)
  deflate _ fed data finish := some (if finish then [compress (fed ++ data)] else [])
  bsdiff := bsdiff
  inflateStream := inflateStream

/-! ## The laws -/

theorem symbol_local {bits rest : List Bool} {s : Option UInt8} (h : symbol bits = some (s, rest)) :
    ∃ used, used ≠ [] ∧ bits = used ++ rest ∧ ∀ more, symbol (used ++ more) = some (s, more) := by
  have hsplit : ∀ n, n ≤ bits.length → ∃ used rest, used.length = n ∧ rest = bits.drop n ∧
      bits = used ++ rest :=
    fun n hn => ⟨_, _, length_take_of_le hn, rfl, (take_append_drop n bits).symm⟩
  unfold symbol at h
  split at h
  · next hend =>
    cases h
    exact ⟨endOfBlock, cons_ne_nil _ _, by rw [← hend, take_append_drop], fun _ => rfl⟩
  next hend =>
  split at h
  · cases h
  split at h
  · next h8 hlit =>
    obtain ⟨used, rest, hlen, hrest, rfl⟩ := hsplit 8 (Nat.le_of_not_lt h8)
    rw [← hrest] at h
    cases h
    refine ⟨used, ne_nil_of_length_eq_add_one hlen, rfl, fun more => ?_⟩
    simp [symbol, take_append, hlen] at hend hlit ⊢
    simp [hend, hlit]
  next hlit =>
  split at h
  · cases h
  split at h
  · next h9 hhigh =>
    obtain ⟨used, rest, hlen, hrest, rfl⟩ := hsplit 9 (Nat.le_of_not_lt h9)
    rw [← hrest] at h
    cases h
    refine ⟨used, ne_nil_of_length_eq_add_one hlen, rfl, fun more => ?_⟩
    have htake : ∀ n ≤ 9, ∀ rest, (used ++ rest).take n = used.take n :=
      fun n hn rest => take_append_of_le_length (by omega)
    rw [htake 7 (by decide)] at hend
    rw [htake 8 (by decide)] at hlit
    rw [htake 9 (by decide)] at hhigh ⊢
    rw [symbol, htake 7 (by decide), htake 8 (by decide), htake 9 (by decide), if_neg hend,
      length_append, if_neg (by omega), if_neg hlit, if_neg (by omega), if_pos hhigh,
      drop_left' hlen]
  · cases h

theorem literals_local : ∀ {n : Nat} {bits rest : List Bool} {contents : Bytes},
    literals n bits = some (contents, rest) →
    ∃ used, bits = used ++ rest ∧
      ∀ m more, used.length ≤ m → literals m (used ++ more) = some (contents, more)
  | 0, _, _, _, h => absurd h (by simp [literals])
  | n + 1, bits, rest, contents, h => by
    rw [literals] at h
    split at h
    · cases h
    · rename_i rest' hsym
      cases h
      obtain ⟨used, hne, hbits, hmore⟩ := symbol_local hsym
      refine ⟨used, hbits, fun m more hm => ?_⟩
      have hpos := length_pos_iff.mpr hne
      obtain ⟨m, rfl⟩ : ∃ k, m = k + 1 := ⟨m - 1, by omega⟩
      rw [literals, hmore]
    · rename_i b rest' hsym
      obtain ⟨⟨contents', rest''⟩, hrest, heq⟩ := Option.map_eq_some_iff.mp h
      obtain ⟨rfl, rfl⟩ := Prod.mk.inj heq
      obtain ⟨used, hne, hbits, hmore⟩ := symbol_local hsym
      obtain ⟨used', hbits', hmore'⟩ := literals_local hrest
      refine ⟨used ++ used', by rw [hbits, hbits', append_assoc], fun m more hm => ?_⟩
      have hpos := length_pos_iff.mpr hne
      rw [length_append] at hm
      obtain ⟨m, rfl⟩ : ∃ k, m = k + 1 := ⟨m - 1, by omega⟩
      rw [literals, append_assoc, hmore]
      dsimp only
      rw [hmore' m more (by omega), Option.map_some]

theorem inflateStream_take {data contents : Bytes} {n : Nat}
    (h : inflateStream data = some (contents, n)) :
    0 < n ∧ n ≤ data.length ∧ (inflateStream (data.take n)).map (fun r => r.1) = some contents := by
  unfold inflateStream at h
  dsimp only at h
  split at h
  · rename_i hheader
    obtain ⟨⟨contents', rest⟩, hlit, heq⟩ := Option.map_eq_some_iff.mp h
    obtain ⟨rfl, hn⟩ := Prod.mk.inj heq
    obtain ⟨used, hused, hmore⟩ := literals_local hlit
    have hbits : data.flatMap bitsOf = blockHeader ++ (used ++ rest) := by
      rw [← hused, ← hheader, take_append_drop]
    -- The bytes kept hold the header and the block.
    have hlen := congrArg List.length hbits
    rw [flatMap_bitsOf_length] at hlen
    simp only [length_append, blockHeader, length_cons] at hlen
    dsimp only at hn
    have htake : (data.take n).flatMap bitsOf
        = blockHeader ++ (used ++ rest.take (8 * n - (3 + used.length))) := by
      rw [flatMap_bitsOf_take, hbits, take_append, take_append,
        take_of_length_le (by simp only [blockHeader, length_cons, length_nil]; omega),
        take_of_length_le (by
          simp only [blockHeader, length_cons, length_nil]
          omega)]
      simp only [blockHeader, length_cons, length_nil]
      congr 3
      omega
    refine ⟨by omega, by omega, ?_⟩
    unfold inflateStream
    dsimp only
    rw [htake, show ∀ l : List Bool, (blockHeader ++ l).drop 3 = l from fun _ => rfl,
      hmore _ _ (by rw [length_append, length_append]; omega)]
    rfl
  · cases h

theorem deflatePieces_literalLib (params : DeflateParams) : ∀ (pieces : List Bytes)
    (fed : Bytes), pieces ≠ [] →
    deflatePieces literalLib.toPatchLib params fed pieces = some (compress (fed ++ pieces.flatten))
  | [], _, h => absurd rfl h
  | [x], fed, _ => by
    simp [deflatePieces, literalLib]
  | x :: y :: rest, fed, _ => by
    have ih := deflatePieces_literalLib params (y :: rest) (fed ++ x) (by simp)
    rw [deflatePieces]
    rw [ih, append_assoc]
    rfl

theorem literalLib_lawful : Lawful literalLib where
  bspatch_bsdiff := by
    intro old new patch tail h
    change bsdiff old new = some patch at h
    unfold bsdiff at h
    split at h
    · cases h
      have h8 : (leBytes 8 new.length).length = 8 := leBytes_length 8 _
      refine ⟨[new], ?_, by simp⟩
      change bspatch old _ = _
      have htake : (leBytes 8 new.length ++ (new ++ tail)).take 8 = leBytes 8 new.length :=
        take_left' h8
      have hdrop : (leBytes 8 new.length ++ (new ++ tail)).drop 8 = new ++ tail :=
        drop_left' h8
      unfold bspatch
      rw [append_assoc, htake, hdrop, leNat_leBytes (by omega), take_left,
        decide_eq_true (by rw [length_append]; omega)]
    · cases h
  deflate_whole := by
    intro params pieces buffers _ hne _ h
    rw [deflatePieces_literalLib params pieces [] hne]
    rw [← Option.some.inj h]
    simp
  inflate_stream := fun h => (inflateStream_take h).2.2

-- zlib's bytes for `abc`.
example : compress [0x61, 0x62, 0x63] = [0x4b, 0x4c, 0x4a, 0x06, 0x00] := by decide +kernel

end Pterodon.ImgDiff.Literal
