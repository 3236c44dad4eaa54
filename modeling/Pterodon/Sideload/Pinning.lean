import Pterodon.Sideload.Fuse

/-!
# Each position of the package reads the same

The comment on top of `fuse_sideload.cpp` promises that every read of a position
returns what the first read of it returned, so that a host cannot show one package to
the signature check and another to the installer.

The argument is about digests. A stored digest never changes, the cached block always
matches the digest stored for it, and a reply is cut out of blocks that match. With
SHA-256 injective, the digest determines the bytes.

The middle step has a hole. When `read_block` fails, `fetch_block` returns with the
cached block's number still in `curr_block` although the buffer now holds whatever the
provider left there. `FetchKeeps` is the condition under which that does no harm.
-/

namespace Pterodon.Sideload

open Lib List

variable {δ : Type} {sha256 : Bytes → δ} {zero : δ} {vtab : Provider}

/-- What holds of the state between two requests. -/
structure Inv (sha256 : Bytes → δ) (zero : δ) (fd : FuseData δ) : Prop where
  data : fd.blockData.length = fd.blockSize
  hashes : fd.hashes.length = fd.fileBlocks
  /-- No block of the package has the number that means "nothing cached". -/
  blocks : fd.fileBlocks ≤ NO_BLOCK
  /-- A cached block of the package has the digest stored for it. -/
  cached : fd.currBlock < fd.fileBlocks →
    sha256 fd.blockData = fd.hashes.getD fd.currBlock zero

/-- `fd'` is a later state of the same filesystem: no accepted digest was replaced. -/
structure Extends (zero : δ) (fd fd' : FuseData δ) : Prop where
  fileSize : fd'.fileSize = fd.fileSize
  blockSize : fd'.blockSize = fd.blockSize
  fileBlocks : fd'.fileBlocks = fd.fileBlocks
  pinned : ∀ b, fd.hashes.getD b zero ≠ zero → fd'.hashes.getD b zero = fd.hashes.getD b zero

theorem Extends.refl (fd : FuseData δ) : Extends zero fd fd :=
  ⟨rfl, rfl, rfl, fun _ _ => rfl⟩

variable {fd : FuseData δ}

theorem Extends.trans {fd' fd'' : FuseData δ} (h : Extends zero fd fd')
    (h' : Extends zero fd' fd'') : Extends zero fd fd'' := by
  refine ⟨h'.fileSize.trans h.fileSize, h'.blockSize.trans h.blockSize,
    h'.fileBlocks.trans h.fileBlocks, ?_⟩
  intro b hb
  have hb' := h.pinned b hb
  rw [h'.pinned b (by rw [hb']; exact hb), hb']

/-- The digest stored for the block of position `p` belongs to a block with `byte` at `p`. -/
def Holds (sha256 : Bytes → δ) (zero : δ) (fd : FuseData δ) (p : Nat) (byte : UInt8) : Prop :=
  ∃ block : Bytes, sha256 block = fd.hashes.getD (p / fd.blockSize) zero
    ∧ block[p % fd.blockSize]? = some byte

variable {p : Nat}

theorem Holds.mono {fd' : FuseData δ} {byte : UInt8} (hz : ∀ c, sha256 c ≠ zero)
    (h : Holds sha256 zero fd p byte) (he : Extends zero fd fd') :
    Holds sha256 zero fd' p byte := by
  obtain ⟨c, hc, hb⟩ := h
  refine ⟨c, ?_, by rw [he.blockSize]; exact hb⟩
  rw [he.blockSize, he.pinned _ (by rw [← hc]; exact hz c), hc]

theorem Holds.unique {b₁ b₂ : UInt8} (hinj : Function.Injective sha256)
    (h₁ : Holds sha256 zero fd p b₁) (h₂ : Holds sha256 zero fd p b₂) : b₁ = b₂ := by
  obtain ⟨c₁, hc₁, hb₁⟩ := h₁
  obtain ⟨c₂, hc₂, hb₂⟩ := h₂
  have hc : c₁ = c₂ := hinj (hc₁.trans hc₂.symm)
  subst hc
  rw [hb₁] at hb₂
  exact Option.some.inj hb₂

/--
A fetch keeps the cache: if `read_block` is called and fails while a block of the
package is cached, the buffer comes out as it was before the fetch.
-/
def FetchKeeps (vtab : Provider) (fd : FuseData δ) (block : Nat) : Prop :=
  block ≠ fd.currBlock → block < fd.fileBlocks →
    (vtab.readBlock fd.calls block (fd.fetchSize block)).2 < 0 → fd.currBlock < fd.fileBlocks →
    (fd.fetched vtab block).blockData = fd.blockData

/-! ## Sizes and 32-bit arithmetic -/

theorem scribble_length (w : Nat → Option UInt8) (buffer : Bytes) :
    ∀ i, (scribble w i buffer).length = buffer.length := by
  induction buffer with
  | nil => intro i; rfl
  | cons b buffer ih => simp [scribble, ih]

theorem scribble_none (buffer : Bytes) : ∀ i, scribble (fun _ => none) i buffer = buffer := by
  induction buffer with
  | nil => intro i; rfl
  | cons b buffer ih => simp [scribble, ih]

theorem padded_length {fd : FuseData δ} {block : Nat} (h : fd.blockData.length = fd.blockSize) :
    (fd.padded block).length = fd.blockSize := by
  unfold FuseData.padded
  split
  · simp only [length_append, length_take, length_replicate]
    omega
  · exact h

theorem fetched_data_length (vtab : Provider) (block : Nat)
    (h : fd.blockData.length = fd.blockSize) :
    (fd.fetched vtab block).blockData.length = fd.blockSize := by
  simp only [FuseData.fetched, scribble_length]
  exact padded_length h

theorem getD_set_self {l : List δ} {b : Nat} {x : δ} (hb : b < l.length) :
    (l.set b x).getD b zero = x := by
  simp [hb]

theorem getD_set_ne {l : List δ} {b c : Nat} {x : δ} (h : b ≠ c) :
    (l.set b x).getD c zero = l.getD c zero := by
  simp [getElem?_set_ne h]

/-- Whether a request asks for position `p`. -/
def Covers (req : ReadRequest) (p : Nat) : Prop :=
  req.offset ≤ p ∧ p < req.offset + req.size

/-- The place in the block is exact, also if the block number has lost bits. -/
theorem blockOffset_eq (req : ReadRequest) (hpos : 0 < fd.blockSize) (hbs : fd.blockSize ≤ 2 ^ 22) :
    fd.blockOffset req = req.offset % fd.blockSize := by
  unfold FuseData.blockOffset FuseData.blockStart FuseData.firstBlock
  rw [Nat.mod_mul_mod]
  have hdm := Nat.div_add_mod req.offset fd.blockSize
  have hlt := Nat.mod_lt req.offset hpos
  rw [Nat.mul_comm] at hdm
  omega

theorem spills_eq (req : ReadRequest) (hpos : 0 < fd.blockSize) (hbs : fd.blockSize ≤ 2 ^ 22)
    (hsize : req.size ≤ fd.blockSize) :
    fd.spills req = decide (fd.blockSize < req.size + req.offset % fd.blockSize) := by
  have hlt := Nat.mod_lt req.offset hpos
  unfold FuseData.spills
  rw [blockOffset_eq req hpos hbs, Nat.mod_eq_of_lt (by omega)]

theorem position_first {bs offset : Nat} (ho : offset ≤ p) (h : offset % bs + (p - offset) < bs) :
    p / bs = offset / bs ∧ p % bs = offset % bs + (p - offset) := by
  refine (Nat.div_mod_unique (by omega)).mpr ⟨?_, h⟩
  have := Nat.div_add_mod offset bs
  omega

theorem position_next {bs offset : Nat} (ho : offset ≤ p) (h : bs ≤ offset % bs + (p - offset))
    (h' : offset % bs + (p - offset) < bs + bs) :
    p / bs = offset / bs + 1 ∧ p % bs = offset % bs + (p - offset) - bs := by
  refine (Nat.div_mod_unique (by omega)).mpr ⟨?_, by omega⟩
  have := Nat.div_add_mod offset bs
  rw [Nat.mul_add]
  omega

/-! ## One fetch -/

variable [DecidableEq δ]

section Fetch

variable (sha256 zero vtab fd) (block : Nat)

/--
Everything a fetch can do: hit the cache, zero the buffer past the end of the file,
fail, reject the block, find its digest again, or see it for the first time.
-/
theorem fetchBlock_cases :
    let r := fetchBlock sha256 zero vtab fd block
    let fd' := fd.fetched vtab block
    (block = fd.currBlock ∧ r = (0, fd))
    ∨ (fd.fileBlocks ≤ block
        ∧ r = (0, { fd with blockData := List.replicate fd.blockSize 0, currBlock := block }))
    ∨ (block ≠ fd.currBlock ∧ block < fd.fileBlocks
        ∧ (vtab.readBlock fd.calls block (fd.fetchSize block)).2 < 0
        ∧ r.1 < 0 ∧ r.2 = fd')
    ∨ (r.1 = -eio ∧ r.2 = { fd' with currBlock := NO_BLOCK })
    ∨ (block < fd.fileBlocks ∧ sha256 fd'.blockData = fd.hashes.getD block zero
        ∧ r = (0, { fd' with currBlock := block }))
    ∨ (block < fd.fileBlocks ∧ fd.hashes.getD block zero = zero ∧ r = (0, { fd' with
            currBlock := block, hashes := fd.hashes.set block (sha256 fd'.blockData) })) := by
  unfold fetchBlock
  by_cases h1 : block = fd.currBlock
  · exact .inl ⟨h1, if_pos h1⟩
  rw [if_neg h1]
  by_cases h2 : fd.fileBlocks ≤ block
  · exact .inr (.inl ⟨h2, if_pos h2⟩)
  rw [if_neg h2]
  by_cases h3 : (vtab.readBlock fd.calls block (fd.fetchSize block)).2 < 0
  · rw [if_pos h3]
    exact .inr (.inr (.inl ⟨h1, by omega, h3, h3, rfl⟩))
  rw [if_neg h3]
  have hh : (fd.fetched vtab block).hashes = fd.hashes := rfl
  rw [hh]
  by_cases h4 : sha256 (fd.fetched vtab block).blockData = fd.hashes.getD block zero
  · rw [if_pos h4]
    exact .inr (.inr (.inr (.inr (.inl ⟨by omega, h4, rfl⟩))))
  rw [if_neg h4]
  by_cases h5 : fd.hashes.getD block zero = zero
  · rw [if_neg (by simpa using h5)]
    exact .inr (.inr (.inr (.inr (.inr ⟨by omega, h5, rfl⟩))))
  · rw [if_pos h5]
    exact .inr (.inr (.inr (.inl ⟨rfl, rfl⟩)))

/-- No fetch, successful or not, replaces an accepted digest. -/
theorem fetchBlock_extends : Extends zero fd (fetchBlock sha256 zero vtab fd block).2 := by
  rcases fetchBlock_cases sha256 zero vtab fd block with
    ⟨_, hr⟩ | ⟨_, hr⟩ | ⟨_, _, _, _, hr⟩ | ⟨_, hr⟩ | ⟨_, _, hr⟩ | ⟨_, hz, hr⟩ <;> rw [hr]
  iterate 5 exact ⟨rfl, rfl, rfl, fun _ _ => rfl⟩
  refine ⟨rfl, rfl, rfl, fun b hb => ?_⟩
  -- the only digest written was still zero
  exact getD_set_ne fun he => hb (he ▸ hz)

end Fetch

theorem fetchBlock_currBlock {block : Nat} (h : (fetchBlock sha256 zero vtab fd block).1 = 0) :
    (fetchBlock sha256 zero vtab fd block).2.currBlock = block := by
  rcases fetchBlock_cases sha256 zero vtab fd block with
    ⟨hb, hr⟩ | ⟨_, hr⟩ | ⟨_, _, _, hneg, _⟩ | ⟨hr, _⟩ | ⟨_, _, hr⟩ | ⟨_, _, hr⟩
  · rw [hr]; exact hb.symm
  · rw [hr]
  · omega
  · rw [hr] at h; simp [eio] at h
  · rw [hr]
  · rw [hr]

/-- **A fetch that keeps the cache preserves the invariant.** -/
theorem fetchBlock_inv {block : Nat} (hi : Inv sha256 zero fd) (hk : FetchKeeps vtab fd block) :
    Inv sha256 zero (fetchBlock sha256 zero vtab fd block).2 := by
  have hlen := fetched_data_length vtab block hi.data
  rcases fetchBlock_cases sha256 zero vtab fd block with
    ⟨_, hr⟩ | ⟨hb, hr⟩ | ⟨hne, hlt, hneg, _, hr⟩ | ⟨_, hr⟩ | ⟨hlt, hh, hr⟩ | ⟨hlt, _, hr⟩
  · rw [hr]; exact hi
  · rw [hr]
    refine ⟨by simp, hi.hashes, hi.blocks, ?_⟩
    intro hc
    exact absurd hc (Nat.not_lt.mpr hb)
  · -- `read_block` failed: `curr_block` still names the old block
    rw [hr]
    refine ⟨hlen, hi.hashes, hi.blocks, ?_⟩
    intro hc
    rw [hk hne hlt hneg hc]
    exact hi.cached hc
  · rw [hr]
    refine ⟨hlen, hi.hashes, hi.blocks, ?_⟩
    intro hc
    exact absurd hc (Nat.not_lt.mpr hi.blocks)
  · rw [hr]
    exact ⟨hlen, hi.hashes, hi.blocks, fun _ => hh⟩
  · rw [hr]
    refine ⟨hlen, by simpa [FuseData.fetched] using hi.hashes, hi.blocks, ?_⟩
    intro _
    exact (getD_set_self (by rw [hi.hashes]; exact hlt)).symm

theorem fetchBlock_holds (hi : Inv sha256 zero fd) (hk : FetchKeeps vtab fd (p / fd.blockSize))
    (hpos : 0 < fd.blockSize) (hp : p / fd.blockSize < fd.fileBlocks)
    (h : (fetchBlock sha256 zero vtab fd (p / fd.blockSize)).1 = 0) :
    ∃ byte, (fetchBlock sha256 zero vtab fd (p / fd.blockSize)).2.blockData[p % fd.blockSize]?
        = some byte
      ∧ Holds sha256 zero (fetchBlock sha256 zero vtab fd (p / fd.blockSize)).2 p byte := by
  have hi' := fetchBlock_inv hi hk
  have he := fetchBlock_extends sha256 zero vtab fd (p / fd.blockSize)
  have hcur := fetchBlock_currBlock h
  have hlt : p % fd.blockSize
      < (fetchBlock sha256 zero vtab fd (p / fd.blockSize)).2.blockData.length := by
    rw [hi'.data, he.blockSize]; exact Nat.mod_lt _ hpos
  have hcached := hi'.cached (by rw [hcur, he.fileBlocks]; exact hp)
  refine ⟨_, getElem?_eq_getElem hlt, _, hcached.trans ?_, ?_⟩
  · rw [hcur, he.blockSize]
  · rw [he.blockSize]; exact getElem?_eq_getElem hlt

/-! ## One request -/

/-- The fetches that a request makes keep the cache: the first one, and that of the next block if
the first succeeded and the request spills over. -/
def ReadKeeps (sha256 : Bytes → δ) (zero : δ) (vtab : Provider)
    (fd : FuseData δ) (req : ReadRequest) : Prop :=
  req.nodeid = PACKAGE_FILE_ID → FetchKeeps vtab fd (fd.firstBlock req) ∧
    ((fetchBlock sha256 zero vtab fd (fd.firstBlock req)).1 = 0 → fd.spills req →
      FetchKeeps vtab (fetchBlock sha256 zero vtab fd (fd.firstBlock req)).2
        ((fd.firstBlock req + 1) % 2 ^ 32))

section State

variable (sha256 zero vtab fd) (req : ReadRequest)

theorem handleRead_state :
    let r₁ := fetchBlock sha256 zero vtab fd (fd.firstBlock req)
    let fd' := (handleRead sha256 zero vtab fd req).2.2
    fd' = fd ∨ req.nodeid = PACKAGE_FILE_ID ∧ (fd' = r₁.2 ∨ r₁.1 = 0 ∧ fd.spills req ∧
      fd' = (fetchBlock sha256 zero vtab r₁.2 ((fd.firstBlock req + 1) % 2 ^ 32)).2) := by
  unfold handleRead
  split
  · exact .inl rfl
  rename_i hnode
  refine .inr ⟨not_not.mp hnode, ?_⟩
  dsimp only
  split
  · exact .inl rfl
  rename_i hr₁
  split
  · rename_i hspill
    refine .inr ⟨not_not.mp hr₁, hspill, ?_⟩
    split <;> rfl
  · exact .inl rfl

theorem handleRead_extends : Extends zero fd (handleRead sha256 zero vtab fd req).2.2 := by
  have h₁ := fetchBlock_extends sha256 zero vtab fd (fd.firstBlock req)
  rcases handleRead_state sha256 zero vtab fd req with hs | ⟨-, hs | ⟨-, -, hs⟩⟩
  · rw [hs]; exact Extends.refl fd
  · rw [hs]; exact h₁
  · rw [hs]; exact h₁.trans (fetchBlock_extends sha256 zero vtab _ _)

end State

theorem handleRead_inv {req : ReadRequest} (hi : Inv sha256 zero fd)
    (hk : ReadKeeps sha256 zero vtab fd req) :
    Inv sha256 zero (handleRead sha256 zero vtab fd req).2.2 := by
  rcases handleRead_state sha256 zero vtab fd req with hs | ⟨hnode, hs | ⟨hr₁, hspill, hs⟩⟩
  · rw [hs]; exact hi
  · rw [hs]; exact fetchBlock_inv hi (hk hnode).1
  · rw [hs]; exact fetchBlock_inv (fetchBlock_inv hi (hk hnode).1) ((hk hnode).2 hr₁ hspill)

/--
**Every byte of a reply is the pinned one.** The position lies in the first block of
the request or in the one after it; either way the byte is cut from a buffer that has
the digest stored for that block.
-/
theorem handleRead_reply {req : ReadRequest} {data : Bytes} (hz : ∀ c, sha256 c ≠ zero)
    (hi : Inv sha256 zero fd) (hk : ReadKeeps sha256 zero vtab fd req) (hpos : 0 < fd.blockSize)
    (hbs : fd.blockSize ≤ 2 ^ 22) (hfit : fd.fileSize ≤ fd.fileBlocks * fd.blockSize)
    (hsize : req.size ≤ fd.blockSize) (hp : p < fd.fileSize) (hc : Covers req p)
    (h : (handleRead sha256 zero vtab fd req).2.1 = some data) :
    ∃ byte, data[p - req.offset]? = some byte
      ∧ Holds sha256 zero (handleRead sha256 zero vtab fd req).2.2 p byte := by
  have hpb : p / fd.blockSize < fd.fileBlocks := by
    rw [Nat.div_lt_iff_lt_mul hpos]; omega
  have hob : req.offset / fd.blockSize ≤ p / fd.blockSize := Nat.div_le_div_right hc.1
  have hblocks := hi.blocks
  have hNB : NO_BLOCK = 2 ^ 32 - 1 := rfl
  have hfirst : fd.firstBlock req = req.offset / fd.blockSize := Nat.mod_eq_of_lt (by omega)
  have hoff := blockOffset_eq req hpos hbs
  have hlt := Nat.mod_lt req.offset hpos
  unfold Covers at hc
  unfold handleRead at h ⊢
  split at h
  · simp at h
  rename_i hnode
  have hk := hk (not_not.mp hnode)
  rw [if_neg hnode]
  dsimp only at h ⊢
  split at h
  · simp at h
  rename_i hr₁
  rw [if_neg hr₁]
  have hr₁0 : (fetchBlock sha256 zero vtab fd (fd.firstBlock req)).1 = 0 := by
    simpa using hr₁
  have he₁ := fetchBlock_extends sha256 zero vtab fd (fd.firstBlock req)
  have hlen₁ := (fetchBlock_inv hi hk.1).data
  rw [he₁.blockSize] at hlen₁
  have hsp := spills_eq req hpos hbs hsize
  -- the byte of a position in the first block, as the first fetch left it
  have hfst : req.offset % fd.blockSize + (p - req.offset) < fd.blockSize →
      ∃ byte, (fetchBlock sha256 zero vtab fd (fd.firstBlock req)).2.blockData[
          req.offset % fd.blockSize + (p - req.offset)]? = some byte
        ∧ Holds sha256 zero (fetchBlock sha256 zero vtab fd (fd.firstBlock req)).2 p byte := by
    intro hin
    obtain ⟨hdiv, hmod⟩ := position_first hc.1 hin
    have hkp := hk.1
    rw [hfirst, ← hdiv] at hr₁0 hkp ⊢
    rw [← hmod]
    exact fetchBlock_holds hi hkp hpos hpb hr₁0
  split at h
  · rename_i hspill
    rw [if_pos hspill]
    split at h
    · simp at h
    rename_i hr₂
    rw [if_neg hr₂]
    simp only [Option.some.injEq] at h
    subst h
    have hr₂0 : (fetchBlock sha256 zero vtab (fetchBlock sha256 zero vtab fd (fd.firstBlock req)).2
        ((fd.firstBlock req + 1) % 2 ^ 32)).1 = 0 := by simpa using hr₂
    rw [hoff]
    have hextra : (((fetchBlock sha256 zero vtab fd (fd.firstBlock req)).2.blockData.drop
        (req.offset % fd.blockSize)).take
          (fd.blockSize - req.offset % fd.blockSize)).length
        = fd.blockSize - req.offset % fd.blockSize := by
      simp only [length_take, length_drop, hlen₁, Nat.min_self]
    by_cases hin : req.offset % fd.blockSize + (p - req.offset) < fd.blockSize
    · obtain ⟨byte, hb, hh⟩ := hfst hin
      refine ⟨byte, ?_, hh.mono hz (fetchBlock_extends sha256 zero vtab _ _)⟩
      rw [getElem?_append_left (by omega), getElem?_take_of_lt (by omega), getElem?_drop]
      exact hb
    · have hge : fd.blockSize ≤ req.offset % fd.blockSize + (p - req.offset) := by omega
      obtain ⟨hdiv, hmod⟩ := position_next hc.1 hge (by omega)
      have hnext : (fd.firstBlock req + 1) % 2 ^ 32 = p / fd.blockSize := by
        rw [hfirst, hdiv]; exact Nat.mod_eq_of_lt (by omega)
      have hk₂ := hk.2 hr₁0 hspill
      rw [hnext] at hr₂0 hk₂ ⊢
      rw [← he₁.blockSize] at hr₂0 hk₂ hpos hpb hmod ⊢
      rw [← he₁.fileBlocks] at hpb
      obtain ⟨byte, hb, hh⟩ := fetchBlock_holds (fetchBlock_inv hi hk.1) hk₂ hpos hpb hr₂0
      refine ⟨byte, ?_, hh⟩
      rw [he₁.blockSize] at hb hmod ⊢
      rw [getElem?_append_right (by omega), getElem?_take_of_lt (by omega), ← hb]
      congr 1
      omega
  · rename_i hspill
    rw [if_neg hspill]
    simp only [Option.some.injEq] at h
    subst h
    rw [hsp] at hspill
    simp only [decide_eq_true_eq] at hspill
    obtain ⟨byte, hb, hh⟩ := hfst (by omega)
    refine ⟨byte, ?_, hh⟩
    rw [hoff, getElem?_take_of_lt (by omega), getElem?_drop]
    exact hb

/-! ## A run -/

/-- Every fetch of a run keeps the cache. -/
def RunKeeps (sha256 : Bytes → δ) (zero : δ) (vtab : Provider) :
    FuseData δ → List ReadRequest → Prop
  | _, [] => True
  | fd, req :: reqs =>
    ReadKeeps sha256 zero vtab fd req
      ∧ RunKeeps sha256 zero vtab (handleRead sha256 zero vtab fd req).2.2 reqs

theorem serve_extends (reqs : List ReadRequest) (fd : FuseData δ) :
    Extends zero fd (serve sha256 zero vtab fd reqs).2 := by
  induction reqs generalizing fd with
  | nil => exact Extends.refl fd
  | cons req reqs ih =>
    have h := (handleRead_extends sha256 zero vtab fd req).trans (ih _)
    unfold serve
    dsimp only
    split <;> exact h

/-- By induction over the run: the bytes of every reply are pinned in the final state. -/
theorem serve_holds (hz : ∀ c, sha256 c ≠ zero) {reqs : List ReadRequest}
    (hi : Inv sha256 zero fd) (hk : RunKeeps sha256 zero vtab fd reqs) (hpos : 0 < fd.blockSize)
    (hbs : fd.blockSize ≤ 2 ^ 22) (hfit : fd.fileSize ≤ fd.fileBlocks * fd.blockSize)
    (hsize : ∀ req ∈ reqs, req.size ≤ fd.blockSize) {r : ReadRequest × Bytes}
    (hr : r ∈ (serve sha256 zero vtab fd reqs).1) (hp : p < fd.fileSize) (hc : Covers r.1 p) :
    ∃ byte, r.2[p - r.1.offset]? = some byte
      ∧ Holds sha256 zero (serve sha256 zero vtab fd reqs).2 p byte := by
  induction reqs generalizing fd with
  | nil => simp [serve] at hr
  | cons req reqs ih =>
    have he := handleRead_extends sha256 zero vtab fd req
    have hrest := @ih (handleRead sha256 zero vtab fd req).2.2 (handleRead_inv hi hk.1) hk.2
    rw [he.blockSize, he.fileSize, he.fileBlocks] at hrest
    have hrest := hrest hpos hbs hfit fun q hq => hsize q (mem_cons_of_mem _ hq)
    unfold serve at hr ⊢
    dsimp only at hr ⊢
    split at hr
    · rename_i data hd
      rcases mem_cons.mp hr with hr | hr
      · subst hr
        obtain ⟨byte, hb, hh⟩ := handleRead_reply hz hi hk.1 hpos hbs hfit
          (hsize req mem_cons_self) hp hc hd
        exact ⟨byte, hb, hh.mono hz (serve_extends reqs _)⟩
      · exact hrest hr hp
    · exact hrest hr hp

theorem runFuseSideload_inv (sha256 : Bytes → δ) {fileSize blockSize : Nat}
    {memory : Bytes} (hm : memory.length = blockSize)
    (h : runFuseSideload zero fileSize blockSize memory = some fd) :
    Inv sha256 zero fd ∧ fd.fileSize = fileSize ∧ fd.blockSize = blockSize
      ∧ fd.fileBlocks = packageBlocks fileSize blockSize % 2 ^ 32
      ∧ 0 < blockSize ∧ blockSize ≤ 2 ^ 22 := by
  unfold runFuseSideload at h
  dsimp only at h
  split at h
  · simp at h
  split at h
  · simp at h
  split at h
  · simp at h
  injection h with h
  subst h
  refine ⟨⟨hm, by simp, ?_, ?_⟩, rfl, rfl, rfl, by omega, by omega⟩
  · show packageBlocks fileSize blockSize % 2 ^ 32 ≤ NO_BLOCK
    unfold NO_BLOCK
    omega
  · intro hc
    simp only [NO_BLOCK] at hc
    omega

theorem packageBlocks_covers {fileSize blockSize : Nat} (hpos : 0 < blockSize) :
    fileSize ≤ packageBlocks fileSize blockSize * blockSize := by
  unfold packageBlocks
  split
  · omega
  · have hdm := Nat.div_add_mod (fileSize - 1) blockSize
    have hlt := Nat.mod_lt (fileSize - 1) hpos
    rw [Nat.add_mul, Nat.mul_comm ((fileSize - 1) / blockSize)]
    omega

/--
**Sideload read pinning.** For sizes that `run_fuse_sideload` accepts without cutting
the block count to 32 bits, and for every run in which no failed `read_block` spoils
the cached block, two successful replies that cover a position return the same byte.
-/
theorem replies_pinned (hinj : Function.Injective sha256) (hz : ∀ c, sha256 c ≠ zero)
    {fileSize blockSize : Nat} {memory : Bytes} {fd : FuseData δ}
    (hm : memory.length = blockSize)
    (hrun : runFuseSideload zero fileSize blockSize memory = some fd)
    (hcount : packageBlocks fileSize blockSize < 2 ^ 32)
    {reqs : List ReadRequest} (hsize : ∀ req ∈ reqs, req.size ≤ blockSize)
    (hkeeps : RunKeeps sha256 zero vtab fd reqs) :
    ∀ r₁ ∈ (serve sha256 zero vtab fd reqs).1, ∀ r₂ ∈ (serve sha256 zero vtab fd reqs).1,
      ∀ p < fileSize, Covers r₁.1 p → Covers r₂.1 p →
        ∃ byte, r₁.2[p - r₁.1.offset]? = some byte ∧ r₂.2[p - r₂.1.offset]? = some byte := by
  obtain ⟨hi, hfs, hbs, hfb, hpos, hle⟩ := runFuseSideload_inv sha256 hm hrun
  rw [Nat.mod_eq_of_lt hcount] at hfb
  have hfit : fd.fileSize ≤ fd.fileBlocks * fd.blockSize := by
    rw [hfs, hfb, hbs]; exact packageBlocks_covers hpos
  subst hbs hfs
  intro r₁ hr₁ r₂ hr₂ p hp hc₁ hc₂
  obtain ⟨b₁, hb₁, hh₁⟩ := serve_holds hz hi hkeeps hpos hle hfit hsize hr₁ hp hc₁
  obtain ⟨b₂, hb₂, hh₂⟩ := serve_holds hz hi hkeeps hpos hle hfit hsize hr₂ hp hc₂
  have hb := Holds.unique hinj hh₁ hh₂
  subst hb
  exact ⟨b₁, hb₁, hb₂⟩

/-- The state for a package of two zero blocks, with the identity for a digest. -/
def twoBlocks : FuseData (Option Bytes) where
  fileSize := 8192
  blockSize := 4096
  fileBlocks := 2
  currBlock := NO_BLOCK
  blockData := List.replicate 4096 0
  hashes := [none, none]
  calls := 0

/-- A provider that stores nothing and whose second call fails: the package is all zeros. -/
def honest : Provider where
  readBlock := fun call _ _ => (fun _ => none, if call = 1 then -eio else 0)

/-- Block 0 is read, the fetch of block 1 fails and leaves the buffer alone, and block 0 is read
again; four positions are in both replies. -/
theorem replies_pinned_honest :
    let reqs : List ReadRequest := [⟨2, 0, 16⟩, ⟨2, 4090, 16⟩, ⟨2, 12, 16⟩]
    (serve some none honest twoBlocks reqs).1.map Prod.fst = [⟨2, 0, 16⟩, ⟨2, 12, 16⟩]
    ∧ ∀ r₁ ∈ (serve some none honest twoBlocks reqs).1,
      ∀ r₂ ∈ (serve some none honest twoBlocks reqs).1,
      ∀ p < 8192, Covers r₁.1 p → Covers r₂.1 p →
        ∃ byte, r₁.2[p - r₁.1.offset]? = some byte ∧ r₂.2[p - r₂.1.offset]? = some byte := by
  intro reqs
  refine ⟨by decide +kernel, ?_⟩
  have hrun : runFuseSideload none 8192 4096 (List.replicate 4096 0) = some twoBlocks := rfl
  -- nothing is stored, and no block is partial
  have hk : ∀ (fd : FuseData (Option Bytes)) b, fd.isPartial b = false →
      FetchKeeps honest fd b := by
    intro fd b hfull _ _ _ _
    show scribble (fun _ => none) 0 (fd.padded b) = _
    rw [scribble_none, FuseData.padded, hfull, if_neg Bool.false_ne_true]
  exact replies_pinned (fun _ _ h => Option.some.inj h) (fun _ => Option.some_ne_none _)
    length_replicate hrun (by decide) (by decide) ⟨fun _ => ⟨hk _ _ rfl, fun _ _ => hk _ _ rfl⟩,
      fun _ => ⟨hk _ _ rfl, fun _ _ => hk _ _ rfl⟩, fun _ => ⟨hk _ _ rfl, fun _ _ => hk _ _ rfl⟩,
      trivial⟩

/-- A provider whose second call stores one byte and then fails. -/
def failing : Provider where
  readBlock := fun call _ _ =>
    if call = 1 then (fun i => if i = 0 then some 1 else none, -eio) else (fun _ => none, 0)

/--
Block 0 is read, the fetch of block 1 fails half way, and block 0 is read again: the
second reply for position 0 has a byte that the first one had not.
-/
theorem failed_fetch_changes_reply :
    runFuseSideload none 8192 4096 (List.replicate 4096 0) = some twoBlocks
    ∧ ∃ r₁ ∈ (serve some none failing twoBlocks [⟨2, 0, 1⟩, ⟨2, 4096, 1⟩, ⟨2, 0, 1⟩]).1,
      ∃ r₂ ∈ (serve some none failing twoBlocks [⟨2, 0, 1⟩, ⟨2, 4096, 1⟩, ⟨2, 0, 1⟩]).1,
        Covers r₁.1 0 ∧ Covers r₂.1 0
        ∧ r₁.2[0 - r₁.1.offset]? = some 0 ∧ r₂.2[0 - r₂.1.offset]? = some 1 := by
  exact ⟨rfl, _, mem_cons_self, _, mem_cons_of_mem _ mem_cons_self,
    ⟨Nat.le_refl _, by decide⟩, ⟨Nat.le_refl _, by decide⟩, rfl, rfl⟩

end Pterodon.Sideload
