import Pterodon.ApplyPatch.ApplyPatch

/-!
# Probing a partition

A partition has no end-of-file marker, so whoever loads one names the sizes and digests its
contents may have. `LoadPartitionContents` tries them in order of size and keeps one SHA-1
context and one read pointer over the tries: each try reads and hashes only what the last
one did not.

`loadLoop` says this with the digest as a function of the bytes read so far. Here the context
is there as well (`probeLoop`), and what the loop finds is the first of the sorted pairs that
the partition matches (`loadLoop_eq_find`).
-/

namespace Pterodon.ApplyPatch

open Lib List

/-! ## The loop with its context -/

/-- `SHA1_Init`, `SHA1_Update` and `SHA1_Final` on a context of type `κ`. -/
structure Sha1Lib (κ : Type) where
  init : κ
  update : κ → Bytes → κ
  final : κ → Bytes

/-- The digest does not depend on the pieces in which the data came. -/
def Sha1Lib.Computes {κ : Type} (sha : Sha1Lib κ) (sha1 : Bytes → Bytes) : Prop :=
  ∀ pieces : List Bytes, sha.final (pieces.foldl sha.update sha.init) = sha1 pieces.flatten

/-- `FileContents`, without the `stat`. -/
structure FileContents where
  data : Bytes
  sha1 : Bytes
  deriving DecidableEq

/-- `sha_ctx`, the bytes of `buffer` up to `buffer_ptr`, and what `dev` still has. -/
structure ProbeState (κ : Type) where
  ctx : κ
  buffer : Bytes
  dev : Bytes

section Probing

variable {κ : Type}

/-- Reads and hashes `next` more bytes. -/
def readNext (sha : Sha1Lib κ) (next : Nat) (st : ProbeState κ) : Option (ProbeState κ) :=
  if next > 0 then
    let read := st.dev.take next
    if next ≠ read.length then none
    else some ⟨sha.update st.ctx read, st.buffer ++ read, st.dev.drop next⟩
  else some st

def probeLoop (sha : Sha1Lib κ) : ProbeState κ → List (Nat × Text) → Option (ProbeState κ)
  | _, [] => none
  | st, (currentSize, currentSha1) :: pairs =>
    match readNext sha (currentSize - st.buffer.length) st with
    | none => none
    | some st =>
      match parseSha1 currentSha1 with
      | none => none
      | some parsedSha =>
        if sha.final st.ctx = parsedSha then some st else probeLoop sha st pairs

/-- `LoadPartitionContents` as the source has it, with the digest it hands out. -/
def probePartition (sha : Sha1Lib κ) (env : Env) (filename : Text) (d : Storage) :
    Except Abort (Option FileContents) :=
  match parsePartition env filename with
  | none => .ok none
  | some (device, pairs) =>
    match d.partition device with
    | none => .ok none
    | some dev =>
      if env.heap.allocates (largestSize pairs) then
        .ok ((probeLoop sha ⟨sha.init, [], dev⟩ (sortPairs pairs)).map
          fun st => ⟨st.buffer, sha.final st.ctx⟩)
      else .error .badAlloc

/-- The read pointer and the context both stand behind the bytes of `buffer`. -/
structure ProbeInv (sha : Sha1Lib κ) (dev : Bytes) (st : ProbeState κ) : Prop where
  pointer : st.dev = dev.drop st.buffer.length
  hashed : ∃ pieces : List Bytes, st.ctx = pieces.foldl sha.update sha.init ∧ st.buffer =
    pieces.flatten

variable {sha : Sha1Lib κ} {env : Env} {dev : Bytes} {st st' : ProbeState κ}

theorem ProbeInv.final (h : ProbeInv sha dev st) (hsha : sha.Computes env.sha1) :
    sha.final st.ctx = env.sha1 st.buffer := by
  obtain ⟨pieces, hctx, hbuffer⟩ := h.hashed
  rw [hctx, hbuffer, hsha]

theorem readNext_cases (h : ProbeInv sha dev st) (next : Nat) :
    (((dev.drop st.buffer.length).take next).length ≠ next ∧ readNext sha next st = none) ∨
    (((dev.drop st.buffer.length).take next).length = next ∧
      ∃ st', readNext sha next st = some st' ∧ ProbeInv sha dev st' ∧
        st'.buffer = st.buffer ++ (dev.drop st.buffer.length).take next) := by
  obtain ⟨pieces, hctx, hbuffer⟩ := h.hashed
  unfold readNext
  rw [h.pointer]
  split
  · next hpos =>
    simp only [ne_eq]
    split
    · next hshort => exact .inl ⟨fun heq => hshort heq.symm, rfl⟩
    · next hfull =>
      have hlen := (Decidable.not_not.1 hfull).symm
      refine .inr ⟨hlen, _, rfl,
        ⟨?_, pieces ++ [(dev.drop st.buffer.length).take next], ?_, ?_⟩, rfl⟩
      · simp only [length_append, hlen, drop_drop]
      · rw [foldl_append, hctx]; rfl
      · rw [flatten_append, hbuffer, flatten_singleton]
  · next hzero =>
    obtain rfl : next = 0 := by omega
    exact .inr ⟨by simp, st, rfl, h, by simp⟩

/-- The context never says anything else than the digest of what was read. -/
theorem probeLoop_eq_loadLoop (hsha : sha.Computes env.sha1) :
    ∀ (pairs : List (Nat × Text)) (st : ProbeState κ), ProbeInv sha dev st →
      (probeLoop sha st pairs).map (fun st => (⟨st.buffer, sha.final st.ctx⟩ : FileContents)) =
        (loadLoop env dev st.buffer pairs).map (fun data => ⟨data, env.sha1 data⟩) := by
  intro pairs
  induction pairs with
  | nil => intro st _; rfl
  | cons p pairs ih =>
    intro st h
    obtain ⟨size, sha1⟩ := p
    simp only [probeLoop, loadLoop]
    rcases readNext_cases h (size - st.buffer.length) with
      ⟨hshort, hread⟩ | ⟨hfull, st', hread, h', hbuffer⟩
    · rw [hread, if_pos hshort]
      rfl
    · rw [hread, if_neg (not_not_intro hfull), ← hbuffer]
      cases parseSha1 sha1 with
      | none => rfl
      | some digest =>
        simp only [h'.final hsha]
        split
        · simp only [Option.map_some, h'.final hsha]
        · exact ih st' h'

theorem probePartition_eq (hsha : sha.Computes env.sha1) (filename : Text) (d : Storage) :
    probePartition sha env filename d = (loadPartitionContents env filename d).map
      (Option.map fun data => ⟨data, env.sha1 data⟩) := by
  unfold probePartition loadPartitionContents
  cases parsePartition env filename with
  | none => rfl
  | some p =>
    obtain ⟨device, pairs⟩ := p
    cases hdev : d.partition device with
    | none => simp only [hdev]; rfl
    | some dev =>
      have hloop := probeLoop_eq_loadLoop hsha (sortPairs pairs) ⟨sha.init, [], dev⟩
        ⟨rfl, [], rfl, rfl⟩
      simp only [hdev, hloop]
      split <;> rfl

end Probing

/-! ## What the loop finds -/

theorem sortPairs_sorted (pairs : List (Nat × Text)) :
    (sortPairs pairs).Pairwise (fun a b => a.1 ≤ b.1) := by
  have hs := pairwise_insertionSort (fun a b : Nat × Text => toLex a ≤ toLex b) pairs
  exact hs.imp (fun hab => Prod.Lex.monotone_fst _ _ hab)

variable {p : Nat × Text}

theorem mem_sortPairs {pairs : List (Nat × Text)} :
    p ∈ sortPairs pairs ↔ p ∈ pairs := mem_insertionSort _

/-- The partition is long enough for the pair, and its prefix of that size has the digest. -/
def matchesPair (env : Env) (dev : Bytes) (p : Nat × Text) : Bool :=
  p.1 ≤ dev.length && parseSha1 p.2 == some (env.sha1 (dev.take p.1))

section Finding

variable {env : Env} {dev : Bytes} {pairs : List (Nat × Text)}

theorem matchesPair_iff : matchesPair env dev p = true ↔
      p.1 ≤ dev.length ∧ parseSha1 p.2 = some (env.sha1 (dev.take p.1)) := by
  simp [matchesPair]

theorem take_append_next {m size : Nat} (h : m ≤ size) :
    dev.take m ++ (dev.drop m).take (size - m) = dev.take size := by
  rw [← take_add]
  congr 1
  omega

theorem loadLoop_cons {m size : Nat} {sha1 : Text} {digest : Bytes}
    (hm : m ≤ size) (hdev : m ≤ dev.length) (hsha : parseSha1 sha1 = some digest) :
    loadLoop env dev (dev.take m) ((size, sha1) :: pairs) = if dev.length < size then none
        else if env.sha1 (dev.take size) = digest then some (dev.take size)
        else loadLoop env dev (dev.take size) pairs := by
  have hlen : (dev.take m).length = m := by rw [length_take]; omega
  rw [loadLoop]
  simp only [hlen, hsha]
  rw [take_append_next hm]
  by_cases hlt : dev.length < size
  · rw [if_pos hlt, if_pos]
    rw [length_take, length_drop]
    omega
  · rw [if_neg hlt, if_neg]
    rw [length_take, length_drop]
    omega

/-- The loop finds the first pair that matches. Nothing is lost when it gives up on a short
read: the pairs behind ask for no less. -/
theorem loadLoop_eq_find (pairs : List (Nat × Text)) (m : Nat)
    (hwf : ∀ p ∈ pairs, (parseSha1 p.2).isSome)
    (hs : pairs.Pairwise (fun a b => a.1 ≤ b.1))
    (hm : ∀ p ∈ pairs, m ≤ p.1) (hdev : m ≤ dev.length) :
    loadLoop env dev (dev.take m) pairs =
      (pairs.find? (matchesPair env dev)).map (fun p => dev.take p.1) := by
  induction pairs generalizing m with
  | nil => rfl
  | cons p pairs ih =>
    obtain ⟨size, sha1⟩ := p
    obtain ⟨digest, hsha⟩ := Option.isSome_iff_exists.1 (hwf _ mem_cons_self)
    obtain ⟨hfirst, hrest⟩ := pairwise_cons.1 hs
    rw [loadLoop_cons (hm _ mem_cons_self) hdev hsha]
    by_cases hlt : dev.length < size
    · have hnone : ((size, sha1) :: pairs).find? (matchesPair env dev) = none := by
        rw [find?_eq_none]
        intro q hq hmatch
        have hle : size ≤ q.1 := by
          rcases mem_cons.1 hq with rfl | hq
          · exact Nat.le_refl _
          · exact hfirst q hq
        have := (matchesPair_iff.1 hmatch).1
        omega
      rw [if_pos hlt, hnone]
      rfl
    · rw [if_neg hlt]
      by_cases heq : env.sha1 (dev.take size) = digest
      · have hmatch : matchesPair env dev (size, sha1) = true :=
          matchesPair_iff.2 ⟨by simpa using hlt, by rw [hsha, ← heq]⟩
        rw [if_pos heq, find?_cons_of_pos hmatch]
        rfl
      · have hmatch : ¬matchesPair env dev (size, sha1) = true := by
          intro h
          have hd := (matchesPair_iff.1 h).2
          rw [hsha] at hd
          exact heq (Option.some.inj hd).symm
        rw [if_neg heq, find?_cons_of_neg hmatch]
        exact ih size (forall_mem_cons.mp hwf).2 hrest hfirst
          (Nat.not_lt.1 hlt)

theorem loadPartitionContents_eq_find {filename device : Text} {d : Storage}
    (hname : parsePartition env filename = some (device, pairs))
    (hpart : d.partition device = some dev) (hwf : ∀ p ∈ pairs, (parseSha1 p.2).isSome) :
    loadPartitionContents env filename d =
      if env.heap.allocates (largestSize pairs) then
        .ok (((sortPairs pairs).find? (matchesPair env dev)).map fun p => dev.take p.1)
      else .error .badAlloc := by
  have hloop := @loadLoop_eq_find env dev (sortPairs pairs) 0
    (fun p hp => hwf p (mem_sortPairs.1 hp)) (sortPairs_sorted pairs)
    (fun _ _ => Nat.zero_le _) (Nat.zero_le _)
  rw [take_zero] at hloop
  simp only [loadPartitionContents, hname, hpart, hloop]

theorem find_sorted_min {f : Nat × Text → Bool} (hs : pairs.Pairwise (fun a b => a.1 ≤ b.1))
    (h : pairs.find? f = some p) : ∀ q ∈ pairs, f q = true → p.1 ≤ q.1 := by
  obtain ⟨hp, before, after, rfl, hbefore⟩ := find?_eq_some_iff_append.1 h
  intro q hq hfq
  rcases mem_append.1 hq with hq | hq
  · exact absurd hfq (by simpa using hbefore q hq)
  · rcases mem_cons.1 hq with rfl | hq
    · exact Nat.le_refl _
    · exact rel_of_pairwise_cons (pairwise_append.1 hs).2.1 hq

end Finding

/-- The load succeeds exactly when the buffer for the largest size is there and some pair matches,
and then hands out the prefix of the smallest size that does, with its digest. -/
theorem probePartition_iff {κ : Type} (sha : Sha1Lib κ) (env : Env)
    (hsha : sha.Computes env.sha1) (filename : Text) (d : Storage) (device : Text)
    (pairs : List (Nat × Text)) (dev : Bytes)
    (hname : parsePartition env filename = some (device, pairs))
    (hpart : d.partition device = some dev) (hwf : ∀ p ∈ pairs, (parseSha1 p.2).isSome) :
    ((∃ file, probePartition sha env filename d = .ok (some file)) ↔
      env.heap.allocates (largestSize pairs) = true ∧
      ∃ p ∈ pairs, p.1 ≤ dev.length ∧ parseSha1 p.2 = some (env.sha1 (dev.take p.1))) ∧
    ∀ file, probePartition sha env filename d = .ok (some file) →
      ∃ p ∈ pairs, (p.1 ≤ dev.length ∧ parseSha1 p.2 = some (env.sha1 (dev.take p.1))) ∧
        (∀ q ∈ pairs, q.1 ≤ dev.length → parseSha1 q.2 = some (env.sha1 (dev.take q.1)) →
          p.1 ≤ q.1) ∧
        file = ⟨dev.take p.1, env.sha1 (dev.take p.1)⟩ := by
  rw [probePartition_eq hsha, loadPartitionContents_eq_find hname hpart hwf]
  cases env.heap.allocates (largestSize pairs) with
  | false => exact ⟨iff_of_false nofun nofun, nofun⟩
  | true =>
    rw [if_pos rfl, Except.map, Option.map_map, and_iff_right rfl]
    simp only [Except.ok.injEq]
    refine ⟨?_, ?_⟩
    · rw [← Option.isSome_iff_exists, Option.isSome_map, find?_isSome]
      simp only [mem_sortPairs, matchesPair_iff]
    · intro file hfile
      obtain ⟨p, hp, rfl⟩ := Option.map_eq_some_iff.1 hfile
      refine ⟨p, mem_sortPairs.1 (mem_of_find?_eq_some hp),
        matchesPair_iff.1 (find?_some hp), ?_, rfl⟩
      intro q hq hlen hdigest
      exact find_sorted_min (sortPairs_sorted pairs) hp q (mem_sortPairs.2 hq)
        (matchesPair_iff.2 ⟨hlen, hdigest⟩)

namespace ThreeBytes

/-- A digest that tells the length. -/
def sha1 (x : Bytes) : Bytes := List.replicate 20 (UInt8.ofNat x.length)

def sha : Sha1Lib Nat where
  init := 0
  update ctx x := ctx + x.length
  final ctx := List.replicate 20 (UInt8.ofNat ctx)

theorem sha_computes : sha.Computes sha1 := by
  intro pieces
  have hcount : ∀ (pieces : List Bytes) (n : Nat),
      pieces.foldl sha.update n = n + pieces.flatten.length := by
    intro pieces
    induction pieces with
    | nil => intro n; rfl
    | cons x pieces ih =>
      intro n
      rw [foldl_cons, ih, flatten_cons, length_append, ← Nat.add_assoc]
      rfl
  rw [hcount]
  simp [sha, sha1]

def env : Env := ⟨sha1, decimal, Sample.heap⟩

def digest (c : Char) : Text := (List.replicate 20 ['0', c]).flatten

/-- `EMMC:x:<size>:03..:2:04..:2:02..`. -/
def filename (size : Nat) : Text :=
  emmc ++ ":x:".toList ++ Nat.toDigits 10 size ++ [':'] ++ digest '3' ++ ":2:".toList ++
    digest '4' ++ ":2:".toList ++ digest '2'

def pairs : List (Nat × Text) := [(3, digest '3'), (2, digest '4'), (2, digest '2')]

def disk : Storage where
  partition device := if device = ['x'] then some [7, 8, 9] else none
  file _ := none

/-- Both sizes match; the load takes the smaller one, at the second try of that size. -/
theorem probePartition_loads :
    (∃ file, probePartition sha env (filename 3) disk = .ok (some file)) ∧
      probePartition sha env (filename 3) disk = .ok (some ⟨[7, 8], sha1 [7, 8]⟩) := by
  refine ⟨(probePartition_iff sha env sha_computes (filename 3) disk ['x'] pairs [7, 8, 9]
    (by decide +kernel) rfl (by decide +kernel)).1.2
    ⟨by decide +kernel, (3, digest '3'), by decide +kernel⟩, ?_⟩
  decide +kernel

/-- The size 2 still matches, but the buffer is to have `2 ^ 63` bytes. -/
theorem probePartition_dies :
    probePartition sha env (filename (2 ^ 63)) disk = .error .badAlloc := by
  decide +kernel

end ThreeBytes

end Pterodon.ApplyPatch
