import Pterodon.Verifier.VerifyFile

/-!
# What a verified signature covers

If `verify_file` accepts, the record it looked at is the one every zip reader finds,
because no other marker follows it, and some key accepted the digest of everything in
front of that record's comment length field. The signature itself came out of the
comment. And whatever the bytes are, no read leaves the file.

The scan for a second marker starts four bytes into the record. The three positions it
leaves out overlap the marker at the start of the record, and no two occurrences of
`50 4b 05 06` overlap.
-/

namespace Pterodon.Verifier

open Lib List Reads Asn1Context

variable {κ : Type} {i size n : Nat}

/-! ## Markers -/

/-- The marker of an end-of-central-directory record. -/
def eocdMarker : Bytes := [0x50, 0x4b, 0x05, 0x06]

/-- The marker occurs at `i`. -/
def OccursAt (addr : Bytes) (i : Nat) : Prop := (addr.drop i).take 4 = eocdMarker

/-- The last occurrence of the marker is at `i`. -/
def LastOccurrence (addr : Bytes) (i : Nat) : Prop :=
  OccursAt addr i ∧ ∀ j, OccursAt addr j → j ≤ i

theorem occursAt_iff {addr : Bytes} :
    OccursAt addr i ↔ addr[i]? = some 0x50 ∧ addr[i + 1]? = some 0x4b
      ∧ addr[i + 2]? = some 0x05 ∧ addr[i + 3]? = some 0x06 := by
  have hget : ∀ k, k < 4 → ((addr.drop i).take 4)[k]? = addr[i + k]? := by
    intro k hk
    rw [getElem?_take_of_lt hk, getElem?_drop]
  constructor
  · intro h
    rw [h] at hget
    exact ⟨(hget 0 (by decide)).symm, (hget 1 (by decide)).symm, (hget 2 (by decide)).symm,
      (hget 3 (by decide)).symm⟩
  · rintro ⟨h₀, h₁, h₂, h₃⟩
    refine ext_getElem? ?_
    intro k
    rcases Nat.lt_or_ge k 4 with hk | hk
    · rw [hget k hk]
      rcases k with _ | _ | _ | _ | k
      · exact h₀
      · exact h₁
      · exact h₂
      · exact h₃
      · omega
    · rw [getElem?_eq_none (by simp only [length_take]; omega),
        getElem?_eq_none (by simpa [eocdMarker] using hk)]

theorem occursAt_bound {addr : Bytes} (h : OccursAt addr i) : i + 4 ≤ addr.length := by
  have h₃ := (occursAt_iff.mp h).2.2.2
  have := (List.getElem?_eq_some_iff.mp h₃).1
  omega

theorem getD_eq_iff {addr : Bytes} {b : UInt8} (h : i < addr.length) :
    addr.getD i 0 = b ↔ addr[i]? = some b := by
  rw [getD_eq_getElem?_getD, getElem?_eq_getElem h]
  simp

theorem run_eocdMarkerAt {addr : Bytes} (h : i + 4 ≤ addr.length) :
    (eocdMarkerAt i).run addr = true ↔ OccursAt addr i := by
  rw [occursAt_iff, ← getD_eq_iff (by omega), ← getD_eq_iff (by omega), ← getD_eq_iff (by omega),
    ← getD_eq_iff (by omega)]
  unfold eocdMarkerAt
  by_cases h₀ : addr.getD i 0 = 0x50
  · by_cases h₁ : addr.getD (i + 1) 0 = 0x4b
    · by_cases h₂ : addr.getD (i + 2) 0 = 0x05
      · simp only [run_bind, run_byte, h₀, h₁, h₂, ne_eq, not_true, if_false, true_and]
        exact decide_eq_true_iff
      · simp only [run_bind, run_byte, h₀, h₁, ne_eq, not_true, if_false]
        simp
    · simp
  · simp

theorem run_eocdMarkerIn {addr : Bytes} : ∀ (n i : Nat), i + n + 3 ≤ addr.length →
    ((eocdMarkerIn i n).run addr = true ↔ ∃ j, i ≤ j ∧ j < i + n ∧ OccursAt addr j) := by
  intro n
  induction n with
  | zero =>
    intro i _
    constructor
    · intro h; exact absurd h (by simp [eocdMarkerIn])
    · omega
  | succ n ih =>
    intro i hi
    have hat : (eocdMarkerAt i).run addr = true ↔ OccursAt addr i := run_eocdMarkerAt (by omega)
    have hrest := ih (i + 1) (by omega)
    simp only [eocdMarkerIn, run_bind]
    split
    · rename_i hfound
      exact iff_of_true rfl ⟨i, Nat.le_refl i, by omega, hat.mp hfound⟩
    · rename_i hfound
      rw [hrest]
      constructor
      · rintro ⟨j, h₁, h₂, hj⟩
        exact ⟨j, by omega, by omega, hj⟩
      · rintro ⟨j, h₁, h₂, hj⟩
        rcases Nat.eq_or_lt_of_le h₁ with he | hlt
        · subst he; exact absurd (hat.mpr hj) hfound
        · exact ⟨j, by omega, by omega, hj⟩

theorem occursAt_apart {addr : Bytes} {j : Nat} (hi : OccursAt addr i) (hj : OccursAt addr j)
    (h : i < j) : i + 4 ≤ j := by
  obtain ⟨_, h₁, h₂, h₃⟩ := occursAt_iff.mp hi
  have hj₀ := (occursAt_iff.mp hj).1
  rcases Nat.lt_or_ge j (i + 4) with hlt | hge
  · have hc : j = i + 1 ∨ j = i + 2 ∨ j = i + 3 := by omega
    rcases hc with hc | hc | hc
    · rw [hc, h₁] at hj₀; exact absurd hj₀ (by decide)
    · rw [hc, h₂] at hj₀; exact absurd hj₀ (by decide)
    · rw [hc, h₃] at hj₀; exact absurd hj₀ (by decide)
  · exact hge

/-! ## Digests -/

theorem run_update {need : Bool} {addr ctx : Bytes} {soFar : Nat}
    (h : need = true → ctx = addr.take soFar) :
    need = true → (update need ctx soFar size).run addr = addr.take (soFar + size) := by
  intro hn
  simp only [hn, h hn]
  exact take_add.symm

theorem run_hashLoop (need₁ need₂ : Bool) (signedLen : Nat) (addr : Bytes) :
    ∀ (fuel soFar : Nat), signedLen ≤ soFar + fuel → soFar ≤ signedLen →
      ∀ ctx : Bytes × Bytes,
      (need₁ = true → ctx.1 = addr.take soFar) → (need₂ = true → ctx.2 = addr.take soFar) →
      let r := (hashLoop need₁ need₂ signedLen fuel soFar ctx).run addr
      (need₁ = true → r.1 = addr.take signedLen) ∧ (need₂ = true → r.2 = addr.take signedLen) := by
  intro fuel
  induction fuel with
  | zero =>
    intro soFar hfuel hle ctx h₁ h₂
    have he : soFar = signedLen := by omega
    subst he
    exact ⟨h₁, h₂⟩
  | succ fuel ih =>
    intro soFar hfuel hle ctx h₁ h₂
    by_cases hlt : soFar < signedLen
    · have hpos : 0 < hashChunk := by decide
      simp only [hashLoop, if_pos hlt]
      exact ih _ (by omega) (by omega) _ (run_update h₁) (run_update h₂)
    · have he : soFar = signedLen := by omega
      subst he
      simp only [hashLoop, if_neg hlt]
      exact ⟨h₁, h₂⟩

theorem keyAccepts_congr {crypto : Crypto κ} {key : Certificate κ} {sig a b a' b' : Bytes}
    (ha : key.hashLen = SHA_DIGEST_LENGTH → a = a')
    (hb : key.hashLen = SHA256_DIGEST_LENGTH → b = b') :
    keyAccepts crypto a b sig key = keyAccepts crypto a' b' sig key := by
  unfold keyAccepts
  split
  · rename_i h; rw [ha h]
  · split
    · rename_i h; rw [hb h]
    · rfl

/-! ## Reads stay in the file -/

section Bounds

variable {addr : Bytes} {length : Nat}

theorem spec_byte (h : i < length) : Spec addr (· < length) (Reads.byte i) (fun _ => True) :=
  .byte h trivial

theorem spec_slice (h : i + n ≤ length) :
    Spec addr (· < length) (Reads.slice i n) (fun _ => True) :=
  .slice (fun _ _ hj => Nat.lt_of_lt_of_le hj h) trivial

theorem spec_eocdMarkerAt (h : i + 4 ≤ length) :
    Spec addr (· < length) (eocdMarkerAt i) (fun _ => True) := by
  have stop : Spec addr (· < length) (pure false) (fun _ => True) := .pure trivial
  refine .bind (spec_byte (by omega)) (fun _ _ => .ite (fun _ => stop) ?_)
  intro _
  refine .bind (spec_byte (by omega)) (fun _ _ => .ite (fun _ => stop) ?_)
  intro _
  refine .bind (spec_byte (by omega)) (fun _ _ => .ite (fun _ => stop) ?_)
  intro _
  exact .bind (spec_byte (by omega)) (fun _ _ => .pure trivial)

theorem spec_eocdMarkerIn : ∀ n i : Nat, i + n + 3 ≤ length →
    Spec addr (· < length) (eocdMarkerIn i n) (fun _ => True) := by
  intro n
  induction n with
  | zero => intro i _; exact .pure trivial
  | succ n ih =>
    intro i h
    refine .bind (spec_eocdMarkerAt (by omega)) (fun found _ => ?_)
    exact .ite (fun _ => .pure trivial) (fun _ => ih (i + 1) (by omega))

theorem spec_update (need : Bool) (ctx : Bytes) {soFar : Nat} (h : soFar + size ≤ length) :
    Spec addr (· < length) (update need ctx soFar size) (fun _ => True) :=
  .ite
    (fun _ => .bind (spec_slice h) (fun _ _ => .pure trivial))
    (fun _ => .pure trivial)

theorem spec_hashLoop (need₁ need₂ : Bool) {signedLen : Nat} (h : signedLen ≤ length) :
    ∀ (fuel soFar : Nat) (ctx : Bytes × Bytes),
      Spec addr (· < length) (hashLoop need₁ need₂ signedLen fuel soFar ctx) (fun _ => True) := by
  intro fuel
  induction fuel with
  | zero => intro _ _; exact .pure trivial
  | succ fuel ih =>
    intro soFar ctx
    refine .ite (fun hlt => ?_) (fun _ => .pure trivial)
    have hsize : soFar + min (signedLen - soFar) hashChunk ≤ length := by omega
    exact .bind (spec_update _ _ hsize) (fun _ _ =>
      .bind (spec_update _ _ hsize) (fun _ _ => ih _ _))

theorem spec_orFail {α β : Type} {R : Nat → Prop} {m : Reads (Option α)} {P : α → Prop}
    {Q : β → Prop} {f : α → Reads (Option β)}
    (hm : Spec addr R m (fun r => ∀ a, r = some a → P a))
    (hf : ∀ a, P a → Spec addr R (f a) (fun r => ∀ b, r = some b → Q b)) :
    Spec addr R (orFail m f) (fun r => ∀ b, r = some b → Q b) := by
  refine .bind hm ?_
  intro r hr
  cases r with
  | none => exact .pure (fun b hb => by cases hb)
  | some a => exact hf a (hr a rfl)

theorem slice_isInfix {start : Nat} (hlo : start ≤ i) (hhi : i + n ≤ start + size) :
    (addr.drop i).take n <:+: (addr.drop start).take size := by
  have hi : i = start + (i - start) := by omega
  rw [hi, ← drop_drop]
  have htake : ((addr.drop start).drop (i - start)).take n =
      (((addr.drop start).take size).drop (i - start)).take n := by
    rw [drop_take, take_take, Nat.min_eq_left (by omega)]
  rw [htake]
  exact ( take_prefix _ _).isInfix.trans (drop_suffix _ _).isInfix

/-- `read_pkcs7` reads its block and nothing else, and what it returns is a part of it. -/
theorem spec_readPkcs7 (start size : Nat) :
    Spec addr (Asn1Context.Inside start (start + size)) (readPkcs7 start size)
      (fun r => ∀ sig, r = some sig → sig <:+: (addr.drop start).take size) := by
  have h₀ : Asn1Context.Within start (start + size) ⟨start, size⟩ :=
    ⟨Nat.le_refl _, Nat.le_refl _⟩
  refine spec_orFail (spec_maskedGet h₀ _ _) (fun _ h => ?_)
  refine spec_orFail (spec_sequenceNext h) (fun _ h => ?_)
  refine spec_orFail (spec_maskedGet h _ _) (fun _ h => ?_)
  refine spec_orFail (spec_maskedGet h _ _) (fun _ h => ?_)
  refine spec_orFail (spec_sequenceNext h) (fun _ h => ?_)
  refine spec_orFail (spec_sequenceNext h) (fun _ h => ?_)
  refine spec_orFail (spec_sequenceNext h) (fun _ h => ?_)
  refine spec_orFail (spec_constructedSkipFrom _ h) (fun _ h => ?_)
  refine spec_orFail (spec_maskedGet h _ _) (fun _ h => ?_)
  refine spec_orFail (spec_maskedGet h _ _) (fun _ h => ?_)
  refine spec_orFail (spec_sequenceNext h) (fun _ h => ?_)
  refine spec_orFail (spec_sequenceNext h) (fun _ h => ?_)
  refine spec_orFail (spec_sequenceNext h) (fun _ h => ?_)
  refine spec_orFail (spec_sequenceNext h) (fun _ h => ?_)
  refine spec_orFail (spec_octetStringGet h) (fun x hx => ?_)
  refine .bind (.slice (Q := fun bytes => bytes <:+: (addr.drop start).take size)
    ?_ (slice_isInfix hx.1 hx.2)) (fun bytes hbytes => ?_)
  · intro j h₁ h₂
    exact ⟨by omega, by omega⟩
  · refine .pure (fun sig hsig => ?_)
    rw [← Option.some.inj hsig]
    exact hbytes

theorem spec_verifyComment (crypto : Crypto κ) (keys : List (Certificate κ)) (cs ss : Nat) :
    Spec addr (· < length) (verifyComment crypto length keys cs ss) (fun _ => True) := by
  have stop : Spec addr (· < length) (pure VerifyResult.failure) (fun _ => True) :=
    .pure trivial
  refine .ite (fun _ => stop) (fun hss => .ite (fun _ => stop) (fun hfoot => ?_))
  refine .ite (fun _ => stop) (fun hlen => ?_)
  have hE : EOCD_HEADER_SIZE = 22 := rfl
  refine .bind (spec_eocdMarkerAt (by omega)) (fun _ _ => ?_)
  refine .ite (fun _ => stop) (fun _ => ?_)
  refine .bind (spec_eocdMarkerIn _ _ (by omega)) (fun _ _ => ?_)
  refine .ite (fun _ => stop) (fun _ => ?_)
  refine .bind (spec_hashLoop _ _ (by omega) _ _ _) (fun _ _ => ?_)
  refine .bind (spec_slice (by omega)) (fun _ _ => ?_)
  refine .bind ((spec_readPkcs7 _ _).weaken ?_) (fun sigDer _ => ?_)
  · intro i hi
    unfold Asn1Context.Inside at hi
    omega
  · cases sigDer with
    | none => exact stop
    | some _ => exact .ite (fun _ => .pure trivial) (fun _ => stop)

theorem spec_verifyFile (crypto : Crypto κ) (keys : List (Certificate κ)) :
    Spec addr (· < length) (verifyFile crypto length keys) (fun _ => True) := by
  have stop : Spec addr (· < length) (pure VerifyResult.failure) (fun _ => True) :=
    .pure trivial
  have hF : FOOTER_SIZE = 6 := rfl
  refine .ite (fun _ => stop) (fun hlen => ?_)
  refine .bind (spec_byte (by omega)) (fun _ _ => .ite (fun _ => stop) ?_)
  intro _
  refine .bind (spec_byte (by omega)) (fun _ _ => .ite (fun _ => stop) ?_)
  intro _
  refine .bind (spec_byte (by omega)) (fun _ _ => ?_)
  refine .bind (spec_byte (by omega)) (fun _ _ => ?_)
  refine .bind (spec_byte (by omega)) (fun _ _ => ?_)
  refine .bind (spec_byte (by omega)) (fun _ _ => ?_)
  exact spec_verifyComment _ _ _ _

end Bounds

/-! ## What success means -/

/-- The little-endian number in the two bytes at `i`. -/
def le16 (addr : Bytes) (i : Nat) : Nat :=
  (addr.getD i 0).toNat + (addr.getD (i + 1) 0).toNat * 256

/-- The comment size in the last two bytes of the file. -/
def commentSize (addr : Bytes) : Nat := le16 addr (addr.length - 2)

/-- The distance of the signature from the end of the file, in the first two bytes of the footer. -/
def signatureStart (addr : Bytes) : Nat := le16 addr (addr.length - FOOTER_SIZE)

/-- What holds of a file that is accepted with comment size `cs` and signature start `ss`. -/
structure Covered (crypto : Crypto κ) (keys : List (Certificate κ)) (addr : Bytes)
    (cs ss : Nat) : Prop where
  /-- The record and its comment fit into the file. -/
  fits : cs + EOCD_HEADER_SIZE ≤ addr.length
  /-- The last marker of the file starts the record. -/
  last : LastOccurrence addr (addr.length - (cs + EOCD_HEADER_SIZE))
  /-- The block of `ss - FOOTER_SIZE` bytes that ends at the footer is nonempty... -/
  nonempty : FOOTER_SIZE < ss
  /-- ... and starts in the comment. -/
  inComment : addr.length - cs ≤ addr.length - ss
  /-- A key accepted the digest of what precedes the comment length field, with the
  signature found in that block. -/
  accepted : ∃ sigDer, (readPkcs7 (addr.length - ss) (ss - FOOTER_SIZE)).run addr = some sigDer ∧
    ∃ key ∈ keys, keyAccepts crypto (crypto.sha1 (addr.take (addr.length - cs - 2)))
      (crypto.sha256 (addr.take (addr.length - cs - 2))) sigDer key = true

theorem any_hashLen {keys : List (Certificate κ)} {key : Certificate κ} (hk : key ∈ keys)
    (h : key.hashLen = n) : keys.any (fun key => key.hashLen == n) = true :=
  any_eq_true.mpr ⟨key, hk, beq_iff_eq.mpr h⟩

theorem verifyComment_success {crypto : Crypto κ} {keys : List (Certificate κ)}
    {addr : Bytes} {cs ss : Nat}
    (h : (verifyComment crypto addr.length keys cs ss).run addr = .success) :
    Covered crypto keys addr cs ss := by
  have hE : EOCD_HEADER_SIZE = 22 := rfl
  simp only [verifyComment, run_ite, run_bind, run_pure] at h
  split at h
  · cases h
  split at h
  · cases h
  split at h
  · cases h
  rename_i hlen
  split at h
  · cases h
  rename_i hmarker
  split at h
  · cases h
  rename_i hagain
  have hat : OccursAt addr (addr.length - (cs + EOCD_HEADER_SIZE)) :=
    (run_eocdMarkerAt (by omega)).mp (by simpa using hmarker)
  have hscan := @run_eocdMarkerIn addr (cs + EOCD_HEADER_SIZE - 3 - 4)
    (addr.length - (cs + EOCD_HEADER_SIZE) + 4) (by omega)
  have hloop := run_hashLoop (keys.any (fun key => key.hashLen == SHA_DIGEST_LENGTH))
    (keys.any (fun key => key.hashLen == SHA256_DIGEST_LENGTH))
    (addr.length - (cs + EOCD_HEADER_SIZE) + EOCD_HEADER_SIZE - 2) addr
    (addr.length - (cs + EOCD_HEADER_SIZE) + EOCD_HEADER_SIZE - 2) 0 (by omega) (by omega)
    ([], []) (fun _ => take_zero.symm) (fun _ => take_zero.symm)
  have hsigned : addr.length - (cs + EOCD_HEADER_SIZE) + EOCD_HEADER_SIZE - 2
      = addr.length - cs - 2 := by omega
  have hstart : addr.length - (cs + EOCD_HEADER_SIZE) + (cs + EOCD_HEADER_SIZE) - ss
      = addr.length - ss := by omega
  rw [hsigned] at hloop h
  rw [hstart] at h
  refine ⟨by omega, ⟨hat, ?_⟩, by omega, by omega, ?_⟩
  · intro j hj
    rcases Nat.lt_or_ge (addr.length - (cs + EOCD_HEADER_SIZE)) j with hlt | hle
    · -- a later marker lies behind the first one and before the end, where the scan finds it
      have hapart := occursAt_apart hat hj hlt
      have hend := occursAt_bound hj
      exact absurd (hscan.mpr ⟨j, hapart, by omega, hj⟩) hagain
    · exact hle
  · cases hsig : (readPkcs7 (addr.length - ss) (ss - FOOTER_SIZE)).run addr with
    | none =>
      rw [hsig] at h
      cases h
    | some sigDer =>
      rw [hsig] at h
      simp only [run_ite] at h
      split at h
      · rename_i hany
        obtain ⟨key, hkey, hacc⟩ := any_eq_true.mp hany
        refine ⟨sigDer, rfl, key, hkey, ?_⟩
        rw [← hacc]
        refine keyAccepts_congr (fun hl => ?_) (fun hl => ?_)
        · rw [hloop.1 (any_hashLen hkey hl)]
        · rw [hloop.2 (any_hashLen hkey hl)]
      · cases h

/--
**A verified signature covers the file.** Acceptance pins down the record, the signed
bytes and the place of the signature, for every file and every list of keys; and no
file whatever makes `verify_file` read past its end.
-/
theorem verifyFile_covers (crypto : Crypto κ) (keys : List (Certificate κ)) (addr : Bytes) :
    ((verifyFile crypto addr.length keys).run addr = .success →
      Covered crypto keys addr (commentSize addr) (signatureStart addr))
    ∧ ∀ i ∈ (verifyFile crypto addr.length keys).indices addr, i < addr.length := by
  refine ⟨?_, (spec_verifyFile crypto keys).1⟩
  intro h
  have hF : FOOTER_SIZE = 6 := rfl
  unfold verifyFile at h
  split at h
  · cases h
  rw [run_bind] at h
  split at h
  · cases h
  rw [run_bind] at h
  split at h
  · cases h
  simp only [run_bind] at h
  have hcs : addr.length - FOOTER_SIZE + 4 = addr.length - 2 := by omega
  have hcs' : addr.length - FOOTER_SIZE + 5 = addr.length - 2 + 1 := by omega
  rw [hcs, hcs'] at h
  exact verifyComment_success h

/-- A PKCS#7 block whose signature is the one byte `aa`. -/
def smallBlock : Bytes :=
  [0x30, 0x1b, 0x06, 0x00, 0xa0, 0x17, 0x30, 0x15, 0x02, 0x00, 0x31, 0x00, 0x30, 0x00,
    0x31, 0x0d, 0x30, 0x0b, 0x02, 0x00, 0x30, 0x00, 0x30, 0x00, 0x30, 0x00, 0x04, 0x01, 0xaa]

/-- An empty archive with `smallBlock` in its comment. -/
def smallPackage : Bytes :=
  [0x50, 0x4b, 0x05, 0x06] ++ List.replicate 16 0 ++ [35, 0] ++ smallBlock
    ++ [35, 0, 0xff, 0xff, 35, 0]

/-- Digests that keep the bytes, and keys that state what they accept. -/
def plainCrypto : Crypto (Bytes × Bytes) where
  sha1 := id
  sha256 := id
  rsaVerify _ hash sig key := hash = key.1 ∧ sig = key.2
  ecdsaVerify hash sig key := hash = key.1 ∧ sig = key.2

/-- A key for the first 20 bytes of `smallPackage`. -/
def smallKey : Certificate (Bytes × Bytes) where
  hashLen := SHA_DIGEST_LENGTH
  keyType := .rsa
  key := (smallPackage.take 20, [0xaa])

theorem smallPackage_covered :
    (verifyFile plainCrypto smallPackage.length [smallKey]).run smallPackage = .success
    ∧ Covered plainCrypto [smallKey] smallPackage 35 35 :=
  ⟨by decide +kernel, (verifyFile_covers plainCrypto [smallKey] smallPackage).1 (by decide +kernel)⟩

end Pterodon.Verifier
