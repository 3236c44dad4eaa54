import Pterodon.Verifier.Asn1

/-!
# Whole-file signatures

`verify_file` decides whether a package is signed. The signature sits in the archive
comment of the zip file, followed by a six byte footer that says how long the comment
is and where in it the signature starts. Signed is everything up to the comment length
field of the end-of-central-directory record.

The digests and the two signature checks belong to the crypto library and are
parameters. A digest context is the list of bytes it has absorbed.
-/

namespace Pterodon.Verifier

open Lib

/-- `VERIFY_SUCCESS` and `VERIFY_FAILURE`. -/
inductive VerifyResult where
  | success
  | failure
  deriving DecidableEq

inductive KeyType where
  | rsa
  | ec
  deriving DecidableEq

/-- `NID_sha1` and `NID_sha256`. -/
inductive HashNid where
  | sha1
  | sha256
  deriving DecidableEq

/-- `Certificate`; `κ` is the type of the key handles. -/
structure Certificate (κ : Type) where
  hashLen : Nat
  keyType : KeyType
  key : κ

/-- What `verify_file` uses of the crypto library. -/
structure Crypto (κ : Type) where
  sha1 : Bytes → Bytes
  sha256 : Bytes → Bytes
  /-- `RSA_verify(nid, hash, hash_len, sig, sig_len, key)`. -/
  rsaVerify : HashNid → Bytes → Bytes → κ → Bool
  /-- `ECDSA_verify(0, hash, hash_len, sig, sig_len, key)`. -/
  ecdsaVerify : Bytes → Bytes → κ → Bool

def SHA_DIGEST_LENGTH : Nat := 20
def SHA256_DIGEST_LENGTH : Nat := 32
def FOOTER_SIZE : Nat := 6
def EOCD_HEADER_SIZE : Nat := 22

/-- `16 * MiB`, the most that is hashed in one go. -/
def hashChunk : Nat := 16 * (1024 * 1024)

variable {κ : Type}

/-- Follow one step of `read_pkcs7`, giving up as soon as a step fails. -/
def orFail {α β : Type} (m : Reads (Option α)) (f : α → Reads (Option β)) : Reads (Option β) := do
  let r ← m
  match r with
  | none => pure none
  | some a => f a

/--
`read_pkcs7` on the block of `pkcs7DerLen` bytes at `pkcs7Der`: the signature octet
string of the first `SignerInfo`.
-/
def readPkcs7 (pkcs7Der pkcs7DerLen : Nat) : Reads (Option Bytes) :=
  orFail (Asn1Context.sequenceGet ⟨pkcs7Der, pkcs7DerLen⟩) fun pkcs7Seq =>
  orFail pkcs7Seq.sequenceNext fun pkcs7Seq =>
  orFail pkcs7Seq.constructedGet fun signedDataApp =>
  orFail signedDataApp.sequenceGet fun signedDataSeq =>
  orFail signedDataSeq.sequenceNext fun signedDataSeq =>
  orFail signedDataSeq.sequenceNext fun signedDataSeq =>
  orFail signedDataSeq.sequenceNext fun signedDataSeq =>
  orFail signedDataSeq.constructedSkipAll fun signedDataSeq =>
  orFail signedDataSeq.setGet fun sigSet =>
  orFail sigSet.sequenceGet fun sigSeq =>
  orFail sigSeq.sequenceNext fun sigSeq =>
  orFail sigSeq.sequenceNext fun sigSeq =>
  orFail sigSeq.sequenceNext fun sigSeq =>
  orFail sigSeq.sequenceNext fun sigSeq =>
  orFail sigSeq.octetStringGet fun sigDer => do
    let bytes ← Reads.slice sigDer.1 sigDer.2
    pure (some bytes)

/-- Whether the four bytes at `i` are the marker `50 4b 05 06`; stops at the first mismatch. -/
def eocdMarkerAt (i : Nat) : Reads Bool := do
  let b₀ ← Reads.byte i
  if b₀ ≠ 0x50 then pure false
  else do
    let b₁ ← Reads.byte (i + 1)
    if b₁ ≠ 0x4b then pure false
    else do
      let b₂ ← Reads.byte (i + 2)
      if b₂ ≠ 0x05 then pure false
      else do
        let b₃ ← Reads.byte (i + 3)
        pure (b₃ = 0x06)

/-- The scan for a second marker: whether one starts at `i`, ..., `i + n - 1`. -/
def eocdMarkerIn : Nat → Nat → Reads Bool
  | _, 0 => pure false
  | i, n + 1 => do
    let found ← eocdMarkerAt i
    if found then pure true else eocdMarkerIn (i + 1) n

/-- `SHA1_Update` or `SHA256_Update` on `size` bytes from `soFar` on, if that digest is needed. -/
def update (need : Bool) (ctx : Bytes) (soFar size : Nat) : Reads Bytes :=
  if need then do
    let data ← Reads.slice soFar size
    pure (ctx ++ data)
  else pure ctx

/--
The hashing loop: feed the bytes from `soFar` to `signedLen` to the contexts that are
needed, in pieces. Every piece has a byte at least, so `signedLen - soFar` rounds do.
-/
def hashLoop (needSha1 needSha256 : Bool) (signedLen : Nat) :
    Nat → Nat → Bytes × Bytes → Reads (Bytes × Bytes)
  | 0, _, ctx => pure ctx
  | fuel + 1, soFar, ctx =>
    if soFar < signedLen then do
      let size := min (signedLen - soFar) hashChunk
      let sha1Ctx ← update needSha1 ctx.1 soFar size
      let sha256Ctx ← update needSha256 ctx.2 soFar size
      hashLoop needSha1 needSha256 signedLen fuel (soFar + size) (sha1Ctx, sha256Ctx)
    else pure ctx

/-- Whether `key` accepts the signature, given both digests. -/
def keyAccepts (crypto : Crypto κ) (sha1 sha256 sigDer : Bytes) (key : Certificate κ) : Bool :=
  if key.hashLen = SHA_DIGEST_LENGTH then
    match key.keyType with
    | .rsa => crypto.rsaVerify .sha1 sha1 sigDer key.key
    | .ec => false
  else if key.hashLen = SHA256_DIGEST_LENGTH then
    match key.keyType with
    | .rsa => crypto.rsaVerify .sha256 sha256 sigDer key.key
    | .ec => crypto.ecdsaVerify sha256 sigDer key.key
  else false

/-- `verify_file` from the footer's two numbers on. -/
def verifyComment (crypto : Crypto κ) (length : Nat) (keys : List (Certificate κ))
    (commentSize signatureStart : Nat) : Reads VerifyResult :=
  if signatureStart > commentSize then pure .failure
  else if signatureStart ≤ FOOTER_SIZE then pure .failure
  else
    let eocdSize := commentSize + EOCD_HEADER_SIZE
    if length < eocdSize then pure .failure
    else
      let signedLen := length - eocdSize + EOCD_HEADER_SIZE - 2
      let eocd := length - eocdSize
      do
        let marker ← eocdMarkerAt eocd
        if !marker then pure .failure
        else do
          -- `for (size_t i = 4; i < eocd_size - 3; ++i)`
          let again ← eocdMarkerIn (eocd + 4) (eocdSize - 3 - 4)
          if again then pure .failure
          else do
            let needSha1 := keys.any (fun key => key.hashLen == SHA_DIGEST_LENGTH)
            let needSha256 := keys.any (fun key => key.hashLen == SHA256_DIGEST_LENGTH)
            let ctx ← hashLoop needSha1 needSha256 signedLen signedLen 0 ([], [])
            let signature := eocd + eocdSize - signatureStart
            let signatureSize := signatureStart - FOOTER_SIZE
            -- `print_hex` for the log
            let _ ← Reads.slice signature signatureSize
            let sigDer ← readPkcs7 signature signatureSize
            match sigDer with
            | none => pure .failure
            | some sigDer =>
              if keys.any (keyAccepts crypto (crypto.sha1 ctx.1) (crypto.sha256 ctx.2) sigDer)
              then pure .success
              else pure .failure

/-- `verify_file` on the `length` bytes of a package. -/
def verifyFile (crypto : Crypto κ) (length : Nat) (keys : List (Certificate κ)) :
    Reads VerifyResult :=
  if length < FOOTER_SIZE then pure .failure
  else
    let footer := length - FOOTER_SIZE
    do
      let f₂ ← Reads.byte (footer + 2)
      if f₂ ≠ 0xff then pure .failure
      else do
        let f₃ ← Reads.byte (footer + 3)
        if f₃ ≠ 0xff then pure .failure
        else do
          let f₄ ← Reads.byte (footer + 4)
          let f₅ ← Reads.byte (footer + 5)
          let f₀ ← Reads.byte footer
          let f₁ ← Reads.byte (footer + 1)
          verifyComment crypto length keys (f₄.toNat + f₅.toNat * 256) (f₀.toNat + f₁.toNat * 256)

end Pterodon.Verifier
