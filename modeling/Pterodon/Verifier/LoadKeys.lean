import Pterodon.Lib.Logged
import Pterodon.Lib.Scanf
import Pterodon.Verifier.VerifyFile

/-!
# Loading the keys

`load_keys` reads the public keys that packages may be signed with. The file is read with `fscanf`
from beginning to end, so the position in the file is the only state. The parsers return, besides
the certificates, what the file said and whether formats got to their end, and log every index at
which an array of words or bytes is written.

`onCurve` stands for the check of the crypto library that two coordinates are those of a point.
-/

namespace Pterodon.Verifier

open Lib Lib.Logged

variable (onCurve : Nat → Nat → Bool)

/-- An element of an array of `size` elements was written. -/
structure Store where
  index : Nat
  size : Nat
  deriving DecidableEq

/-- `fscanf` where the caller goes on only if the return value is `expected`. -/
def scan (fmt : List Directive) (expected : Int) : Parser Store Scan := fun s =>
  if (fscanf fmt s).ret = expected then ([], some (fscanf fmt s, (fscanf fmt s).rest))
    else ([], none)

/-- `fscanf` with the format `" %c"`. -/
def scanChar : Parser Store Char := fun s =>
  match skipBlanks s with
  | [] => ([], none)
  | c :: s => ([], some (c, s))

def fgetc : Parser Store (Option Char)
  | [] => ([], some (none, []))
  | c :: s => ([], some (some c, s))

/-- The loops over `" , %u"`: `count` more numbers, stored by `store` if they are kept. -/
def scanMore (store : Nat → Parser Store Unit) : (i count : Nat) → Parser Store (List Int)
  | _, 0 => pure []
  | i, count + 1 => do
    -- " , %u"
    let r ← scan [.space, .lit ',', .space, .num .u] 1
    store i
    let zs ← scanMore store (i + 1) count
    pure (r.first :: zs)

/-- What `parse_rsa_key` read. -/
structure RsaReading where
  /-- The number that was written for the length of the key in words. -/
  declared : Int
  n0inv : Int
  modulus : List Int
  rr : List Int
  closed : Bool

def RsaReading.keyLenWords (r : RsaReading) : Nat := Conv.stored .i r.declared

def parseRsaKey : Parser Store RsaReading := do
  -- " %i , 0x%x"
  let head ← scan [.space, .num .i, .space, .lit ',', .space, .lit '0', .lit 'x', .num .x] 2
  let keyLenWords := Conv.stored .i head.first
  if 8192 / 32 < keyLenWords then fail
  else do
    -- " , { %u"
    let word ← scan [.space, .lit ',', .space, .lit '{', .space, .num .u] 1
    log ⟨0, keyLenWords⟩
    let words ← scanMore (fun i => log ⟨i, keyLenWords⟩) 1 (keyLenWords - 1)
    -- " } , { %u"
    let rr ← scan [.space, .lit '}', .space, .lit ',', .space, .lit '{', .space, .num .u] 1
    let rrs ← scanMore (fun _ => pure ()) 1 (keyLenWords - 1)
    -- " } } "
    let tail ← scan [.space, .lit '}', .space, .lit '}', .space] 0
    pure ⟨head.first, head.values.getD 1 0, word.first :: words, rr.first :: rrs,
      tail.stop = .complete⟩

/-- The bytes of one coordinate, and whether its closing brace was there. -/
structure Coordinate where
  bytes : List Int
  closed : Bool

/-- One round of the loop of `parse_ec_key`. The file has the least significant byte first. -/
def parseCoordinate (keyLenBytes : Nat) : Parser Store Coordinate := do
  -- " , { %u"
  let byte ← scan [.space, .lit ',', .space, .lit '{', .space, .num .u] 1
  log ⟨keyLenBytes - 1, keyLenBytes⟩
  let bytes ← scanMore (fun i => log ⟨keyLenBytes - i - 1, keyLenBytes⟩) 1 (keyLenBytes - 1)
  -- " }"
  let tail ← scan [.space, .lit '}'] 0
  pure ⟨byte.first :: bytes, tail.stop = .complete⟩

/-- The number that `BN_bin2bn` makes of the bytes. -/
def Coordinate.value (c : Coordinate) : Nat :=
  c.bytes.foldr (fun z n => Conv.stored .u z % 256 + 256 * n) 0

/-- What `parse_ec_key` read. -/
structure EcReading where
  declared : Int
  x : Coordinate
  y : Coordinate
  closed : Bool

/-- The number of bytes of the order of P-256. -/
def orderBytes : Nat := 32

def parseEcKey : Parser Store EcReading := do
  -- " %i"
  let head ← scan [.space, .num .i] 1
  if Conv.stored .i head.first ≠ orderBytes then fail
  else do
    let x ← parseCoordinate orderBytes
    let y ← parseCoordinate orderBytes
    -- " } "
    let tail ← scan [.space, .lit '}', .space] 0
    if onCurve x.value y.value then pure ⟨head.first, x, y, tail.stop = .complete⟩ else fail

/-- The character a key starts with, and what comes with it. -/
inductive Start where
  | brace
  /-- A version, and whether an opening brace was behind it. -/
  | version (v : Int) (opened : Bool)
  | other (c : Char)

inductive Body where
  | rsa (r : RsaReading)
  | ec (r : EcReading)

/-- The key of a certificate. The words of a modulus are in the order of the file. -/
inductive Key where
  | rsa (modulus : List Nat) (exponent : Nat)
  | ec (x y : Nat)
  deriving DecidableEq

/-- `hash_len`, `key_type` and `exponent`. -/
structure KeyParams where
  hashLen : Nat
  keyType : KeyType
  exponent : Nat

/-- The cases of `load_keys`. With any other character the certificate stays as it was made. -/
def Start.params : Start → Option KeyParams
  | .brace => some ⟨SHA_DIGEST_LENGTH, .rsa, 3⟩
  | .version v _ =>
    match Conv.stored .d v with
    | 2 => some ⟨SHA_DIGEST_LENGTH, .rsa, 65537⟩
    | 3 => some ⟨SHA256_DIGEST_LENGTH, .rsa, 3⟩
    | 4 => some ⟨SHA256_DIGEST_LENGTH, .rsa, 65537⟩
    | 5 => some ⟨SHA256_DIGEST_LENGTH, .ec, 0⟩
    | _ => none
  | .other _ => some ⟨0, .rsa, 0⟩

/-- One key of the file, as it was read, with its certificate. -/
structure KeyReading where
  start : Start
  body : Body
  cert : Certificate Key

def loadStart : Parser Store Start := do
  -- " %c"
  let startChar ← scanChar
  if startChar = '{' then pure .brace
  else if startChar = 'v' then do
    -- "%d {"
    let r ← scan [.num .d, .space, .lit '{'] 1
    pure (.version r.first (r.stop = .complete))
  else pure (.other startChar)

/-- The numbers of a key, of the kind that its start says. -/
def loadBody (start : Start) : Parser Store KeyReading :=
  match start.params with
  | none => fail
  | some params =>
    match params.keyType with
    | .rsa => do
      let r ← parseRsaKey
      -- the array that becomes the modulus has `key_len_words` words
      let modulus := (r.modulus.map (Conv.stored .u)).take r.keyLenWords
      pure ⟨start, .rsa r, ⟨params.hashLen, .rsa, .rsa modulus params.exponent⟩⟩
    | .ec => do
      let r ← parseEcKey onCurve
      pure ⟨start, .ec r, ⟨params.hashLen, .ec, .ec r.x.value r.y.value⟩⟩

/-- One round of the loop of `load_keys`, up to the character behind the key. -/
def loadKey : Parser Store KeyReading := do
  let start ← loadStart
  loadBody onCurve start

/-- The loop of `load_keys`. Every key takes a character, so there are fewer keys than
characters. -/
def loadKeysFrom : Nat → Parser Store (List KeyReading)
  | 0 => fail
  | fuel + 1 => do
    let key ← loadKey onCurve
    let ch ← fgetc
    match ch with
    | some ',' => do
      let keys ← loadKeysFrom fuel
      pure (key :: keys)
    | none => pure [key]
    | some _ => fail

/-- `load_keys` on the contents of a file: what it writes, and the keys if it returns true. -/
def loadKeys (file : Text) : List Store × Option (List KeyReading) :=
  let r := loadKeysFrom onCurve (file.length + 1) file
  (r.1, r.2.map Prod.fst)

end Pterodon.Verifier
