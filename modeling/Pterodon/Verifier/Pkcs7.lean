import Pterodon.Lib.Der
import Pterodon.Verifier.Coverage

/-!
# What `read_pkcs7` extracts

The comment above `read_pkcs7` draws the structure it expects: a `ContentInfo` that holds a
`SignedData`, with the certificates and the like as optional fields in front of the signers. Of that
the structures below are the contents and `encode` the DER text, so that the decoder can be run on
the text of any of them. A context stands on a part of the text (`StandsOn`), and every method of
the decoder either leaves the context on what comes behind an element or enters the element.

The methods that enter do not move the context they were called on. That does no harm: nothing is
read behind the element in any of the contexts that are left open.
-/

namespace Pterodon.Verifier

open Lib List Reads

/-! ## The structure -/

/-- The tag of an `INTEGER`. -/
def tagInteger : UInt8 := 0x02

/-- The tag of an `OBJECT IDENTIFIER`. -/
def tagOid : UInt8 := 0x06

/-- The tag of a constructed field `[k]`. Tags from 31 on take more than one octet. -/
def tagContext (k : Fin 31) : UInt8 := UInt8.ofNat (0xA0 + k)

/-- The contents octets of the fields of a `SignerInfo`. -/
structure SignerInfo where
  version : Bytes
  signerIdentifier : Bytes
  digestAlgorithm : Bytes
  signatureAlgorithm : Bytes
  signatureValue : Bytes

def SignerInfo.contents (s : SignerInfo) : Bytes :=
  element tagInteger s.version ++ (element kTagSequence s.signerIdentifier ++
    (element kTagSequence s.digestAlgorithm ++ (element kTagSequence s.signatureAlgorithm ++
      element kTagOctetString s.signatureValue)))

def SignerInfo.encode (s : SignerInfo) : Bytes := element kTagSequence s.contents

/-- The contents octets of the fields of a `SignedData`, and its signers. -/
structure SignedData where
  version : Bytes
  digestAlgorithms : Bytes
  encapContentInfo : Bytes
  /-- The fields `[k]`, with their contents. -/
  optional : List (Fin 31 × Bytes)
  signer : SignerInfo
  moreSigners : List SignerInfo

def SignedData.signerInfos (d : SignedData) : Bytes :=
  d.signer.encode ++ d.moreSigners.flatMap SignerInfo.encode

def SignedData.contents (d : SignedData) : Bytes :=
  element tagInteger d.version ++ (element kTagSet d.digestAlgorithms ++
    (element kTagSequence d.encapContentInfo ++
      (d.optional.flatMap (fun f => element (tagContext f.1) f.2) ++
        element kTagSet d.signerInfos)))

def SignedData.encode (d : SignedData) : Bytes := element kTagSequence d.contents

structure ContentInfo where
  contentType : Bytes
  content : SignedData

def ContentInfo.contents (i : ContentInfo) : Bytes :=
  element tagOid i.contentType ++ element (tagContext 0) i.content.encode

def ContentInfo.encode (i : ContentInfo) : Bytes := element kTagSequence i.contents

/-! ## The decoder on an element -/

namespace Asn1Context

variable {mem bs more : Bytes} {c : Asn1Context}

/-- What is left to the context is the text `bs`. -/
def StandsOn (mem : Bytes) (c : Asn1Context) (bs : Bytes) : Prop :=
  c.length = bs.length ∧ bs <+: mem.drop c.p

theorem standsOn_advance {xs : Bytes} (h : StandsOn mem c (xs ++ bs)) :
    StandsOn mem (c.advance xs.length) bs := by
  obtain ⟨hlen, hpre⟩ := h
  rw [length_append] at hlen
  refine ⟨by unfold advance; dsimp only; omega, ?_⟩
  obtain ⟨t, ht⟩ := hpre
  refine ⟨t, ?_⟩
  show bs ++ t = mem.drop (c.p + xs.length)
  rw [← drop_drop, ← ht, append_assoc, drop_left]

variable {b : UInt8}

theorem byte_of_standsOn (h : StandsOn mem c (b :: bs)) : c.length ≠ 0 ∧ mem.getD c.p 0 = b := by
  obtain ⟨hlen, t, ht⟩ := h
  have hget : (mem.drop c.p)[0]? = some b := by rw [← ht]; rfl
  rw [length_cons] at hlen
  rw [getElem?_drop, Nat.add_zero] at hget
  rw [getD_eq_getElem?_getD, hget]
  exact ⟨by omega, rfl⟩

theorem run_peekByte (h : StandsOn mem c (b :: bs)) : c.peekByte.run mem = some b := by
  obtain ⟨hlen, hbyte⟩ := byte_of_standsOn h
  unfold peekByte
  rw [if_neg hlen, run_bind, run_byte, hbyte]
  rfl

theorem run_getByte (h : StandsOn mem c (b :: bs)) :
    c.getByte.run mem = (some b, c.advance 1) ∧ StandsOn mem (c.advance 1) bs := by
  obtain ⟨hlen, hbyte⟩ := byte_of_standsOn h
  refine ⟨?_, @standsOn_advance mem bs c [b] h⟩
  unfold getByte
  rw [if_neg hlen, run_bind, run_byte, hbyte]
  rfl

theorem run_decodeOctets : ∀ (xs : Bytes) (length : Nat) {c : Asn1Context},
    StandsOn mem c (xs ++ bs) →
    ∃ c', (decodeOctets xs.length length c).run mem = some (xs.foldl shiftIn length, c') ∧
      StandsOn mem c' bs
  | [], length, c, h => ⟨c, rfl, h⟩
  | b :: xs, length, c, h => by
    obtain ⟨hbyte, hrest⟩ := run_getByte h
    obtain ⟨c', hrun, hc'⟩ := run_decodeOctets xs (shiftIn length b) hrest
    refine ⟨c', ?_, hc'⟩
    rw [length_cons, decodeOctets, run_bind, hbyte]
    exact hrun

theorem run_decodeLength {n : Nat} (hn : n < 256 ^ 7) (h : StandsOn mem c (lengthOctets n ++ bs)) :
    ∃ c', c.decodeLength.run mem = some (n, c') ∧ StandsOn mem c' bs := by
  unfold lengthOctets at h
  split at h
  · rename_i hshort
    obtain ⟨hbyte, hrest⟩ := run_getByte h
    have hbit : ∀ n < 0x80, UInt8.ofNat n &&& 0x80 = 0x00 := by decide
    refine ⟨c.advance 1, ?_, hrest⟩
    unfold decodeLength
    rw [run_bind, hbyte]
    dsimp only
    rw [if_pos (hbit n hshort), UInt8.toNat_ofNat_of_lt' (Nat.lt_of_lt_of_le hshort (by decide))]
    rfl
  · obtain ⟨hbyte, hrest⟩ := run_getByte h
    have hlen := octets_length_le hn
    have hbit : ∀ k < 8, UInt8.ofNat (0x80 + k) &&& 0x80 ≠ 0x00 ∧
        (UInt8.ofNat (0x80 + k) &&& kMaskTag).toNat = k := by decide
    obtain ⟨hhigh, hcount⟩ := hbit (octets n).length (by omega)
    obtain ⟨c', hrun, hc'⟩ := run_decodeOctets (octets n) 0 hrest
    refine ⟨c', ?_, hc'⟩
    unfold decodeLength
    rw [run_bind, hbyte]
    dsimp only
    have hfew : ¬ sizeofSize ≤ (octets n).length := by
      unfold sizeofSize
      omega
    rw [if_neg hhigh, hcount, if_neg hfew, hrun, foldl_octets]

section Element

variable {tag : UInt8} {x : Bytes}

theorem run_enter (hx : x.length < 256 ^ 7)
    (h : StandsOn mem c (lengthOctets x.length ++ (x ++ more))) :
    ∃ c', c.enter.run mem = some c' ∧ StandsOn mem c' x := by
  obtain ⟨c', hrun, hlen, hpre⟩ := run_decodeLength hx h
  rw [length_append] at hlen
  refine ⟨⟨c'.p, x.length⟩, ?_, rfl, (prefix_append x more).trans hpre⟩
  unfold enter
  rw [run_bind, hrun]
  dsimp only
  rw [if_neg (by omega)]
  rfl

theorem run_maskedGet (mask want : UInt8) (htag : tag &&& mask = want) (hx : x.length < 256 ^ 7)
    (h : StandsOn mem c (element tag x ++ more)) :
    ∃ c', (c.maskedGet mask want).run mem = some c' ∧ StandsOn mem c' x := by
  unfold element at h
  rw [cons_append, append_assoc] at h
  obtain ⟨hbyte, hrest⟩ := run_getByte h
  obtain ⟨c', hrun, hc'⟩ := run_enter hx hrest
  refine ⟨c', ?_, hc'⟩
  unfold maskedGet
  rw [run_bind, hbyte]
  dsimp only
  rw [if_neg (not_not_intro htag)]
  exact hrun

theorem run_skip (hx : x.length < 256 ^ 7)
    (h : StandsOn mem c (lengthOctets x.length ++ (x ++ more))) :
    ∃ c' c'', c.decodeLength.run mem = some (x.length, c') ∧ c'.skipBytes x.length = some c'' ∧
      StandsOn mem c'' more := by
  obtain ⟨c', hrun, hc'⟩ := run_decodeLength hx h
  have hlen := hc'.1
  rw [length_append] at hlen
  refine ⟨c', c'.advance x.length, hrun, ?_, standsOn_advance hc'⟩
  unfold skipBytes
  rw [if_neg (by omega)]

theorem run_sequenceNext (hx : x.length < 256 ^ 7) (h : StandsOn mem c (element tag x ++ more)) :
    ∃ c', c.sequenceNext.run mem = some c' ∧ StandsOn mem c' more := by
  unfold element at h
  rw [cons_append, append_assoc] at h
  obtain ⟨hbyte, hrest⟩ := run_getByte h
  obtain ⟨c', c'', hrun, hskip, hc''⟩ := run_skip hx hrest
  refine ⟨c'', ?_, hc''⟩
  unfold sequenceNext
  rw [run_bind, hbyte]
  rw [run_bind, hrun]
  exact hskip

theorem run_octetStringGet (hx : x.length < 256 ^ 7) (hne : x ≠ [])
    (h : StandsOn mem c (element kTagOctetString x ++ more)) :
    ∃ p, c.octetStringGet.run mem = some (p, x.length) ∧ (mem.drop p).take x.length = x := by
  unfold element at h
  rw [cons_append, append_assoc] at h
  obtain ⟨hbyte, hrest⟩ := run_getByte h
  obtain ⟨c', hrun, hlen, t, ht⟩ := run_decodeLength hx hrest
  have hpos := length_pos_iff.mpr hne
  rw [length_append] at hlen
  refine ⟨c'.p, ?_, ?_⟩
  · unfold octetStringGet
    rw [run_bind, hbyte]
    dsimp only
    rw [if_neg (not_not_intro rfl), run_bind, hrun]
    dsimp only
    rw [if_neg (by omega)]
    rfl
  · rw [← ht, append_assoc, take_left]

end Element

/-! ## The loop over the optional fields -/

/-- More rounds than the context has bytes change nothing: a round takes at least a tag. -/
theorem constructedSkipFrom_fuel (mem : Bytes) : ∀ (fuel fuel' : Nat) (c : Asn1Context),
    c.length < fuel → c.length < fuel' →
    constructedSkipFrom fuel c mem = constructedSkipFrom fuel' c mem := by
  intro fuel
  induction fuel with
  | zero =>
    intro fuel' c h
    exact absurd h (Nat.not_lt_zero _)
  | succ fuel ih =>
    intro fuel' c h h'
    obtain ⟨fuel', rfl⟩ : ∃ k, fuel' = k + 1 := ⟨fuel' - 1, by omega⟩
    have hwithin : Within c.p (c.p + c.length) c := ⟨Nat.le_refl _, Nat.le_refl _⟩
    have hpeek := (@spec_peekByte _ _ mem _ hwithin).2
    refine bind_congr ?_
    generalize c.peekByte.run mem = byte at hpeek ⊢
    cases byte with
    | none => rfl
    | some b =>
      have hpos := hpeek rfl
      dsimp only
      split
      · rfl
      have hnext : Within (c.p + 1) (c.p + c.length) (c.advance 1) := by
        unfold Within advance
        dsimp only
        omega
      have hlen := (@spec_decodeLength _ _ mem _ hnext).2
      refine bind_congr ?_
      generalize (c.advance 1).decodeLength.run mem = len at hlen ⊢
      rcases len with _ | ⟨length, c'⟩
      · rfl
      have hc' := hlen _ rfl
      dsimp only at hc' ⊢
      cases hskip : c'.skipBytes length with
      | none => rfl
      | some c'' =>
        have hc'' := within_skipBytes hc' hskip
        unfold Within at hc''
        exact ih fuel' c'' (by omega) (by omega)

theorem run_constructedSkipFrom (hb : b &&& kMaskConstructed ≠ kTagConstructed) :
    ∀ (fields : List (Fin 31 × Bytes)) (fuel : Nat) {c : Asn1Context},
      (∀ f ∈ fields, f.2.length < 256 ^ 7) → c.length < fuel →
      StandsOn mem c (fields.flatMap (fun f => element (tagContext f.1) f.2) ++ b :: bs) →
      ∃ c', (constructedSkipFrom fuel c).run mem = some c' ∧ StandsOn mem c' (b :: bs) := by
  intro fields
  induction fields with
  | nil =>
    intro fuel c _ hfuel h
    obtain ⟨fuel, rfl⟩ : ∃ k, fuel = k + 1 := ⟨fuel - 1, by omega⟩
    refine ⟨c, ?_, h⟩
    rw [constructedSkipFrom, run_bind, run_peekByte h]
    dsimp only
    rw [if_pos hb]
    rfl
  | cons f fields ih =>
    intro fuel c hfields hfuel h
    obtain ⟨fuel, rfl⟩ : ∃ k, fuel = k + 1 := ⟨fuel - 1, by omega⟩
    have htag : ∀ k : Fin 31, tagContext k &&& kMaskConstructed = kTagConstructed := by decide
    rw [flatMap_cons, append_assoc, element, cons_append, append_assoc] at h
    obtain ⟨_, hrest⟩ := run_getByte h
    obtain ⟨c', c'', hrun, hskip, hc''⟩ := run_skip (hfields f mem_cons_self) hrest
    have hshort : c''.length < c.length := by
      rw [h.1, hc''.1]
      simp only [length_cons, length_append]
      omega
    obtain ⟨c₁, hrun₁, hc₁⟩ := ih fuel (forall_mem_cons.mp hfields).2
      (by omega) hc''
    refine ⟨c₁, ?_, hc₁⟩
    rw [constructedSkipFrom, run_bind, run_peekByte h]
    dsimp only
    rw [if_neg (not_not_intro (htag f.1)), run_bind, hrun]
    dsimp only
    rw [hskip]
    exact hrun₁

end Asn1Context

/-! ## The whole structure -/

open Asn1Context

theorem run_orFail {α β : Type} {m : Reads (Option α)} {f : α → Reads (Option β)}
    {mem : Bytes} {a : α} (h : m.run mem = some a) : (orFail m f).run mem = (f a).run mem := by
  unfold orFail
  rw [run_bind, h]

section Lengths

variable {bound : Nat}

theorem ContentInfo.lengths {i : ContentInfo} (h : i.contents.length < bound) :
    i.contentType.length < bound ∧ i.content.encode.length < bound := by
  have h₁ := lt_element_length tagOid i.contentType
  have h₂ := lt_element_length (tagContext 0) i.content.encode
  unfold ContentInfo.contents at h
  rw [length_append] at h
  exact ⟨by omega, by omega⟩

theorem optional_lengths {fields : List (Fin 31 × Bytes)}
    (h : (fields.flatMap fun f => element (tagContext f.1) f.2).length < bound) :
    ∀ f ∈ fields, f.2.length < bound := by
  intro f hf
  have hlt := lt_element_length (tagContext f.1) f.2
  have hmem : element (tagContext f.1) f.2 ∈ fields.map fun f => element (tagContext f.1) f.2 :=
    mem_map_of_mem hf
  have hle := (sublist_flatten_of_mem hmem).length_le
  rw [← flatMap_def] at hle
  omega

theorem SignedData.lengths {d : SignedData} (h : d.contents.length < bound) :
    d.version.length < bound ∧ d.digestAlgorithms.length < bound ∧
      d.encapContentInfo.length < bound ∧ (∀ f ∈ d.optional, f.2.length < bound) ∧
      d.signerInfos.length < bound := by
  have h₁ := lt_element_length tagInteger d.version
  have h₂ := lt_element_length kTagSet d.digestAlgorithms
  have h₃ := lt_element_length kTagSequence d.encapContentInfo
  have h₄ := lt_element_length kTagSet d.signerInfos
  unfold SignedData.contents at h
  simp only [length_append] at h
  exact ⟨by omega, by omega, by omega, optional_lengths (by omega), by omega⟩

theorem SignerInfo.lengths {s : SignerInfo} (h : s.contents.length < bound) :
    s.version.length < bound ∧ s.signerIdentifier.length < bound ∧
      s.digestAlgorithm.length < bound ∧ s.signatureAlgorithm.length < bound ∧
      s.signatureValue.length < bound := by
  have h₁ := lt_element_length tagInteger s.version
  have h₂ := lt_element_length kTagSequence s.signerIdentifier
  have h₃ := lt_element_length kTagSequence s.digestAlgorithm
  have h₄ := lt_element_length kTagSequence s.signatureAlgorithm
  have h₅ := lt_element_length kTagOctetString s.signatureValue
  unfold SignerInfo.contents at h
  simp only [length_append] at h
  exact ⟨by omega, by omega, by omega, by omega, by omega⟩

end Lengths

/-- The walk through a `SignerInfo`, from the set of them on. -/
theorem run_signer (s : SignerInfo) (hfit : s.contents.length < 256 ^ 7)
    (hsig : s.signatureValue ≠ [])
    {mem more : Bytes} {sigSet : Asn1Context} (h : StandsOn mem sigSet (s.encode ++ more)) :
    (orFail sigSet.sequenceGet fun sigSeq =>
      orFail sigSeq.sequenceNext fun sigSeq =>
      orFail sigSeq.sequenceNext fun sigSeq =>
      orFail sigSeq.sequenceNext fun sigSeq =>
      orFail sigSeq.sequenceNext fun sigSeq =>
      orFail sigSeq.octetStringGet fun sigDer => do
        let bytes ← Reads.slice sigDer.1 sigDer.2
        pure (some bytes)).run mem = some s.signatureValue := by
  obtain ⟨hversion, hidentifier, hdigest, halgorithm, hvalue⟩ := SignerInfo.lengths hfit
  obtain ⟨c, hrun, h⟩ := run_maskedGet kMaskTag kTagSequence (by decide) hfit h
  rw [sequenceGet, run_orFail hrun]
  obtain ⟨c, hrun, h⟩ := run_sequenceNext hversion h
  rw [run_orFail hrun]
  obtain ⟨c, hrun, h⟩ := run_sequenceNext hidentifier h
  rw [run_orFail hrun]
  obtain ⟨c, hrun, h⟩ := run_sequenceNext hdigest h
  rw [run_orFail hrun]
  obtain ⟨c, hrun, h⟩ := run_sequenceNext halgorithm h
  rw [run_orFail hrun]
  rw [← append_nil (element _ _)] at h
  obtain ⟨p, hrun, hbytes⟩ := run_octetStringGet hvalue hsig h
  rw [run_orFail hrun, run_bind, run_slice, hbytes]
  rfl

/-- The signature of the first signer is what is found in the text. -/
theorem run_readPkcs7 (info : ContentInfo) (hfit : info.contents.length < 256 ^ 7)
    (hsig : info.content.signer.signatureValue ≠ []) {mem : Bytes} {start : Nat}
    (hmem : info.encode <+: mem.drop start) :
    (readPkcs7 start info.encode.length).run mem = some info.content.signer.signatureValue := by
  obtain ⟨htype, hcontent⟩ := ContentInfo.lengths hfit
  have hdata : info.content.contents.length < 256 ^ 7 :=
    Nat.lt_trans (lt_element_length _ _) hcontent
  obtain ⟨hversion, hdigests, hencap, hoptional, hinfos⟩ := SignedData.lengths hdata
  have hsigner : info.content.signer.contents.length < 256 ^ 7 := by
    have hlt := lt_element_length kTagSequence info.content.signer.contents
    unfold SignedData.signerInfos SignerInfo.encode at hinfos
    rw [length_append] at hinfos
    omega
  have h : StandsOn mem ⟨start, info.encode.length⟩ (info.encode ++ []) := by
    rw [append_nil]
    exact ⟨rfl, hmem⟩
  unfold readPkcs7
  obtain ⟨c, hrun, h⟩ := run_maskedGet kMaskTag kTagSequence (by decide) hfit h
  rw [sequenceGet, run_orFail hrun]
  obtain ⟨c, hrun, h⟩ := run_sequenceNext htype h
  rw [run_orFail hrun]
  rw [← append_nil (element _ _)] at h
  obtain ⟨c, hrun, h⟩ := run_maskedGet kMaskConstructed kTagConstructed (by decide) hcontent h
  rw [constructedGet, run_orFail hrun]
  rw [← append_nil (SignedData.encode _)] at h
  obtain ⟨c, hrun, h⟩ := run_maskedGet kMaskTag kTagSequence (by decide) hdata h
  rw [sequenceGet, run_orFail hrun]
  obtain ⟨c, hrun, h⟩ := run_sequenceNext hversion h
  rw [run_orFail hrun]
  obtain ⟨c, hrun, h⟩ := run_sequenceNext hdigests h
  rw [run_orFail hrun]
  obtain ⟨c, hrun, h⟩ := run_sequenceNext hencap h
  rw [run_orFail hrun]
  -- the first octet that is no tag of such a field is that of the set
  obtain ⟨c, hrun, h⟩ := run_constructedSkipFrom (by decide) _ (c.length + 1) hoptional
    (Nat.lt_succ_self _) h
  rw [constructedSkipAll, run_orFail hrun]
  rw [← append_nil (_ :: _)] at h
  obtain ⟨c, hrun, h⟩ := run_maskedGet kMaskTag kTagSet (by decide) hinfos h
  rw [setGet, run_orFail hrun]
  exact run_signer _ hsigner hsig h

/--
**`read_pkcs7` is right and stays in its block.** From the DER text of a signed message it extracts
the signature of the first signer. On any text at all it reads no octet outside the text, what it
returns is a piece of the text, and its one loop ends on its own.
-/
theorem readPkcs7_extracts (before after : Bytes) :
    (∀ info : ContentInfo, info.contents.length < 256 ^ 7 →
      info.content.signer.signatureValue ≠ [] →
      (readPkcs7 before.length info.encode.length).run (before ++ info.encode ++ after) =
        some info.content.signer.signatureValue) ∧
    (∀ der : Bytes,
      (∀ i ∈ (readPkcs7 before.length der.length).indices (before ++ der ++ after),
        before.length ≤ i ∧ i < before.length + der.length) ∧
      ∀ sig, (readPkcs7 before.length der.length).run (before ++ der ++ after) = some sig →
        sig <:+: der) ∧
    ∀ (c : Asn1Context) (fuel : Nat), c.length < fuel →
      constructedSkipFrom fuel c = c.constructedSkipAll := by
  have hdrop : ∀ der : Bytes, (before ++ der ++ after).drop before.length = der ++ after := by
    intro der
    rw [append_assoc, drop_left]
  refine ⟨fun info hfit hsig => run_readPkcs7 info hfit hsig ?_, fun der => ?_,
    fun c fuel h => funext fun mem => constructedSkipFrom_fuel mem fuel _ c h (Nat.lt_succ_self _)⟩
  · rw [hdrop]
    exact prefix_append _ _
  · obtain ⟨hinside, hsig⟩ := @spec_readPkcs7 (before ++ der ++ after) before.length der.length
    rw [hdrop, take_left] at hsig
    exact ⟨hinside, hsig⟩

/-- A message with certificates, two signers and a signature that takes a long length. -/
def signedMessage : ContentInfo where
  contentType := [0x2A, 0x86, 0x48, 0x86, 0xF7, 0x0D, 0x01, 0x07, 0x02]
  content :=
    { version := [1]
      digestAlgorithms := []
      encapContentInfo := [0x06, 0x01, 0x00]
      optional := [(0, [0x30, 0x00])]
      signer := ⟨[1], [0x30, 0x00], [], [], List.replicate 256 0x5A⟩
      moreSigners := [⟨[1], [], [], [], [0xA5]⟩] }

theorem signedMessage_extracted :
    (readPkcs7 1 signedMessage.encode.length).run ([0] ++ signedMessage.encode ++ [0]) =
      some (List.replicate 256 0x5A) :=
  (readPkcs7_extracts [0] [0]).1 signedMessage (by decide +kernel) (by decide)

end Pterodon.Verifier
