import Yataverse.GraphHead.Witness

/-!
# Block CIDs and request signatures

The first part of `block_ingest.cljk`: which CID strings are accepted, what hashes to
them, and which requests are signed by an allowed key.

- `parseCid`: the codec and digest of an accepted CID string.
- `cidOf`: the CID of bytes under a codec.
- `authorize`: nothing when the request is signed by an allowed key within the skew
  window, else the status and reason.
-/

namespace BlockIngest

open Js GraphHead

/-! ## CIDs -/

/-- `codecs`. -/
inductive Codec where
  | raw
  | dagCbor
deriving DecidableEq, Repr

/-- The multicodec of a codec. -/
def Codec.code : Codec → UInt8
  | .raw => 0x55
  | .dagCbor => 0x71

/-- The name of a codec. -/
def Codec.name : Codec → JsString
  | .raw => js "raw"
  | .dagCbor => js "dag-cbor"

/-- `(get codecs b)`. -/
def codecOf (b : UInt8) : Option Codec :=
  if b = 0x55 then some .raw else if b = 0x71 then some .dagCbor else none

/-- `raw-cid-re`: `b[a-z2-7]{58}`. -/
def rawCidRe (s : JsString) : Bool := s.head? = some (unit 'b') && s.length = 59 && s.all isB32

/-- `b32-decode`, with `bits` bits of `v` not yet written. -/
def b32Decode : JsString → Nat → Nat → Bytes
  | [], _, _ => []
  | c :: more, bits, v =>
    let v := v % 256 * 32 + b32.idxOf c
    if 8 ≤ bits + 5 then byte (v / 2 ^ (bits + 5 - 8) % 256) :: b32Decode more (bits + 5 - 8) v
    else b32Decode more (bits + 5) v

/-- What an accepted CID string names. -/
structure ParsedCid where
  codec : Codec
  digest : Bytes
deriving DecidableEq

/-- `parse-cid`. -/
def parseCid (s : JsString) : Option ParsedCid :=
  if rawCidRe s then
    match b32Decode (s.drop 1) 0 0 with
    | v :: c :: h :: l :: digest =>
      match codecOf c with
      | some codec =>
        if digest.length = 32 ∧ v = 1 ∧ h = 0x12 ∧ l = 0x20 then some ⟨codec, digest⟩ else none
      | none => none
    | _ => none
  else none

/-- `parse-cid` of a JSON value: only strings are CIDs. -/
def parseCidOf : Json → Option ParsedCid
  | .str s => parseCid s
  | _ => none

/-- `cid-of`. -/
def cidOf (nc : NodeCrypto) (codec : Codec) (buf : Bytes) : JsString :=
  unit 'b' :: b32Encode ([0x01, codec.code, 0x12, 0x20] ++ nc.sha256 buf)

/-- `hashes-to?`. -/
def hashesTo (nc : NodeCrypto) (cid : JsString) (buf : Bytes) : Bool :=
  match parseCid cid with
  | some p => p.digest = nc.sha256 buf
  | none => false

/-- `unixfs?`: MFS takes the block. -/
def unixfs (cid : JsString) : Bool := (parseCid cid).map ParsedCid.codec = some .raw

/-! ## Signatures -/

/-- The signature headers of a request. -/
structure Headers where
  signer : Option JsString
  time : Option JsString
  signature : Option JsString
deriving DecidableEq

/-- Who may write, how far a request's time may be off, and how large a block may be. -/
structure Opts where
  allow : List JsString
  maxSkew : Int
  maxBlockBytes : Nat

/-- `signed-message`. -/
def signedMessage (method cid time : JsString) : JsString :=
  js "kotoba/block-ingest/v1\n" ++ method ++ js "\n" ++ cid ++ js "\n" ++ time

/-- A time of at most twelve digits. -/
def parseTime (s : JsString) : Option Int :=
  if s ≠ [] && s.length ≤ 12 && s.all (fun u => (digit? u).isSome) then some (ofDigits s) else none

/-- Does the signature of a request verify? A key that does not parse verifies nothing. -/
def signatureOk (nc : NodeCrypto) (method cid signer time signature : JsString) : Bool :=
  match ed25519PubOfDid signer with
  | .ok pub => nc.verify pub (utf8 (signedMessage method cid time)) (base64url signature)
  | .error _ => false

/-- `authorize`. -/
def authorize (nc : NodeCrypto) (opts : Opts) (method cid : JsString) (headers : Headers)
    (now : Int) : Option (Nat × JsString) :=
  match headers.signer, headers.time, headers.signature with
  | some signer, some time, some signature =>
    if ¬ signer ∈ opts.allow then some (403, js "signer is not allowed")
    else
      match parseTime time with
      | none => some (401, js "signature time outside the allowed skew")
      | some t =>
        if opts.maxSkew < |now - t| then some (401, js "signature time outside the allowed skew")
        else if signatureOk nc method cid signer time signature then none
        else some (401, js "signature does not verify")
  | _, _, _ => some (401, js "signature required")

end BlockIngest
