import Yataverse.BlockIngest.Store

/-!
# Requests

The third part of `block_ingest.cljk`: what the service does with one request.

- `handle`: the block routes.
- `handleHeads`: the head and hold routes.
- `go`: both, an exception answered with 503 or 500.
- `service`: any number of requests over one state directory and one outside.
-/

namespace BlockIngest

open Js GraphHead EventLoop

/-- A request; `body` is absent but for PUT. -/
structure Request where
  method : JsString
  path : JsString
  headers : Headers
  body : Option Bytes
deriving DecidableEq

/-- The body of an answer. -/
inductive Body where
  | json (v : Json)
  | block (cid : JsString) (buf : Bytes)
deriving DecidableEq

/-- An answer. -/
structure Response where
  status : Nat
  body : Body
deriving DecidableEq

/-- `json`. -/
def json (status : Nat) (v : Json) : Response := ⟨status, .json v⟩

/-- `(json status {"refused" reason})`. -/
def refused (status : Nat) (reason : JsString) : Response :=
  json status (.obj [(js "refused", .str reason)])

/-! ## Routes -/

/-- A path segment: not empty, without a slash. -/
def pathSegment (s : JsString) : Option JsString :=
  if s ≠ [] && !s.contains (unit '/') then some s else none

/-- `/v1/blocks/(.+)`. -/
def blockRoute (path : JsString) : Option JsString :=
  match dropPrefix (js "/v1/blocks/") path with
  | some cid => if cid = [] then none else some cid
  | none => none

/-- `/v1/holds/([^/]+)`. -/
def holdsRoute (path : JsString) : Option JsString := (dropPrefix (js "/v1/holds/") path).bind pathSegment

/-- `/v1/heads/([^/]+)`. -/
def headsRoute (path : JsString) : Option JsString := (dropPrefix (js "/v1/heads/") path).bind pathSegment

/-- `/v1/heads/([^/]+)/([^/]+)`. -/
def headRoute (path : JsString) : Option (JsString × JsString) := do
  let s ← dropPrefix (js "/v1/heads/") path
  let a ← pathSegment (s.takeWhile (· ≠ unit '/'))
  let b ← pathSegment ((s.dropWhile (· ≠ unit '/')).drop 1)
  return (a, b)

/-- A character of a head name behind the first. -/
def isNameUnit (u : UInt16) : Bool :=
  inRange 'a' 'z' u || inRange '0' '9' u || u = unit '.' || u = unit '_' || u = unit '-'

/-- `head-name-re`: `[a-z0-9][a-z0-9._-]{0,63}`. -/
def headNameRe : JsString → Bool
  | [] => false
  | u :: s => (inRange 'a' 'z' u || inRange '0' '9' u) && s.length ≤ 63 && s.all isNameUnit

/-- `signer-suffix-re`: `z6Mk[1-9A-HJ-NP-Za-km-z]{40,60}`. -/
def signerSuffixRe (s : JsString) : Bool :=
  match dropPrefix (js "z6Mk") s with
  | some r => 40 ≤ r.length && r.length ≤ 60 && r.all b58.contains
  | none => false

/-! ## Blocks -/

section Handlers

variable (nc : NodeCrypto) (opts : Opts)

/-- The answer to a PUT of a block that is held. -/
def stored (p : Hold) (cid : JsString) (buf : Bytes) (status : Nat) : Response :=
  json status (.obj [(js "cid", .str cid), (js "held", .str p.path),
    (js "size", .num (Number.ofInt buf.length))])

/-- PUT of a block, once the request is authorized. -/
def putBlock (p : Hold) (cid : JsString) (codec : Codec) (buf : Bytes) : Step Response := do
  if ← held p then return stored p cid buf 200
  else do
    let got ← put codec buf
    ensure (got = cid) (.unmeasured (js "Kubo stored " ++ got ++ js " for " ++ cid))
    hold p
    return stored p cid buf 201

/-- DELETE of a block, once the request is authorized. -/
def deleteBlock (p : Hold) (cid : JsString) : Step Response := do
  if ← held p then do
    let _ ← release p
    return json 200 (.obj [(js "released", .str cid)])
  else return refused 404 (js "not held by this signer")

/-- `handle`. -/
def handle (now : Int) (req : Request) : Step Response :=
  if req.method = js "GET" ∧ req.path = js "/health" then
    .ret (json 200 (.obj [(js "ok", .bool true)]))
  else
    match blockRoute req.path with
    | none => .ret (refused 404 (js "not found"))
    | some cid =>
      match parseCid cid with
      | none => .ret (refused 400 (js "not a CIDv1 sha2-256 with codec raw or dag-cbor"))
      | some parsed =>
        if req.method = js "GET" then do
          match ← getBlock cid with
          | none => return refused 404 (js "block is not held here")
          | some buf =>
            return if hashesTo nc cid buf then ⟨200, .block cid buf⟩ else
              json 500 (.obj [(js "unmeasured", .str (js "stored bytes do not hash to the CID"))])
        else if req.method = js "PUT" ∨ req.method = js "DELETE" then
          match authorize nc opts req.method cid req.headers now with
          | some (status, reason) => .ret (refused status reason)
          | none =>
            let p := holdPath (req.headers.signer.getD []) cid
            if req.method = js "DELETE" then deleteBlock p cid
            else
              match req.body with
              | none => .ret (refused 400 (js "body required"))
              | some buf =>
                if opts.maxBlockBytes < buf.length then
                  .ret (refused 413 (js "block too large"))
                else if hashesTo nc cid buf then putBlock p cid parsed.codec buf
                else .ret (refused 400 (js "bytes do not hash to the CID"))
        else .ret (refused 405 (js "method not allowed"))

/-! ## Heads and holds -/

/-- `head-message-slot`. -/
def headMessageSlot (name : JsString) (seq : Int) (cid : JsString) : JsString :=
  js "head/" ++ name ++ js "/" ++ numStr (.int seq) ++ js "/" ++ cid

/-- `(<= seq x)` of an integer and a JSON value; `null` counts as 0. -/
def leJson (seq : Int) : Json → Bool
  | .num (.int n) => seq ≤ n
  | .num (.frac q) => (seq : ℚ) ≤ q
  | .num (.inf negative) => !negative
  | .null => seq ≤ 0
  | _ => false

/-- The record of a head. -/
def headRecord (cid : JsString) (seq now : Int) : Json :=
  .obj [(js "at", .num (.int now)), (js "cid", .str cid), (js "seq", .num (.int seq))]

/-- What a PUT of a head does when the hold check has been answered: compare and write. -/
def compareAndWrite (p : Hold) (name : JsString) (seq now : Int) (current : Json) (held : Bool) :
    Step Response :=
  if !held then .ret (refused 409 (js "the head must name a block this signer holds"))
  else if current.truthy && leJson seq (current.get (js "seq")) then
    .ret (json 409 (.obj [(js "current", current), (js "refused", .str (js "seq must grow"))]))
  else do
    Task.modify (Files.putHead p.suffix name (headRecord p.cid seq now))
    return json 200 (headRecord p.cid seq now)

/-- PUT of a head, once the request is authorized: the current head is read at once,
the hold check may take its time. -/
def putHead (p : Hold) (name : JsString) (seq now : Int) : Step Response :=
  if unixfs p.cid then do
    let current ← Task.reads fun f => f.head p.suffix name
    let isHeld ← held p
    compareAndWrite p name seq now current isHeld
  else do
    let isHeld ← held p
    let current ← Task.reads fun f => f.head p.suffix name
    compareAndWrite p name seq now current isHeld

/-- The CID and sequence number of a head body. -/
def headBody (body : Option Bytes) : Option (JsString × Int) :=
  match (parseJson (body.getD [])).getD .null with
  | rec =>
    match rec.get (js "cid"), rec.get (js "seq") with
    | .str cid, .num (.int seq) => if (parseCid cid).isSome && 0 < seq then some (cid, seq) else none
    | _, _ => none

/-- `handle-heads`: nothing when the path is not a heads or holds route. -/
def handleHeads (now : Int) (req : Request) : Option (Step Response) :=
  match holdsRoute req.path, headRoute req.path, headsRoute req.path with
  | some suffix, _, _ =>
    if req.method = js "GET" then some <|
      if signerSuffixRe suffix then do
        let cids ← holds suffix
        return json 200 (.obj [(js "cids", .arr (cids.map .str)),
          (js "signer", .str (js "did:key:" ++ suffix))])
      else .ret (refused 400 (js "not a did:key suffix"))
    else none
  | none, some (suffix, name), _ =>
    if req.method = js "GET" then some <|
      if signerSuffixRe suffix && headNameRe name then do
        let rec ← Task.reads fun f => f.head suffix name
        return if rec.truthy then json 200 rec else refused 404 (js "no such head")
      else .ret (refused 400 (js "bad signer or head name"))
    else none
  | none, none, some name =>
    if req.method = js "GET" ∧ signerSuffixRe name then some do
      let heads ← Task.reads fun f => f.readAll name
      return json 200 (.obj [(js "heads", .obj heads), (js "signer", .str (js "did:key:" ++ name))])
    else if req.method = js "PUT" then some <|
      if ¬ headNameRe name then .ret (refused 400 (js "bad head name"))
      else
        match headBody req.body with
        | none => .ret (refused 400
            (js "body must be \x7b\"cid\": raw or dag-cbor cid, \"seq\": positive integer\x7d"))
        | some (cid, seq) =>
          match authorize nc opts (js "PUT") (headMessageSlot name seq cid) req.headers now with
          | some (status, reason) => .ret (refused status reason)
          | none => putHead (holdPath (req.headers.signer.getD []) cid) name seq now
    else none
  | none, none, none => none

/-! ## The service -/

/-- How an exception is answered. -/
def answerError (e : Err) : Response :=
  json (if kind e = some .unmeasured then 503 else 500) (.obj [(js "unmeasured", .str (message e))])

/-- One request, answered. -/
def go (now : Int) (req : Request) : Step Response :=
  ((handleHeads nc opts now req).getD (handle nc opts now req)).handle
    fun e => .ret (answerError e)

/-- The service over any outside: requests `reqs`, each with the time it is made. -/
def service {ι E X : Type} (reqs : ι → Int × Request) (exec : E → Cmd → X → Option (Proc × E)) :
    Loop ι Files E Cmd X (fun _ => Proc) Err Response where
  spawn i := go nc opts (reqs i).1 (reqs i).2
  exec _ _ e c x := exec e c x
  tick _ _ := none

/-- The service over a Kubo that does what it is told. -/
def kuboService {ι : Type} (reqs : ι → Int × Request) :
    Loop ι Files Kubo Cmd Unit (fun _ => Proc) Err Response :=
  service nc opts reqs fun k c _ => some (k.exec nc c)

end Handlers

/-! ## Signed samples

Requests of two signers, signed with test keys at one time. The hash is SHA-256 on the
two blocks and has no collisions elsewhere; the signatures that verify are those of the
requests below. -/

namespace Sample

def alice : JsString := js "did:key:z6MkvDqGT54cXesYGvABpF1UapVNwjCqRcafi4Px6Thv5T3Z"

def bob : JsString := js "did:key:z6Mkfmm57fsb6VL7zVusP8zeA9SYkCKdvUhby2G7Yh8vvQ1P"

def rawBlock : Bytes := [0x01]

def cidRaw : JsString := js "bafkreicl6ujc6ncfktctxxroxognfn7d2fqavvrryoc2lv6m4i6hpbkfti"

def cborBlock : Bytes := [0xa0]

def cidCbor : JsString := js "bafyreigbtj4x7ip5legnfznufuopl4sg4knzc2cof6duas4b3q2fy6swua"

def time : JsString := js "1767225600"

/-- A signed message: signer, method, CID slot and signature. -/
def signed : List (JsString × JsString × JsString × JsString) :=
  [(alice, js "PUT", cidRaw,
      js "2IB_SerAQM776fxnRRDUzxHvL0xiaVtAtw-SM73TrxM69L16F0_QmrX6pLJNtVhZMP8f-60gIxZ1j4nFKBj8AA"),
    (alice, js "DELETE", cidRaw,
      js "GYMITaMt0QtJQQmnvH87s7mK0Da8_i8m_OZE_xVbswi2b8wH8oG-AMcPa6_CKa4aSBdbtvUdBQPhgEb8_04HAg"),
    (alice, js "PUT", headMessageSlot (js "statement") 1 cidRaw,
      js "SM47s8bp4WQLrmryXzVpbxd7b1pdKDaR2BdH_lzWh9TYmvDp8hqbEkjSWd0z4v_RZ_Wt5lTSRxlLSjhnKCsxAQ"),
    (alice, js "PUT", headMessageSlot (js "statement") 2 cidRaw,
      js "FTjYBGq7nL1hP67LXArvgieZD5Ir_IUmtdKGJAdvu3fRlfFi8n00YuVxHUmemuGs-M8SOZufj2jZ1OhIKSW9DA"),
    (alice, js "PUT", cidCbor,
      js "blBDMYcRuGMipxRvbZqSglVoXoTtaH_zYVb-t4V3-3HzJ_Po4sCNBBveYdZwyyIFw-4ppbkOo-VADqJOJpgABQ"),
    (alice, js "DELETE", cidCbor,
      js "FEe7Kb3r4ew3SDfbURRUr8NKAEWG-wDocnh614HYbUYzWwRFIbtgXpygZb3sW3TA7N0c7uH4IXhX-vOvhzrdAg"),
    (bob, js "PUT", cidCbor,
      js "9Qv6E_uxD1BZFzfDDOKbjcb7kjC0ZHah0IdZ96oFevQXYZWqdvQdXAMPsTLmQt4Zgf5yYiY4RY4Y_n52YZr6Dw")]

def blockCrypto : NodeCrypto where
  sha256 buf :=
    if buf = rawBlock then (b32Decode (cidRaw.drop 1) 0 0).drop 4
    else if buf = cborBlock then (b32Decode (cidCbor.drop 1) 0 0).drop 4
    else 0 :: buf
  verify pub msg sig := signed.any fun (signer, method, slot, signature) =>
    pub = (ed25519PubOfDid signer).toOption.getD [] &&
    msg = utf8 (signedMessage method slot time) && sig = base64url signature

def opts : Opts := ⟨[alice, bob], 300, 16777216⟩

/-- The headers of a signed message. -/
def headersOf (signer method slot : JsString) : Headers :=
  ⟨some signer, some time, (signed.find? fun m => m.1 = signer && m.2.1 = method && m.2.2.1 = slot).map
    fun m => m.2.2.2⟩

/-- A request, made at the time it is signed for. -/
def request (signer method path slot : JsString) (body : Option Bytes) : Int × Request :=
  (1767225600, ⟨method, path, headersOf signer method slot, body⟩)

def putOf (signer cid : JsString) (buf : Bytes) : Int × Request :=
  request signer (js "PUT") (js "/v1/blocks/" ++ cid) cid (some buf)

def deleteOf (signer cid : JsString) : Int × Request :=
  request signer (js "DELETE") (js "/v1/blocks/" ++ cid) cid none

/-- Alice's PUT of her head `statement`. -/
def putStatement (seq : Int) : Int × Request :=
  request alice (js "PUT") (js "/v1/heads/statement") (headMessageSlot (js "statement") seq cidRaw)
    (some (utf8 (Json.print stringify (.obj [(js "cid", .str cidRaw), (js "seq", .num (.int seq))]))))

end Sample

end BlockIngest
