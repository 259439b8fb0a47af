import Yataverse.Js.RoundTrip
import Mathlib.Data.Nat.Digits.Defs

/-!
# Graph-head documents: text encodings and canonical JSON

The first half of `graph_head.cljk`. A document's CID is its identity on inga, so the
bytes of a document must be a function of its value.

- `Err`: the exceptions and their kinds.
- `b58Decode`, `b32Encode`: base58btc and base32.
- `canonicalStr`, `canonical`: JSON with sorted keys, no spaces, non-ASCII escaped.
- `rawCid`: CIDv1, raw codec, sha2-256, base32 lower.
- `mirrorDoc`: the document that carries a head on inga.
-/

namespace GraphHead

open Js

/-- An exception. `refused`, `unmeasured` and `conflict` carry a `:kind`. -/
inductive Err where
  | refused (msg : JsString)
  | unmeasured (msg : JsString)
  | conflict (current : Json)
  | other (msg : JsString)
deriving DecidableEq

/-- `:kind` of the ex-data. -/
inductive Kind where
  | refused
  | unmeasured
  | conflict
deriving DecidableEq

/-- The kind an exception carries, through any wrapping. -/
def kind : Err → Option Kind
  | .refused _ => some .refused
  | .unmeasured _ => some .unmeasured
  | .conflict _ => some .conflict
  | .other _ => none

/-- The original message. -/
def message : Err → JsString
  | .refused msg => msg
  | .unmeasured msg => msg
  | .conflict _ => js "expected head is not the current head"
  | .other msg => msg

/-- `(when-not c (throw e))`. -/
def check (c : Prop) [Decidable c] (e : Err) : Except Err Unit := if c then .ok () else .error e

/-- What node's crypto module gives: SHA-256 and Ed25519 verification of
(public key, message, signature). -/
structure NodeCrypto where
  sha256 : Bytes → Bytes
  verify : Bytes → Bytes → Bytes → Bool

/-- `schema`. -/
def schema : JsString := js "yataverse-graph-head-mirror/v1"

/-- A base32 digit. -/
def isB32 (u : UInt16) : Bool := inRange 'a' 'z' u || inRange '2' '7' u

/-- `graph-re`: `baf[a-z2-7]{50,}`. -/
def graphRe (s : JsString) : Bool :=
  (js "baf").isPrefixOf s && (s.drop 3).all isB32 && 50 ≤ (s.drop 3).length

/-! ## Printed values -/

/-- A string as `pr-str` writes it. -/
def prString (s : JsString) : JsString :=
  unit '"' :: s.flatMap (fun u =>
    if u = unit '"' then js "\\\""
    else if u = unit '\\' then js "\\\\"
    else if u = 8 then js "\\b"
    else if u = 9 then js "\\t"
    else if u = 10 then js "\\n"
    else if u = 12 then js "\\f"
    else if u = 13 then js "\\r"
    else [u]) ++ [unit '"']

mutual

/-- `(pr-str v)`. -/
def prStr : Json → JsString
  | .null => js "nil"
  | .bool b => js (if b then "true" else "false")
  | .num (.inf false) => js "##Inf"
  | .num (.inf true) => js "##-Inf"
  | .num x => numStr x
  | .str s => prString s
  | .arr xs => unit '[' :: prStrs xs ++ [unit ']']
  | .obj kvs => unit '{' :: prEntries kvs ++ [unit '}']

def prStrs : List Json → JsString
  | [] => []
  | [x] => prStr x
  | x :: y :: xs => prStr x ++ unit ' ' :: prStrs (y :: xs)

def prEntries : List (JsString × Json) → JsString
  | [] => []
  | [e] => prString e.1 ++ unit ' ' :: prStr e.2
  | e :: f :: kvs => prString e.1 ++ unit ' ' :: prStr e.2 ++ js ", " ++ prEntries (f :: kvs)

end

/-- `(str v)` inside a message. -/
def strOf : Json → JsString
  | .null => []
  | .str s => s
  | .num x => numStr x
  | v => prStr v

/-! ## base58btc / base32 -/

/-- The base58btc alphabet. -/
def b58 : JsString := js "123456789ABCDEFGHJKLMNPQRSTUVWXYZabcdefghijkmnopqrstuvwxyz"

/-- Little-endian bytes times 58, plus `carry`. -/
def mulAdd58 : List Nat → Nat → List Nat
  | [], carry => Nat.digits 256 carry
  | x :: bs, carry => (x * 58 + carry) % 256 :: mulAdd58 bs ((x * 58 + carry) / 256)

/-- `b58-decode`: `none` when `text` is not base58btc. -/
def b58Decode (text : JsString) : Option Bytes :=
  (text.mapM fun u => b58.idxOf? u).map fun idx =>
    List.replicate (idx.takeWhile (· = 0)).length 0 ++ ((idx.foldl mulAdd58 []).reverse.map byte)

/-- The base32 alphabet. -/
def b32 : JsString := js "abcdefghijklmnopqrstuvwxyz234567"

/-- The bits of a byte, most significant first. -/
def byteBits (b : UInt8) : List Bool := (List.range 8).reverse.map b.toNat.testBit

/-- The number that bits write. -/
def ofBits (bits : List Bool) : Nat := bits.foldl (fun n b => 2 * n + b.toNat) 0

/-- `(partition 5 bits)`. -/
def partition5 : List Bool → List (List Bool)
  | a :: b :: c :: d :: e :: r => [a, b, c, d, e] :: partition5 r
  | _ => []

/-- Bits filled up with zeros to a multiple of five. -/
def padded (bits : List Bool) : List Bool :=
  bits ++ List.replicate ((5 - bits.length % 5) % 5) false

/-- `b32-encode`: RFC 4648 base32, lower case, no padding. -/
def b32Encode (buf : Bytes) : JsString :=
  (partition5 (padded (buf.flatMap byteBits))).map fun g => b32.getD (ofBits g) 0

/-! ## Canonical JSON -/

/-- Every code unit from U+0080 on as `\uXXXX`. -/
def escapeNonAscii (s : JsString) : JsString :=
  s.flatMap fun u => if 0x80 ≤ u then unicodeEscape u else [u]

/-- `json-str`. -/
def jsonStr (s : JsString) : JsString := escapeNonAscii (stringify s)

mutual

/-- `canonical-str`. The entries of an object are in the order of their keys. -/
def canonicalStr : Json → Except Err JsString
  | .null => .ok (js "null")
  | .bool b => .ok (js (if b then "true" else "false"))
  | .num (.int n) => .ok (numStr (.int n))
  | .num x => .error (.refused (js "non-integer number " ++ numStr x))
  | .str s => .ok (jsonStr s)
  | .arr xs => do return unit '[' :: (← canonicalStrs xs) ++ [unit ']']
  | .obj kvs => do return unit '{' :: (← canonicalEntries kvs) ++ [unit '}']

def canonicalStrs : List Json → Except Err JsString
  | [] => .ok []
  | [x] => canonicalStr x
  | x :: y :: xs => do return (← canonicalStr x) ++ unit ',' :: (← canonicalStrs (y :: xs))

def canonicalEntries : List (JsString × Json) → Except Err JsString
  | [] => .ok []
  | [e] => do return jsonStr e.1 ++ unit ':' :: (← canonicalStr e.2)
  | e :: f :: kvs => do
    return jsonStr e.1 ++ unit ':' :: (← canonicalStr e.2) ++
      unit ',' :: (← canonicalEntries (f :: kvs))

end

/-- `canonical`. -/
def canonical (v : Json) : Except Err Bytes := utf8 <$> canonicalStr v

/-- `parse-json` of a buffer: `none` is the exception. -/
def parseJson (buf : Bytes) : Option Json := Json.parse (ofUtf8 buf)

/-- `raw-cid`. -/
def rawCid (nc : NodeCrypto) (buf : Bytes) : JsString :=
  unit 'b' :: b32Encode ([0x01, 0x55, 0x12, 0x20] ++ nc.sha256 buf)

/-- The value of a mirror document; its keys in order. -/
def mirrorValue (graph : JsString) (seq : Number) (prev head : Json) : Json :=
  .obj [(js "graph", .str graph), (js "head", head), (js "prev", prev),
    (js "schema", .str schema), (js "seq", .num seq)]

/-- `mirror-doc`. -/
def mirrorDoc (graph : JsString) (seq : Number) (prev head : Json) : Except Err Bytes :=
  canonical (mirrorValue graph seq prev head)

end GraphHead
