import Bitmine.Schema

namespace Bitmine.Security

open Bitmine.Lib.UniqueTable Bitmine.Lib.Throwing Bitmine.Schema

/-- The platform's primitives: AES-256-GCM under the installed key, on base64url
texts, and HMAC-SHA1 on bytes. -/
structure Primitives where
  encipher : (iv context plaintext : String) → String × String
  decipher : (iv tag ciphertext context : String) → Option String
  hmacSha1 : (key message : List ℕ) → List ℕ

variable (prim : Primitives)

def truthy : Option String → Option String
  | some s => if s = "" then none else some s
  | none => none

def splitDots (s : String) : List String := (s.toList.splitOn '.').map String.ofList

def encrypt (iv plaintext context : String) : String :=
  let (tag, ciphertext) := prim.encipher iv context plaintext
  "v1." ++ iv ++ "." ++ tag ++ "." ++ ciphertext

def decrypt (payload context : String) : Except String String :=
  let parts := splitDots payload
  match parts[0]?, truthy parts[1]?, truthy parts[2]?, truthy parts[3]? with
  | some "v1", some iv, some tag, some ciphertext =>
    orThrow "Unsupported state or unable to authenticate data" (prim.decipher iv tag ciphertext context)
  | _, _, _, _ => .error "Invalid encrypted payload"

def alphabet : List Char := "ABCDEFGHIJKLMNOPQRSTUVWXYZ234567".toList

/-- Upper case. Beyond ASCII only the characters whose upper case is made of
letters of the alphabet are mapped, since every other one is refused anyway. -/
def toUpperCase (c : Char) : List Char :=
  match c with
  | 'ı' => ['I']
  | 'ſ' => ['S']
  | 'ß' => ['S', 'S']
  | 'ﬀ' => ['F', 'F']
  | 'ﬁ' => ['F', 'I']
  | 'ﬂ' => ['F', 'L']
  | 'ﬃ' => ['F', 'F', 'I']
  | 'ﬄ' => ['F', 'F', 'L']
  | 'ﬅ' | 'ﬆ' => ['S', 'T']
  | c => [c.toUpper]

def isSpace (c : Char) : Bool :=
  let n := c.toNat
  (9 ≤ n ∧ n ≤ 13) ∨ n = 32 ∨ n = 0xa0 ∨ n = 0x1680 ∨ (0x2000 ≤ n ∧ n ≤ 0x200a) ∨
    n = 0x2028 ∨ n = 0x2029 ∨ n = 0x202f ∨ n = 0x205f ∨ n = 0x3000 ∨ n = 0xfeff

def bitsOf (width n : ℕ) : List Bool := (List.range width).reverse.map (n.testBit ·)

def ofBits (bits : List Bool) : ℕ := bits.foldl (fun n b => 2 * n + b.toNat) 0

def bytesOfBits : List Bool → List ℕ
  | b0 :: b1 :: b2 :: b3 :: b4 :: b5 :: b6 :: b7 :: bits =>
    ofBits [b0, b1, b2, b3, b4, b5, b6, b7] :: bytesOfBits bits
  | _ => []

def decodeBase32 (value : String) : Except String (List ℕ) := do
  let upper := value.toList.flatMap toUpperCase
  let normalized := (upper.reverse.dropWhile (· = '=')).reverse.filter (fun c => !isSpace c)
  let bits ← normalized.mapM (fun c =>
    if c ∈ alphabet then .ok (bitsOf 5 (alphabet.idxOf c)) else .error "Invalid base32 secret")
  pure (bytesOfBits bits.flatten)

def counterBuffer (counter : ℤ) : Except String (List ℕ) :=
  if counter < 0 ∨ 2 ^ 64 ≤ counter then .error "The value of \"value\" is out of range"
  else .ok ((List.range 8).reverse.map (fun i => counter.toNat / 256 ^ i % 256))

def totpCode (secret : String) (time : Instant) : Except String String := do
  let counter := time / 30000
  let key ← decodeBase32 secret
  let message ← counterBuffer counter
  let digest := prim.hmacSha1 key message
  let offset := digest.getLastD 0 % 16
  let word := ((digest.drop offset).take 4).foldl (fun n b => 256 * n + b) 0
  let digits := toString (word % 2 ^ 31 % 1000000)
  pure (String.ofList (List.replicate (6 - digits.length) '0') ++ digits)

def verifyTotp (secret code : String) (time : Instant) : Except String Bool :=
  if code.toList.length = 6 ∧ code.toList.all Char.isDigit then
    [-1, 0, 1].anyM (fun window => do
      let expected ← totpCode prim secret (time + window * 30000)
      pure (decide (expected = code)))
  else .ok false

def assertTotp (db : Database) (adminId : Id) (code : String) (now : Instant) :
    Except String Unit := do
  let admin ← orThrow recordNotFound (db.admins.find? (fun a => a.id = adminId))
  match admin.totpEnabled, truthy admin.totpSecretCiphertext with
  | true, some ciphertext =>
    let secret ← decrypt prim ciphertext ("admin:" ++ toString adminId ++ ":totp")
    let valid ← verifyTotp prim secret code now
    if valid then pure () else .error "Invalid TOTP code"
  | _, _ => .error "TOTP must be enabled before approving payouts"

/-- Password hashing and the parts of the standard library that follow tables of
their own. The salt of a hash is drawn anew for each secret. -/
structure Platform extends Primitives where
  hashSecret : (salt secret : String) → String
  verifySecret : (hash secret : String) → Bool
  sha256 : String → String
  toLowerCase : String → String
  toUpperCase : String → String
  encodeURIComponent : String → String
  toISOString : Instant → String

def trim (s : String) : String :=
  String.ofList ((s.toList.dropWhile isSpace).reverse.dropWhile isSpace).reverse

end Bitmine.Security
