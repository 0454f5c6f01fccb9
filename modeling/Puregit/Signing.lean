import Puregit.Lib.Base64
import Puregit.Object.Signed
import Puregit.Oid

/-! # Signatures of commits

A commit is signed over its bytes without a signature, by an SSH key or by an OpenPGP one, and the
armored signature is stored in its header.  The verifier takes the armor off, takes the signature
apart, rebuilds the bytes that were signed and asks the scheme.

The digests and the schemes are those of a library, `Crypto`; what is said of it is the length of
what it makes and that it accepts what it signed.
-/
namespace Puregit

/-- A curve of an ECDSA key. -/
inductive PgpCurve where
  | p256
  | p384
  | p521
  deriving DecidableEq

/-- The digests and the signature schemes, which are a library's. -/
structure Crypto where
  sha256 : Bytes → Bytes
  sha512 : Bytes → Bytes
  /-- The public key of an Ed25519 seed. -/
  publicKey : Bytes → Bytes
  /-- The Ed25519 signature of a message by a seed. -/
  sign : Bytes → Bytes → Bytes
  /-- Whether an Ed25519 key accepts a signature of a message. -/
  verify : Bytes → Bytes → Bytes → Bool
  /-- Whether an RSA key, of a modulus and an exponent, accepts a signature of some data by their
  digest. -/
  verifyRsa : Bytes → Bytes → (Bytes → Bytes) → Bytes → Bytes → Bool
  /-- Whether a point is one of a curve. -/
  isPoint : PgpCurve → Bytes → Bool
  /-- Whether an ECDSA key accepts two numbers as a signature of a digest. -/
  verifyEcdsa : PgpCurve → Bytes → Bytes → Bytes → Bytes → Bool
  sha256_length : ∀ data, (sha256 data).length = 32
  sha512_length : ∀ data, (sha512 data).length = 64
  publicKey_length : ∀ seed, (publicKey seed).length = 32
  sign_length : ∀ seed message, (sign seed message).length = 64
  /-- A signature is accepted. -/
  verify_sign : ∀ seed message, verify (publicKey seed) message (sign seed message) = true

/-! ## SSH signatures -/

namespace Ssh

/-- The signature namespace of git. -/
def gitNamespace : Str := str "git"

/-- The first bytes of a signature, and of what is signed. -/
def magic : Bytes := bytes "SSHSIG"

/-- The type of an Ed25519 key. -/
def ed25519 : Str := str "ssh-ed25519"

/-- Some bytes behind their length. -/
def string (data : Bytes) : Bytes := Sha.bigEndian 4 data.length ++ data

/-- The first line of an armored signature. -/
def beginLine : Str := str "-----BEGIN SSH SIGNATURE-----"

/-- The last line of an armored signature. -/
def endLine : Str := str "-----END SSH SIGNATURE-----"

/-- What is signed: a digest, and what it is for. -/
def signedBlob (space hashAlgorithm : Str) (hash : Bytes) : Bytes :=
  magic ++ (string (toUtf8 space) ++ (string [] ++ (string (toUtf8 hashAlgorithm) ++ string hash)))

/-- The binary signature. -/
def signatureBlob (publicKey signature : Bytes) : Bytes :=
  magic ++ (Sha.bigEndian 4 1 ++ (string (string (toUtf8 ed25519) ++ string publicKey) ++
    (string (toUtf8 gitNamespace) ++ (string [] ++ (string (bytes "sha512") ++
      string (string (toUtf8 ed25519) ++ string signature))))))

/-- A binary signature in lines of 70. -/
def armor (blob : Bytes) : Bytes :=
  toUtf8 (beginLine ++ ['\n'] ++ (Base64.chunks 70 (Base64.encode blob)).flatMap (· ++ ['\n']) ++
    endLine ++ ['\n'])

/-- Takes bytes off the front. -/
def take (n : Nat) (data : Bytes) : Except Error (Bytes × Bytes) :=
  if n ≤ data.length then .ok (data.take n, data.drop n)
  else .error (.protocol (str "ssh signature: truncated"))

/-- Takes a number off the front. -/
def takeU32 (data : Bytes) : Except Error (Nat × Bytes) := do
  let (b, rest) ← take 4 data
  .ok (ObjectId.natOfBytes b, rest)

/-- Takes bytes behind their length off the front. -/
def takeString (data : Bytes) : Except Error (Bytes × Bytes) := do
  let (len, rest) ← takeU32 data
  take len rest

/-- The fields of a signature. -/
structure Sig where
  keyType : Str
  publicKey : Bytes
  space : Str
  hashAlgorithm : Str
  signature : Bytes

/-- Parses the binary signature. -/
def Sig.parse (blob : Bytes) : Except Error Sig := do
  let (start, rest) ← take 6 blob
  if start ≠ magic then .error (.protocol (str "ssh signature: bad magic"))
  else do
    let (version, rest) ← takeU32 rest
    if version ≠ 1 then
      .error (.protocol (str "ssh signature: unsupported version " ++ natStr version))
    else do
      let (publickey, rest) ← takeString rest
      let (space, rest) ← takeString rest
      let (_, rest) ← takeString rest
      let (hashAlgorithm, rest) ← takeString rest
      let (signature, _) ← takeString rest
      let (keyType, pk) ← takeString publickey
      let (publicKey, _) ← takeString pk
      let (_, sg) ← takeString signature
      let (signature, _) ← takeString sg
      .ok {
        keyType := fromUtf8Lossy keyType
        publicKey := publicKey
        space := fromUtf8Lossy space
        hashAlgorithm := fromUtf8Lossy hashAlgorithm
        signature := signature }

/-- The text between the markers. -/
def bodyOf : Bool → List Str → Str
  | _, [] => []
  | inside, line :: lines =>
    let line := trim line
    if line = beginLine then bodyOf true lines
    else if line = endLine then bodyOf false lines
    else if inside then line ++ bodyOf inside lines
    else bodyOf inside lines

/-- Takes the armor off a signature. -/
def dearmor (armor : Bytes) : Except Error Bytes :=
  match fromUtf8 armor with
  | none => .error (.protocol (str "ssh signature: not utf-8"))
  | some text =>
    let body := bodyOf false (lines text)
    if body = [] then .error (.protocol (str "ssh signature: no armor block found"))
    else Base64.decode (.protocol (str "ssh signature: bad base64")) body

end Ssh

/-- Who signed. -/
structure SshSigner where
  keyType : Str
  publicKey : Bytes
  deriving DecidableEq

open Ssh in
/-- Verifies an SSH signature of a message. -/
def verifySsh (x : Crypto) (signedMessage armor : Bytes) : Except Error SshSigner := do
  let blob ← dearmor armor
  let sig ← Sig.parse blob
  if sig.space ≠ gitNamespace then
    .error (.protocol (str "ssh signature: namespace is " ++ debugStr sig.space ++
      str ", expected \"git\""))
  else do
    let hash ←
      if sig.hashAlgorithm = str "sha256" then .ok (x.sha256 signedMessage)
      else if sig.hashAlgorithm = str "sha512" then .ok (x.sha512 signedMessage)
      else .error (.unsupported (str "ssh signature: unsupported hash " ++
        debugStr sig.hashAlgorithm))
    if sig.keyType ≠ ed25519 then
      .error (.unsupported (str "ssh signature: unsupported key type " ++ debugStr sig.keyType ++
        str " (only ssh-ed25519)"))
    else if sig.publicKey.length ≠ 32 then
      .error (.protocol (str "ssh signature: ed25519 key is not 32 bytes"))
    else if sig.signature.length ≠ 64 then
      .error (.protocol (str "ssh signature: ed25519 signature is not 64 bytes"))
    else if x.verify sig.publicKey (signedBlob sig.space sig.hashAlgorithm hash) sig.signature then
      .ok ⟨sig.keyType, sig.publicKey⟩
    else .error (.protocol (str "ssh signature: verification failed"))

open Ssh in
/-- The armored SSH signature of a message by the key of a seed. -/
def signSshEd25519 (x : Crypto) (message seed : Bytes) : Bytes :=
  let signature := x.sign seed (signedBlob gitNamespace (str "sha512") (x.sha512 message))
  armor (signatureBlob (x.publicKey seed) signature)

/-- Signs a commit with an SSH key. -/
def signCommitSsh (x : Crypto) (commit : Commit) (seed : Bytes) : Commit :=
  commit.sign (((signSshEd25519 x commit.serialize seed).splitOn 10).filter (· ≠ []))

/-! ## OpenPGP signatures -/

/-- The id of an OpenPGP key. -/
abbrev KeyId := { id : Bytes // id.length = 8 }

namespace Pgp

/-- The first line of an armored signature. -/
def beginLine : Str := str "-----BEGIN PGP SIGNATURE-----"

/-- The last line of an armored signature. -/
def endLine : Str := str "-----END PGP SIGNATURE-----"

/-- The fields of a signature that are hashed: its version, type and algorithms, and when it was
made. -/
def hashedFields (created : UInt32) : Bytes :=
  let sub : Bytes := 5 :: 2 :: Sha.bigEndian 4 created.toNat
  [4, 0, 22, 8] ++ (Sha.bigEndian 2 sub.length ++ sub)

/-- The fields of a signature that are not hashed: the id of the key. -/
def unhashedFields : Option KeyId → Bytes
  | some keyId => 9 :: 16 :: keyId.val
  | none => []

/-- What is hashed: a message, the hashed fields and a trailer. -/
def signedData (message hashed : Bytes) : Bytes :=
  message ++ hashed ++ [4, 255] ++ Sha.bigEndian 4 hashed.length

/-- How many bits a byte has that is not zero. -/
def bitLength (b : UInt8) : Nat := Nat.log2 b.toNat + 1

/-- A number behind its length in bits, without zeros in front. -/
def encodeMpi (bs : Bytes) : Bytes :=
  match bs.dropWhile (· = 0) with
  | [] => [0, 0]
  | b :: rest => Sha.bigEndian 2 (rest.length * 8 + bitLength b) ++ b :: rest

/-- The length of a packet. -/
def newLength (len : Nat) : Bytes :=
  if len < 192 then [UInt8.ofNat len]
  else if len < 8384 then [UInt8.ofNat ((len - 192) / 256 + 192), UInt8.ofNat ((len - 192) % 256)]
  else 255 :: Sha.bigEndian 4 len

/-- A bit of the checksum. -/
def crcBit (crc : Nat) : Nat :=
  let crc := crc <<< 1 % 2 ^ 32
  if crc &&& 0x01000000 ≠ 0 then crc ^^^ 0x01864cfb else crc

/-- The checksum of a packet. -/
def crc24 (data : Bytes) : Nat :=
  data.foldl (fun crc b => Nat.iterate crcBit 8 (crc ^^^ b.toNat <<< 16)) 0x00b704ce &&& 0x00ffffff

/-- A packet in lines of 64, and its checksum. -/
def armor (packet : Bytes) : Bytes :=
  toUtf8 (beginLine ++ ['\n', '\n'] ++ (Base64.chunks 64 (Base64.encode packet)).flatMap
    (· ++ ['\n']) ++
    '=' :: Base64.encode (Sha.bigEndian 3 (crc24 packet)) ++ ['\n'] ++ endLine ++ ['\n'])

/-- The error of a packet that ends too early. -/
def truncated : Error := .protocol (str "pgp signature: truncated packet")

/-- The byte at a position. -/
def byteAt (data : Bytes) (i : Nat) : Except Error UInt8 :=
  match data[i]? with
  | some b => .ok b
  | none => .error truncated

/-- The number of two bytes at a position. -/
def u16At (data : Bytes) (i : Nat) : Except Error Nat := do
  let a ← byteAt data i
  let b ← byteAt data (i + 1)
  .ok (a.toNat * 256 + b.toNat)

/-- The length of a packet of the new format, and of how many bytes it is. -/
def takeNewLength (data : Bytes) : Except Error (Nat × Nat) := do
  let first ← byteAt data 0
  let n := first.toNat
  if n ≤ 191 then .ok (n, 1)
  else if n ≤ 223 then do
    let second ← byteAt data 1
    .ok ((n - 192) * 256 + second.toNat + 192, 2)
  else if n = 255 then
    if 5 ≤ data.length then .ok (ObjectId.natOfBytes (slice data 1 4), 5) else .error truncated
  else .error (.unsupported (str "pgp signature: partial packet length"))

/-- The length of a packet of the old format, and of how many bytes it is. -/
def takeOldLength (data : Bytes) (lengthType : Nat) : Except Error (Nat × Nat) :=
  match lengthType with
  | 0 => do
    let first ← byteAt data 0
    .ok (first.toNat, 1)
  | 1 => do
    let n ← u16At data 0
    .ok (n, 2)
  | 2 => if 4 ≤ data.length then .ok (ObjectId.natOfBytes (slice data 0 4), 4) else .error truncated
  | _ => .error (.unsupported (str "pgp signature: indeterminate packet length"))

/-- The body of a signature packet. -/
def signatureBody (packet : Bytes) : Except Error Bytes := do
  let tagByte ← byteAt packet 0
  if tagByte.toNat < 128 then .error (.protocol (str "pgp signature: bad packet header"))
  else do
    let (tag, start, len) ←
      if 64 ≤ tagByte.toNat % 128 then do
        let (len, used) ← takeNewLength (packet.drop 1)
        .ok (tagByte.toNat % 64, 1 + used, len)
      else do
        let (len, used) ← takeOldLength (packet.drop 1) (tagByte.toNat % 4)
        .ok (tagByte.toNat / 4 % 16, 1 + used, len)
    if tag ≠ 2 then .error (.protocol (str "pgp signature: not a signature packet"))
    else if start + len ≤ packet.length then .ok (slice packet start len)
    else .error truncated

/-- Reads a number, and where it ends. -/
def readMpi (data : Bytes) (pos : Nat) : Except Error (Bytes × Nat) := do
  let bits ← u16At data pos
  let len := (bits + 7) / 8
  if pos + 2 + len ≤ data.length then .ok (slice data (pos + 2) len, pos + 2 + len)
  else .error truncated

/-- Reads a number as 32 bytes, and where it ends. -/
def readMpiPadded (data : Bytes) (pos : Nat) : Except Error (Bytes × Nat) := do
  let bits ← u16At data pos
  let len := (bits + 7) / 8
  if 32 < len ∨ data.length < pos + 2 + len then
    .error (.protocol (str "pgp signature: bad EdDSA MPI"))
  else .ok (List.replicate (32 - len) 0 ++ slice data (pos + 2) len, pos + 2 + len)

/-- The value of a signature, by the algorithm of the key. -/
inductive Value where
  | edDsa (r s : Bytes)
  | rsa (n : Bytes)
  | ecdsa (r s : Bytes)

/-- A signature packet. -/
structure Sig where
  hashAlgo : Nat
  hashed : Bytes
  value : Value

/-- Parses a signature packet. -/
def Sig.parse (packet : Bytes) : Except Error Sig := do
  let body ← signatureBody packet
  if body.head? ≠ some 4 then
    .error (.unsupported (str "pgp signature: only version 4 packets are supported"))
  else do
    let pubkeyAlgo ← byteAt body 2
    let hashAlgo ← byteAt body 3
    let hashedLen ← u16At body 4
    if body.length < 6 + hashedLen then .error truncated
    else do
      let unhashedLen ← u16At body (6 + hashedLen)
      let pos := 6 + hashedLen + 2 + unhashedLen + 2
      let value ←
        if pubkeyAlgo = 22 then do
          let (r, pos) ← readMpiPadded body pos
          let (s, _) ← readMpiPadded body pos
          .ok (Value.edDsa r s)
        else if pubkeyAlgo = 1 ∨ pubkeyAlgo = 3 then do
          let (n, _) ← readMpi body pos
          .ok (Value.rsa n)
        else if pubkeyAlgo = 19 then do
          let (r, pos) ← readMpi body pos
          let (s, _) ← readMpi body pos
          .ok (Value.ecdsa r s)
        else .error (.unsupported (str "pgp signature: pubkey algorithm " ++
          natStr pubkeyAlgo.toNat ++
          str " is not EdDSA, RSA, or ECDSA"))
      .ok ⟨hashAlgo.toNat, body.take (6 + hashedLen), value⟩

/-- The text between the markers, without the checksum. -/
def bodyOf : Bool → List Str → Str
  | _, [] => []
  | inside, line :: lines =>
    let line := trim line
    if line = beginLine then bodyOf true lines
    else if line = endLine then []
    else if inside ∧ line ≠ [] ∧ line.head? ≠ some '=' then line ++ bodyOf inside lines
    else bodyOf inside lines

/-- Takes the armor off a packet. -/
def dearmor (armor : Bytes) : Except Error Bytes :=
  match fromUtf8 armor with
  | none => .error (.protocol (str "pgp signature: not utf-8"))
  | some text =>
    let body := bodyOf false (lines text)
    if body = [] then .error (.protocol (str "pgp signature: no armor block"))
    else Base64.decode (.protocol (str "ssh signature: bad base64")) body

/-- A digest, by its number. -/
def hashOf (x : Crypto) (hashAlgo : Nat) : Except Error (Bytes → Bytes) :=
  if hashAlgo = 8 then .ok x.sha256
  else if hashAlgo = 10 then .ok x.sha512
  else .error (.unsupported (str "pgp signature: unsupported hash algorithm " ++ natStr hashAlgo))

end Pgp

/-- The public key of a signer. -/
inductive PgpKey where
  | ed25519 (key : Bytes)
  | rsa (n e : Bytes)
  | ecdsa (curve : PgpCurve) (point : Bytes)

open Pgp in
/-- Verifies an OpenPGP signature of a message by a key. -/
def verifyPgp (x : Crypto) (signedMessage armor : Bytes) (key : PgpKey) : Except Error Unit := do
  let packet ← dearmor armor
  let sig ← Sig.parse packet
  let data := signedData signedMessage sig.hashed
  let failed : Error := .protocol (str "pgp signature: verification failed")
  match sig.value, key with
  | .edDsa r s, .ed25519 key => do
    let hash ← hashOf x sig.hashAlgo
    if x.verify key (hash data) (r ++ s) then .ok () else .error failed
  | .rsa sigMpi, .rsa n e =>
    if n.length < sigMpi.length then
      .error (.protocol (str "pgp signature: RSA signature too long"))
    else do
      let hash ← hashOf x sig.hashAlgo
      if x.verifyRsa n e hash data (List.replicate (n.length - sigMpi.length) 0 ++ sigMpi) then
        .ok ()
      else .error failed
  | .ecdsa r s, .ecdsa curve point => do
    let hash ← hashOf x sig.hashAlgo
    if x.isPoint curve point then
      if x.verifyEcdsa curve point r s (hash data) then .ok () else .error failed
    else .error (.protocol (str "pgp signature: invalid ECDSA public point"))
  | _, _ => .error (.unsupported
    (str "pgp signature: key type does not match the signature algorithm"))

open Pgp in
/-- The armored OpenPGP signature of a message by the key of a seed, with the id of its issuer. -/
def signPgpEd25519 (x : Crypto) (message seed : Bytes) (created : UInt32)
    (issuer : Option KeyId) : Bytes :=
  let hashed := hashedFields created
  let digest := x.sha256 (signedData message hashed)
  let signature := x.sign seed digest
  let unhashed := unhashedFields issuer
  let body := hashed ++ (Sha.bigEndian 2 unhashed.length ++ (unhashed ++ (digest.take 2 ++
    (encodeMpi (signature.take 32) ++ encodeMpi (signature.drop 32)))))
  armor (0xc2 :: newLength body.length ++ body)

/-- Signs a commit with an OpenPGP key. -/
def signCommitPgpEd25519 (x : Crypto) (commit : Commit) (seed : Bytes) (created : UInt32)
    (issuer : Option KeyId) : Commit :=
  let lines := (signPgpEd25519 x commit.serialize seed created issuer).splitOn 10
  commit.sign (if lines.getLast? = some [] then lines.dropLast else lines)

end Puregit
