import Puregit.Signing

/-! # What a key signs it accepts, and nothing else

A verifier undoes layer after layer what the signer built: the lines of the armor, base 64, the
lengths in front of the fields.  So the scheme is asked about the signature that was made, over the
bytes rebuilt from the message at hand: `verifySsh_sign` and `verifyPgp_sign` say so for any two
messages.  With a scheme that accepts a signature for its own message alone, and a digest without
collisions there, the armor of a commit is accepted for the commit and rejected for any other
message.
-/
namespace Puregit

variable (x : Crypto)

namespace Base64

/-- A line of a spelled text is trimmed, not empty and neither a marker nor several lines. -/
theorem chunk_spec {width : Nat} {bs : Bytes} {part : Str} (h : part ∈ chunks width (encode bs)) :
    trim part = part ∧ part ≠ [] ∧ '-' ∉ part ∧ '\n' ∉ part ∧ Char.ofNat 13 ∉ part := by
  obtain ⟨hne, hmem⟩ := mem_of_mem_chunks h
  have hspec : ∀ c ∈ part, isWhitespace c = false ∧ c ≠ '-' := fun c hc => char_spec (hmem c hc)
  refine ⟨trim_of_not_whitespace fun c hc => (hspec c hc).1, hne, fun hc =>
    (hspec _ hc).2 rfl, fun hc => ?_,
    fun hc => ?_⟩
  · exact absurd (hspec _ hc).1 (by decide)
  · exact absurd (hspec _ hc).1 (by decide)

end Base64

/-- Lines are encoded one by one. -/
theorem toUtf8_lines (ls : List Str) :
    toUtf8 (ls.flatMap (· ++ ['\n'])) = (ls.map toUtf8).flatMap (· ++ [10]) := by
  induction ls with
  | nil => rfl
  | cons l ls ih =>
    rw [List.flatMap_cons, List.map_cons, List.flatMap_cons, toUtf8_append, toUtf8_append, ih]
    rfl

theorem newline_not_mem_toUtf8 {l : Str} (h : '\n' ∉ l) : (10 : UInt8) ∉ toUtf8 l :=
  (ascii_mem_toUtf8 (by decide)).not.mpr h

theorem toUtf8_ne_nil {l : Str} (h : l ≠ []) : toUtf8 l ≠ [] :=
  fun hnil => h (@toUtf8_injective l [] hnil)

/-- The encoding of lines is split into the encoded lines and the empty rest. -/
theorem splitOn_toUtf8 {ls : List Str} (h : ∀ l ∈ ls, '\n' ∉ l) :
    (toUtf8 (ls.flatMap (· ++ ['\n']))).splitOn 10 = ls.map toUtf8 ++ [[]] := by
  rw [toUtf8_lines]
  refine splitOn_flatMap ?_
  rw [List.forall_mem_map]
  exact fun l hl => newline_not_mem_toUtf8 (h l hl)

/-! ## SSH signatures -/

namespace Ssh

theorem take_append {n : Nat} {data : Bytes} (h : data.length = n) (rest : Bytes) :
    take n (data ++ rest) = .ok (data, rest) := by
  rw [take, if_pos (by rw [List.length_append]; omega), List.take_left' h, List.drop_left' h]

theorem takeU32_append {n : Nat} (h : n < 2 ^ 32) (rest : Bytes) :
    takeU32 (Sha.bigEndian 4 n ++ rest) = .ok (n, rest) := by
  rw [takeU32, take_append (Sha.length_bigEndian 4 n), except_ok_bind]
  show Except.ok (ObjectId.natOfBytes (Sha.bigEndian 4 n), rest) = _
  rw [ObjectId.natOfBytes_bigEndian, Nat.mod_eq_of_lt (by omega)]

/-- Bytes behind their length are read back. -/
theorem takeString_string {data : Bytes} (h : data.length < 2 ^ 32) (rest : Bytes) :
    takeString (string data ++ rest) = .ok (data, rest) := by
  rw [takeString, string, List.append_assoc, takeU32_append h]
  exact take_append rfl rest

theorem takeString_string_end {data : Bytes} (h : data.length < 2 ^ 32) :
    takeString (string data) = .ok (data, []) := by
  have htake := takeString_string h []
  rwa [List.append_nil] at htake

theorem length_string (data : Bytes) : (string data).length = 4 + data.length := by
  rw [string, List.length_append, Sha.length_bigEndian]

theorem signatureBlob_ne_nil (publicKey signature : Bytes) :
    signatureBlob publicKey signature ≠ [] :=
  List.append_ne_nil_of_left_ne_nil (by decide) _

/-- **The fields of a binary signature are read back.** -/
theorem parse_signatureBlob {publicKey signature : Bytes} (hkey : publicKey.length = 32)
    (hsignature : signature.length = 64) :
    Sig.parse (signatureBlob publicKey signature) =
      .ok ⟨ed25519, publicKey, gitNamespace, str "sha512", signature⟩ := by
  have htype : (toUtf8 ed25519).length = 11 := by decide
  have hsign : (string (toUtf8 ed25519) ++ string signature).length < 2 ^ 32 := by
    rw [List.length_append, length_string, length_string]
    omega
  have hpublic : (string (toUtf8 ed25519) ++ string publicKey).length < 2 ^ 32 := by
    rw [List.length_append, length_string, length_string]
    omega
  rw [Sig.parse, signatureBlob, take_append (by decide)]
  simp only [except_ok_bind]
  rw [if_neg (not_not.mpr rfl), takeU32_append (by decide)]
  simp only [except_ok_bind]
  rw [if_neg (not_not.mpr rfl), takeString_string hpublic]
  simp only [except_ok_bind]
  rw [takeString_string (by decide)]
  simp only [except_ok_bind]
  rw [takeString_string (by decide)]
  simp only [except_ok_bind]
  rw [takeString_string (by decide)]
  simp only [except_ok_bind]
  rw [takeString_string_end hsign]
  simp only [except_ok_bind]
  rw [takeString_string (by omega)]
  simp only [except_ok_bind]
  rw [takeString_string_end (by omega)]
  simp only [except_ok_bind]
  rw [takeString_string (by omega)]
  simp only [except_ok_bind]
  rw [takeString_string_end (by omega)]
  simp only [except_ok_bind, bytes, fromUtf8Lossy_toUtf8]
  rfl

/-- The lines of an armored signature. -/
def armorLines (blob : Bytes) : List Str :=
  beginLine :: (Base64.chunks 70 (Base64.encode blob) ++ [endLine])

theorem armor_eq (blob : Bytes) :
    armor blob = toUtf8 ((armorLines blob).flatMap (· ++ ['\n'])) := by
  rw [armor, armorLines, List.flatMap_cons, List.flatMap_append, List.flatMap_singleton]
  simp only [List.append_assoc]

/-- A line of the armor is not empty and one line. -/
theorem armorLines_spec {blob : Bytes} {l : Str} (h : l ∈ armorLines blob) :
    l ≠ [] ∧ '\n' ∉ l ∧ Char.ofNat 13 ∉ l := by
  rcases List.mem_cons.mp h with rfl | h
  · decide
  rcases List.mem_append.mp h with h | h
  · obtain ⟨-, hne, -, hnl, hcr⟩ := Base64.chunk_spec h
    exact ⟨hne, hnl, hcr⟩
  · rw [List.mem_singleton.mp h]
    decide

/-- Between the markers the lines are put together. -/
theorem bodyOf_append {parts : List Str} (h : ∀ part ∈ parts, trim part = part ∧ '-' ∉ part)
    (lines : List Str) :
    bodyOf true (parts ++ lines) = parts.flatten ++ bodyOf true lines := by
  induction parts with
  | nil => rfl
  | cons part parts ih =>
    obtain ⟨⟨htrim, hdash⟩, hparts⟩ := List.forall_mem_cons.mp h
    have hbegin : part ≠ beginLine := by
      rintro rfl
      exact hdash (by decide)
    have hend : part ≠ endLine := by
      rintro rfl
      exact hdash (by decide)
    rw [List.cons_append, bodyOf]
    simp only [htrim, if_neg hbegin, if_neg hend, if_true]
    rw [ih hparts, List.flatten_cons, List.append_assoc]

/-- **The armor comes off again.** -/
theorem dearmor_armor {blob : Bytes} (h : blob ≠ []) : dearmor (armor blob) = .ok blob := by
  have hlines : lines ((armorLines blob).flatMap (· ++ ['\n'])) = armorLines blob :=
    lines_flatMap (fun l hl => (armorLines_spec hl).2.1)
      fun l hl hlast => (armorLines_spec hl).2.2 (List.mem_of_getLast? hlast)
  have hbegin : trim beginLine = beginLine := by decide
  have hend : bodyOf true [endLine] = [] := by decide
  have hbody : bodyOf false (armorLines blob) = Base64.encode blob := by
    rw [armorLines, bodyOf]
    simp only [hbegin, if_true]
    rw [bodyOf_append fun part hpart =>
      ⟨(Base64.chunk_spec hpart).1, (Base64.chunk_spec hpart).2.2.1⟩, hend,
      List.append_nil, Base64.flatten_chunks]
  rw [dearmor, armor_eq, fromUtf8_toUtf8]
  simp only
  rw [hlines, hbody, if_neg (Base64.encode_ne_nil h), Base64.decode_encode]

theorem splitOn_armor (blob : Bytes) :
    (armor blob).splitOn 10 = (armorLines blob).map toUtf8 ++ [[]] := by
  rw [armor_eq, splitOn_toUtf8 fun l hl => (armorLines_spec hl).2.1]

end Ssh

open Ssh in
/-- **The verifier asks the scheme about the signature that was made**, over the bytes rebuilt from
the message it is given. -/
theorem verifySsh_sign (m message seed : Bytes) :
    verifySsh x m (signSshEd25519 x message seed) =
      if x.verify (x.publicKey seed) (signedBlob gitNamespace (str "sha512") (x.sha512 m))
          (x.sign seed (signedBlob gitNamespace (str "sha512") (x.sha512 message)))
      then .ok ⟨ed25519, x.publicKey seed⟩
      else .error (.protocol (str "ssh signature: verification failed")) := by
  have hkey := x.publicKey_length seed
  have hsignature := x.sign_length seed (signedBlob gitNamespace (str "sha512") (x.sha512 message))
  rw [verifySsh, signSshEd25519, dearmor_armor (signatureBlob_ne_nil _ _)]
  simp only [except_ok_bind]
  rw [parse_signatureBlob hkey hsignature]
  simp only [except_ok_bind]
  rw [if_neg (not_not.mpr rfl), if_neg (by decide), if_pos trivial]
  rw [if_neg (not_not.mpr rfl), if_neg (not_not.mpr hkey), if_neg (not_not.mpr hsignature)]

open Ssh in
/-- The lines of the signature become the header. -/
theorem signCommitSsh_eq (commit : Commit) (seed : Bytes) :
    ∃ blob, signSshEd25519 x commit.serialize seed = armor blob ∧
      signCommitSsh x commit seed = commit.sign ((armorLines blob).map toUtf8) := by
  refine ⟨_, rfl, ?_⟩
  rw [signCommitSsh, signSshEd25519, splitOn_armor, List.filter_append]
  refine congrArg _ ?_
  rw [List.filter_eq_self.mpr, List.filter_cons_of_neg (by simp), List.filter_nil, List.append_nil]
  rw [List.forall_mem_map]
  exact fun l hl => by simpa using toUtf8_ne_nil (armorLines_spec hl).1

/-! ## OpenPGP signatures -/

namespace Pgp

theorem byteAt_append {front : Bytes} {i : Nat} (h : front.length = i) (b : UInt8) (rest : Bytes) :
    byteAt (front ++ b :: rest) i = .ok b := by
  rw [byteAt, ← h, List.getElem?_append_right le_rfl, Nat.sub_self, List.getElem?_cons_zero]

theorem u16At_append {front : Bytes} {i : Nat} (h : front.length = i) {n : Nat} (hn : n < 256 ^ 2)
    (rest : Bytes) :
    u16At (front ++ (Sha.bigEndian 2 n ++ rest)) i = .ok n := by
  have htwo : Sha.bigEndian 2 n = [UInt8.ofNat (n / 256), UInt8.ofNat n] := by simp [Sha.bigEndian]
  have hsecond : byteAt (front ++ UInt8.ofNat (n / 256) :: UInt8.ofNat n :: rest) (i + 1) =
      .ok (UInt8.ofNat n) := by
    rw [List.append_cons]
    exact byteAt_append (by rw [List.length_append, h, List.length_singleton]) _ _
  rw [u16At, htwo, List.cons_append, List.singleton_append, byteAt_append h, except_ok_bind,
    hsecond, except_ok_bind,
    UInt8.toNat_ofNat', UInt8.toNat_ofNat']
  congr 1
  omega

theorem bitLength_spec {b : UInt8} (h : b ≠ 0) : 1 ≤ bitLength b ∧ bitLength b ≤ 8 := by
  have hne : b.toNat ≠ 0 := fun hzero => h (UInt8.toNat_inj.mp hzero)
  have hlog := (Nat.log2_lt hne).mpr (show b.toNat < 2 ^ 8 from b.toNat_lt)
  rw [bitLength]
  omega

/-- What is left without the zeros in front has them in front again. -/
theorem replicate_dropWhile (bs : Bytes) :
    List.replicate (bs.length - (bs.dropWhile (· = 0)).length) 0 ++ bs.dropWhile (· = 0) = bs := by
  have hzeros : bs.takeWhile (· = 0) = List.replicate (bs.takeWhile (· = 0)).length 0 :=
    List.eq_replicate_of_mem fun b hb => by simpa using List.mem_takeWhile_imp hb
  have hlen := congrArg List.length (List.takeWhile_append_dropWhile (p := (· = 0)) (l := bs))
  rw [List.length_append] at hlen
  have hsub : bs.length - (bs.dropWhile (· = 0)).length = (bs.takeWhile (· = 0)).length := by omega
  rw [hsub, ← hzeros, List.takeWhile_append_dropWhile]

/-- **A number of 32 bytes is read back, with the zeros it starts with.** -/
theorem readMpiPadded_encodeMpi {front bs : Bytes} {pos : Nat} (hpos : front.length = pos)
    (hbs : bs.length = 32) (rest : Bytes) :
    readMpiPadded (front ++ (encodeMpi bs ++ rest)) pos =
      .ok (bs, pos + (encodeMpi bs).length) := by
  have hzeros := replicate_dropWhile bs
  have hle : (bs.dropWhile (· = 0)).length ≤ 32 := hbs ▸ (List.dropWhile_sublist _).length_le
  have hfirst := List.head?_dropWhile_not (· = (0 : UInt8)) bs
  cases hvalue : bs.dropWhile (· = 0) with
  | nil =>
    have hmpi : encodeMpi bs = Sha.bigEndian 2 0 := by
      rw [encodeMpi, hvalue]
      rfl
    rw [hvalue, hbs, List.append_nil] at hzeros
    rw [readMpiPadded, hmpi, u16At_append hpos (by decide)]
    simp only [except_ok_bind]
    rw [if_neg (by simp [Sha.length_bigEndian]; omega), Sha.length_bigEndian]
    simpa [slice] using hzeros
  | cons b value =>
    rw [hvalue] at hzeros hle hfirst
    rw [List.length_cons] at hle
    have hbits := bitLength_spec (b := b) (by simpa using hfirst)
    have hmpi : encodeMpi bs = Sha.bigEndian 2 (value.length * 8 + bitLength b) ++ b :: value := by
      rw [encodeMpi, hvalue]
    have hlen : (value.length * 8 + bitLength b + 7) / 8 = (b :: value).length := by
      rw [List.length_cons]
      omega
    have hslice : slice (front ++ (Sha.bigEndian 2 (value.length * 8 + bitLength b) ++
      (b :: value ++ rest)))
        (pos + 2) (b :: value).length = b :: value := by
      rw [← List.append_assoc front]
      exact slice_at (by rw [List.length_append, Sha.length_bigEndian, hpos]) rfl rest
    rw [readMpiPadded, hmpi, List.append_assoc, u16At_append hpos (by omega)]
    simp only [except_ok_bind]
    rw [hlen, if_neg, hslice, ← hbs, hzeros, List.length_append, Sha.length_bigEndian,
      Nat.add_assoc]
    simp only [List.length_append, Sha.length_bigEndian, List.length_cons]
    omega

/-- **The length of a packet is read back.** -/
theorem takeNewLength_newLength {len : Nat} (h : len < 2 ^ 32) (rest : Bytes) :
    takeNewLength (newLength len ++ rest) = .ok (len, (newLength len).length) := by
  rw [newLength]
  split
  · next hsmall =>
    have hbyte : (UInt8.ofNat len).toNat = len :=
      UInt8.toNat_ofNat_of_lt' (by simp [UInt8.size]; omega)
    have hfirst : byteAt ([UInt8.ofNat len] ++ rest) 0 = .ok (UInt8.ofNat len) := rfl
    rw [takeNewLength, hfirst]
    simp only [except_ok_bind]
    rw [hbyte, if_pos (by omega)]
    rfl
  split
  · next hmiddle =>
    have hbyte : (UInt8.ofNat ((len - 192) / 256 + 192)).toNat = (len - 192) / 256 + 192 :=
      UInt8.toNat_ofNat_of_lt' (by simp [UInt8.size]; omega)
    have hlow : (UInt8.ofNat ((len - 192) % 256)).toNat = (len - 192) % 256 :=
      UInt8.toNat_ofNat_of_lt' (by simp [UInt8.size]; omega)
    have hfirst : byteAt ([UInt8.ofNat ((len - 192) / 256 + 192),
      UInt8.ofNat ((len - 192) % 256)] ++ rest) 0 =
      .ok (UInt8.ofNat ((len - 192) / 256 + 192)) := rfl
    have hsecond : byteAt ([UInt8.ofNat ((len - 192) / 256 + 192),
      UInt8.ofNat ((len - 192) % 256)] ++ rest) 1 =
      .ok (UInt8.ofNat ((len - 192) % 256)) := rfl
    have hlen : ((len - 192) / 256 + 192 - 192) * 256 + (len - 192) % 256 + 192 = len := by omega
    rw [takeNewLength, hfirst]
    simp only [except_ok_bind]
    rw [hbyte, if_neg (by omega), if_pos (by omega), hsecond, except_ok_bind, hlow, hlen]
    rfl
  · have hfirst : byteAt (255 :: Sha.bigEndian 4 len ++ rest) 0 = .ok 255 := rfl
    have hslice : slice (255 :: Sha.bigEndian 4 len ++ rest) 1 4 = Sha.bigEndian 4 len :=
      @slice_at [255] _ 1 4 rfl (Sha.length_bigEndian 4 len) rest
    have hbyte : (255 : UInt8).toNat = 255 := rfl
    rw [takeNewLength, hfirst]
    simp only [except_ok_bind]
    rw [hbyte, if_neg (by decide), if_neg (by decide), if_pos rfl,
      if_pos (by simp [Sha.length_bigEndian]), hslice, ObjectId.natOfBytes_bigEndian,
        Nat.mod_eq_of_lt (by omega),
      List.length_cons, Sha.length_bigEndian]

/-- A framed packet is taken out of its frame. -/
theorem signatureBody_packet {body : Bytes} (h : body.length < 2 ^ 32) :
    signatureBody (0xc2 :: newLength body.length ++ body) = .ok body := by
  have hfirst : byteAt (0xc2 :: newLength body.length ++ body) 0 = .ok 0xc2 := rfl
  have htag : (0xc2 : UInt8).toNat = 194 := rfl
  have hslice : slice (0xc2 :: newLength body.length ++ body) (1 + (newLength body.length).length)
      body.length = body := by
    have hat := @slice_at (0xc2 :: newLength body.length) body _ _
      (by rw [List.length_cons, Nat.add_comm]) rfl []
    rwa [List.append_nil] at hat
  rw [signatureBody, hfirst]
  simp only [except_ok_bind]
  rw [htag, if_neg (by decide), if_pos (by decide), List.cons_append, List.drop_one, List.tail_cons,
    takeNewLength_newLength h]
  simp only [except_ok_bind]
  rw [if_neg (by decide), if_pos, ← List.cons_append, hslice]
  rw [List.length_cons, List.length_append]
  omega

theorem length_encodeMpi_le (bs : Bytes) : (encodeMpi bs).length ≤ 2 + bs.length := by
  have hle := (List.dropWhile_sublist (· = (0 : UInt8)) (l := bs)).length_le
  rw [encodeMpi]
  split
  · simp
  · next b rest hvalue =>
    rw [hvalue] at hle
    rw [List.length_append, Sha.length_bigEndian]
    omega

/-- The bytes of a signature packet, of its parts. -/
theorem parse_packet (created : UInt32) {unhashed preview r s : Bytes}
    (hunhashed : unhashed.length < 256 ^ 2) (hpreview : preview.length = 2) (hr : r.length = 32)
    (hs : s.length = 32) {body : Bytes} (hbody : body =
      hashedFields created ++ (Sha.bigEndian 2 unhashed.length ++ (unhashed ++ (preview ++
      (encodeMpi r ++ encodeMpi s))))) :
    Sig.parse (0xc2 :: newLength body.length ++ body) =
      .ok ⟨8, hashedFields created, .edDsa r s⟩ := by
  have hhashed : (hashedFields created).length = 12 := rfl
  have hfront : (hashedFields created ++ Sha.bigEndian 2 unhashed.length ++ unhashed ++
    preview).length =
      6 + 6 + 2 + unhashed.length + 2 := by
    simp only [List.length_append, Sha.length_bigEndian, hhashed, hpreview]
  have hfrontS : (hashedFields created ++ Sha.bigEndian 2 unhashed.length ++ unhashed ++ preview ++
      encodeMpi r).length = 6 + 6 + 2 + unhashed.length + 2 + (encodeMpi r).length := by
    rw [List.length_append, hfront]
  have hmpis : body = hashedFields created ++ Sha.bigEndian 2 unhashed.length ++
    unhashed ++ preview ++
      (encodeMpi r ++ encodeMpi s) := by
    rw [hbody]
    simp only [List.append_assoc]
  have hlen : body.length = 6 + 6 + 2 + unhashed.length + 2 + (encodeMpi r).length +
      (encodeMpi s).length := by
    rw [hmpis, List.length_append, hfront, List.length_append]
    omega
  have hsmall : body.length < 2 ^ 32 := by
    have hrle := length_encodeMpi_le r
    have hsle := length_encodeMpi_le s
    omega
  have hversion : body.head? = some 4 := by
    rw [hbody]
    rfl
  have halgo : byteAt body 2 = .ok 22 := by
    rw [hbody]
    rfl
  have hhash : byteAt body 3 = .ok 8 := by
    rw [hbody]
    rfl
  have hhashedLen : u16At body 4 = .ok 6 := by
    rw [hbody]
    exact @u16At_append [4, 0, 22, 8] 4 rfl 6 (by decide) _
  have hunhashedLen : u16At body (6 + 6) = .ok unhashed.length := by
    rw [hbody]
    exact u16At_append hhashed hunhashed _
  have hreadR : readMpiPadded body (6 + 6 + 2 + unhashed.length + 2) =
      .ok (r, 6 + 6 + 2 + unhashed.length + 2 + (encodeMpi r).length) := by
    rw [hmpis]
    exact readMpiPadded_encodeMpi hfront hr _
  have hreadS : readMpiPadded body (6 + 6 + 2 + unhashed.length + 2 + (encodeMpi r).length) =
      .ok (s, body.length) := by
    have hread := readMpiPadded_encodeMpi hfrontS hs []
    rwa [List.append_nil, List.append_assoc _ (encodeMpi r), ← hmpis, ← hlen] at hread
  have htake : body.take (6 + 6) = hashedFields created := by
    rw [hbody]
    exact List.take_left' hhashed
  rw [Sig.parse, signatureBody_packet hsmall]
  simp only [except_ok_bind]
  rw [if_neg (not_not.mpr hversion), halgo]
  simp only [except_ok_bind]
  rw [hhash]
  simp only [except_ok_bind]
  rw [hhashedLen]
  simp only [except_ok_bind]
  rw [if_neg (by omega), hunhashedLen]
  simp only [except_ok_bind]
  rw [if_pos trivial, hreadR]
  simp only [except_ok_bind]
  rw [hreadS]
  simp only [except_ok_bind]
  rw [htake]
  rfl

/-- The lines of an armored packet. -/
def armorLines (packet : Bytes) : List Str :=
  beginLine :: [] :: (Base64.chunks 64 (Base64.encode packet) ++
    ['=' :: Base64.encode (Sha.bigEndian 3 (crc24 packet)), endLine])

theorem armor_eq (packet : Bytes) :
    armor packet = toUtf8 ((armorLines packet).flatMap (· ++ ['\n'])) := by
  rw [armor, armorLines, List.flatMap_cons, List.flatMap_cons, List.flatMap_append,
    List.flatMap_cons,
    List.flatMap_singleton]
  simp only [List.append_assoc, List.cons_append, List.nil_append]

/-- The line of the checksum has no white space and starts with `=`. -/
theorem checksum_not_whitespace (bs : Bytes) :
    ∀ c ∈ '=' :: Base64.encode bs, isWhitespace c = false :=
  List.forall_mem_cons.mpr ⟨by decide, fun _ hc => (Base64.char_spec hc).1⟩

/-- A line of the armor is one line. -/
theorem armorLines_spec {packet : Bytes} {l : Str} (h : l ∈ armorLines packet) :
    '\n' ∉ l ∧ Char.ofNat 13 ∉ l := by
  rcases List.mem_cons.mp h with rfl | h
  · decide
  rcases List.mem_cons.mp h with rfl | h
  · decide
  rcases List.mem_append.mp h with h | h
  · obtain ⟨-, -, -, hnl, hcr⟩ := Base64.chunk_spec h
    exact ⟨hnl, hcr⟩
  rcases List.mem_cons.mp h with rfl | h
  · have hfree := checksum_not_whitespace (Sha.bigEndian 3 (crc24 packet))
    exact ⟨fun hc => absurd (hfree _ hc) (by decide), fun hc => absurd (hfree _ hc) (by decide)⟩
  · rw [List.mem_singleton.mp h]
    decide

/-- Between the markers the lines are put together, up to the checksum. -/
theorem bodyOf_append {parts : List Str}
    (h : ∀ part ∈ parts, trim part = part ∧ part ≠ [] ∧ '-' ∉ part ∧ part.head? ≠ some '=')
    (lines : List Str) :
    bodyOf true (parts ++ lines) = parts.flatten ++ bodyOf true lines := by
  induction parts with
  | nil => rfl
  | cons part parts ih =>
    obtain ⟨⟨htrim, hne, hdash, hhead⟩, hparts⟩ := List.forall_mem_cons.mp h
    have hbegin : part ≠ beginLine := by
      rintro rfl
      exact hdash (by decide)
    have hend : part ≠ endLine := by
      rintro rfl
      exact hdash (by decide)
    rw [List.cons_append, bodyOf]
    simp only [htrim, if_neg hbegin, if_neg hend, true_and]
    rw [if_pos ⟨hne, hhead⟩, ih hparts, List.flatten_cons, List.append_assoc]

/-- **The armor comes off again, and the checksum with it.** -/
theorem dearmor_armor {packet : Bytes} (h : packet ≠ []) : dearmor (armor packet) = .ok packet := by
  have hlines : lines ((armorLines packet).flatMap (· ++ ['\n'])) = armorLines packet :=
    lines_flatMap (fun l hl => (armorLines_spec hl).1)
      fun l hl hlast => (armorLines_spec hl).2 (List.mem_of_getLast? hlast)
  have hbegin : trim beginLine = beginLine := by decide
  have hblank : trim [] = [] := rfl
  have hend : bodyOf true [endLine] = [] := by decide
  have hchecksum : bodyOf true ['=' :: Base64.encode (Sha.bigEndian 3 (crc24 packet)),
      endLine] = [] := by
    rw [bodyOf, trim_of_not_whitespace (checksum_not_whitespace _)]
    simp only
    rw [if_neg (by simp [beginLine, str]), if_neg (by simp [endLine, str]), if_neg (by simp), hend]
  have hbody : bodyOf false (armorLines packet) = Base64.encode packet := by
    rw [armorLines, bodyOf]
    simp only [hbegin, if_true]
    rw [bodyOf, hblank]
    simp only
    rw [if_neg (by decide), if_neg (by decide), if_neg (by simp), bodyOf_append, hchecksum,
      List.append_nil,
      Base64.flatten_chunks]
    intro part hpart
    obtain ⟨htrim, hne, hdash, -⟩ := Base64.chunk_spec hpart
    exact ⟨htrim, hne, hdash, Base64.chunks_encode (show 0 < 16 by decide) hpart⟩
  rw [dearmor, armor_eq, fromUtf8_toUtf8]
  simp only
  rw [hlines, hbody, if_neg (Base64.encode_ne_nil h), Base64.decode_encode]

theorem splitOn_armor (packet : Bytes) :
    (armor packet).splitOn 10 = (armorLines packet).map toUtf8 ++ [[]] := by
  rw [armor_eq, splitOn_toUtf8 fun l hl => (armorLines_spec hl).1]

end Pgp

open Pgp in
/-- **The verifier asks the scheme about the signature that was made**, over the digest of the
message it is given. -/
theorem verifyPgp_sign (m message seed : Bytes) (created : UInt32) (issuer : Option KeyId) :
    verifyPgp x m (signPgpEd25519 x message seed created issuer) (.ed25519 (x.publicKey seed)) =
      if x.verify (x.publicKey seed) (x.sha256 (signedData m (hashedFields created)))
          (x.sign seed (x.sha256 (signedData message (hashedFields created))))
      then .ok ()
      else .error (.protocol (str "pgp signature: verification failed")) := by
  have hsignature := x.sign_length seed (x.sha256 (signedData message (hashedFields created)))
  have hdigest := x.sha256_length (signedData message (hashedFields created))
  have hissuer : (unhashedFields issuer).length < 256 ^ 2 := by
    cases issuer with
    | none => decide
    | some keyId => simp [unhashedFields, keyId.property]
  rw [verifyPgp, signPgpEd25519,
    dearmor_armor (List.append_ne_nil_of_left_ne_nil (List.cons_ne_nil _ _) _)]
  simp only [except_ok_bind]
  rw [parse_packet created hissuer (by rw [List.length_take]; omega)
    (by rw [List.length_take]; omega) (by rw [List.length_drop]; omega) rfl]
  simp only [except_ok_bind, hashOf, if_true, List.take_append_drop]

open Pgp in
/-- The lines of the signature become the header, the blank one too. -/
theorem signCommitPgp_eq (commit : Commit) (seed : Bytes) (created : UInt32)
    (issuer : Option KeyId) :
    ∃ packet, signPgpEd25519 x commit.serialize seed created issuer = armor packet ∧
      signCommitPgpEd25519 x commit seed created issuer =
        commit.sign ((armorLines packet).map toUtf8) := by
  refine ⟨_, rfl, ?_⟩
  rw [signCommitPgpEd25519, signPgpEd25519, splitOn_armor, List.getLast?_concat, if_pos rfl,
    List.dropLast_concat]

/-! ## Signed commits -/

/-- No other message has the digest of this one. -/
def DigestOnly (hash : Bytes → Bytes) (message : Bytes) : Prop :=
  ∀ m, hash m = hash message → m = message

/-- The signature of a message is accepted for no other message. -/
def Crypto.SignsOnly (seed message : Bytes) : Prop :=
  ∀ m, x.verify (x.publicKey seed) m (x.sign seed message) = true → m = message

/-- What is signed determines its digest. -/
theorem Ssh.signedBlob_injective {space hashAlgorithm : Str} {hash hash' : Bytes}
    (hlen : hash.length = hash'.length)
    (h : signedBlob space hashAlgorithm hash = signedBlob space hashAlgorithm hash') :
    hash = hash' := by
  simp only [signedBlob, string, hlen, List.append_cancel_left_eq] at h
  exact h

/-- What is hashed determines the message. -/
theorem Pgp.signedData_injective {m message hashed : Bytes}
    (h : signedData m hashed = signedData message hashed) :
    m = message := by
  simp only [signedData, List.append_assoc] at h
  exact List.append_cancel_right h

/-- **A signed commit is accepted, and its signature for nothing else.**  For either kind of key the
armor is the signature of the signed commit, the commit before signing is the payload, the signed
commit is read back, and the verifier accepts payload and armor.  Any other message is rejected with
that armor, if the digest has no collision with that of the commit and the scheme accepts the
signature for what was signed alone. -/
theorem signed_commit_verifies {algo : HashAlgo} {c : Commit} (h : c.WellFormed algo)
    (hunsigned : c.signature = none) (seed : Bytes) (created : UInt32) (issuer : Option KeyId) :
    ((signCommitSsh x c seed).signature = some (signSshEd25519 x c.serialize seed) ∧
      (signCommitSsh x c seed).signedPayload = c.serialize ∧
      Commit.parse algo (signCommitSsh x c seed).serialize = .ok (signCommitSsh x c seed) ∧
      verifySsh x (signCommitSsh x c seed).signedPayload (signSshEd25519 x c.serialize seed) =
        .ok ⟨Ssh.ed25519, x.publicKey seed⟩ ∧
      (DigestOnly x.sha512 c.serialize →
        x.SignsOnly seed (Ssh.signedBlob Ssh.gitNamespace (str "sha512") (x.sha512 c.serialize)) →
        ∀ m, m ≠ c.serialize → ∃ e, verifySsh x m (signSshEd25519 x c.serialize seed) = .error e)) ∧
    ((signCommitPgpEd25519 x c seed created issuer).signature =
        some (signPgpEd25519 x c.serialize seed created issuer) ∧
      (signCommitPgpEd25519 x c seed created issuer).signedPayload = c.serialize ∧
      Commit.parse algo (signCommitPgpEd25519 x c seed created issuer).serialize =
        .ok (signCommitPgpEd25519 x c seed created issuer) ∧
      verifyPgp x (signCommitPgpEd25519 x c seed created issuer).signedPayload
        (signPgpEd25519 x c.serialize seed created issuer) (.ed25519 (x.publicKey seed)) = .ok () ∧
      (DigestOnly x.sha256 (Pgp.signedData c.serialize (Pgp.hashedFields created)) →
        x.SignsOnly seed (x.sha256 (Pgp.signedData c.serialize (Pgp.hashedFields created))) →
        ∀ m, m ≠ c.serialize → ∃ e,
          verifyPgp x m (signPgpEd25519 x c.serialize seed created issuer)
            (.ed25519 (x.publicKey seed)) = .error e)) := by
  constructor
  · obtain ⟨blob, harmor, hsigned⟩ := signCommitSsh_eq x c seed
    have hlines : ∀ l ∈ (Ssh.armorLines blob).map toUtf8, 10 ∉ l :=
      List.forall_mem_map.mpr fun l hl => newline_not_mem_toUtf8 (Ssh.armorLines_spec hl).2.1
    obtain ⟨hsignature, hpayload, hparse⟩ :=
      Commit.sign_spec h hunsigned hlines (List.cons_ne_nil _ _)
    rw [← hsigned] at hsignature hpayload hparse
    rw [← toUtf8_lines, ← Ssh.armor_eq, ← harmor] at hsignature
    refine ⟨hsignature, hpayload, hparse, ?_, fun hdigest honly m hm => ?_⟩
    · rw [hpayload, verifySsh_sign, if_pos (x.verify_sign _ _)]
    · refine ⟨_, (verifySsh_sign x m c.serialize seed).trans (if_neg fun haccept =>
        hm (hdigest m ?_))⟩
      exact Ssh.signedBlob_injective (by rw [x.sha512_length, x.sha512_length]) (honly _ haccept)
  · obtain ⟨packet, harmor, hsigned⟩ := signCommitPgp_eq x c seed created issuer
    have hlines : ∀ l ∈ (Pgp.armorLines packet).map toUtf8, 10 ∉ l :=
      List.forall_mem_map.mpr fun l hl => newline_not_mem_toUtf8 (Pgp.armorLines_spec hl).1
    obtain ⟨hsignature, hpayload, hparse⟩ :=
      Commit.sign_spec h hunsigned hlines (List.cons_ne_nil _ _)
    rw [← hsigned] at hsignature hpayload hparse
    rw [← toUtf8_lines, ← Pgp.armor_eq, ← harmor] at hsignature
    refine ⟨hsignature, hpayload, hparse, ?_, fun hdigest honly m hm => ?_⟩
    · rw [hpayload, verifyPgp_sign, if_pos (x.verify_sign _ _)]
    · refine ⟨_, (verifyPgp_sign x m c.serialize seed created issuer).trans
        (if_neg fun haccept => hm ?_)⟩
      exact Pgp.signedData_injective (hdigest _ (honly _ haccept))

/-! ### A signed commit -/

namespace SignedSample

def seed : Bytes :=
  Sha.bigEndian 32 0x136d658c45677821f9de4520fe01de4f36d111f949608f730f2ff1f7bd73e57d

def publicKey : Bytes :=
  Sha.bigEndian 32 0xa8ab936072899271104ac18612341183f7e6e4cc2ec1a895a904bae833d8cbdb

def keyId : KeyId := ⟨Sha.bigEndian 8 0xc28d29664944fd96, Sha.length_bigEndian 8 _⟩

/-- When the OpenPGP signature is made; its first number then starts with a zero byte. -/
def created : UInt32 := 1783400456

def stamp : Signature := ⟨bytes "T", bytes "t@e", 1700000000, bytes "+0000"⟩

def commit : Commit where
  tree := .filled 0xbb
  parents := []
  author := stamp
  committer := stamp
  extraHeaders := []
  message := bytes "a pgp-signed commit\n"

def sshDigest : Bytes :=
  Sha.bigEndian 64
    0xdd9ef9316b5499a187d453a8f8a6a0a630abfb4af455293e66288d85afc3bfb8b5aa75cfa18c09032f7ff9b1ca09138041ab268c788e05a44066c671a59da4c1

def sshMessage : Bytes := Ssh.signedBlob Ssh.gitNamespace (str "sha512") sshDigest

def sshSignature : Bytes :=
  Sha.bigEndian 64
    0x9ff11b25164922ff75f5458953ec5ccac96ec6013005f6871d8cbce4dfbc077cd5e3a9eee0245f8784e939aff0b27929c0aae9fb1c3317ac20db8f54ffcd270d

def pgpMessage : Bytes := Pgp.signedData commit.serialize (Pgp.hashedFields created)

def pgpDigest : Bytes :=
  Sha.bigEndian 32 0x8f3aa3932e3e00bd0816c02dfa3c03ffc69709d9ee4fae257570f1e4804afa9a

def pgpSignature : Bytes :=
  Sha.bigEndian 64
    0x0062dd360d8afa1dc3aec639ce25f35469a0939a23200f6a8b29f9705dfbd26b6a7216a2cb56b230670d4accea6e3c88b61856db8b655577e60176de8b2fd70c

/-- The signature that is accepted of a key and a message, for the two that are signed. -/
def signatureOf (key message : Bytes) : Bytes :=
  if key = publicKey ∧ message = sshMessage then sshSignature
  else if key = publicKey ∧ message = pgpDigest then pgpSignature
  else List.replicate 64 0

theorem length_signatureOf (key message : Bytes) : (signatureOf key message).length = 64 := by
  unfold signatureOf
  split
  · exact Sha.length_bigEndian 64 _
  split
  · exact Sha.length_bigEndian 64 _
  · exact List.length_replicate

/-- The digests and signatures of the commit. -/
def crypto : Crypto where
  sha256 data := if data = pgpMessage then pgpDigest else List.replicate 32 0
  sha512 data := if data = commit.serialize then sshDigest else List.replicate 64 0
  publicKey s := if s = seed then publicKey else List.replicate 32 0
  sign s message := signatureOf (if s = seed then publicKey else List.replicate 32 0) message
  verify key message signature := decide (signature = signatureOf key message)
  verifyRsa _ _ _ _ _ := false
  isPoint _ _ := false
  verifyEcdsa _ _ _ _ _ := false
  sha256_length data := by
    split
    · exact Sha.length_bigEndian 32 _
    · exact List.length_replicate
  sha512_length data := by
    split
    · exact Sha.length_bigEndian 64 _
    · exact List.length_replicate
  publicKey_length s := by
    split
    · exact Sha.length_bigEndian 32 _
    · exact List.length_replicate
  sign_length _ _ := length_signatureOf _ _
  verify_sign _ _ := decide_eq_true rfl

theorem wellFormed : commit.WellFormed .sha1 where
  tree_algo := rfl
  parents_algo := nofun
  author := ⟨by decide, by decide, by decide, by decide, by decide⟩
  committer := ⟨by decide, by decide, by decide, by decide, by decide⟩
  extra := ⟨[], rfl, nofun, nofun, nofun⟩

theorem unsigned : commit.signature = none := by
  simp [Commit.signature, Commit.splitSignature, commit, Commit.physicalLines, Commit.splitLines]

theorem sha512_commit : crypto.sha512 commit.serialize = sshDigest := by simp [crypto]

theorem sha256_commit : crypto.sha256 pgpMessage = pgpDigest := by simp [crypto]

theorem digestOnly_sha512 : DigestOnly crypto.sha512 commit.serialize := by
  intro m hm
  rw [sha512_commit] at hm
  by_contra hne
  have hother : crypto.sha512 m = List.replicate 64 0 := if_neg hne
  rw [hother] at hm
  exact absurd hm (by decide)

theorem digestOnly_sha256 : DigestOnly crypto.sha256 pgpMessage := by
  intro m hm
  rw [sha256_commit] at hm
  by_contra hne
  have hother : crypto.sha256 m = List.replicate 32 0 := if_neg hne
  rw [hother] at hm
  exact absurd hm (by decide)

theorem publicKey_seed : crypto.publicKey seed = publicKey := by simp [crypto]

/-- Which messages a signature of the key is accepted for. -/
theorem verify_iff (message signature : Bytes) :
    crypto.verify publicKey message signature = true ↔ signature = signatureOf publicKey message :=
  decide_eq_true_iff

theorem sign_seed (message : Bytes) : crypto.sign seed message = signatureOf publicKey message :=
  congrArg (signatureOf · message) (if_pos rfl)

theorem signatureOf_ssh : signatureOf publicKey sshMessage = sshSignature := if_pos ⟨rfl, rfl⟩

theorem signatureOf_pgp : signatureOf publicKey pgpDigest = pgpSignature := by
  have hne : pgpDigest ≠ sshMessage := by decide
  rw [signatureOf, if_neg (not_and_of_not_right _ hne), if_pos ⟨rfl, rfl⟩]

theorem signsOnly_ssh : crypto.SignsOnly seed sshMessage := by
  intro m hm
  rw [publicKey_seed, verify_iff, sign_seed, signatureOf_ssh, signatureOf] at hm
  split at hm
  · next h => exact h.2
  split at hm
  · exact absurd hm (by decide)
  · exact absurd hm (by decide)

theorem signsOnly_pgp : crypto.SignsOnly seed pgpDigest := by
  intro m hm
  rw [publicKey_seed, verify_iff, sign_seed, signatureOf_pgp, signatureOf] at hm
  split at hm
  · exact absurd hm (by decide)
  split at hm
  · next h => exact h.2
  · exact absurd hm (by decide)

end SignedSample

open SignedSample in
theorem signed_commit_verifies_sample :
    pgpSignature.head? = some 0 ∧
    verifySsh crypto (signCommitSsh crypto commit seed).signedPayload
      (signSshEd25519 crypto commit.serialize seed) =
      .ok ⟨Ssh.ed25519, publicKey⟩ ∧
    (∀ m, m ≠ commit.serialize → ∃ e,
      verifySsh crypto m (signSshEd25519 crypto commit.serialize seed) = .error e) ∧
    verifyPgp crypto (signCommitPgpEd25519 crypto commit seed created (some keyId)).signedPayload
      (signPgpEd25519 crypto commit.serialize seed created (some keyId))
        (.ed25519 publicKey) = .ok () ∧
    ∀ m, m ≠ commit.serialize → ∃ e, verifyPgp crypto m
      (signPgpEd25519 crypto commit.serialize seed created (some keyId)) (.ed25519 publicKey) =
        .error e := by
  obtain ⟨⟨-, -, -, hssh, hsshOnly⟩, -, -, -, hpgp, hpgpOnly⟩ :=
    signed_commit_verifies crypto wellFormed unsigned seed created (some keyId)
  rw [publicKey_seed] at hssh hpgp hpgpOnly
  rw [sha512_commit] at hsshOnly
  have hdigest : crypto.sha256 (Pgp.signedData commit.serialize (Pgp.hashedFields created)) =
    pgpDigest := sha256_commit
  rw [hdigest] at hpgpOnly
  exact ⟨by decide, hssh, hsshOnly digestOnly_sha512 signsOnly_ssh, hpgp,
    hpgpOnly digestOnly_sha256 signsOnly_pgp⟩

end Puregit
