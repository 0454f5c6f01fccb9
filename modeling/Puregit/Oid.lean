import Puregit.Error
import Puregit.Lib.Sha
import Puregit.Lib.Worklist
import Mathlib.Data.Prod.Lex
import Mathlib.Order.Lattice
import Mathlib.Tactic.Ring

/-! # Object identifiers

An object is named by the hash of its serialized form.  An `ObjectId` carries its
algorithm and a digest of that algorithm's length: the length is a field, so an id
of the wrong width cannot be built.
-/
namespace Puregit

/-- The hash algorithm a repository names objects with. -/
inductive HashAlgo where
  | sha1
  | sha256
  deriving DecidableEq, Repr

namespace HashAlgo

/-- The raw digest length, in bytes. -/
def rawLen : HashAlgo → Nat
  | sha1 => 20
  | sha256 => 32

/-- The hex-encoded id length, in characters. -/
def hexLen (a : HashAlgo) : Nat := a.rawLen * 2

/-- The canonical name used in config and on the wire. -/
def name : HashAlgo → Str
  | sha1 => str "sha1"
  | sha256 => str "sha256"

theorem rawLen_injective {a b : HashAlgo} (h : a.rawLen = b.rawLen) : a = b := by
  cases a <;> cases b <;> simp_all [rawLen]

end HashAlgo

/-- A git object id: a hash algorithm plus its fixed-length digest. -/
structure ObjectId where
  algo : HashAlgo
  bytes : Bytes
  length_eq : bytes.length = algo.rawLen

namespace ObjectId

theorem ext_bytes {a b : ObjectId} (ha : a.algo = b.algo) (hb : a.bytes = b.bytes) : a = b := by
  cases a; cases b; simp_all

instance : DecidableEq ObjectId := fun a b =>
  decidable_of_iff (a.algo = b.algo ∧ a.bytes = b.bytes)
    ⟨fun h => ext_bytes h.1 h.2, fun h => h ▸ ⟨rfl, rfl⟩⟩

/-- Ids are ordered by algorithm, then by raw bytes. -/
instance : LinearOrder ObjectId :=
  LinearOrder.lift' (fun o => toLex (o.algo.rawLen, o.bytes)) fun a b h => by
    have h' : (a.algo.rawLen, a.bytes) = (b.algo.rawLen, b.bytes) := toLex.injective h
    exact ext_bytes (HashAlgo.rawLen_injective (congrArg Prod.fst h')) (congrArg Prod.snd h')

/-- The message of an id of the wrong length. -/
def invalidLenMsg (algo : HashAlgo) (got : Nat) : Str :=
  algo.name ++ str " id must be " ++ natStr algo.rawLen ++ str " bytes, got " ++ natStr got

/-- Builds an id from a raw digest. -/
def fromBytes (algo : HashAlgo) (raw : Bytes) : Except Error ObjectId :=
  if h : raw.length = algo.rawLen then .ok ⟨algo, raw, h⟩
  else .error (.invalidOid (invalidLenMsg algo raw.length))

/-- The all-zero id: on the wire, no object. -/
def zero (algo : HashAlgo) : ObjectId :=
  ⟨algo, List.replicate algo.rawLen 0, List.length_replicate⟩

/-- The id of SHA-1 that repeats one byte. -/
def filled (b : UInt8) : ObjectId := ⟨.sha1, List.replicate 20 b, rfl⟩

/-- The id of the tree without entries. -/
def emptyTree : ObjectId :=
  ⟨.sha1, [0x4b, 0x82, 0x5d, 0xc6, 0x42, 0xcb, 0x6e, 0xb9, 0xa0, 0x60,
  0xe5, 0x4b, 0xf8, 0xd6, 0x92, 0x88, 0xfb, 0xee, 0x49, 0x04], rfl⟩

/-- Whether this is the null id. -/
def isZero (o : ObjectId) : Bool := o.bytes.all (· == 0)

/-- The lowercase hex digit of a nibble. -/
def hexDigit (n : Nat) : Char :=
  if n < 10 then Char.ofNat (48 + n) else Char.ofNat (87 + n)

/-- Lowercase hex encoding. -/
def toHex (o : ObjectId) : Str :=
  o.bytes.flatMap fun b => [hexDigit (b.toNat / 16), hexDigit (b.toNat % 16)]

/-- The message of a byte that is not a hex digit. -/
def badHexChar (c : UInt8) : Str :=
  str "non-hex character '" ++ debugChar (Char.ofNat 39) (Char.ofNat c.toNat)
    ++ str "' in object id"

/-- The value of a hex digit of either case. -/
def hexVal (c : UInt8) : Except Error Nat :=
  let n := c.toNat
  if 48 ≤ n ∧ n ≤ 57 then .ok (n - 48)
  else if 97 ≤ n ∧ n ≤ 102 then .ok (n - 87)
  else if 65 ≤ n ∧ n ≤ 70 then .ok (n - 55)
  else .error (.invalidOid (badHexChar c))

/-- Decodes hex digits in pairs. -/
def decodeHexInto : Bytes → Except Error Bytes
  | hi :: lo :: rest => do
      let h ← hexVal hi
      let l ← hexVal lo
      let out ← decodeHexInto rest
      return UInt8.ofNat (h * 16 + l) :: out
  | _ => .ok []

/-- Parses an id from its hex form. -/
def fromHex (algo : HashAlgo) (hex : Str) : Except Error ObjectId :=
  let raw := toUtf8 hex
  if raw.length ≠ algo.hexLen then .error (.invalidOid (invalidLenMsg algo (raw.length / 2)))
  else do
    let out ← decodeHexInto raw
    fromBytes algo out

/-! ## The hex form -/

theorem utf8Char_hexDigit {n : Nat} (h : n < 16) :
    utf8Char (hexDigit n) = [UInt8.ofNat (if n < 10 then 48 + n else 87 + n)] := by
  have hall : ∀ n < 16, utf8Char (hexDigit n) =
      [UInt8.ofNat (if n < 10 then 48 + n else 87 + n)] := by
    decide
  exact hall n h

theorem hexVal_digit {n : Nat} (h : n < 16) :
    hexVal (UInt8.ofNat (if n < 10 then 48 + n else 87 + n)) = .ok n := by
  have hall : ∀ n < 16, hexVal (UInt8.ofNat (if n < 10 then 48 + n else 87 + n)) = .ok n := by
    decide
  exact hall n h

theorem decodeHexInto_hex (bs : Bytes) : decodeHexInto
    (toUtf8 (bs.flatMap fun b => [hexDigit (b.toNat / 16), hexDigit (b.toNat % 16)])) = .ok bs := by
  induction bs with
  | nil => rfl
  | cons b bs ih =>
      have hb : b.toNat < 256 := b.toNat_lt
      have hhi : b.toNat / 16 < 16 := by omega
      have hlo : b.toNat % 16 < 16 := by omega
      have hbyte : UInt8.ofNat (b.toNat / 16 * 16 + b.toNat % 16) = b := by
        rw [show b.toNat / 16 * 16 + b.toNat % 16 = b.toNat by omega]
        exact UInt8.ofNat_toNat
      rw [List.flatMap_cons, toUtf8_append, toUtf8_cons, toUtf8_cons, utf8Char_hexDigit hhi,
        utf8Char_hexDigit hlo]
      simp only [toUtf8_nil, List.append_nil, List.cons_append, List.nil_append, decodeHexInto,
        hexVal_digit hhi, hexVal_digit hlo, ih, bind, Except.bind, pure, Except.pure, hbyte]

theorem length_toUtf8_hex (bs : Bytes) : (toUtf8
    (bs.flatMap fun b => [hexDigit (b.toNat / 16), hexDigit (b.toNat % 16)])).length =
      bs.length * 2 := by
  induction bs with
  | nil => rfl
  | cons b bs ih =>
      have hb : b.toNat < 256 := b.toNat_lt
      rw [List.flatMap_cons, toUtf8_append, toUtf8_cons, toUtf8_cons,
        utf8Char_hexDigit (by omega), utf8Char_hexDigit (by omega), List.length_append, ih]
      simp
      omega

/-- **Parsing the hex form of an id gives it back.** -/
theorem fromHex_toHex (o : ObjectId) : fromHex o.algo o.toHex = .ok o := by
  have hlen : (toUtf8 o.toHex).length = o.algo.hexLen := by
    rw [toHex, length_toUtf8_hex, o.length_eq]
    rfl
  rw [fromHex, if_neg (by simp [hlen]), toHex, decodeHexInto_hex]
  simp only [bind, Except.bind]
  rw [fromBytes, dif_pos o.length_eq]

theorem fromHex_algo {algo : HashAlgo} {hex : Str} {o : ObjectId} (h : fromHex algo hex = .ok o) :
    o.algo = algo := by
  rw [fromHex] at h
  split at h
  · cases h
  obtain ⟨raw, -, h⟩ := except_bind_ok.mp h
  rw [fromBytes] at h
  split at h
  · cases h
    rfl
  · cases h

theorem fromBytes_algo {algo : HashAlgo} {raw : Bytes} {o : ObjectId}
    (h : fromBytes algo raw = .ok o) : o.algo = algo := by
  rw [fromBytes] at h
  split at h
  · cases h
    rfl
  · cases h

/-- The hex form of an id is one of its own algorithm only. -/
theorem fromHex_toHex_iff {algo : HashAlgo} {o o' : ObjectId} :
    fromHex algo o.toHex = .ok o' ↔ o.algo = algo ∧ o' = o := by
  constructor
  · intro h
    have hlen : (toUtf8 o.toHex).length = o.algo.hexLen := by
      rw [toHex, length_toUtf8_hex, o.length_eq]
      rfl
    have halgo : o.algo = algo := by
      rw [fromHex] at h
      split at h
      · cases h
      · rename_i hl
        rw [not_not, hlen] at hl
        cases ho : o.algo <;> cases algo <;> rw [ho] at hl <;> first | rfl | cases hl
    subst halgo
    rw [fromHex_toHex] at h
    cases h
    exact ⟨rfl, rfl⟩
  · rintro ⟨rfl, rfl⟩
    exact fromHex_toHex _

/-- **The digits name the id.** -/
theorem toHex_injective {a b : ObjectId} (h : a.toHex = b.toHex) : a = b := by
  have hfrom : fromHex b.algo a.toHex = .ok b := by
    rw [h]
    exact fromHex_toHex b
  exact ((fromHex_toHex_iff.mp hfrom).2).symm

/-- The digits of an id. -/
theorem mem_toHex {o : ObjectId} {c : Char} (h : c ∈ o.toHex) :
    (48 ≤ c.toNat ∧ c.toNat ≤ 57) ∨ (97 ≤ c.toNat ∧ c.toNat ≤ 102) := by
  have hall : ∀ n < 16, (48 ≤ (hexDigit n).toNat ∧ (hexDigit n).toNat ≤ 57) ∨
      (97 ≤ (hexDigit n).toNat ∧ (hexDigit n).toNat ≤ 102) := by
    decide
  obtain ⟨b, -, hc⟩ := List.mem_flatMap.mp h
  have hb : b.toNat < 256 := b.toNat_lt
  rcases List.mem_cons.mp hc with rfl | hc
  · exact hall _ (by omega)
  · rw [List.mem_singleton] at hc
    subst hc
    exact hall _ (by omega)

theorem isWhitespace_of_mem_toHex {o : ObjectId} {c : Char} (h : c ∈ o.toHex) :
    isWhitespace c = false := by
  have hrange := mem_toHex h
  unfold isWhitespace
  simp only [Bool.or_eq_false_iff, Bool.and_eq_false_iff, decide_eq_false_iff_not,
    beq_eq_false_iff_ne]
  omega

theorem trim_toHex (o : ObjectId) : trim o.toHex = o.toHex :=
  trim_of_not_whitespace fun _ hc => isWhitespace_of_mem_toHex hc

/-! ## Counting ids -/

/-- The number big-endian bytes spell. -/
def natOfBytes (bs : Bytes) : Nat := bs.foldl (fun n b => n * 256 + b.toNat) 0

theorem natOfBytes_snoc (bs : Bytes) (b : UInt8) :
    natOfBytes (bs ++ [b]) = natOfBytes bs * 256 + b.toNat := by
  simp [natOfBytes]

theorem natOfBytes_lt (bs : Bytes) : natOfBytes bs < 256 ^ bs.length := by
  induction bs using List.reverseRecOn with
  | nil => simp [natOfBytes]
  | append_singleton bs b ih =>
      have hb : b.toNat < 256 := b.toNat_lt
      rw [natOfBytes_snoc, List.length_append, List.length_singleton, Nat.pow_succ]
      omega

theorem natOfBytes_injective : ∀ {as bs : Bytes}, as.length = bs.length →
    natOfBytes as = natOfBytes bs → as = bs := by
  intro as
  induction as using List.reverseRecOn with
  | nil =>
      intro bs hlen _
      exact (List.length_eq_zero_iff.mp hlen.symm).symm
  | append_singleton as a ih =>
      intro bs hlen h
      rcases List.eq_nil_or_concat bs with rfl | ⟨bs', b, rfl⟩
      · simp at hlen
      · have ha : a.toNat < 256 := a.toNat_lt
        have hb : b.toNat < 256 := b.toNat_lt
        rw [List.concat_eq_append] at hlen h ⊢
        rw [natOfBytes_snoc, natOfBytes_snoc] at h
        have hab : a = b := UInt8.toNat_inj.mp (by omega)
        have hlen' : as.length = bs'.length := by simpa using hlen
        rw [ih hlen' (by omega), hab]

theorem natOfBytes_bigEndian (k n : Nat) :
    natOfBytes (Sha.bigEndian k n) = n % 256 ^ k := by
  have hcons : ∀ (bs : Bytes) (acc : Nat), bs.foldl (fun n b => n * 256 + b.toNat) acc =
      acc * 256 ^ bs.length + natOfBytes bs := by
    intro bs
    induction bs using List.reverseRecOn with
    | nil => simp [natOfBytes]
    | append_singleton bs b ih =>
      intro acc
      rw [List.foldl_append, ih, natOfBytes_snoc, List.length_append,
        List.length_singleton, Nat.pow_succ]
      simp only [List.foldl_cons, List.foldl_nil]
      ring
  induction k with
  | zero =>
    rw [Nat.pow_zero, Nat.mod_one]
    rfl
  | succ k ih =>
    have hbyte : (UInt8.ofNat (n / 256 ^ k)).toNat = n / 256 ^ k % 256 := UInt8.toNat_ofNat'
    rw [Sha.bigEndian, natOfBytes, List.foldl_cons, Nat.zero_mul, Nat.zero_add, hcons, ih,
      Sha.length_bigEndian, hbyte, Nat.mod_pow_succ]
    ring

end ObjectId

/-- The bytes from `start` on, `len` of them. -/
def slice (data : Bytes) (start len : Nat) : Bytes := (data.drop start).take len

/-- The big-endian number of `len` bytes from `start` on. -/
def number (data : Bytes) (start len : Nat) : Nat := ObjectId.natOfBytes (slice data start len)

theorem length_slice {data : Bytes} {start len : Nat} (h : start + len ≤ data.length) :
    (slice data start len).length = len := by
  unfold slice
  rw [List.length_take, List.length_drop]
  omega

theorem slice_append (front data : Bytes) (start len : Nat) :
    slice (front ++ data) (front.length + start) len = slice data start len := by
  unfold slice
  rw [List.drop_append, List.drop_eq_nil_of_le (Nat.le_add_right _ _), Nat.add_sub_cancel_left,
    List.nil_append]

theorem slice_front (front data : Bytes) : slice (front ++ data) 0 front.length = front := by
  unfold slice
  rw [List.drop_zero, List.take_left]

theorem number_append (front data : Bytes) (start len : Nat) :
    number (front ++ data) (front.length + start) len = number data start len := by
  unfold number
  rw [slice_append]

theorem number_lt (data : Bytes) (start len : Nat) : number data start len < 256 ^ len := by
  have hlen : (slice data start len).length ≤ len := List.length_take_le ..
  exact (ObjectId.natOfBytes_lt _).trans_le (Nat.pow_le_pow_right (by decide) hlen)

/-- A number that fits is read back. -/
theorem number_bigEndian (k : Nat) {n : Nat} (hn : n < 256 ^ k) (rest : Bytes) :
    number (Sha.bigEndian k n ++ rest) 0 k = n := by
  have hfront := slice_front (Sha.bigEndian k n) rest
  rw [Sha.length_bigEndian] at hfront
  unfold number
  rw [hfront, ObjectId.natOfBytes_bigEndian, Nat.mod_eq_of_lt hn]

theorem number_bigEndian_at {front : Bytes} {start : Nat} (hfront : front.length = start)
    (k : Nat) {n : Nat} (hn : n < 256 ^ k) (rest : Bytes) :
    number (front ++ (Sha.bigEndian k n ++ rest)) start k = n := by
  have happend := number_append front (Sha.bigEndian k n ++ rest) 0 k
  rw [Nat.add_zero, hfront] at happend
  rw [happend, number_bigEndian k hn]

theorem slice_at {front mid : Bytes} {start len : Nat} (hstart : front.length = start)
    (hlen : mid.length = len) (rest : Bytes) : slice (front ++ (mid ++ rest)) start len = mid := by
  have happend := slice_append front (mid ++ rest) 0 len
  rw [Nat.add_zero, hstart] at happend
  rw [happend, ← hlen, slice_front]

section Table
variable {α : Type} {k : Nat} {f : α → Nat}

theorem length_table (k : Nat) (f : α → Nat) (xs : List α) :
    (xs.flatMap fun x => Sha.bigEndian k (f x)).length = xs.length * k := by
  induction xs with
  | nil => rw [List.flatMap_nil, List.length_nil, List.length_nil, Nat.zero_mul]
  | cons x xs ih =>
    rw [List.flatMap_cons, List.length_append, Sha.length_bigEndian, ih, List.length_cons]
    ring

/-- Rows of one length written one after the other are cut out by position. -/
theorem slice_table {g : α → Bytes} {xs : List α} (hlen : ∀ x ∈ xs, (g x).length = k)
    {x : α} {i : Nat} (hx : xs[i]? = some x) (rest : Bytes) :
    slice (xs.flatMap g ++ rest) (i * k) k = g x := by
  induction xs generalizing i with
  | nil => cases hx
  | cons y xs ih =>
    obtain ⟨hy, hxs⟩ := List.forall_mem_cons.mp hlen
    rw [List.flatMap_cons, List.append_assoc]
    cases i with
    | zero =>
      cases hx
      rw [Nat.zero_mul, ← hy, slice_front]
    | succ i =>
      have hmul : (i + 1) * k = (g y).length + i * k := by
        rw [hy]
        ring
      rw [hmul, slice_append]
      exact ih hxs hx

/-- Numbers written one after the other are read back by position. -/
theorem number_table {xs : List α} (hfits : ∀ x ∈ xs, f x < 256 ^ k) {x : α} {i : Nat}
    (hx : xs[i]? = some x) (rest : Bytes) :
    number (xs.flatMap (fun x => Sha.bigEndian k (f x)) ++ rest) (i * k) k = f x := by
  rw [number, slice_table (fun y _ => Sha.length_bigEndian k (f y)) hx,
    ObjectId.natOfBytes_bigEndian,
    Nat.mod_eq_of_lt (hfits x (List.mem_of_getElem? hx))]

end Table

namespace ObjectId

/-- A number that names an id: the ids of SHA-1 come first. -/
def code (o : ObjectId) : Nat :=
  match o.algo with
  | .sha1 => natOfBytes o.bytes
  | .sha256 => 256 ^ 20 + natOfBytes o.bytes

/-- The number of ids there are. -/
def count : Nat := 256 ^ 20 + 256 ^ 32

theorem code_lt (o : ObjectId) : o.code < count := by
  have h := natOfBytes_lt o.bytes
  rw [o.length_eq] at h
  unfold code count
  cases ha : o.algo <;> rw [ha] at h <;> simp only [HashAlgo.rawLen] at h ⊢ <;> omega

theorem code_injective {a b : ObjectId} (h : a.code = b.code) : a = b := by
  have hlt : ∀ o : ObjectId, o.algo = .sha1 → natOfBytes o.bytes < 256 ^ 20 := fun o ho => by
    have := natOfBytes_lt o.bytes
    rwa [o.length_eq, ho] at this
  have halgo : a.algo = b.algo := by
    cases ha : a.algo <;> cases hb : b.algo
    · rfl
    · have := hlt a ha
      simp only [code, ha, hb] at h
      omega
    · have := hlt b hb
      simp only [code, ha, hb] at h
      omega
    · rfl
  refine ext_bytes halgo (natOfBytes_injective ?_ ?_)
  · rw [a.length_eq, b.length_eq, halgo]
  · cases hb : b.algo <;> simp only [code, halgo, hb] at h <;> omega

/-- No set of ids has more members than there are ids. -/
theorem size_le_count (s : BTreeSet ObjectId) : s.size ≤ count :=
  length_le_of_codes (s.toList_sorted.imp fun h => ne_of_lt h) code
    (fun _ _ => code_injective) code_lt

/-- No map from ids has more bindings than there are ids. -/
theorem length_keys_le_count {ν : Type} (m : BTreeMap ObjectId ν) : m.keys.length ≤ count :=
  length_le_of_codes (m.keys_sorted.imp fun h => ne_of_lt h) code (fun _ _ => code_injective)
    code_lt

/-- Fuel that no loop taking every id at most once uses up. -/
def fuel : Nat := count + 1

end ObjectId
end Puregit
