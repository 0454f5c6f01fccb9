import Puregit.Error
import Puregit.Lib.Exec

/-! # pkt-line framing

A packet is a four-digit hexadecimal length that counts itself, and that many bytes
less four; the lengths 0, 1 and 2 are the control packets.  `decode` reads one packet
from the front of a buffer and says how much of it was read, `decodeAll` a whole buffer.
What `encode` writes, `decode` reads back, whatever follows it: `decode_encode`.
-/
namespace Puregit.PktLine

/-- The greatest length of a packet, with its prefix. -/
def maxPktlineLen : Nat := 65520

/-- A decoded packet. -/
inductive Packet where
  | data (payload : Bytes)
  | flush
  | delim
  | responseEnd
  deriving DecidableEq

/-- The lowercase hex digit of a nibble, as a byte. -/
def hexDigitByte (n : Nat) : UInt8 := UInt8.ofNat (if n < 10 then 48 + n else 87 + n)

/-- The four digits of a length. -/
def writeLenPrefix (len : Nat) : Bytes :=
  [hexDigitByte (len / 4096 % 16), hexDigitByte (len / 256 % 16), hexDigitByte (len / 16 % 16),
    hexDigitByte (len % 16)]

/-- The value of a hex digit of either case. -/
def hexDigitVal (c : UInt8) : Except Error Nat :=
  let n := c.toNat
  if 48 ≤ n ∧ n ≤ 57 then .ok (n - 48)
  else if 97 ≤ n ∧ n ≤ 102 then .ok (n - 87)
  else if 65 ≤ n ∧ n ≤ 70 then .ok (n - 55)
  else .error (.protocol (str "pkt-line: non-hex length prefix"))

/-- The length four digits spell. -/
def parseLenPrefix (b : Bytes) : Except Error Nat :=
  b.foldlM (fun v c => (hexDigitVal c).map (v * 16 + ·)) 0

/-- Encodes a payload as a data packet. -/
def encodeData (payload : Bytes) : Except Error Bytes :=
  if payload.length + 4 > maxPktlineLen then .error (.protocol (str "pkt-line: payload too long"))
  else .ok (writeLenPrefix (payload.length + 4) ++ payload)

/-- The four bytes of a flush, a delimiter and a response end. -/
def flushPkt : Bytes := bytes "0000"
def delimPkt : Bytes := bytes "0001"
def responseEndPkt : Bytes := bytes "0002"

/-- Encodes any packet. -/
def encode : Packet → Except Error Bytes
  | .data p => encodeData p
  | .flush => .ok flushPkt
  | .delim => .ok delimPkt
  | .responseEnd => .ok responseEndPkt

/-- Encodes the text of a line as a data packet. -/
def encodeLine (line : Str) : Except Error Bytes := encodeData (toUtf8 line)

/-- Decodes one packet from the front of a buffer, with the number of bytes it took;
none when the buffer does not hold a whole one yet. -/
def decode (input : Bytes) : Except Error (Option (Packet × Nat)) :=
  if input.length < 4 then .ok none
  else do
    let len ← parseLenPrefix (input.take 4)
    if len = 0 then .ok (some (.flush, 4))
    else if len = 1 then .ok (some (.delim, 4))
    else if len = 2 then .ok (some (.responseEnd, 4))
    else if len = 3 then .error (.protocol (str "pkt-line: invalid length 3"))
    else if len > maxPktlineLen then .error (.protocol (str "pkt-line: length out of range"))
    else if input.length < len then .ok none
    else .ok (some (.data ((input.take len).drop 4), len))

theorem decode_consumed {input : Bytes} {p : Packet} {n : Nat}
    (h : decode input = .ok (some (p, n))) : 4 ≤ n ∧ n ≤ input.length := by
  rw [decode] at h
  split at h
  · cases h
  rename_i hlen
  obtain ⟨len, -, h⟩ := except_bind_ok.mp h
  split at h
  · cases h; omega
  split at h
  · cases h; omega
  split at h
  · cases h; omega
  split at h
  · cases h
  split at h
  · cases h
  split at h
  · cases h
  · cases h; omega

/-- A whole packet at the front of a buffer is there whatever follows the buffer. -/
theorem decode_append {input : Bytes} {p : Packet} {n : Nat} (h : decode input = .ok (some (p, n)))
    (rest : Bytes) : decode (input ++ rest) = .ok (some (p, n)) := by
  rw [decode] at h
  split at h
  · cases h
  rename_i hshort
  obtain ⟨len, hlen, h⟩ := except_bind_ok.mp h
  have hlong : ¬ (input ++ rest).length < 4 := by
    rw [List.length_append]
    omega
  rw [decode, if_neg hlong, List.take_append_of_le_length (by omega), hlen]
  show (if len = 0 then _ else _) = _
  split at h
  · rename_i h0
    rw [if_pos h0]
    exact h
  rename_i h0
  rw [if_neg h0]
  split at h
  · rename_i h1
    rw [if_pos h1]
    exact h
  rename_i h1
  rw [if_neg h1]
  split at h
  · rename_i h2
    rw [if_pos h2]
    exact h
  rename_i h2
  rw [if_neg h2]
  split at h
  · cases h
  rename_i h3
  rw [if_neg h3]
  split at h
  · cases h
  rename_i hmax
  rw [if_neg hmax]
  split at h
  · cases h
  rename_i hhas
  rw [if_neg (by rw [List.length_append]; omega), List.take_append_of_le_length (by omega)]
  exact h

/-- Decodes a buffer into at most `cap` packets, if there is a cap; the fuel bounds the
packets decoded. -/
def decodeGo : Nat → Option Nat → Bytes → Except Error (List Packet)
  | 0, _, _ => .ok []
  | fuel + 1, cap, input =>
    if input.isEmpty then .ok []
    else match decode input with
      | .error e => .error e
      | .ok none => .error (.protocol (str "pkt-line: trailing partial packet"))
      | .ok (some (p, n)) =>
        if cap = some 0 then .error (.protocol (str "pkt-line: too many packets"))
        else (decodeGo fuel (cap.map (· - 1)) (input.drop n)).map (p :: ·)

/-- Every packet takes bytes, so a buffer's length is fuel enough. -/
theorem decodeGo_fuel {fuel m : Nat} {cap : Option Nat} {input : Bytes}
    (h : input.length < fuel) (h' : input.length < m) :
    decodeGo fuel cap input = decodeGo m cap input := by
  induction fuel generalizing m cap input with
  | zero => omega
  | succ fuel ih =>
      obtain ⟨m, rfl⟩ : ∃ k, m = k + 1 := ⟨m - 1, by omega⟩
      rw [decodeGo, decodeGo]
      cases hd : decode input with
      | error e => rfl
      | ok r =>
          cases r with
          | none => rfl
          | some r =>
              obtain ⟨p, n⟩ := r
              obtain ⟨hn, hle⟩ := decode_consumed hd
              have hlen : (input.drop n).length < fuel ∧ (input.drop n).length < m := by
                rw [List.length_drop]
                omega
              simp only
              rw [ih hlen.1 hlen.2]

/-- Decodes a complete buffer. -/
def decodeAll (input : Bytes) : Except Error (List Packet) := decodeGo (input.length + 1) none input

/-- Decodes a complete buffer, refusing more than `maxPackets` packets. -/
def decodeAllBounded (input : Bytes) (maxPackets : Nat) : Except Error (List Packet) :=
  decodeGo (input.length + 1) (some maxPackets) input

/-- Decoding a buffer is decoding its first packet, then the rest. -/
theorem decodeAll_eq {input : Bytes} {p : Packet} {n : Nat}
    (h : decode input = .ok (some (p, n))) :
    decodeAll input = (decodeAll (input.drop n)).map (p :: ·) := by
  obtain ⟨hn, hle⟩ := decode_consumed h
  have hne : input.isEmpty = false := by
    cases input with
    | nil => simp at hle; omega
    | cons _ _ => rfl
  rw [decodeAll, decodeGo, hne, h]
  simp only [Bool.false_eq_true, if_false, reduceCtorEq, Option.map_none]
  rw [decodeAll, decodeGo_fuel (m := (input.drop n).length + 1)
    (by rw [List.length_drop]; omega) (Nat.lt_succ_self _)]

/-- The cap on packets of an untrusted response. -/
def maxPackets : Nat := 65536

/-- A line without the newline that ends it. -/
def trimTrailingNewline (line : Bytes) : Bytes :=
  if line.getLast? = some 10 then line.dropLast else line

/-! ## Reading back what was written -/

theorem hexDigitVal_hexDigitByte {n : Nat} (h : n < 16) :
    hexDigitVal (hexDigitByte n) = .ok n := by
  have hall : ∀ n < 16, hexDigitVal (hexDigitByte n) = .ok n := by decide
  exact hall n h

theorem parseLenPrefix_writeLenPrefix {len : Nat} (h : len < 65536) :
    parseLenPrefix (writeLenPrefix len) = .ok len := by
  simp only [parseLenPrefix, writeLenPrefix, List.foldlM_cons, List.foldlM_nil,
    hexDigitVal_hexDigitByte (Nat.mod_lt _ (by decide : 0 < 16)), Except.map, bind, Except.bind,
    pure, Except.pure]
  congr 1
  omega

theorem length_writeLenPrefix (len : Nat) : (writeLenPrefix len).length = 4 := rfl

/-- **Decoding reads back an encoded packet, and takes exactly its bytes.** -/
theorem decode_encode {p : Packet} {out : Bytes} (h : encode p = .ok out) (rest : Bytes) :
    decode (out ++ rest) = .ok (some (p, out.length)) := by
  cases p with
  | data payload =>
      rw [encode, encodeData] at h
      split at h
      · cases h
      rename_i hlen
      cases h
      have hmax : payload.length + 4 ≤ 65520 := Nat.not_lt.mp hlen
      have hprefix : ((writeLenPrefix (payload.length + 4) ++ payload) ++ rest).take 4
          = writeLenPrefix (payload.length + 4) := by
        rw [List.append_assoc]
        exact List.take_left' rfl
      have hdata : (((writeLenPrefix (payload.length + 4) ++ payload) ++ rest).take
          (payload.length + 4)).drop 4 = payload := by
        have hl : (writeLenPrefix (payload.length + 4) ++ payload).length = payload.length + 4 := by
          rw [List.length_append, length_writeLenPrefix]
          omega
        rw [List.take_left' hl]
        exact List.drop_left' rfl
      rw [decode, if_neg (by simp [length_writeLenPrefix]), hprefix,
        parseLenPrefix_writeLenPrefix (by omega)]
      simp only [bind, Except.bind]
      rw [if_neg (by omega), if_neg (by omega), if_neg (by omega), if_neg (by omega),
        if_neg hlen, if_neg (by simp only [List.length_append, length_writeLenPrefix]; omega),
          hdata]
      simp only [List.length_append, length_writeLenPrefix, Nat.add_comm]
  | flush => cases h; rfl
  | delim => cases h; rfl
  | responseEnd => cases h; rfl

end Puregit.PktLine
