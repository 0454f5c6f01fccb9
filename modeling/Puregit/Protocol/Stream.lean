import Puregit.Protocol.Lines

/-! # Packets that arrive in pieces

A transport decodes what has arrived, keeps the bytes of a packet that is not whole yet and
puts what arrives next behind them.  However a stream is cut, the packets and the failure are
those of the whole stream: `decodeChunks_eq`.
-/
namespace Puregit.PktLine

/-- Decodes the whole packets at the front of a buffer; the rest is kept. -/
def drainGo : Nat → Bytes → Except Error (List Packet × Bytes)
  | 0, input => .ok ([], input)
  | fuel + 1, input => do
    match ← decode input with
    | none => .ok ([], input)
    | some (p, n) => (drainGo fuel (input.drop n)).map fun r => (p :: r.1, r.2)

/-- Decodes the whole packets at the front of a buffer. -/
def drain (input : Bytes) : Except Error (List Packet × Bytes) := drainGo (input.length + 1) input

/-- Decodes a stream from the chunks it arrives in, with what is kept from before. -/
def decodeChunks : Bytes → List Bytes → Except Error (List Packet)
  | kept, [] =>
    if kept.isEmpty then .ok [] else .error (.protocol (str "pkt-line: trailing partial packet"))
  | kept, chunk :: chunks => do
    let (packets, kept) ← drain (kept ++ chunk)
    let more ← decodeChunks kept chunks
    .ok (packets ++ more)

/-- Encodes packets one after the other. -/
def encodeAll (packets : List Packet) : Except Error Bytes := (packets.mapM encode).map List.flatten

/-! ## One packet -/

/-- A malformed prefix stays one, whatever follows. -/
theorem decode_append_error {input : Bytes} {e : Error} (h : decode input = .error e)
    (rest : Bytes) :
    decode (input ++ rest) = .error e := by
  rw [decode] at h
  split at h
  · cases h
  rename_i hshort
  have hlong : ¬ (input ++ rest).length < 4 := by
    rw [List.length_append]
    omega
  rw [decode, if_neg hlong, List.take_append_of_le_length (by omega)]
  rcases except_bind_error.mp h with h | ⟨len, hlen, h⟩
  · rw [h]
    rfl
  rw [hlen]
  show (if len = 0 then _ else _) = _
  split_ifs at h with h0 h1 h2 h3 hmax
  all_goals cases h
  · rw [if_neg h0, if_neg h1, if_neg h2, if_pos h3]
  · rw [if_neg h0, if_neg h1, if_neg h2, if_neg h3, if_pos hmax]

/-- A packet is encoded where its payload fits. -/
def Packet.Fits : Packet → Prop
  | .data payload => payload.length + 4 ≤ maxPktlineLen
  | _ => True

instance : DecidablePred Packet.Fits
  | .data payload => inferInstanceAs (Decidable (payload.length + 4 ≤ maxPktlineLen))
  | .flush => inferInstanceAs (Decidable True)
  | .delim => inferInstanceAs (Decidable True)
  | .responseEnd => inferInstanceAs (Decidable True)

theorem encode_of_fits {p : Packet} (h : p.Fits) : ∃ out, encode p = .ok out := by
  cases p with
  | data payload =>
      refine ⟨writeLenPrefix (payload.length + 4) ++ payload, ?_⟩
      rw [encode, encodeData, if_neg (Nat.not_lt.mpr h)]
  | flush => exact ⟨_, rfl⟩
  | delim => exact ⟨_, rfl⟩
  | responseEnd => exact ⟨_, rfl⟩

/-- **What is encoded is decoded.** -/
theorem decodeAll_encodeAll {packets : List Packet} (h : ∀ p ∈ packets, p.Fits) :
    ∃ out, encodeAll packets = .ok out ∧ decodeAll out = .ok packets := by
  induction packets with
  | nil => exact ⟨[], rfl, rfl⟩
  | cons p packets ih =>
      obtain ⟨out, hout⟩ := encode_of_fits (h p List.mem_cons_self)
      obtain ⟨rest, hrest, hdecode⟩ := ih fun q hq => h q (List.mem_cons_of_mem p hq)
      obtain ⟨outs, houts, rfl⟩ := except_map_ok.mp hrest
      refine ⟨out ++ outs.flatten, ?_, ?_⟩
      · rw [encodeAll, List.mapM_cons, hout, except_ok_bind, houts]
        rfl
      · rw [decodeAll_encode hout, hdecode]
        rfl

/-! ## A stream -/

/-- Nothing is whole at the front of what is kept. -/
theorem drainGo_kept {fuel : Nat} {input kept : Bytes} {packets : List Packet}
    (hfuel : input.length < fuel) (h : drainGo fuel input = .ok (packets, kept)) :
    decode kept = .ok none := by
  induction fuel generalizing input packets with
  | zero => omega
  | succ fuel ih =>
      rw [drainGo] at h
      obtain ⟨r, hr, h⟩ := except_bind_ok.mp h
      rcases r with _ | ⟨p, n⟩
      · cases h
        exact hr
      · obtain ⟨⟨packets', kept'⟩, hrest, heq⟩ := except_map_ok.mp h
        cases heq
        obtain ⟨hn, hle⟩ := decode_consumed hr
        exact ih (by rw [List.length_drop]; omega) hrest

/-- Decoding a stream is decoding what has arrived, and then what is kept with the rest. -/
theorem decodeAll_drainGo {fuel : Nat} {input : Bytes} (hfuel : input.length < fuel)
    (rest : Bytes) :
    decodeAll (input ++ rest) =
      drainGo fuel input >>= fun r => (decodeAll (r.2 ++ rest)).map (r.1 ++ ·) := by
  induction fuel generalizing input with
  | zero => omega
  | succ fuel ih =>
      rw [drainGo]
      cases hd : decode input with
      | error e =>
          have hne : (input ++ rest).isEmpty = false := by
            cases input with
            | nil => cases hd
            | cons _ _ => rfl
          rw [decodeAll, decodeGo, hne, decode_append_error hd]
          rfl
      | ok r =>
          rw [except_ok_bind]
          rcases r with _ | ⟨p, n⟩
          · show decodeAll (input ++ rest) = (decodeAll (input ++ rest)).map ([] ++ ·)
            cases decodeAll (input ++ rest) <;> rfl
          · obtain ⟨hn, hle⟩ := decode_consumed hd
            rw [decodeAll_eq (decode_append hd rest), List.drop_append_of_le_length hle,
              ih (by rw [List.length_drop]; omega)]
            simp only
            cases drainGo fuel (input.drop n) with
            | error e => rfl
            | ok r =>
                show ((decodeAll (r.2 ++ rest)).map (r.1 ++ ·)).map (p :: ·) =
                  (decodeAll (r.2 ++ rest)).map (p :: r.1 ++ ·)
                cases decodeAll (r.2 ++ rest) <;> rfl

/-- **However a stream is cut**, its packets and its failure are the same. -/
theorem decodeChunks_eq {kept : Bytes} (hkept : decode kept = .ok none) (chunks : List Bytes) :
    decodeChunks kept chunks = decodeAll (kept ++ chunks.flatten) := by
  induction chunks generalizing kept with
  | nil =>
      rw [decodeChunks, List.flatten_nil, List.append_nil, decodeAll, decodeGo, hkept]
  | cons chunk chunks ih =>
      rw [decodeChunks, List.flatten_cons, ← List.append_assoc,
        decodeAll_drainGo (Nat.lt_succ_self _)]
      show drain (kept ++ chunk) >>= _ = drain (kept ++ chunk) >>= _
      cases hdrain : drain (kept ++ chunk) with
      | error e => rfl
      | ok r =>
          obtain ⟨packets, kept'⟩ := r
          have hkept' := drainGo_kept (Nat.lt_succ_self _) hdrain
          rw [except_ok_bind, except_ok_bind]
          simp only
          rw [ih hkept']
          exact except_bind_pure

/-- **Framing**: packets are read back from the stream of their encodings; however a stream is
cut, its packets or its failure are the same; and what is read of a packet is something and is
there, so that decoding a stream ends with the stream. -/
theorem framing {packets : List Packet} (h : ∀ p ∈ packets, p.Fits) (chunks : List Bytes)
    (input : Bytes) :
    (∃ out, encodeAll packets = .ok out ∧ decodeAll out = .ok packets) ∧
    decodeChunks [] chunks = decodeAll chunks.flatten ∧
    (∀ p n, decode input = .ok (some (p, n)) → 0 < n ∧ n ≤ input.length) ∧
    ∀ fuel, input.length < fuel → decodeGo fuel none input = decodeAll input := by
  refine ⟨decodeAll_encodeAll h, decodeChunks_eq rfl chunks, fun p n hd => ?_, fun fuel hfuel => ?_⟩
  · obtain ⟨hn, hle⟩ := decode_consumed hd
    exact ⟨by omega, hle⟩
  · exact decodeGo_fuel hfuel (Nat.lt_succ_self _)

/-- A line, cut within its length, and a flush. -/
theorem framing_line : (∃ out, encodeAll [.data (bytes "done\n"), .flush] = .ok out ∧
      decodeAll out = .ok [.data (bytes "done\n"), .flush]) ∧
    decodeChunks [] [bytes "00", bytes "09done\n0", bytes "000"] =
      decodeAll (bytes "0009done\n0000") := by
  have hall := @framing [.data (bytes "done\n"), .flush] (by decide)
    [bytes "00", bytes "09done\n0", bytes "000"] []
  exact ⟨hall.1, hall.2.1⟩

end Puregit.PktLine
