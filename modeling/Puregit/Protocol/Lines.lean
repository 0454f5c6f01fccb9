import Puregit.Protocol.Messages

/-! # Lines on the wire

A message of text lines is a list of data packets, each a line and the newline that
ends it, up to a flush.  `encodeLines` writes lines whenever each fits a packet, and
what it writes is read back as these packets, whatever follows, `decodeAll_encodeLines`;
so a parser that folds over lines folds over the lines that were written,
`foldLines_encoded`.
-/
namespace Puregit
open PktLine

/-- The line fits a packet. -/
def Fits (line : Str) : Prop := (toUtf8 line).length + 4 ≤ maxPktlineLen

instance (line : Str) : Decidable (Fits line) := inferInstanceAs (Decidable (_ ≤ _))

/-- The packet of a line. -/
def linePacket (line : Str) : Packet := .data (toUtf8 line)

theorem encodeLine_eq (line : Str) : encodeLine line =
    if Fits line then .ok (writeLenPrefix ((toUtf8 line).length + 4) ++ toUtf8 line)
    else .error (.protocol (str "pkt-line: payload too long")) := by
  rw [encodeLine, encodeData]
  by_cases h : Fits line
  · rw [if_pos h, if_neg (Nat.not_lt.mpr h)]
  · rw [if_neg h, if_pos (Nat.lt_of_not_le h)]

theorem fits_of_encodeLine {line : Str} {out : Bytes} (h : encodeLine line = .ok out) :
    Fits line := by
  rw [encodeLine_eq] at h
  split at h
  · assumption
  · cases h

/-- **Lines are written just when each fits a packet.** -/
theorem encodeLines_ok_iff {lines : List Str} :
    (∃ out, ReportStatus.encodeLines lines = .ok out) ↔ ∀ l ∈ lines, Fits l := by
  induction lines with
  | nil => exact ⟨fun _ l hl => absurd hl List.not_mem_nil, fun _ => ⟨[], rfl⟩⟩
  | cons l ls ih =>
      rw [List.forall_mem_cons, ← ih]
      constructor
      · rintro ⟨out, h⟩
        obtain ⟨p, hp, h⟩ := except_bind_ok.mp h
        obtain ⟨ps, hps, -⟩ := except_bind_ok.mp h
        exact ⟨fits_of_encodeLine hp, ps, hps⟩
      · rintro ⟨hl, ps, hps⟩
        have hp := encodeLine_eq l
        rw [if_pos hl] at hp
        exact ⟨_, except_bind_ok.mpr ⟨_, hp, except_bind_ok.mpr ⟨ps, hps, rfl⟩⟩⟩

/-- A buffer that starts with an encoded packet decodes to it and the rest. -/
theorem decodeAll_encode {p : Packet} {out : Bytes} (h : encode p = .ok out) (rest : Bytes) :
    decodeAll (out ++ rest) = (decodeAll rest).map (p :: ·) := by
  rw [decodeAll_eq (decode_encode h rest), List.drop_left]

/-- **Lines that were written are read back**, whatever follows them. -/
theorem decodeAll_encodeLines {lines : List Str} {out : Bytes}
    (h : ReportStatus.encodeLines lines = .ok out) (rest : Bytes) :
    decodeAll (out ++ rest) = (decodeAll rest).map (lines.map linePacket ++ ·) := by
  induction lines generalizing out with
  | nil =>
      cases h
      show decodeAll rest = _
      cases decodeAll rest <;> rfl
  | cons l ls ih =>
      obtain ⟨p, hp, h⟩ := except_bind_ok.mp h
      obtain ⟨ps, hps, h⟩ := except_bind_ok.mp h
      cases h
      have hline : encode (linePacket l) = .ok p := hp
      rw [List.append_assoc, decodeAll_encode hline, ih hps]
      cases decodeAll rest <;> rfl

/-- A packet alone decodes to itself. -/
theorem decodeAll_one {p : Packet} {out : Bytes} (h : encode p = .ok out) :
    decodeAll out = .ok [p] := by
  have hone := decodeAll_encode h []
  rw [List.append_nil] at hone
  exact hone

/-- A message of lines and a flush is its packets. -/
theorem decodeAll_message {lines : List Str} {out : Bytes}
    (h : ReportStatus.encodeLines lines = .ok out) :
    decodeAll (out ++ flushPkt) = .ok (lines.map linePacket ++ [.flush]) := by
  have hflush : decodeAll flushPkt = .ok [.flush] := decodeAll_one rfl
  rw [decodeAll_encodeLines h, hflush]
  rfl

/-- The newline that ends a line is trimmed again. -/
theorem trimTrailingNewline_line (line : Str) :
    trimTrailingNewline (toUtf8 (line ++ ['\n'])) = toUtf8 line := by
  have hnl : toUtf8 ['\n'] = [10] := by decide
  rw [toUtf8_append, hnl, trimTrailingNewline, if_pos (by simp), List.dropLast_concat]

/-- **A fold over the packets of a message is a fold over its lines.** -/
theorem foldLines_encoded {σ : Type} (f : σ → Bytes → Except Error σ) (lines : List Str) (s : σ) :
    foldLines (· == .flush) f s ((lines.map (· ++ ['\n'])).map linePacket ++ [.flush]) =
      lines.foldlM (fun s l => f s (toUtf8 l)) s := by
  induction lines generalizing s with
  | nil => rfl
  | cons l ls ih =>
      simp only [List.map_cons, List.cons_append, linePacket]
      unfold foldLines
      simp only [beq_iff_eq, reduceCtorEq, if_false, trimTrailingNewline_line, List.foldlM_cons]
      cases f s (toUtf8 l) with
      | error e => rfl
      | ok s' => exact ih s'

end Puregit
