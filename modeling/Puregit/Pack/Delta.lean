import Puregit.Error
import Puregit.Lib.Base128
import Puregit.Lib.BTree

/-! # Git deltas

A delta rebuilds a target from a base: after the sizes of the two come instructions
that copy a run of the base or insert the bytes that follow.  `applyDelta` runs the
instructions; `createDelta` finds runs of the target in the base through an index of
its 16-byte windows and inserts the rest.

Running is compositional: `Emits base ops piece` says that the instructions `ops`
append `piece`, whatever follows them.  `applyDelta_createDelta` is assembled from one
such fact for an insertion, one for a copy and one for the scan over the target.
-/
namespace Puregit
namespace Delta

/-! ## Applying -/

/-- The largest target size a delta may declare. -/
def maxTargetSize : Nat := 2 ^ 30

/-- The error of a delta that ends too early. -/
def unexpectedEnd : Error := .pack (str "delta: unexpected end")

/-- The next byte of a delta. -/
def nextByte : Bytes → Except Error (Nat × Bytes)
  | [] => .error unexpectedEnd
  | b :: data => .ok (b.toNat, data)

/-- Reads a size. -/
def readVarint (data : Bytes) : Except Error (Nat × Bytes) :=
  Base128.readGroups unexpectedEnd (.pack (str "delta: varint overflow")) data 0 0

/-- Reads the bytes `i`, `i + 1` … of a field, `n` of them: those that the bits of the opcode
from `bit` on select, the others being zero. -/
def readSelected (opcode bit : Nat) : Nat → Nat → Nat → Bytes → Except Error (Nat × Bytes)
  | 0, _, value, data => .ok (value, data)
  | n + 1, i, value, data =>
    if opcode.testBit (bit + i) then do
      let (b, data) ← nextByte data
      readSelected opcode bit n (i + 1) (value ||| b <<< (8 * i)) data
    else readSelected opcode bit n (i + 1) value data

/-- What an instruction appends, and what follows it. -/
def applyOp (base : Bytes) (opcode : Nat) (data : Bytes) : Except Error (Bytes × Bytes) :=
  if opcode.testBit 7 then do
    let (offset, data) ← readSelected opcode 0 4 0 0 data
    let (size, data) ← readSelected opcode 4 3 0 0 data
    -- a size of 0 means 64 KiB
    let size := if size = 0 then 0x10000 else size
    if 2 ^ 64 ≤ offset + size then .error (.pack (str "delta: copy range overflow"))
    else if base.length < offset + size then .error (.pack (str "delta: copy past end of base"))
    else .ok ((base.drop offset).take size, data)
  else if opcode ≠ 0 then
    if data.length < opcode then .error (.pack (str "delta: insert past end of delta"))
    else .ok (data.take opcode, data.drop opcode)
  else .error (.pack (str "delta: invalid zero opcode"))

/-- Runs at most `fuel` instructions. -/
def applyOps (base : Bytes) : Nat → Bytes → Bytes → Except Error Bytes
  | 0, _, out => .ok out
  | _ + 1, [], out => .ok out
  | fuel + 1, opcode :: data, out => do
    let (piece, data) ← applyOp base opcode.toNat data
    applyOps base fuel data (out ++ piece)

/-- Runs instructions to their end: each takes a byte at least. -/
def runOps (base data out : Bytes) : Except Error Bytes := applyOps base data.length data out

end Delta
open Delta

/-- Applies a delta to a base. -/
def applyDelta (base delta : Bytes) : Except Error Bytes := do
  let (baseSize, data) ← readVarint delta
  if baseSize ≠ base.length then .error (.pack (str "delta: base size mismatch"))
  else
    let (targetSize, data) ← readVarint data
    if maxTargetSize < targetSize then
      .error (.pack (str "delta: target size exceeds maximum"))
    else
      let out ← runOps base data []
      if out.length ≠ targetSize then .error (.pack (str "delta: target size mismatch"))
      else .ok out

namespace Delta

/-! ## Creating -/

/-- The length of an indexed window, the shortest run worth a copy. -/
def block : Nat := 16

/-- The FNV-1a hash of a window. -/
def hashBlock (window : Bytes) : Nat :=
  window.foldl (fun h b => (h ^^^ b.toNat) * 0x100000001b3 % 2 ^ 64) 0xcbf29ce484222325

/-- The windows of a base from offset `i` on, `n` of them, by hash: the earliest offset wins. -/
def indexFrom (base : Bytes) : Nat → Nat → BTreeMap Nat Nat → BTreeMap Nat Nat
  | 0, _, index => index
  | n + 1, i, index =>
    let h := hashBlock ((base.drop i).take block)
    indexFrom base n (i + 1) (if index.contains h then index else index.insert h i)

/-- The windows of a base. -/
def indexBase (base : Bytes) : BTreeMap Nat Nat :=
  if base.length < block then BTreeMap.empty
  else indexFrom base (base.length - block + 1) 0 BTreeMap.empty

/-- How many bytes two byte strings agree on from their start. -/
def runLength : Bytes → Bytes → Nat
  | a :: as, b :: bs => if a = b then runLength as bs + 1 else 0
  | _, _ => 0

/-- A run of the base that the target starts with: its offset and its length. -/
def findMatch (base : Bytes) (index : BTreeMap Nat Nat) (target : Bytes) : Option (Nat × Nat) :=
  if target.length < block then none
  else match index.get? (hashBlock (target.take block)) with
    | some p =>
      -- equal hashes do not make equal windows
      if (base.drop p).take block = target.take block then
        some (p, block + runLength (base.drop (p + block)) (target.drop block))
      else none
    | none => none

/-- Insertions of some bytes, at most 127 at a time. -/
def flushUpTo : Nat → Bytes → Bytes
  | 0, _ => []
  | fuel + 1, pending =>
    if pending = [] then []
    else UInt8.ofNat (min pending.length 127) :: pending.take 127 ++
      flushUpTo fuel (pending.drop 127)

/-- Insertions of some bytes. -/
def flushInsert (pending : Bytes) : Bytes := flushUpTo pending.length pending

/-- The bytes `i`, `i + 1` … of a value, `n` of them, that are not zero, with the bits of the
opcode from `bit` on that select them. -/
def emitSelected (bit value : Nat) : Nat → Nat → Nat × Bytes → Nat × Bytes
  | 0, _, acc => acc
  | n + 1, i, (opcode, out) =>
    let b := value >>> (8 * i) % 256
    emitSelected bit value n (i + 1)
      (if b ≠ 0 then (opcode ||| 1 <<< (bit + i), out ++ [UInt8.ofNat b]) else (opcode, out))

/-- The longest run one copy takes. -/
def maxCopy : Nat := 0xFFFFFF

/-- A copy of one run. -/
def copyOp (offset chunk : Nat) : Bytes :=
  let acc := emitSelected 4 chunk 3 0 (emitSelected 0 offset 4 0 (0x80, []))
  UInt8.ofNat acc.1 :: acc.2

/-- Copies of a run, split where it is too long for one. -/
def copyUpTo : Nat → Nat → Nat → Bytes
  | 0, _, _ => []
  | fuel + 1, offset, size =>
    if size = 0 then []
    else
      let chunk := min size maxCopy
      copyOp offset chunk ++ copyUpTo fuel (offset + chunk) (size - chunk)

/-- Copies of a run. -/
def emitCopy (offset size : Nat) : Bytes := copyUpTo size offset size

/-- The instructions for what is left of the target, after bytes waiting to be inserted. -/
def scan (base : Bytes) (index : BTreeMap Nat Nat) : Nat → Bytes → Bytes → Bytes
  | 0, _, pending => flushInsert pending
  | _ + 1, [], pending => flushInsert pending
  | fuel + 1, b :: target, pending =>
    match findMatch base index (b :: target) with
    | some (p, len) =>
      flushInsert pending ++ (emitCopy p len ++ scan base index fuel ((b :: target).drop len) [])
    | none =>
      if (pending ++ [b]).length = 127 then
        flushInsert (pending ++ [b]) ++ scan base index fuel target []
      else scan base index fuel target (pending ++ [b])

end Delta

/-- A delta that rebuilds a target from a base. -/
def createDelta (base target : Bytes) : Bytes :=
  Base128.groups base.length ++ (Base128.groups target.length ++
    scan base (indexBase base) target.length target [])

namespace Delta

/-! ## Running instructions -/

theorem readSelected_length {opcode bit : Nat} : ∀ {n i value : Nat} {data : Bytes} {v : Nat}
    {rest : Bytes}, readSelected opcode bit n i value data = .ok (v, rest) →
    rest.length ≤ data.length := by
  intro n
  induction n with
  | zero =>
    intro i value data v rest h
    cases h
    exact le_refl _
  | succ n ih =>
    intro i value data v rest h
    rw [readSelected] at h
    split at h
    · cases data with
      | nil => cases h
      | cons b data =>
        have hrest : rest.length ≤ data.length := ih h
        rw [List.length_cons]
        omega
    · exact ih h

theorem applyOp_length {base : Bytes} {opcode : Nat} {data piece rest : Bytes}
    (h : applyOp base opcode data = .ok (piece, rest)) : rest.length ≤ data.length := by
  rw [applyOp] at h
  split at h
  · obtain ⟨⟨offset, data₁⟩, hoffset, h⟩ := except_bind_ok.mp h
    obtain ⟨⟨size, data₂⟩, hsize, h⟩ := except_bind_ok.mp h
    have h₁ : data₁.length ≤ data.length := readSelected_length hoffset
    have h₂ : data₂.length ≤ data₁.length := readSelected_length hsize
    simp only at h
    split_ifs at h <;> cases h <;> omega
  · split_ifs at h
    cases h
    rw [List.length_drop]
    omega

/-- Fuel for the instructions there can be is enough. -/
theorem applyOps_fuel {base : Bytes} : ∀ {fuel : Nat} {data out : Bytes}, data.length ≤ fuel →
    applyOps base fuel data out = runOps base data out := by
  intro fuel
  induction fuel using Nat.strongRecOn with
  | ind fuel ih =>
    intro data out h
    cases data with
    | nil => cases fuel <;> rfl
    | cons b data =>
      obtain ⟨fuel, rfl⟩ : ∃ m, fuel = m + 1 := ⟨fuel - 1, by rw [List.length_cons] at h; omega⟩
      rw [List.length_cons] at h
      rw [runOps, List.length_cons, applyOps, applyOps]
      cases hop : applyOp base b.toNat data with
      | error e => rfl
      | ok r =>
        obtain ⟨piece, rest⟩ := r
        have hrest : rest.length ≤ data.length := applyOp_length hop
        show applyOps base fuel rest _ = applyOps base data.length rest _
        rw [ih fuel (by omega) (by omega), ih data.length (by omega) hrest]

@[simp] theorem runOps_nil (base out : Bytes) : runOps base [] out = .ok out := rfl

theorem runOps_cons {base : Bytes} {opcode : UInt8} {data piece rest out : Bytes}
    (h : applyOp base opcode.toNat data = .ok (piece, rest)) :
    runOps base (opcode :: data) out = runOps base rest (out ++ piece) := by
  rw [runOps, List.length_cons, applyOps, h]
  exact applyOps_fuel (applyOp_length h)

/-- Run against `base`, the instructions `ops` append `piece`. -/
def Emits (base ops piece : Bytes) : Prop :=
  ∀ rest out, runOps base (ops ++ rest) out = runOps base rest (out ++ piece)

theorem Emits.nil (base : Bytes) : Emits base [] [] := by
  intro rest out
  rw [List.nil_append, List.append_nil]

theorem Emits.append {base ops ops' piece piece' : Bytes} (h : Emits base ops piece)
    (h' : Emits base ops' piece') : Emits base (ops ++ ops') (piece ++ piece') := by
  intro rest out
  rw [List.append_assoc, h, h', List.append_assoc]

/-- An instruction that leaves what follows it. -/
theorem Emits.op {base piece : Bytes} {opcode : UInt8} {args : Bytes}
    (h : ∀ rest, applyOp base opcode.toNat (args ++ rest) = .ok (piece, rest)) :
    Emits base (opcode :: args) piece := by
  intro rest out
  rw [List.cons_append, runOps_cons (h rest)]

/-! ## Insertions -/

theorem emits_insert (base : Bytes) {piece : Bytes} (h0 : piece ≠ []) (h : piece.length ≤ 127) :
    Emits base (UInt8.ofNat piece.length :: piece) piece := by
  have hpos : 0 < piece.length := List.length_pos_iff.mpr h0
  have hop : (UInt8.ofNat piece.length).toNat = piece.length := UInt8.toNat_ofNat_of_lt' (by
    show piece.length < 256
    omega)
  apply Emits.op
  intro rest
  rw [hop, applyOp, if_neg (by rw [Nat.testBit_lt_two_pow (by omega)]; simp), if_pos (by omega),
    if_neg (by rw [List.length_append]; omega), List.take_left, List.drop_left]

theorem emits_flushUpTo (base : Bytes) : ∀ (fuel : Nat) (pending : Bytes),
    pending.length ≤ fuel → Emits base (flushUpTo fuel pending) pending := by
  intro fuel
  induction fuel with
  | zero =>
    intro pending h
    rw [List.length_eq_zero_iff.mp (Nat.le_zero.mp h)]
    exact Emits.nil base
  | succ fuel ih =>
    intro pending h
    rw [flushUpTo]
    split
    · next h0 =>
      rw [h0]
      exact Emits.nil base
    · next h0 =>
      have hpos : 0 < pending.length := List.length_pos_iff.mpr h0
      have hlen : (pending.take 127).length = min pending.length 127 := by
        rw [List.length_take, Nat.min_comm]
      have hne : pending.take 127 ≠ [] := List.ne_nil_of_length_pos (by omega)
      have hfirst := emits_insert base hne (by omega)
      have hrest := ih (pending.drop 127) (by rw [List.length_drop]; omega)
      rw [hlen] at hfirst
      simpa [List.take_append_drop] using hfirst.append hrest

theorem emits_flushInsert (base pending : Bytes) : Emits base (flushInsert pending) pending :=
  emits_flushUpTo base _ pending (le_refl _)

/-! ## Copies -/

/-- The bytes a field is emitted as are read back as the field. -/
theorem exists_emitSelected (bit value : Nat) : ∀ (n i : Nat) (acc : Nat × Bytes), ∃ field,
    (emitSelected bit value n i acc).2 = acc.2 ++ field ∧ field.length ≤ n ∧
    ∀ code rest, (∀ k, i ≤ k → k < i + n →
        (code.testBit (bit + k) = true ↔ value >>> (8 * k) % 256 ≠ 0)) →
      readSelected code bit n i (value % 256 ^ i) (field ++ rest) =
        .ok (value % 256 ^ (i + n), rest) := by
  intro n
  induction n with
  | zero =>
    intro i acc
    exact ⟨[], by simp [emitSelected], le_refl _, fun code rest _ => rfl⟩
  | succ n ih =>
    intro i acc
    obtain ⟨opcode, out⟩ := acc
    -- the bytes up to `i`, with byte `i` put above those below it
    have hstep : value % 256 ^ i ||| (value >>> (8 * i) % 256) <<< (8 * i) =
        value % 256 ^ (i + 1) := by
      have hpow : (256 : Nat) ^ i = 2 ^ (8 * i) := by rw [Nat.pow_mul]
      have hlt : value % 256 ^ i < 2 ^ (8 * i) := hpow ▸ Nat.mod_lt _ (Nat.pow_pos (by omega))
      rw [Nat.mod_pow_succ, Nat.or_comm, ← Nat.shiftLeft_add_eq_or_of_lt hlt, Nat.shiftLeft_eq,
        Nat.shiftRight_eq_div_pow, hpow]
      ring
    rw [emitSelected]
    by_cases hb : value >>> (8 * i) % 256 = 0
    · obtain ⟨field, hout, hlen, hread⟩ := ih (i + 1) (opcode, out)
      refine ⟨field, by simpa [hb] using hout, by omega, ?_⟩
      intro code rest hcode
      have hbit : ¬ code.testBit (bit + i) = true :=
        fun h => (hcode i (le_refl i) (by omega)).mp h hb
      have hval : value % 256 ^ i = value % 256 ^ (i + 1) := by
        rw [← hstep, hb]
        simp
      have hnext := hread code rest fun k hk hk' => hcode k (by omega) (by omega)
      rw [readSelected, if_neg hbit, hval, hnext, Nat.add_right_comm, Nat.add_assoc]
    · obtain ⟨field, hout, hlen, hread⟩ := ih (i + 1)
        (opcode ||| 1 <<< (bit + i), out ++ [UInt8.ofNat (value >>> (8 * i) % 256)])
      refine ⟨UInt8.ofNat (value >>> (8 * i) % 256) :: field, by simpa [hb] using hout,
        by rw [List.length_cons]; omega, ?_⟩
      intro code rest hcode
      have hbit : code.testBit (bit + i) = true := (hcode i (le_refl i) (by omega)).mpr hb
      have hbyte : (UInt8.ofNat (value >>> (8 * i) % 256)).toNat = value >>> (8 * i) % 256 :=
        UInt8.toNat_ofNat_of_lt' (Nat.mod_lt _ (by decide))
      have hnext := hread code rest fun k hk hk' => hcode k (by omega) (by omega)
      rw [readSelected, if_pos hbit, List.cons_append, nextByte, hbyte]
      show readSelected code bit n (i + 1) (value % 256 ^ i ||| _) _ = _
      rw [hstep, hnext, Nat.add_right_comm, Nat.add_assoc]

/-- The bits of the opcode a field selects its bytes with. -/
theorem testBit_emitSelected (bit value j : Nat) : ∀ (n i opcode : Nat) (out : Bytes),
    (emitSelected bit value n i (opcode, out)).1.testBit j = true ↔
      opcode.testBit j = true ∨
        ∃ k, i ≤ k ∧ k < i + n ∧ j = bit + k ∧ value >>> (8 * k) % 256 ≠ 0 := by
  intro n
  induction n with
  | zero =>
    intro i opcode out
    simp only [emitSelected]
    constructor
    · exact Or.inl
    · rintro (h | ⟨k, hk, hk', -⟩)
      · exact h
      · omega
  | succ n ih =>
    intro i opcode out
    rw [emitSelected]
    by_cases hb : value >>> (8 * i) % 256 = 0
    · rw [if_neg (by simpa using hb), ih]
      constructor
      · rintro (h | ⟨k, hk, hk', hj⟩)
        · exact Or.inl h
        · exact Or.inr ⟨k, by omega, by omega, hj⟩
      · rintro (h | ⟨k, hk, hk', hj, hv⟩)
        · exact Or.inl h
        · have hne : k ≠ i := by
            rintro rfl
            exact hv hb
          exact Or.inr ⟨k, by omega, by omega, hj, hv⟩
    · have hone : (1 <<< (bit + i)).testBit j = true ↔ j = bit + i := by
        rw [Nat.one_shiftLeft, Nat.testBit_two_pow, decide_eq_true_iff]
        exact eq_comm
      rw [if_pos hb, ih, Nat.testBit_or, Bool.or_eq_true, hone]
      constructor
      · rintro ((h | h) | ⟨k, hk, hk', hj⟩)
        · exact Or.inl h
        · exact Or.inr ⟨i, le_refl i, by omega, h, hb⟩
        · exact Or.inr ⟨k, by omega, by omega, hj⟩
      · rintro (h | ⟨k, hk, hk', hj, hv⟩)
        · exact Or.inl (Or.inl h)
        · by_cases hki : k = i
          · exact Or.inl (Or.inr (hki ▸ hj))
          · exact Or.inr ⟨k, by omega, by omega, hj, hv⟩

/-- The opcode of a copy. -/
theorem testBit_copy (offset chunk j : Nat) :
    (emitSelected 4 chunk 3 0 (emitSelected 0 offset 4 0 (0x80, []))).1.testBit j = true ↔
      j = 7 ∨ (j < 4 ∧ offset >>> (8 * j) % 256 ≠ 0) ∨
        (4 ≤ j ∧ j < 7 ∧ chunk >>> (8 * (j - 4)) % 256 ≠ 0) := by
  have htop : (0x80 : Nat).testBit j = true ↔ j = 7 := by
    rw [show (0x80 : Nat) = 2 ^ 7 from rfl, Nat.testBit_two_pow, decide_eq_true_iff]
    exact eq_comm
  rw [testBit_emitSelected, testBit_emitSelected, htop, or_assoc]
  refine or_congr_right (or_congr ?_ ?_)
  · constructor
    · rintro ⟨k, -, hk, rfl, hv⟩
      exact ⟨by omega, by simpa using hv⟩
    · rintro ⟨hj, hv⟩
      exact ⟨j, by omega, by omega, by omega, hv⟩
  · constructor
    · rintro ⟨k, -, hk, rfl, hv⟩
      exact ⟨by omega, by omega, by simpa using hv⟩
    · rintro ⟨hj, hj', hv⟩
      exact ⟨j - 4, by omega, by omega, by omega, hv⟩

theorem length_copyOp_le (offset chunk : Nat) : (copyOp offset chunk).length ≤ 8 := by
  obtain ⟨f, hf, hflen, -⟩ := exists_emitSelected 0 offset 4 0 (0x80, [])
  obtain ⟨g, hg, hglen, -⟩ := exists_emitSelected 4 chunk 3 0
    (emitSelected 0 offset 4 0 (0x80, []))
  rw [copyOp, List.length_cons, hg, hf, List.nil_append, List.length_append]
  omega

/-- A copy of a run that lies in the base. -/
theorem emits_copyOp {base : Bytes} {offset chunk : Nat} (hbase : base.length ≤ 2 ^ 32)
    (h0 : 0 < chunk) (hchunk : chunk ≤ maxCopy) (h : offset + chunk ≤ base.length) :
    Emits base (copyOp offset chunk) ((base.drop offset).take chunk) := by
  have hoffset : offset % 256 ^ 4 = offset := Nat.mod_eq_of_lt (by omega)
  have hsize : chunk % 256 ^ 3 = chunk := Nat.mod_eq_of_lt (by rw [maxCopy] at hchunk; omega)
  obtain ⟨f, hf, -, hreadf⟩ := exists_emitSelected 0 offset 4 0 (0x80, [])
  obtain ⟨g, hg, -, hreadg⟩ := exists_emitSelected 4 chunk 3 0
    (emitSelected 0 offset 4 0 (0x80, []))
  have hbits := testBit_copy offset chunk
  have hcode :
    (UInt8.ofNat (emitSelected 4 chunk 3 0 (emitSelected 0 offset 4 0 (0x80, []))).1).toNat
      = (emitSelected 4 chunk 3 0 (emitSelected 0 offset 4 0 (0x80, []))).1 := by
    apply UInt8.toNat_ofNat_of_lt'
    apply Nat.lt_pow_two_of_testBit (n := 8)
    intro j hj
    rw [Bool.eq_false_iff]
    intro htrue
    rcases (hbits j).mp htrue with h | ⟨h, -⟩ | ⟨-, h, -⟩ <;> omega
  have hcopy : copyOp offset chunk = UInt8.ofNat
      (emitSelected 4 chunk 3 0 (emitSelected 0 offset 4 0 (0x80, []))).1 :: (f ++ g) := by
    rw [copyOp, hg, hf, List.nil_append]
  rw [hcopy]
  apply Emits.op
  intro rest
  rw [hcode, applyOp, if_pos ((hbits 7).mpr (Or.inl rfl)), List.append_assoc]
  have hf' := hreadf _ (g ++ rest) fun k _ hk => by
    rw [Nat.zero_add, hbits]
    constructor
    · rintro (h | ⟨-, hv⟩ | ⟨h, -⟩)
      · omega
      · exact hv
      · omega
    · intro hv
      exact Or.inr (Or.inl ⟨by omega, hv⟩)
  have hg' := hreadg _ rest fun k _ hk => by
    rw [hbits]
    constructor
    · rintro (h | ⟨h, -⟩ | ⟨-, -, hv⟩)
      · omega
      · omega
      · simpa using hv
    · intro hv
      exact Or.inr (Or.inr ⟨by omega, by omega, by simpa using hv⟩)
  simp only [Nat.pow_zero, Nat.mod_one, Nat.zero_add, hoffset, hsize] at hf' hg'
  rw [hf']
  show (readSelected _ 4 3 0 0 (g ++ rest) >>= _) = _
  rw [hg']
  show (if 2 ^ 64 ≤ offset + (if chunk = 0 then 0x10000 else chunk) then _ else _) = _
  rw [if_neg (by omega : chunk ≠ 0), if_neg (by omega), if_neg (by omega)]

theorem emits_copyUpTo {base : Bytes} (hbase : base.length ≤ 2 ^ 32) : ∀ (fuel offset size : Nat),
    size ≤ fuel → offset + size ≤ base.length →
    Emits base (copyUpTo fuel offset size) ((base.drop offset).take size) := by
  intro fuel
  induction fuel with
  | zero =>
    intro offset size hs _
    rw [Nat.le_zero.mp hs, List.take_zero]
    exact Emits.nil base
  | succ fuel ih =>
    intro offset size hs h
    rw [copyUpTo]
    split
    · next h0 =>
      rw [h0, List.take_zero]
      exact Emits.nil base
    · next h0 =>
      have hchunk : 0 < min size maxCopy := by
        rw [maxCopy]
        omega
      have hrun : (base.drop offset).take size = (base.drop offset).take (min size maxCopy) ++
          (base.drop (offset + min size maxCopy)).take (size - min size maxCopy) := by
        rw [← List.drop_drop, ← List.take_add]
        congr 1
        omega
      have hfirst := emits_copyOp hbase hchunk (Nat.min_le_right _ _)
        (by omega : offset + min size maxCopy ≤ base.length)
      have hrest := ih (offset + min size maxCopy) (size - min size maxCopy) (by omega) (by omega)
      rw [hrun]
      exact hfirst.append hrest

theorem emits_emitCopy {base : Bytes} {offset size : Nat} (hbase : base.length ≤ 2 ^ 32)
    (h : offset + size ≤ base.length) :
    Emits base (emitCopy offset size) ((base.drop offset).take size) :=
  emits_copyUpTo hbase size offset size (le_refl _) h

/-! ## The scan -/

theorem take_runLength : ∀ (as bs : Bytes), as.take (runLength as bs) =
    bs.take (runLength as bs) := by
  intro as
  induction as with
  | nil =>
    intro bs
    simp [runLength]
  | cons a as ih =>
    intro bs
    cases bs with
    | nil => simp [runLength]
    | cons b bs =>
      rw [runLength]
      split
      · next hab => rw [List.take_succ_cons, List.take_succ_cons, ih bs, hab]
      · rfl

theorem runLength_le : ∀ (as bs : Bytes), runLength as bs ≤ as.length ∧
    runLength as bs ≤ bs.length := by
  intro as
  induction as with
  | nil =>
    intro bs
    simp [runLength]
  | cons a as ih =>
    intro bs
    cases bs with
    | nil => simp [runLength]
    | cons b bs =>
      have hle := ih bs
      rw [runLength, List.length_cons, List.length_cons]
      split <;> omega

/-- A match is a run of the base that the target starts with. -/
theorem findMatch_some {base target : Bytes} {index : BTreeMap Nat Nat} {p len : Nat}
    (h : findMatch base index target = some (p, len)) : block ≤ len ∧ p + len ≤ base.length ∧
      len ≤ target.length ∧ (base.drop p).take len = target.take len := by
  rw [findMatch] at h
  split at h
  · cases h
  next htarget =>
  split at h
  · next q _ =>
    split at h
    · next hwindow =>
      cases h
      have hbase : p + block ≤ base.length := by
        have hlen := congrArg List.length hwindow
        rw [List.length_take, List.length_take, List.length_drop] at hlen
        rw [block] at *
        omega
      have hle := runLength_le (base.drop (p + block)) (target.drop block)
      rw [List.length_drop, List.length_drop] at hle
      refine ⟨by omega, by omega, by omega, ?_⟩
      rw [List.take_add, List.take_add, hwindow, List.drop_drop, take_runLength]
    · cases h
  · cases h

/-- The instructions of the scan append what was waiting and what is left of the target. -/
theorem emits_scan {base : Bytes} (hbase : base.length ≤ 2 ^ 32) (index : BTreeMap Nat Nat) :
    ∀ (fuel : Nat) (target pending : Bytes), target.length ≤ fuel →
    Emits base (scan base index fuel target pending) (pending ++ target) := by
  intro fuel
  induction fuel with
  | zero =>
    intro target pending h
    rw [List.length_eq_zero_iff.mp (Nat.le_zero.mp h), List.append_nil]
    exact emits_flushInsert base pending
  | succ fuel ih =>
    intro target pending h
    cases target with
    | nil =>
      rw [List.append_nil]
      exact emits_flushInsert base pending
    | cons b target =>
      rw [List.length_cons] at h
      rw [scan]
      split
      · next p len hmatch =>
        obtain ⟨hblock, hp, hlen, hrun⟩ := findMatch_some hmatch
        have hpos : 0 < len := by
          rw [block] at hblock
          omega
        have hcopy := emits_emitCopy hbase hp
        have hrest := ih ((b :: target).drop len) [] (by
          rw [List.length_drop, List.length_cons]
          omega)
        rw [hrun] at hcopy
        have hall := (emits_flushInsert base pending).append (hcopy.append hrest)
        rwa [List.nil_append, List.take_append_drop] at hall
      · split
        · have hall := (emits_flushInsert base (pending ++ [b])).append (ih target [] (by omega))
          rwa [List.nil_append, List.append_assoc, List.singleton_append] at hall
        · have hrest := ih target (pending ++ [b]) (by omega)
          rwa [List.append_assoc, List.singleton_append] at hrest

theorem readVarint_groups {n : Nat} (hn : n < 2 ^ 64) (rest : Bytes) :
    readVarint (Base128.groups n ++ rest) = .ok (n, rest) := by
  have hzero : 0 < 2 ^ 0 := by decide
  have hread := Base128.readGroups_groups unexpectedEnd (.pack (str "delta: varint overflow")) rest
    n hzero (by omega) (by omega)
  rw [readVarint, hread]
  simp

end Delta

/-- Whatever index of the base the target is scanned with, the instructions rebuild it. -/
theorem applyDelta_scan {base target : Bytes} (index : BTreeMap Nat Nat)
    (hbase : base.length ≤ 2 ^ 32) (htarget : target.length ≤ maxTargetSize) :
    applyDelta base (Base128.groups base.length ++ (Base128.groups target.length ++
      scan base index target.length target [])) = .ok target := by
  have hscan : runOps base (scan base index target.length target []) [] = .ok target := by
    have hemits := emits_scan hbase index target.length target [] (le_refl _) [] []
    simpa using hemits
  have hmax : maxTargetSize < 2 ^ 64 := by decide
  rw [applyDelta, readVarint_groups (by omega)]
  show (if base.length ≠ base.length then _ else _) = _
  rw [if_neg (by simp), readVarint_groups (by omega)]
  show (if maxTargetSize < target.length then _ else _) = _
  rw [if_neg (by omega), hscan]
  show (if target.length ≠ target.length then _ else _) = _
  rw [if_neg (by simp)]

/-- **A delta created from a base and a target rebuilds the target.** -/
theorem applyDelta_createDelta {base target : Bytes} (hbase : base.length ≤ 2 ^ 32)
    (htarget : target.length ≤ maxTargetSize) :
    applyDelta base (createDelta base target) = .ok target :=
  applyDelta_scan (indexBase base) hbase htarget

theorem applyDelta_createDelta_fox : (bytes "the quick brown fox jumps").length ≤ 2 ^ 32 ∧
    applyDelta (bytes "the quick brown fox jumps") (createDelta (bytes "the quick brown fox jumps")
      (bytes "a quick brown fox jumps")) = .ok (bytes "a quick brown fox jumps") :=
  ⟨by decide, applyDelta_createDelta (by decide) (by decide)⟩

example : createDelta (bytes "the quick brown fox jumps") (bytes "a quick brown fox jumps") =
    [25, 23, 1, 97, 0x91, 3, 22] := by
  decide

namespace Delta

/-! ## The length of a delta -/

theorem length_flushUpTo_le : ∀ (fuel : Nat) (pending : Bytes),
    (flushUpTo fuel pending).length ≤ 2 * pending.length := by
  intro fuel
  induction fuel with
  | zero =>
    intro pending
    simp [flushUpTo]
  | succ fuel ih =>
    intro pending
    rw [flushUpTo]
    split
    · simp
    · next h0 =>
      have hpos : 0 < pending.length := List.length_pos_iff.mpr h0
      have hrest := ih (pending.drop 127)
      rw [List.length_drop] at hrest
      rw [List.cons_append, List.length_cons, List.length_append, List.length_take]
      omega

theorem length_copyUpTo_le : ∀ (fuel offset size : Nat),
    (copyUpTo fuel offset size).length ≤ size + 7 := by
  intro fuel
  induction fuel with
  | zero =>
    intro offset size
    simp [copyUpTo]
  | succ fuel ih =>
    intro offset size
    rw [copyUpTo]
    split
    · simp
    · next h0 =>
      have hfirst := length_copyOp_le offset (min size maxCopy)
      have hrest := ih (offset + min size maxCopy) (size - min size maxCopy)
      have hmax : 8 ≤ maxCopy := by decide
      rw [List.length_append]
      by_cases hle : size ≤ maxCopy
      · have hzero : size - min size maxCopy = 0 := by omega
        have hnone : (copyUpTo fuel (offset + min size maxCopy) 0).length = 0 := by
          cases fuel <;> simp [copyUpTo]
        rw [hzero, hnone]
        omega
      · omega

theorem length_scan_le (base : Bytes) (index : BTreeMap Nat Nat) : ∀ (fuel : Nat)
    (target pending : Bytes), target.length ≤ fuel →
    (scan base index fuel target pending).length ≤ 2 * (pending.length + target.length) := by
  intro fuel
  induction fuel with
  | zero =>
    intro target pending h
    have hflush := length_flushUpTo_le pending.length pending
    rw [scan, flushInsert]
    omega
  | succ fuel ih =>
    intro target pending h
    cases target with
    | nil =>
      have hflush := length_flushUpTo_le pending.length pending
      rw [scan, flushInsert]
      omega
    | cons b target =>
      rw [List.length_cons] at h ⊢
      rw [scan]
      split
      · next p len hmatch =>
        obtain ⟨hblock, -, hlen, -⟩ := findMatch_some hmatch
        rw [block] at hblock
        rw [List.length_cons] at hlen
        have hflush := length_flushUpTo_le pending.length pending
        have hcopy := length_copyUpTo_le len p len
        have hrest := ih ((b :: target).drop len) [] (by
          rw [List.length_drop, List.length_cons]
          omega)
        rw [List.length_drop, List.length_cons, List.length_nil] at hrest
        rw [List.length_append, List.length_append, flushInsert, emitCopy]
        omega
      · split
        · have hflush := length_flushUpTo_le (pending ++ [b]).length (pending ++ [b])
          have hrest := ih target [] (by omega)
          rw [List.length_append, List.length_singleton] at hflush
          rw [List.length_nil] at hrest
          rw [List.length_append, flushInsert, List.length_append, List.length_singleton]
          omega
        · have hrest := ih target (pending ++ [b]) (by omega)
          rw [List.length_append, List.length_singleton] at hrest
          omega

theorem length_createDelta_le (base target : Bytes) :
    (createDelta base target).length ≤ base.length + 3 * target.length + 2 := by
  have hbase := Base128.length_groups_le base.length
  have htarget := Base128.length_groups_le target.length
  have hscan := length_scan_le base (indexBase base) target.length target [] (le_refl _)
  rw [List.length_nil] at hscan
  rw [createDelta, List.length_append, List.length_append]
  omega

/-! ## How long the output gets

The declared size is compared with the output when all instructions have run.  Until then the
output is as long as the lengths that the instructions name, which `outputLength` adds up without
carrying them out.
-/

/-- The declared size and the instructions of a delta, where the loop is entered. -/
def instructions (base delta : Bytes) : Option (Nat × Bytes) :=
  match readVarint delta with
  | .error _ => none
  | .ok (baseSize, data) =>
    if baseSize ≠ base.length then none
    else match readVarint data with
      | .error _ => none
      | .ok (targetSize, data) =>
        if maxTargetSize < targetSize then none else some (targetSize, data)

/-- One turn of the loop, from what is left of the delta and the output so far. -/
inductive Turn (base : Bytes) : Bytes × Bytes → Bytes × Bytes → Prop
  | op {opcode : UInt8} {data rest out piece : Bytes}
      (run : applyOp base opcode.toNat data = .ok (piece, rest)) :
      Turn base (opcode :: data, out) (rest, out ++ piece)

/-- The output is `out` before some turn of the loop, and its declared size is `targetSize`. -/
def OutputAt (base delta : Bytes) (targetSize : Nat) (out : Bytes) : Prop :=
  ∃ data rest, instructions base delta = some (targetSize, data) ∧
    Relation.ReflTransGen (Turn base) (data, []) (rest, out)

/-- How many bytes an instruction names, and what follows it. -/
def opLength (base : Nat) (opcode : Nat) (data : Bytes) : Except Error (Nat × Bytes) :=
  if opcode.testBit 7 then do
    let (offset, data) ← readSelected opcode 0 4 0 0 data
    let (size, data) ← readSelected opcode 4 3 0 0 data
    let size := if size = 0 then 0x10000 else size
    if 2 ^ 64 ≤ offset + size ∨ base < offset + size then .error unexpectedEnd else .ok (size, data)
  else if opcode = 0 ∨ data.length < opcode then .error unexpectedEnd
  else .ok (opcode, data.drop opcode)

/-- The lengths of at most `fuel` instructions, up to the first that cannot be carried out. -/
def outputLength (base : Nat) : Nat → Bytes → Nat
  | 0, _ => 0
  | _ + 1, [] => 0
  | fuel + 1, opcode :: data =>
    match opLength base opcode.toNat data with
    | .ok (n, rest) => n + outputLength base fuel rest
    | .error _ => 0

/-- An instruction appends as many bytes as it names. -/
theorem opLength_ok {base : Bytes} {opcode n : Nat} {data rest : Bytes} :
    opLength base.length opcode data = .ok (n, rest) ↔
      ∃ piece, applyOp base opcode data = .ok (piece, rest) ∧ piece.length = n := by
  unfold opLength applyOp
  by_cases hcopy : opcode.testBit 7 = true
  · rw [if_pos hcopy, if_pos hcopy]
    cases hoffset : readSelected opcode 0 4 0 0 data with
    | error e => simp [bind, Except.bind]
    | ok r =>
      obtain ⟨offset, data₁⟩ := r
      cases hsize : readSelected opcode 4 3 0 0 data₁ with
      | error e =>
        simp only [bind, Except.bind, hsize]
        simp
      | ok r =>
        obtain ⟨size, data₂⟩ := r
        simp only [bind, Except.bind, hsize]
        generalize (if size = 0 then 0x10000 else size) = size
        by_cases hover : 2 ^ 64 ≤ offset + size
        · rw [if_pos (Or.inl hover), if_pos hover]
          simp
        by_cases hpast : base.length < offset + size
        · rw [if_pos (Or.inr hpast), if_neg hover, if_pos hpast]
          simp
        rw [if_neg (not_or.mpr ⟨hover, hpast⟩), if_neg hover, if_neg hpast]
        have hlen : ((base.drop offset).take size).length = size := by
          rw [List.length_take, List.length_drop]
          omega
        constructor
        · intro h
          cases h
          exact ⟨_, rfl, hlen⟩
        · rintro ⟨piece, h, rfl⟩
          cases h
          rw [hlen]
  · rw [if_neg hcopy, if_neg hcopy]
    by_cases hzero : opcode = 0
    · rw [if_pos (Or.inl hzero), if_neg (not_not.mpr hzero)]
      simp
    by_cases hshort : data.length < opcode
    · rw [if_pos (Or.inr hshort), if_pos hzero, if_pos hshort]
      simp
    rw [if_neg (not_or.mpr ⟨hzero, hshort⟩), if_pos hzero, if_neg hshort]
    have hlen : (data.take opcode).length = opcode := by
      rw [List.length_take]
      omega
    constructor
    · intro h
      cases h
      exact ⟨_, rfl, hlen⟩
    · rintro ⟨piece, h, rfl⟩
      cases h
      rw [hlen]

/-- The loop ends with an output if turns lead to it. -/
theorem runOps_ok {base data out target : Bytes} : runOps base data out = .ok target ↔
    Relation.ReflTransGen (Turn base) (data, out) ([], target) := by
  constructor
  · intro hrun
    induction hlen : data.length using Nat.strongRecOn generalizing data out with
    | ind n ih =>
      cases data with
      | nil =>
        cases hrun
        exact .refl
      | cons opcode data =>
        rw [runOps, List.length_cons, applyOps] at hrun
        obtain ⟨⟨piece, rest⟩, hop, hrun⟩ := except_bind_ok.mp hrun
        have hrest := applyOp_length hop
        simp only [applyOps_fuel hrest] at hrun
        rw [List.length_cons] at hlen
        exact .head (.op hop) (ih rest.length (by omega) hrun rfl)
  · intro hturns
    generalize hs : (data, out) = s at hturns
    induction hturns using Relation.ReflTransGen.head_induction_on generalizing data out with
    | refl =>
      cases hs
      exact runOps_nil _ _
    | head hturn _ ih =>
      subst hs
      cases hturn with
      | op hop =>
        rw [runOps_cons hop]
        exact ih rfl

/-- A delta rebuilds a target if it declares its length and turns lead to it. -/
theorem applyDelta_ok {base delta target : Bytes} : applyDelta base delta = .ok target ↔
    ∃ data, instructions base delta = some (target.length, data) ∧
      Relation.ReflTransGen (Turn base) (data, []) ([], target) := by
  unfold applyDelta instructions
  cases hbase : readVarint delta with
  | error e => simp [bind, Except.bind]
  | ok r =>
    obtain ⟨baseSize, data⟩ := r
    simp only [bind, Except.bind]
    by_cases hsize : baseSize ≠ base.length
    · rw [if_pos hsize, if_pos hsize]
      simp
    rw [if_neg hsize, if_neg hsize]
    cases htarget : readVarint data with
    | error e => simp
    | ok r =>
      obtain ⟨targetSize, rest⟩ := r
      simp only
      by_cases hmax : maxTargetSize < targetSize
      · rw [if_pos hmax, if_pos hmax]
        simp
      rw [if_neg hmax, if_neg hmax]
      constructor
      · intro h
        obtain ⟨out, hrun, h⟩ := except_bind_ok.mp h
        split at h
        · cases h
        next hlen =>
        cases h
        exact ⟨rest, by rw [not_not.mp hlen], runOps_ok.mp hrun⟩
      · rintro ⟨data', h, hturns⟩
        cases h
        refine except_bind_ok.mpr ⟨target, runOps_ok.mpr hturns, ?_⟩
        rw [if_neg (not_not.mpr rfl)]

/-- No turn makes the output longer than the instructions say. -/
theorem length_le_outputLength {base : Bytes} {s s' : Bytes × Bytes}
    (h : Relation.ReflTransGen (Turn base) s s') {fuel : Nat} (hfuel : s.1.length ≤ fuel) :
    s'.2.length ≤ s.2.length + outputLength base.length fuel s.1 := by
  induction h using Relation.ReflTransGen.head_induction_on generalizing fuel with
  | refl => exact Nat.le_add_right _ _
  | head hturn _ ih =>
    cases hturn with
    | @op opcode data rest out piece hop =>
      rw [List.length_cons] at hfuel
      obtain ⟨fuel, rfl⟩ : ∃ m, fuel = m + 1 := ⟨fuel - 1, by omega⟩
      have hrest := applyOp_length hop
      have hfits : rest.length ≤ fuel := by omega
      have hlen := ih hfits
      simp only [List.length_append] at hlen
      simp only [outputLength, opLength_ok.mpr ⟨piece, hop, rfl⟩]
      omega

/-- Some turn makes the output as long as the instructions say. -/
theorem exists_outputLength (base : Bytes) (fuel : Nat) (data out : Bytes) : ∃ s,
    Relation.ReflTransGen (Turn base) (data, out) s ∧
      s.2.length = out.length + outputLength base.length fuel data := by
  induction fuel generalizing data out with
  | zero => exact ⟨_, .refl, rfl⟩
  | succ fuel ih =>
    cases data with
    | nil => exact ⟨_, .refl, rfl⟩
    | cons opcode data =>
      rw [outputLength]
      cases hop : opLength base.length opcode.toNat data with
      | error e => exact ⟨_, .refl, rfl⟩
      | ok r =>
        obtain ⟨n, rest⟩ := r
        obtain ⟨piece, hpiece, hlen⟩ := opLength_ok.mp hop
        obtain ⟨s, hturns, hs⟩ := ih rest (out ++ piece)
        refine ⟨s, .head (.op hpiece) hturns, ?_⟩
        simp only
        rw [hs, List.length_append, hlen, Nat.add_assoc]

/-- The declared size is bounded. -/
theorem instructions_le {base delta data : Bytes} {targetSize : Nat}
    (h : instructions base delta = some (targetSize, data)) : targetSize ≤ maxTargetSize := by
  unfold instructions at h
  split at h
  · cases h
  · split_ifs at h
    split at h
    · cases h
    · split_ifs at h with hmax
      cases h
      exact Nat.le_of_not_lt hmax

/-- **The output stays below the declared size if the lengths that the instructions name do.** -/
theorem outputAt_le_iff (base delta : Bytes) :
    (∀ targetSize out, OutputAt base delta targetSize out →
      out.length ≤ targetSize ∧ out.length ≤ maxTargetSize) ↔
    ∀ targetSize data, instructions base delta = some (targetSize, data) →
      outputLength base.length data.length data ≤ targetSize := by
  constructor
  · intro h targetSize data hdata
    obtain ⟨⟨rest, out⟩, hturns, hlen⟩ := exists_outputLength base data.length data []
    have hle := (h targetSize out ⟨data, rest, hdata, hturns⟩).1
    rw [List.length_nil, Nat.zero_add] at hlen
    rwa [← hlen]
  · rintro h targetSize out ⟨data, rest, hdata, hturns⟩
    have hout := length_le_outputLength hturns (le_refl data.length)
    rw [List.length_nil, Nat.zero_add] at hout
    have hle : out.length ≤ targetSize := hout.trans (h targetSize data hdata)
    exact ⟨hle, hle.trans (instructions_le hdata)⟩

/-- A byte is inserted where none is declared. -/
theorem not_outputAt_le : ¬ ∀ base delta targetSize out, OutputAt base delta targetSize out →
    out.length ≤ targetSize ∧ out.length ≤ maxTargetSize := by
  intro h
  have hop : applyOp [] 1 [65] = .ok ([65], []) := by decide
  have hout : OutputAt [] [0, 0, 1, 65] 0 [65] :=
    ⟨[1, 65], [], by decide, .single (.op hop)⟩
  exact absurd (h _ _ _ _ hout).1 (by decide)

end Delta
end Puregit
