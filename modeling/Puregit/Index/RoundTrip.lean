import Puregit.Index

/-! # A written index is read back

The fixed fields of an entry are read back by position, its flags bit by bit and its path
either by its length, up to its NUL or on top of the previous path; `parseEntry_writeEntry`
puts them together for each version, and the entries follow by induction, each with the
path before it.  Extension blocks are read off one by one, so that what is kept of them is
what is read.
-/
namespace Puregit

/-- An entry that an index of `algo` can hold: its path is a byte vector. -/
structure IndexEntry.WellFormed (algo : HashAlgo) (e : IndexEntry) : Prop where
  algo_eq : e.id.algo = algo
  safe : isSafeIndexPath e.path = true
  stage : e.stage.toNat < 4
  length : e.path.length < 2 ^ 63

namespace Index

/-! ## Paths -/

theorem zero_notMem_of_splitOn {path : Bytes} (h : ∀ c ∈ path.splitOn slash, (0 : UInt8) ∉ c) :
    (0 : UInt8) ∉ path := by
  induction path with
  | nil => exact List.not_mem_nil
  | cons b path ih =>
    rw [List.splitOn_cons_eq_if_modifyHead] at h
    by_cases hb : b = slash
    · rw [if_pos (by simpa using hb)] at h
      rw [hb, List.mem_cons, not_or]
      exact ⟨by decide, ih fun c hc => h c (List.mem_cons_of_mem _ hc)⟩
    · rw [if_neg (by simpa using hb)] at h
      have hne := List.splitOn_ne_nil slash path
      cases hsplit : path.splitOn slash with
      | nil => exact absurd hsplit hne
      | cons c cs =>
        rw [hsplit, List.modifyHead_cons] at h
        have hhead := h (b :: c) List.mem_cons_self
        rw [List.mem_cons, not_or] at hhead ⊢
        refine ⟨hhead.1, ih fun x hx => ?_⟩
        rw [hsplit] at hx
        rcases List.mem_cons.mp hx with rfl | hx
        · exact hhead.2
        · exact h x (List.mem_cons_of_mem _ hx)

/-- A safe path holds no NUL. -/
theorem zero_notMem_of_safe {path : Bytes} (h : isSafeIndexPath path = true) :
    (0 : UInt8) ∉ path := by
  unfold isSafeIndexPath at h
  rw [Bool.and_eq_true, List.all_eq_true] at h
  refine zero_notMem_of_splitOn fun c hc hzero => ?_
  have hsafe := h.2 c hc
  unfold isSafePathComponent at hsafe
  have hbad : c.any (fun b => b == slash || b == 92 || b == 0 || b == 58) = true :=
    List.any_eq_true.mpr ⟨0, hzero, by decide⟩
  rw [hbad, if_pos rfl] at hsafe
  split_ifs at hsafe

/-- A path without a NUL ends at the NUL behind it. -/
theorem findIdx?_zero {path : Bytes} (h : (0 : UInt8) ∉ path) (rest : Bytes) :
    (path ++ 0 :: rest).findIdx? (· = 0) = some path.length := by
  rw [List.findIdx?_append]
  have hnone : path.findIdx? (· = 0) = none := by
    rw [List.findIdx?_eq_none_iff]
    intro b hb
    simpa using fun hzero : b = 0 => h (hzero ▸ hb)
  rw [hnone]
  simp [List.findIdx?_cons]

theorem commonLength_le (as bs : Bytes) :
    commonLength as bs ≤ as.length ∧ commonLength as bs ≤ bs.length := by
  induction as generalizing bs with
  | nil => exact ⟨Nat.zero_le _, Nat.zero_le _⟩
  | cons a as ih =>
    cases bs with
    | nil => exact ⟨Nat.zero_le _, Nat.zero_le _⟩
    | cons b bs =>
      unfold commonLength
      by_cases h : a = b
      · rw [if_pos h]
        exact ⟨Nat.succ_le_succ (ih bs).1, Nat.succ_le_succ (ih bs).2⟩
      · rw [if_neg h]
        exact ⟨Nat.zero_le _, Nat.zero_le _⟩

/-- The common prefix is common. -/
theorem take_commonLength (as bs : Bytes) :
    as.take (commonLength as bs) = bs.take (commonLength as bs) := by
  induction as generalizing bs with
  | nil =>
    unfold commonLength
    rfl
  | cons a as ih =>
    cases bs with
    | nil =>
      unfold commonLength
      rfl
    | cons b bs =>
      unfold commonLength
      by_cases h : a = b
      · rw [if_pos h, List.take_succ_cons, List.take_succ_cons, ih bs, h]
      · rw [if_neg h]
        rfl

/-! ## The fixed fields -/

section
variable {algo : HashAlgo} {version : Nat} {e : IndexEntry}

/-- The parts of the flags are read back. -/
theorem entryFlags_parts (version : Nat) (hstage : e.stage.toNat < 4) :
    entryFlags version e < 256 ^ 2 ∧ entryFlags version e % 2 ^ 12 = min e.path.length 0xfff ∧
      entryFlags version e / 2 ^ 12 % 4 = e.stage.toNat ∧
      (entryFlags version e / 2 ^ 14 % 2 = 1 ↔ Extended version e) ∧
      (entryFlags version e / 2 ^ 15 % 2 = 1 ↔ e.assumeValid = true) := by
  have hname : min e.path.length 0xfff < 2 ^ 12 := by omega
  unfold entryFlags
  rw [Nat.mod_eq_of_lt hstage]
  by_cases hextended : Extended version e
  · rw [if_pos hextended]
    cases hassume : e.assumeValid with
    | true =>
      rw [if_pos rfl]
      refine ⟨by omega, by omega, by omega, iff_of_true (by
        omega) hextended, iff_of_true (by omega) rfl⟩
    | false =>
      rw [if_neg (by decide)]
      refine ⟨by omega, by omega, by omega, iff_of_true (by omega) hextended, iff_of_false (by
        omega) (by decide)⟩
  · rw [if_neg hextended]
    cases hassume : e.assumeValid with
    | true =>
      rw [if_pos rfl]
      refine ⟨by omega, by omega, by omega, iff_of_false (by
        omega) hextended, iff_of_true (by omega) rfl⟩
    | false =>
      rw [if_neg (by decide)]
      refine ⟨by omega, by omega, by omega, iff_of_false (by omega) hextended, iff_of_false (by
        omega) (by decide)⟩

theorem length_entryHead (version : Nat) (he : e.id.algo = algo) :
    (entryHead version e).length = 40 + algo.rawLen + 2 + if Extended version e then 2 else 0 := by
  have hfields : e.fields.length = 10 := rfl
  unfold entryHead
  rw [List.length_append, List.length_append, List.length_append, length_table 4 UInt32.toNat,
    e.id.length_eq, he,
    Sha.length_bigEndian, hfields]
  by_cases hextended : Extended version e
  · rw [if_pos hextended, if_pos hextended, Sha.length_bigEndian]
  · rw [if_neg hextended, if_neg hextended]
    rfl

/-- **The head of an entry is read back** by position. -/
theorem entryHead_parts (version : Nat) (he : e.WellFormed algo) (tail : Bytes) :
    (∀ i x, e.fields[i]? = some x → number (entryHead version e ++ tail) (i * 4) 4 = x.toNat) ∧
      slice (entryHead version e ++ tail) 40 algo.rawLen = e.id.bytes ∧
      number (entryHead version e ++ tail) (40 + algo.rawLen) 2 = entryFlags version e ∧
      (Extended version e →
        number (entryHead version e ++ tail) (40 + algo.rawLen + 2) 2 = e.extendedFlags.toNat) := by
  have hwords : (e.fields.flatMap fun x => Sha.bigEndian 4 x.toNat).length = 40 :=
    length_table 4 UInt32.toNat e.fields
  have hid : e.id.bytes.length = algo.rawLen := by rw [e.id.length_eq, he.algo_eq]
  have hflags : (Sha.bigEndian 2 (entryFlags version e)).length = 2 := Sha.length_bigEndian _ _
  unfold entryHead
  rw [List.append_assoc, List.append_assoc, List.append_assoc]
  generalize hextended : (if Extended version e then
    Sha.bigEndian 2 e.extendedFlags.toNat else []) = extended
  generalize hw : e.fields.flatMap (fun x => Sha.bigEndian 4 x.toNat) = words at hwords
  refine ⟨fun i x hx => ?_, ?_, ?_, fun hext => ?_⟩
  · rw [← hw]
    exact number_table (fun x _ => x.toNat_lt) hx _
  · have hslice := slice_append words (e.id.bytes ++ (Sha.bigEndian 2 (entryFlags version e) ++
      (extended ++ tail))) 0 algo.rawLen
    rw [hwords, ← hid, slice_front] at hslice
    rw [← hid]
    exact hslice
  · have hnumber := number_append (words ++ e.id.bytes) (Sha.bigEndian 2 (entryFlags version e) ++
      (extended ++ tail)) 0 2
    rw [List.length_append, hwords, hid, number_bigEndian 2 (entryFlags_parts version he.stage).1,
      List.append_assoc] at hnumber
    exact hnumber
  · have hnumber := number_append (words ++ e.id.bytes ++ Sha.bigEndian 2 (entryFlags version e))
      (extended ++ tail) 0 2
    rw [List.length_append, List.length_append, hwords, hid, hflags, List.append_assoc,
      List.append_assoc] at hnumber
    rw [if_pos hext] at hextended
    rw [← hextended] at hnumber ⊢
    rw [number_bigEndian 2 (UInt16.toNat_lt e.extendedFlags)] at hnumber
    exact hnumber

/-- What is not extended has no extended flags, where they can be written or are none. -/
theorem extendedFlags_eq_zero (hold : version < 3 → e.extendedFlags = 0) (h : ¬Extended version e) :
    e.extendedFlags = 0 := by
  by_cases hversion : version < 3
  · exact hold hversion
  · exact not_not.mp fun hne => h ⟨Nat.le_of_not_lt hversion, hne⟩

/-- The extended flags are read back, and the path begins where the head ends. -/
theorem extendedFlags_entryHead (he : e.WellFormed algo) (hold : version < 3 → e.extendedFlags = 0)
    (tail : Bytes) : extendedFlags algo version (entryFlags version e)
      (entryHead version e ++ tail) =
      .ok (e.extendedFlags.toNat, (entryHead version e).length) := by
  obtain ⟨-, -, -, hflag, -⟩ := entryFlags_parts version he.stage
  obtain ⟨-, -, -, hextended⟩ := entryHead_parts version he tail
  have hlen := length_entryHead version he.algo_eq
  unfold extendedFlags
  simp only
  by_cases hext : Extended version e
  · rw [if_pos hext] at hlen
    rw [if_pos (hflag.mpr hext), if_neg (Nat.not_lt.mpr hext.1), if_neg, hextended hext, hlen]
    rw [List.length_append, hlen]
    omega
  · rw [if_neg hext] at hlen
    rw [if_neg (mt hflag.mp hext), hlen, extendedFlags_eq_zero hold hext]
    rfl

/-- An entry whose path is read back is read back. -/
theorem parseEntry_of_entryPath {prevPath tail : Bytes} {next : Nat} (he : e.WellFormed algo)
    (hold : version < 3 → e.extendedFlags = 0)
    (hpath : entryPath version (min e.path.length 0xfff) prevPath (entryHead version e ++ tail)
      (entryHead version e).length = .ok (e.path, next))
    (hnext : next ≤ (entryHead version e ++ tail).length) :
    parseEntry algo version prevPath (entryHead version e ++ tail) =
      .ok (e, (entryHead version e ++ tail).drop next) := by
  obtain ⟨-, hname, hstage, -, hassume⟩ := entryFlags_parts version he.stage
  obtain ⟨hfields, hid, hflags, -⟩ := entryHead_parts version he tail
  have hlen := length_entryHead version he.algo_eq
  have hextended := extendedFlags_entryHead he hold tail
  have hfield : ∀ i x, e.fields[i]? = some x →
      UInt32.ofNat (number (entryHead version e ++ tail) (i * 4) 4) = x := by
    intro i x hx
    rw [hfields i x hx, UInt32.ofNat_toNat]
  have hfromBytes : ObjectId.fromBytes algo (slice (entryHead version e ++ tail) 40 algo.rawLen) =
      .ok e.id := by
    rw [hid]
    unfold ObjectId.fromBytes
    have hraw : e.id.bytes.length = algo.rawLen := by rw [e.id.length_eq, he.algo_eq]
    rw [dif_pos hraw]
    exact congrArg Except.ok (ObjectId.ext_bytes he.algo_eq.symm rfl)
  unfold parseEntry
  rw [if_neg (by rw [List.length_append, hlen]; omega)]
  simp only [hfromBytes, hflags, hname, hstage]
  show (extendedFlags _ _ _ _ >>= _) = _
  rw [hextended]
  show (entryPath _ _ _ _ _ >>= _) = _
  rw [hpath]
  show (if _ < next then _ else _) = _
  rw [if_neg (Nat.not_lt.mpr hnext), if_neg (by rw [he.safe]; decide)]
  rw [hfield 0 e.ctime.1 rfl, hfield 1 e.ctime.2 rfl, hfield 2 e.mtime.1 rfl,
    hfield 3 e.mtime.2 rfl,
    hfield 4 e.dev rfl, hfield 5 e.ino rfl, hfield 6 e.mode rfl, hfield 7 e.uid rfl,
    hfield 8 e.gid rfl, hfield 9 e.size rfl, UInt8.ofNat_toNat, UInt16.ofNat_toNat]
  have hbit : decide (entryFlags version e / 2 ^ 15 % 2 = 1) = e.assumeValid := by
    rw [Bool.eq_iff_iff, decide_eq_true_eq]
    exact hassume
  rw [hbit]

/-- **A whole path is read back**, by its length or up to its NUL. -/
theorem entryPath_whole {prevPath path : Bytes} (head rest : Bytes) (hversion : ¬4 ≤ version)
    (hpath : (0 : UInt8) ∉ path) :
    entryPath version (min path.length 0xfff) prevPath (head ++ (path ++ 0 :: rest)) head.length =
      .ok (path, (head.length + path.length + 1 + 7) / 8 * 8) := by
  have hdrop : (head ++ (path ++ 0 :: rest)).drop head.length = path ++ 0 :: rest := List.drop_left
  have hslice : slice (head ++ (path ++ 0 :: rest)) head.length path.length = path := by
    have happend := slice_append head (path ++ 0 :: rest) 0 path.length
    rw [slice_front] at happend
    exact happend
  have hend : nameEnd (min path.length 0xfff) (head ++ (path ++ 0 :: rest)) head.length =
      .ok (head.length + path.length) := by
    unfold nameEnd
    by_cases hshort : path.length < 0xfff
    · rw [Nat.min_eq_left (Nat.le_of_lt hshort), if_pos hshort]
    · rw [Nat.min_eq_right (Nat.le_of_not_lt hshort), if_neg (by decide), hdrop,
        findIdx?_zero hpath]
  unfold entryPath
  rw [if_neg hversion, hend]
  show (if _ < head.length + path.length then _ else _) = _
  rw [if_neg (by simp), Nat.add_sub_cancel_left, hslice]

/-- **A path is read back on top of the previous one.** -/
theorem entryPath_suffix {prevPath path : Bytes} (head rest : Bytes) (hversion : 4 ≤ version)
    (hpath : (0 : UInt8) ∉ path) (hprev : prevPath.length < 2 ^ 63) (nameLen : Nat) :
    entryPath version nameLen prevPath
      (head ++ (Base128.biased (prevPath.length - commonLength prevPath path) ++
      (path.drop (commonLength prevPath path) ++ 0 :: rest))) head.length =
      .ok (path, head.length +
        (Base128.biased (prevPath.length - commonLength prevPath path)).length +
        (path.drop (commonLength prevPath path)).length + 1) := by
  generalize hcommon : commonLength prevPath path = common
  have hle := commonLength_le prevPath path
  have htake := take_commonLength prevPath path
  rw [hcommon] at hle htake
  have hsuffix : (0 : UInt8) ∉ path.drop common := fun h => hpath (List.mem_of_mem_drop h)
  generalize hrest : path.drop common ++ 0 :: rest = left
  generalize hstrip : Base128.biased (prevPath.length - common) = strip
  have hread : readVarint (strip ++ left) = .ok (prevPath.length - common, left) := by
    rw [← hstrip]
    exact Base128.readChecked_biased _ _ left (by omega)
  have hdrop : (head ++ (strip ++ left)).drop head.length = strip ++ left := List.drop_left
  have hpos : head.length + ((strip ++ left).length - left.length) = (head ++ strip).length := by
    rw [List.length_append, List.length_append]
    omega
  have hdrop' : (head ++ (strip ++ left)).drop (head ++ strip).length = left := by
    rw [← List.append_assoc]
    exact List.drop_left
  have hslice : slice (head ++ (strip ++ left)) (head ++ strip).length (path.drop common).length =
      path.drop common := by
    have happend := slice_append (head ++ strip) left 0 (path.drop common).length
    rw [← hrest, slice_front, List.append_assoc] at happend
    rw [← hrest]
    exact happend
  have hkeep : prevPath.take (prevPath.length - (prevPath.length - common)) = path.take common := by
    rw [Nat.sub_sub_self hle.1, htake]
  unfold entryPath
  rw [if_pos hversion, hdrop, hread]
  show (if prevPath.length < prevPath.length - common then _ else _) = _
  rw [if_neg (by omega), hpos, hdrop', ← hrest, findIdx?_zero hsuffix, hrest]
  simp only
  rw [hslice, hkeep, List.take_append_drop, List.length_append]

/-- **A written entry is read back.** -/
theorem parseEntry_writeEntry {prevPath : Bytes} (he : e.WellFormed algo)
    (hold : version < 3 → e.extendedFlags = 0) (hprev : prevPath.length < 2 ^ 63) (rest : Bytes) :
    parseEntry algo version prevPath (writeEntry version prevPath e ++ rest) = .ok (e, rest) := by
  have hzero := zero_notMem_of_safe he.safe
  unfold writeEntry
  simp only
  by_cases hversion : 4 ≤ version
  · rw [if_pos hversion]
    have hpath := entryPath_suffix (entryHead version e) rest hversion hzero hprev
      (min e.path.length 0xfff)
    generalize hstrip : Base128.biased (prevPath.length - commonLength prevPath e.path) =
      strip at hpath ⊢
    generalize hsuffix : e.path.drop (commonLength prevPath e.path) = suffix at hpath ⊢
    have hshape : entryHead version e ++ strip ++ suffix ++ [0] ++ rest =
        entryHead version e ++ (strip ++ (suffix ++ 0 :: rest)) := by simp
    have hlen : (entryHead version e ++ strip ++ suffix ++ [0]).length =
        (entryHead version e).length + strip.length + suffix.length + 1 := by simp [Nat.add_assoc]
    rw [hshape, parseEntry_of_entryPath he hold hpath]
    · rw [← hshape, List.drop_left' hlen]
    · rw [← hshape, List.length_append, hlen]
      exact Nat.le_add_right _ _
  · rw [if_neg hversion]
    generalize hzeros : List.replicate
      (((entryHead version e ++ e.path ++ [0]).length + 7) / 8 * 8 -
      (entryHead version e ++ e.path ++ [0]).length) (0 : UInt8) = zeros
    have hpath := @entryPath_whole version prevPath e.path (entryHead version e) (zeros ++ rest)
      hversion hzero
    have hshape : entryHead version e ++ e.path ++ [0] ++ zeros ++ rest =
        entryHead version e ++ (e.path ++ 0 :: (zeros ++ rest)) := by simp
    have hlen : (entryHead version e ++ e.path ++ [0] ++ zeros).length =
        ((entryHead version e).length + e.path.length + 1 + 7) / 8 * 8 := by
      have hunpadded : (entryHead version e ++ e.path ++ [0]).length =
          (entryHead version e).length + e.path.length + 1 := by simp [Nat.add_assoc]
      rw [List.length_append, ← hzeros, List.length_replicate, hunpadded]
      omega
    rw [hshape, parseEntry_of_entryPath he hold hpath]
    · rw [← hshape, List.drop_left' hlen]
    · rw [← hshape, List.length_append, hlen]
      exact Nat.le_add_right _ _

/-- **Written entries are read back**, each on top of the path before it. -/
theorem parseEntries_writeEntries {es : List IndexEntry} (hgood : ∀ e ∈ es, e.WellFormed algo)
    (hold : version < 3 → ∀ e ∈ es, e.extendedFlags = 0) {prevPath : Bytes}
    (hprev : prevPath.length < 2 ^ 63) (rest : Bytes) :
    parseEntries algo version es.length prevPath (writeEntries version prevPath es ++ rest) =
      .ok (es, rest) := by
  induction es generalizing prevPath with
  | nil => rfl
  | cons e es ih =>
    have he := hgood e List.mem_cons_self
    have hfirst := parseEntry_writeEntry he (fun hv => hold hv e List.mem_cons_self) hprev
      (writeEntries version e.path es ++ rest)
    have hothers := ih (fun e' he' => hgood e' (List.mem_cons_of_mem _ he'))
      (fun hv e' he' => hold hv e' (List.mem_cons_of_mem _ he')) he.length
    rw [List.length_cons, parseEntries, writeEntries, List.append_assoc, hfirst]
    show (parseEntries algo version es.length e.path _ >>= _) = _
    rw [hothers]
    rfl

end

/-! ## Extension blocks -/

/-- An extension block: a signature, a length and as many bytes. -/
def IsBlock (b : Bytes) : Prop := b.length = number b 4 4 + 8

/-- Extension blocks and nothing behind them. -/
def Whole (data : Bytes) : Prop := (extensionBlocks data).flatMap Prod.snd = data

instance (data : Bytes) : Decidable (Whole data) := inferInstanceAs (Decidable (_ = _))

theorem isBlock_of_mem_blocksUpTo {fuel : Nat} {data : Bytes} {x : Bytes × Bytes}
    (h : x ∈ blocksUpTo fuel data) : IsBlock x.2 ∧ x.1 = x.2.take 4 := by
  induction fuel generalizing data with
  | zero => cases h
  | succ fuel ih =>
    unfold blocksUpTo at h
    by_cases hshort : data.length < 8
    · rw [if_pos hshort] at h
      cases h
    rw [if_neg hshort] at h
    simp only at h
    by_cases hcut : data.length < number data 4 4 + 8
    · rw [if_pos hcut] at h
      cases h
    rw [if_neg hcut] at h
    rcases List.mem_cons.mp h with rfl | h
    · constructor
      · have hsame : number (data.take (number data 4 4 + 8)) 4 4 = number data 4 4 := by
          unfold number slice
          rw [List.drop_take, List.take_take, Nat.min_eq_left (by omega)]
        unfold IsBlock
        rw [hsame, List.length_take]
        omega
      · rw [List.take_take, Nat.min_eq_left (by omega)]
    · exact ih h

theorem blocksUpTo_append {fuel : Nat} {b rest : Bytes} (hb : IsBlock b) :
    blocksUpTo (fuel + 1) (b ++ rest) = (b.take 4, b) :: blocksUpTo fuel rest := by
  unfold IsBlock at hb
  have hsame : number (b ++ rest) 4 4 = number b 4 4 := by
    unfold number slice
    rw [List.drop_append_of_le_length (by omega), List.take_append_of_le_length]
    rw [List.length_drop]
    omega
  unfold blocksUpTo
  rw [if_neg (by rw [List.length_append]; omega), hsame, ← hb,
    if_neg (by rw [List.length_append]; omega), List.take_left, List.drop_left,
    List.take_append_of_le_length (by omega)]
  cases fuel <;> rfl

theorem blocksUpTo_fuel {fuel fuel' : Nat} {data : Bytes} (h : data.length ≤ fuel)
    (h' : data.length ≤ fuel') :
    blocksUpTo fuel data = blocksUpTo fuel' data := by
  induction fuel generalizing fuel' data with
  | zero =>
    obtain rfl := List.length_eq_zero_iff.mp (Nat.le_zero.mp h)
    cases fuel' with
    | zero => rfl
    | succ fuel' => rfl
  | succ fuel ih =>
    cases fuel' with
    | zero =>
      obtain rfl := List.length_eq_zero_iff.mp (Nat.le_zero.mp h')
      rfl
    | succ fuel' =>
      unfold blocksUpTo
      by_cases hshort : data.length < 8
      · rw [if_pos hshort, if_pos hshort]
      rw [if_neg hshort, if_neg hshort]
      simp only
      by_cases hcut : data.length < number data 4 4 + 8
      · rw [if_pos hcut, if_pos hcut]
      · rw [if_neg hcut, if_neg hcut, @ih fuel' _ _ _]
        · rw [List.length_drop]
          omega
        · rw [List.length_drop]
          omega

/-- **The blocks of an area are those at its front and those behind them.** -/
theorem extensionBlocks_append {bs : List (Bytes × Bytes)}
    (hbs : ∀ x ∈ bs, IsBlock x.2 ∧ x.1 = x.2.take 4) (rest : Bytes) :
    extensionBlocks (bs.flatMap Prod.snd ++ rest) = bs ++ extensionBlocks rest := by
  unfold extensionBlocks
  induction bs with
  | nil => rfl
  | cons x bs ih =>
    obtain ⟨hblock, hsig⟩ := hbs x List.mem_cons_self
    have hpos : x.2.length ≠ 0 := by
      unfold IsBlock at hblock
      omega
    obtain ⟨n, hn⟩ : ∃ n, ((x :: bs).flatMap Prod.snd ++ rest).length = n + 1 := by
      refine ⟨((x :: bs).flatMap Prod.snd ++ rest).length - 1, ?_⟩
      rw [List.flatMap_cons, List.length_append, List.length_append]
      omega
    rw [hn, List.flatMap_cons, List.append_assoc, blocksUpTo_append hblock]
    rw [List.flatMap_cons, List.append_assoc, List.length_append] at hn
    rw [blocksUpTo_fuel (by omega) (Nat.le_refl _), ih fun y hy =>
      hbs y (List.mem_cons_of_mem _ hy), ← hsig]
    rfl

theorem isBlock_of_mem {data : Bytes} {x : Bytes × Bytes} (h : x ∈ extensionBlocks data) :
    IsBlock x.2 ∧ x.1 = x.2.take 4 := isBlock_of_mem_blocksUpTo h

/-- **What is kept of the extensions is the resolve-undo blocks.** -/
theorem extensionBlocks_resolveUndo (data : Bytes) :
    extensionBlocks (resolveUndo data) = (extensionBlocks data).filter fun b =>
      b.1 = bytes "REUC" := by
  have h := @extensionBlocks_append ((extensionBlocks data).filter fun b => b.1 = bytes "REUC")
    (fun x hx => isBlock_of_mem (List.mem_of_mem_filter hx)) []
  rw [List.append_nil] at h
  exact h.trans (List.append_nil _)

theorem whole_resolveUndo (data : Bytes) : Whole (resolveUndo data) := by
  unfold Whole
  rw [extensionBlocks_resolveUndo]
  rfl

theorem noLink_resolveUndo (data : Bytes) : NoLink (resolveUndo data) := by
  intro b hb
  rw [extensionBlocks_resolveUndo] at hb
  have hsig := of_decide_eq_true (List.mem_filter.mp hb).2
  rw [hsig]
  decide

theorem noLink_append {a b : Bytes} (hwhole : Whole a) (ha : NoLink a) (hb : NoLink b) :
    NoLink (a ++ b) := by
  have h := @extensionBlocks_append (extensionBlocks a) (fun _ hx => isBlock_of_mem hx) b
  unfold Whole at hwhole
  rw [hwhole] at h
  intro x hx
  rw [h] at hx
  rcases List.mem_append.mp hx with hx | hx
  · exact ha x hx
  · exact hb x hx

/-! ## Files -/

variable {h : Hasher} {algo : HashAlgo}

/-- **A file is read back** if its entries are. -/
theorem parse_withChecksum {version : Nat} {es : List IndexEntry} {block extensions : Bytes}
    (hversion : 2 ≤ version ∧ version ≤ 4) (hcount : es.length < 2 ^ 32)
    (hentries : parseEntries algo version es.length [] (block ++ extensions) = .ok (es, extensions))
    (hlink : NoLink extensions) :
    parse h algo (withChecksum h algo (fileBody version es.length block extensions)) =
      .ok ⟨version, algo, es, extensions, some (version, block), hlink⟩ := by
  have hsig : signature.length = 4 := by decide
  have hhead : (signature ++ Sha.bigEndian 4 version ++ Sha.bigEndian 4 es.length).length = 12 := by
    rw [List.length_append, List.length_append, hsig, Sha.length_bigEndian, Sha.length_bigEndian]
  have hbody : fileBody version es.length block extensions =
      signature ++ (Sha.bigEndian 4 version ++
        (Sha.bigEndian 4 es.length ++ (block ++ extensions))) := by
    simp [fileBody]
  generalize hfile : fileBody version es.length block extensions = body at hbody ⊢
  have hdigest := h.digest_length algo body
  have hlen : (withChecksum h algo body).length - algo.rawLen = body.length := by
    unfold withChecksum
    rw [List.length_append, hdigest]
    omega
  have hbodyLen : 12 ≤ body.length := by
    rw [hbody, ← List.append_assoc, ← List.append_assoc, List.length_append, hhead]
    exact Nat.le_add_right _ _
  have htake : (withChecksum h algo body).take body.length = body := List.take_left
  have hdrop : (withChecksum h algo body).drop body.length = h.digest algo body := List.drop_left
  have hrest : body.drop 12 = block ++ extensions := by
    rw [hbody, ← List.append_assoc, ← List.append_assoc]
    exact List.drop_left' hhead
  have hshape : withChecksum h algo body = signature ++ (Sha.bigEndian 4 version ++
      (Sha.bigEndian 4 es.length ++ (block ++ extensions ++ h.digest algo body))) := by
    unfold withChecksum
    rw [hbody]
    simp
  have hsignature : (withChecksum h algo body).take 4 = signature := by
    rw [hshape]
    exact List.take_left' hsig
  have hnumber : number (withChecksum h algo body) 4 4 = version := by
    rw [hshape, ← hsig]
    refine (number_append signature _ 0 4).trans (number_bigEndian 4 ?_ _)
    omega
  have hnumber' : number (withChecksum h algo body) 8 4 = es.length := by
    have hfront : (signature ++ Sha.bigEndian 4 version).length = 8 := by
      rw [List.length_append, hsig, Sha.length_bigEndian]
    rw [hshape, ← List.append_assoc, ← hfront]
    exact (number_append _ _ 0 4).trans (number_bigEndian 4 hcount _)
  unfold parse
  rw [if_neg (by omega)]
  simp only [hlen, htake, hdrop]
  rw [if_neg (by simp), if_neg (by rw [hsignature]; simp), hnumber, if_neg (by omega), hnumber',
    hrest, hentries]
  show (if hlink : NoLink extensions then _ else _) = _
  rw [dif_pos hlink, List.length_append, Nat.add_sub_cancel, List.take_left]

/-! ## Indexes -/

variable {idx : Index}

instance : Std.Total fun a b : IndexEntry => a.key ≤ b.key := ⟨fun a b => le_total a.key b.key⟩

instance : IsTrans IndexEntry fun a b => a.key ≤ b.key := ⟨fun _ _ _ => le_trans⟩

theorem perm_sorted (idx : Index) : idx.sorted.Perm idx.entries :=
  List.perm_insertionSort _ _

/-- Entries that are sorted stay as they are. -/
theorem sorted_eq_entries (hsorted : idx.entries.Pairwise fun a b => a.key ≤ b.key) :
    idx.sorted = idx.entries :=
  List.Pairwise.insertionSort_eq hsorted

theorem pairwise_sorted (idx : Index) : idx.sorted.Pairwise fun a b => a.key ≤ b.key :=
  List.pairwise_insertionSort _ _

theorem writtenVersion_range (idx : Index) : 2 ≤ idx.writtenVersion ∧ idx.writtenVersion ≤ 4 := by
  unfold writtenVersion
  split_ifs <;> exact ⟨by decide, by decide⟩

/-- A version below 3 is written only where no entry has extended flags. -/
theorem extendedFlags_of_writtenVersion (hversion : idx.writtenVersion < 3) :
    ∀ e ∈ idx.entries, e.extendedFlags = 0 := by
  unfold writtenVersion at hversion
  by_cases hfour : idx.version = 4
  · rw [if_pos hfour] at hversion
    omega
  rw [if_neg hfour] at hversion
  by_cases hextended : idx.entries.any (fun e => e.extendedFlags ≠ 0) = true
  · rw [if_pos hextended] at hversion
    omega
  · intro e he
    refine not_not.mp fun hne => hextended (List.any_eq_true.mpr ⟨e, he, ?_⟩)
    exact decide_eq_true hne

/-- The entries of an index are read back from its entry block. -/
theorem parseEntries_entryBlock (hgood : ∀ e ∈ idx.entries, e.WellFormed idx.algo) (rest : Bytes) :
    parseEntries idx.algo idx.writtenVersion idx.sorted.length [] (idx.entryBlock ++ rest) =
      .ok (idx.sorted, rest) := by
  have hperm := perm_sorted idx
  refine parseEntries_writeEntries (fun e he => hgood e (hperm.mem_iff.mp he))
    (fun hversion e he => ?_) (by decide) rest
  exact extendedFlags_of_writtenVersion hversion e (hperm.mem_iff.mp he)

/-- An index as it is read back, with some extensions. -/
def reread (idx : Index) (extensions : Bytes) (hlink : NoLink extensions) : Index :=
  ⟨idx.writtenVersion, idx.algo, idx.sorted, extensions,
    some (idx.writtenVersion, idx.entryBlock), hlink⟩

theorem parse_reread (hcount : idx.entries.length < 2 ^ 32)
    (hgood : ∀ e ∈ idx.entries, e.WellFormed idx.algo) {extensions : Bytes}
    (hlink : NoLink extensions) :
    parse h idx.algo (withChecksum h idx.algo
      (fileBody idx.writtenVersion idx.sorted.length idx.entryBlock extensions)) =
      .ok (idx.reread extensions hlink) := by
  apply parse_withChecksum (writtenVersion_range idx)
  · rw [(perm_sorted idx).length_eq]
    exact hcount
  · exact parseEntries_entryBlock hgood extensions

/-- What is read back is written in the same version. -/
theorem writtenVersion_reread (extensions : Bytes) (hlink : NoLink extensions) :
    (idx.reread extensions hlink).writtenVersion = idx.writtenVersion := by
  have hany : idx.sorted.any (fun e => e.extendedFlags ≠ 0) =
      idx.entries.any (fun e => e.extendedFlags ≠ 0) := by
    rw [Bool.eq_iff_iff, List.any_eq_true, List.any_eq_true]
    exact exists_congr fun e => and_congr_left fun _ => (perm_sorted idx).mem_iff
  show (if idx.writtenVersion = 4 then 4 else if idx.sorted.any _ = true then 3 else 2) = _
  rw [hany]
  unfold writtenVersion
  by_cases hfour : idx.version = 4
  · rw [if_pos hfour, if_pos rfl]
  rw [if_neg hfour]
  by_cases hextended : idx.entries.any (fun e => e.extendedFlags ≠ 0) = true
  · rw [if_pos hextended, if_neg (by decide)]
  · rw [if_neg hextended, if_neg (by decide)]

theorem entryBlock_reread (idx : Index) (extensions : Bytes) (hlink : NoLink extensions) :
    (idx.reread extensions hlink).sorted = idx.sorted ∧
      (idx.reread extensions hlink).entryBlock = idx.entryBlock := by
  have hsorted : (idx.reread extensions hlink).sorted = idx.sorted :=
    sorted_eq_entries (pairwise_sorted idx)
  refine ⟨hsorted, ?_⟩
  unfold entryBlock
  rw [hsorted, writtenVersion_reread]

/-- **What is read back is written as it was**, extensions and all. -/
theorem serialize_reread (extensions : Bytes) (hlink : NoLink extensions) :
    serialize h (idx.reread extensions hlink) = withChecksum h idx.algo
      (fileBody idx.writtenVersion idx.sorted.length idx.entryBlock extensions) := by
  obtain ⟨hsorted, hblock⟩ := idx.entryBlock_reread extensions hlink
  have hextensions : (idx.reread extensions hlink).writtenExtensions = extensions := by
    unfold writtenExtensions
    rw [writtenVersion_reread, hblock]
    exact if_pos rfl
  unfold serialize
  rw [writtenVersion_reread, hsorted, hblock, hextensions]
  rfl

theorem noLink_writtenExtensions (idx : Index) : NoLink idx.writtenExtensions := by
  unfold writtenExtensions
  by_cases hsame : idx.parsed = some (idx.writtenVersion, idx.entryBlock)
  · rw [if_pos hsame]
    exact idx.noLink
  · rw [if_neg hsame]
    exact noLink_resolveUndo _

theorem whole_writtenExtensions (hwhole : Whole idx.extensions) : Whole idx.writtenExtensions := by
  unfold writtenExtensions
  by_cases hsame : idx.parsed = some (idx.writtenVersion, idx.entryBlock)
  · rw [if_pos hsame]
    exact hwhole
  · rw [if_neg hsame]
    exact whole_resolveUndo _

/-- A file with extension blocks put before its checksum, which is computed anew. -/
def appendExtensions (h : Hasher) (algo : HashAlgo) (file added : Bytes) : Bytes :=
  withChecksum h algo (file.take (file.length - algo.rawLen) ++ added)

theorem appendExtensions_serialize (h : Hasher) (idx : Index) (added : Bytes) :
    appendExtensions h idx.algo (serialize h idx) added = withChecksum h idx.algo
      (fileBody idx.writtenVersion idx.sorted.length idx.entryBlock
        (idx.writtenExtensions ++ added)) := by
  unfold appendExtensions serialize
  generalize hfile : fileBody idx.writtenVersion idx.sorted.length idx.entryBlock
    idx.writtenExtensions = body
  have hlen : (withChecksum h idx.algo body).length - idx.algo.rawLen = body.length := by
    unfold withChecksum
    rw [List.length_append, h.digest_length]
    omega
  have htake : (withChecksum h idx.algo body).take body.length = body := List.take_left
  rw [hlen, htake, ← hfile]
  unfold fileBody
  rw [List.append_assoc _ idx.writtenExtensions added]

/-- An index is read back from its file, sorted. -/
def ReadBack (h : Hasher) (idx : Index) : Prop :=
  ∃ back, parse h idx.algo (serialize h idx) = .ok back ∧ back.entries = idx.sorted

/-- A file with more extension blocks is written back as it was, and once its entries have changed
only resolve-undo blocks stay. -/
def KeepsExtensions (h : Hasher) (idx : Index) : Prop :=
  ∀ added, Whole added → NoLink added →
    ∃ back, parse h idx.algo (appendExtensions h idx.algo (serialize h idx) added) = .ok back ∧
      serialize h back = appendExtensions h idx.algo (serialize h idx) added ∧
      ∀ es : List IndexEntry, ({ back with entries := es } : Index).entryBlock ≠ back.entryBlock →
        ∃ kept, extensionBlocks kept = ((extensionBlocks back.extensions).filter fun b =>
          b.1 = bytes "REUC") ∧
          Whole kept ∧ serialize h { back with entries := es } = withChecksum h back.algo
            (fileBody ({ back with entries := es } : Index).writtenVersion es.length
              ({ back with entries := es } : Index).entryBlock kept)

/-- An index is read back from its file, and so is the file with more extension blocks. -/
structure Faithful (h : Hasher) (idx : Index) : Prop where
  entries : ReadBack h idx
  extended : KeepsExtensions h idx

/-- **Indexes are read back from their files**, if the entries fit; so are files with more extension
blocks, if those that were parsed before are whole. -/
theorem faithful_of_wellFormed (h : Hasher) {idx : Index} (hcount : idx.entries.length < 2 ^ 32)
    (hgood : ∀ e ∈ idx.entries, e.WellFormed idx.algo) :
    ReadBack h idx ∧ (Whole idx.extensions → KeepsExtensions h idx) := by
  constructor
  · exact ⟨_, parse_reread hcount hgood (noLink_writtenExtensions idx), rfl⟩
  · intro hwhole added hadded hlink
    have hlink' := noLink_append (whole_writtenExtensions hwhole)
      (noLink_writtenExtensions idx) hlink
    have hfile := appendExtensions_serialize h idx added
    refine ⟨idx.reread (idx.writtenExtensions ++ added) hlink', ?_, ?_, fun es hchanged => ?_⟩
    · rw [hfile]
      exact parse_reread hcount hgood hlink'
    · rw [hfile]
      exact serialize_reread _ hlink'
    · rw [(idx.entryBlock_reread _ hlink').2] at hchanged
      refine ⟨_, extensionBlocks_resolveUndo _, whole_resolveUndo _, ?_⟩
      let changed : Index :=
        { idx.reread (idx.writtenExtensions ++ added) hlink' with entries := es }
      have hextensions : changed.writtenExtensions = resolveUndo (idx.writtenExtensions ++ added) :=
        if_neg fun hsame => hchanged (Prod.ext_iff.mp (Option.some.inj hsame)).2.symm
      have hlen : changed.sorted.length = es.length := (perm_sorted changed).length_eq
      show withChecksum h idx.algo (fileBody changed.writtenVersion changed.sorted.length
        changed.entryBlock changed.writtenExtensions) = _
      rw [hextensions, hlen]
      rfl

end Index

/-! ## Indexes that are read back, and indexes that are not -/

namespace IndexSample
open Index

/-- An entry with an id of either algorithm. -/
def entryOf (path : Bytes) (algo : HashAlgo) (flags : UInt16) : IndexEntry where
  ctime := (1, 2)
  mtime := (3, 4)
  dev := 5
  ino := 6
  mode := 0o100644
  uid := 1000
  gid := 1000
  size := 42
  id := ⟨algo, List.replicate algo.rawLen 7, List.length_replicate⟩
  stage := 0
  assumeValid := true
  extendedFlags := flags
  path := path

/-- Two paths with a common prefix, out of order, in version 4. -/
def prefixed : Index :=
  ⟨4, .sha1, [entryOf (bytes "src/main.rs") .sha1 0x2000,
    entryOf (bytes "src/lib.rs") .sha1 0], [], none,
    noLink_nil⟩

theorem faithful_prefixed : Whole prefixed.extensions ∧
    ReadBack Hasher.sha prefixed ∧ (Whole prefixed.extensions →
      KeepsExtensions Hasher.sha prefixed) := by
  refine ⟨by decide, faithful_of_wellFormed Hasher.sha (by decide) fun e he => ?_⟩
  have hcases : e = entryOf (bytes "src/main.rs") .sha1 0x2000 ∨
      e = entryOf (bytes "src/lib.rs") .sha1 0 := by
    simpa [prefixed] using he
  rcases hcases with rfl | rfl
  · exact ⟨by decide, by decide, by decide, by decide⟩
  · exact ⟨by decide, by decide, by decide, by decide⟩

/-- An id of the wrong algorithm in an entry. -/
def mixed : Index := ⟨2, .sha1, [entryOf (bytes "a") .sha256 0], [], none, noLink_nil⟩

/-- A block that says there is more of it than there is. -/
def cutBlock : Bytes := bytes "link" ++ [0, 0, 0, 16] ++ List.replicate 8 0

/-- An index as it is parsed from a file that ends in such a block. -/
def cut : Index := ⟨2, .sha1, [], cutBlock, some (2, []), by decide⟩

example : (Index.parse Hasher.sha .sha1
    (withChecksum Hasher.sha .sha1 (fileBody 2 0 [] cutBlock))).toOption.map
    (fun idx => (idx.version, idx.extensions, idx.parsed)) =
      some (cut.version, cut.extensions, cut.parsed) := by
  decide +kernel

/-- An entry with an id of another algorithm is not read back, and an index with a cut block
is not read back once another block completes it. -/
theorem not_faithful :
    (¬∀ idx : Index, idx.entries.length < 2 ^ 32 →
      (∀ e ∈ idx.entries, isSafeIndexPath e.path = true ∧ e.stage.toNat < 4 ∧
        e.path.length < 2 ^ 63) →
      Whole idx.extensions → Faithful Hasher.sha idx) ∧
    (¬∀ idx : Index, idx.entries.length < 2 ^ 32 → (∀ e ∈ idx.entries, e.WellFormed idx.algo) →
      Faithful Hasher.sha idx) := by
  constructor
  · intro h
    have hentries : ∀ e ∈ mixed.entries,
        isSafeIndexPath e.path = true ∧ e.stage.toNat < 4 ∧ e.path.length < 2 ^ 63 := by
      intro e he
      obtain rfl := List.mem_singleton.mp he
      exact ⟨by decide, by decide, by decide⟩
    obtain ⟨back, hback, hsorted⟩ := (h mixed (by decide) hentries (by decide)).entries
    have hwrong : (Index.parse Hasher.sha .sha1 (serialize Hasher.sha mixed)).toOption.map
      Index.entries ≠
        some mixed.sorted := by
      decide +kernel
    refine hwrong ?_
    rw [show Index.parse Hasher.sha .sha1 (serialize Hasher.sha mixed) = .ok back from hback]
    exact congrArg some hsorted
  · intro h
    have hwhole : Whole (bytes "TREE" ++ [0, 0, 0, 0]) := by decide
    have hlink : NoLink (bytes "TREE" ++ [0, 0, 0, 0]) := by decide
    obtain ⟨back, hback, -⟩ := (h cut (by decide) nofun).extended _ hwhole hlink
    have hfails : (Index.parse Hasher.sha .sha1
      (appendExtensions Hasher.sha .sha1 (serialize Hasher.sha cut)
        (bytes "TREE" ++ [0, 0, 0, 0]))).toBool = false := by
      decide +kernel
    rw [show Index.parse Hasher.sha .sha1
      (appendExtensions Hasher.sha .sha1 (serialize Hasher.sha cut)
      (bytes "TREE" ++ [0, 0, 0, 0])) = .ok back from hback] at hfails
    cases hfails

end IndexSample
end Puregit
