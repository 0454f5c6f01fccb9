import Puregit.Object

/-! # A written commit or tag is read back

The payload of a commit or a tag is a list of header lines, each with its newline, then
a newline and the message.  A header line may hold a newline where a space follows it,
the line being continued there.  `splitBlankLine_lines` and `headerLines_lines` take
such a payload apart again, and `Signature.parse_serialize` reads a stamp back.
-/
namespace Puregit

/-! ## Decimal numbers -/

theorem parseDigits_eq {s : Str} (hne : s ≠ []) (hs : ∀ c ∈ s, c.isDigit = true) :
    parseDigits s = some (Nat.ofDigitChars 10 s 0) := by
  have hfold : ∀ (s : Str) (n : Nat), (∀ c ∈ s, c.isDigit = true) →
      s.foldl (fun acc c => acc.bind fun n =>
        if '0' ≤ c ∧ c ≤ '9' then some (n * 10 + (c.toNat - 48)) else none) (some n) =
        some (Nat.ofDigitChars 10 s n) := by
    intro s
    induction s with
    | nil => intro n _; simp
    | cons c s ih =>
        intro n hs
        have hc : '0' ≤ c ∧ c ≤ '9' := by
          have h := hs c List.mem_cons_self
          rw [Char.isDigit, Bool.and_eq_true, decide_eq_true_eq, decide_eq_true_eq] at h
          exact h
        rw [List.foldl_cons, Option.bind_some, if_pos hc, Nat.ofDigitChars_cons,
          ih _ fun d hd => hs d (List.mem_cons_of_mem c hd), Nat.mul_comm]
        rfl
  rw [parseDigits, if_neg (by simpa using hne)]
  exact hfold s 0 hs

theorem isDigit_natStr {n : Nat} {c : Char} (h : c ∈ natStr n) : c.isDigit = true :=
  Nat.isDigit_of_mem_toDigits (by decide) (by decide) h

theorem natStr_ne_nil (n : Nat) : natStr n ≠ [] := Nat.toDigits_ne_nil

/-- **A written number is read back.** -/
theorem parseDigits_natStr (n : Nat) : parseDigits (natStr n) = some n := by
  rw [parseDigits_eq (natStr_ne_nil n) fun c hc => isDigit_natStr hc, natStr,
    Nat.ofDigitChars_ten_toDigits]

/-- The bytes of an ASCII text are its characters. -/
theorem mem_toUtf8_ascii {s : Str} (hs : ∀ c ∈ s, c.toNat < 128) {b : UInt8} (hb : b ∈ toUtf8 s) :
    ∃ c ∈ s, b.toNat = c.toNat := by
  obtain ⟨c, hc, hb⟩ := List.mem_flatMap.mp hb
  refine ⟨c, hc, ?_⟩
  have hlt := hs c hc
  rw [utf8Char, if_pos hlt, List.mem_singleton] at hb
  rw [hb]
  exact UInt8.toNat_ofNat_of_lt' (by show _ < 256; omega)

namespace Signature

/-- The decimal form of a time. -/
def secs (time : Int) : Str :=
  match time with
  | .ofNat n => natStr n
  | .negSucc n => '-' :: natStr (n + 1)

theorem serialize_eq (s : Signature) : s.serialize =
    (s.name ++ [32]) ++ 60 :: (s.email ++ 62 :: 32 :: (toUtf8 (secs s.time) ++ 32 :: s.tz)) := by
  have hopen : bytes " <" = [32, 60] := by decide
  have hclose : bytes "> " = [62, 32] := by decide
  have hsecs : s.serialize =
      s.name ++ bytes " <" ++ s.email ++ bytes "> " ++ toUtf8 (secs s.time) ++ 32 :: s.tz := by
    unfold serialize secs
    cases s.time <;> rfl
  rw [hsecs, hopen, hclose]
  simp

theorem secs_ne_nil (time : Int) : secs time ≠ [] := by
  cases time with
  | ofNat n => exact natStr_ne_nil n
  | negSucc n => exact List.cons_ne_nil _ _

/-- A time in decimal is digits but for its sign. -/
theorem mem_secs {time : Int} {c : Char} (h : c ∈ secs time) : c = '-' ∨ c.isDigit = true := by
  cases time with
  | ofNat n => exact Or.inr (isDigit_natStr h)
  | negSucc n =>
      rcases List.mem_cons.mp h with h | h
      · exact Or.inl h
      · exact Or.inr (isDigit_natStr h)

theorem mem_toUtf8_secs {time : Int} {b : UInt8} (h : b ∈ toUtf8 (secs time)) :
    b.toNat = 45 ∨ (48 ≤ b.toNat ∧ b.toNat ≤ 57) := by
  have hrange : ∀ c ∈ secs time, c.toNat = 45 ∨ (48 ≤ c.toNat ∧ c.toNat ≤ 57) := by
    intro c hc
    rcases mem_secs hc with rfl | hc
    · exact Or.inl rfl
    · rw [Char.isDigit, Bool.and_eq_true, decide_eq_true_eq, decide_eq_true_eq] at hc
      exact Or.inr hc
  obtain ⟨c, hc, hb⟩ := mem_toUtf8_ascii (fun c hc => by have := hrange c hc; omega) h
  rw [hb]
  exact hrange c hc

/-- A number an `i64` holds. -/
def IsI64 (n : Int) : Prop := -9223372036854775808 ≤ n ∧ n ≤ 9223372036854775807

instance (n : Int) : Decidable (IsI64 n) := inferInstanceAs (Decidable (_ ∧ _))

theorem not_mem_secs {time : Int} : 10 ∉ toUtf8 (secs time) := by
  intro hmem
  have := mem_toUtf8_secs hmem
  rw [show (10 : UInt8).toNat = 10 from rfl] at this
  omega

/-- The digits of a number are parsed as digits without a sign. -/
theorem signed_natStr {neg pos : Str → Option Int} (f : Int → Option Int) (n : Nat) :
    (match natStr n with
      | '-' :: r => neg r
      | '+' :: r => pos r
      | r => (parseDigits r).map Int.ofNat).bind f = f n := by
  have hdigit := fun c => isDigit_natStr (n := n) (c := c)
  split
  · rename_i r hr
    exact absurd (hdigit '-' (by rw [hr]; exact List.mem_cons_self)) (by decide)
  · rename_i r hr
    exact absurd (hdigit '+' (by rw [hr]; exact List.mem_cons_self)) (by decide)
  · rw [parseDigits_natStr]
    rfl

theorem parseI64_natStr {n : Nat} (h : IsI64 n) : parseI64 (natStr n) = some (n : Int) := by
  obtain ⟨hlo, hhi⟩ := h
  unfold parseI64
  refine (signed_natStr _ n).trans ?_
  rw [if_pos ⟨by omega, by omega⟩]

theorem parseI64_neg {n : Nat} (h : IsI64 (-(n : Int))) :
    parseI64 ('-' :: natStr n) = some (-(n : Int)) := by
  obtain ⟨hlo, hhi⟩ := h
  unfold parseI64
  simp only [parseDigits_natStr, Option.bind_eq_bind, Option.pure_def, Option.map_some,
    Option.bind_some]
  rw [if_pos ⟨by omega, by omega⟩]

/-- **A written time is read back.** -/
theorem parseI64_secs {time : Int} (h : IsI64 time) : parseI64 (secs time) = some time := by
  cases time with
  | ofNat n => exact parseI64_natStr h
  | negSucc n => exact parseI64_neg h

/-- A stamp whose written form shows where each field ends. -/
structure Plain (s : Signature) : Prop where
  name_lt : 60 ∉ s.name
  name_gt : 62 ∉ s.name
  name_end : s.name.getLast? ≠ some 32
  email_gt : 62 ∉ s.email
  time_range : IsI64 s.time

theorem idxOf?_append_cons {a : UInt8} {x : Bytes} (h : a ∉ x) (y : Bytes) :
    (x ++ a :: y).idxOf? a = some x.length := by
  induction x with
  | nil => simp [List.idxOf?_cons]
  | cons b x ih =>
      obtain ⟨hb, hx⟩ := not_or.mp (mt List.mem_cons.mpr h)
      rw [List.cons_append, List.idxOf?_cons, if_neg (by simpa using Ne.symm hb), ih hx]
      rfl

/-- **A written stamp is read back.** -/
theorem parse_serialize {s : Signature} (h : s.Plain) : parse s.serialize = .ok s := by
  have htail : ∀ t : Bytes, (s.name ++ [32]) ++ 60 :: (s.email ++ 62 :: t) =
      (s.name ++ [32] ++ 60 :: s.email) ++ 62 :: t := fun t => by simp
  have hlt : s.serialize.idxOf? 60 = some (s.name ++ [32]).length := by
    rw [serialize_eq]
    exact idxOf?_append_cons (by simp [h.name_lt]) _
  have hgt : s.serialize.idxOf? 62 = some (s.name ++ [32] ++ 60 :: s.email).length := by
    rw [serialize_eq, htail]
    exact idxOf?_append_cons (by simp [h.name_gt, h.email_gt]) _
  have hname : ((s.serialize.take (s.name ++ [32]).length).reverse.dropWhile (· == 32)).reverse =
      s.name := by
    rw [serialize_eq, List.take_left]
    show (s.name ++ [32]).rdropWhile (· == 32) = s.name
    rw [List.rdropWhile_concat_pos _ _ _ (by decide), List.rdropWhile_eq_self_iff]
    intro hne hlast
    rw [beq_iff_eq] at hlast
    exact h.name_end (by rw [List.getLast?_eq_some_getLast hne, hlast])
  have hemail : (s.serialize.take (s.name ++ [32] ++ 60 :: s.email).length).drop
      ((s.name ++ [32]).length + 1) = s.email := by
    rw [serialize_eq, htail, List.take_left]
    rw [show s.name ++ [32] ++ 60 :: s.email = (s.name ++ [32] ++ [60]) ++ s.email by simp]
    exact List.drop_left' (by simp)
  have hrest : (s.serialize.drop ((s.name ++ [32] ++ 60 :: s.email).length + 1)).dropWhile
    (· == 32) =
      toUtf8 (secs s.time) ++ 32 :: s.tz := by
    rw [serialize_eq, htail, show (s.name ++ [32] ++ 60 :: s.email) ++
        62 :: (32 :: (toUtf8 (secs s.time) ++ 32 :: s.tz)) =
          (s.name ++ [32] ++ 60 :: s.email ++ [62]) ++
        32 :: (toUtf8 (secs s.time) ++ 32 :: s.tz) by simp,
      List.drop_left' (by simp [Nat.add_assoc]), List.dropWhile_cons_of_pos (by decide)]
    cases hsecs : toUtf8 (secs s.time) with
    | nil => exact absurd (toUtf8_injective (t := []) hsecs) (secs_ne_nil s.time)
    | cons b r =>
        have hb := @mem_toUtf8_secs s.time b (by rw [hsecs]; exact List.mem_cons_self)
        have hb32 : b ≠ 32 := by
          rintro rfl
          rw [show (32 : UInt8).toNat = 32 from rfl] at hb
          omega
        rw [List.cons_append, List.dropWhile_cons_of_neg (by simpa using hb32)]
  have hsplit : splitOnce 32 (toUtf8 (secs s.time) ++ 32 :: s.tz) =
      some (toUtf8 (secs s.time), s.tz) := by
    refine splitOnce_eq_some.mpr ⟨rfl, fun hmem => ?_⟩
    have := mem_toUtf8_secs hmem
    rw [show (32 : UInt8).toNat = 32 from rfl] at this
    omega
  rw [parse, hlt, hgt]
  simp only
  rw [if_neg (by simp), hname, hemail, hrest, hsplit]
  simp only [fromUtf8_toUtf8, Option.bind_some, parseI64_secs h.time_range]

/-- A stamp on one line: what the format asks of the fields. -/
structure WellFormed (s : Signature) : Prop where
  name : 60 ∉ s.name ∧ 62 ∉ s.name ∧ 10 ∉ s.name
  name_end : s.name.getLast? ≠ some 32
  email : 62 ∉ s.email ∧ 10 ∉ s.email
  tz : 10 ∉ s.tz
  time_range : IsI64 s.time

theorem WellFormed.plain {s : Signature} (h : s.WellFormed) : s.Plain :=
  ⟨h.name.1, h.name.2.1, h.name_end, h.email.1, h.time_range⟩

/-- A well-formed stamp is written on one line. -/
theorem WellFormed.not_mem_newline {s : Signature} (h : s.WellFormed) : 10 ∉ s.serialize := by
  rw [serialize_eq]
  simp [h.name.2.2, h.email.2, h.tz, not_mem_secs]

end Signature

/-! ## Header blocks -/

/-- Every newline is followed by a space, the byte after the last one being `next`. -/
def FoldedTo (next : Option UInt8) : Bytes → Prop
  | [] => True
  | b :: r => (b = 10 → r.head?.or next = some 32) ∧ FoldedTo next r

/-- Every newline is followed by a space. -/
abbrev Folded (l : Bytes) : Prop := FoldedTo none l

theorem foldedTo_cons {next : Option UInt8} {b : UInt8} {r : Bytes} :
    FoldedTo next (b :: r) ↔ (b = 10 → r.head?.or next = some 32) ∧ FoldedTo next r := Iff.rfl

theorem foldedTo_append {next : Option UInt8} {x y : Bytes} :
    FoldedTo next (x ++ y) ↔ FoldedTo (y.head?.or next) x ∧ FoldedTo next y := by
  induction x with
  | nil => exact ⟨fun h => ⟨trivial, h⟩, fun h => h.2⟩
  | cons b x ih =>
      have hhead : (x ++ y).head?.or next = x.head?.or (y.head?.or next) := by
        rw [List.head?_append, Option.or_assoc]
      rw [List.cons_append, foldedTo_cons, foldedTo_cons, ih, hhead, and_assoc]

/-- Without a newline a line is folded, whatever follows. -/
theorem foldedTo_of_not_mem {next : Option UInt8} {x : Bytes} (h : 10 ∉ x) : FoldedTo next x := by
  induction x with
  | nil => trivial
  | cons b x ih =>
      obtain ⟨hb, hx⟩ := not_or.mp (mt List.mem_cons.mpr h)
      exact ⟨fun hb' => absurd hb'.symm hb, ih hx⟩

/-- What is folded is folded before a space. -/
theorem FoldedTo.space {next : Option UInt8} {x : Bytes} (h : FoldedTo next x) :
    FoldedTo (some 32) x := by
  induction x with
  | nil => trivial
  | cons b x ih =>
      refine ⟨fun hb => ?_, ih h.2⟩
      have hnext := h.1 hb
      cases hx : x.head? with
      | none => rfl
      | some a =>
          rw [hx] at hnext
          exact hnext

/-- A folded line does not end in a newline, so it is folded whatever follows. -/
theorem Folded.foldedTo {x : Bytes} (h : Folded x) (next : Option UInt8) : FoldedTo next x := by
  induction x with
  | nil => trivial
  | cons b x ih =>
      refine ⟨fun hb => ?_, ih h.2⟩
      have hhead := h.1 hb
      rw [Option.or_none] at hhead
      rw [hhead]
      rfl

/-- A logical header line: it is not blank, does not start as a continuation, and holds
a newline only where it is continued. -/
structure IsHeaderLine (l : Bytes) : Prop where
  ne_nil : l ≠ []
  head_newline : l.head? ≠ some 10
  head_space : l.head? ≠ some 32
  folded : Folded l

theorem splitBlankLine_cons {b : UInt8} {r : Bytes} (h : b = 10 → r.head? ≠ some 10) :
    splitBlankLine (b :: r) = (splitBlankLine r).map fun p => (b :: p.1, p.2) := by
  rw [splitBlankLine]
  intro r' hb hr
  exact h hb (by rw [hr]; rfl)

/-- A folded line holds no blank line. -/
theorem splitBlankLine_append {l r : Bytes} (h : Folded l) :
    splitBlankLine (l ++ r) = (splitBlankLine r).map fun p => (l ++ p.1, p.2) := by
  induction l with
  | nil => simp
  | cons b l ih =>
      obtain ⟨hb, hl⟩ := h
      have hnext : b = 10 → (l ++ r).head? ≠ some 10 := by
        intro hb10
        have hhead := hb hb10
        rw [Option.or_none] at hhead
        rw [List.head?_append, hhead, Option.some_or]
        decide
      rw [List.cons_append, splitBlankLine_cons hnext, ih hl, Option.map_map]
      rfl

/-- Header lines with a newline between each two of them. -/
def joinLines : List Bytes → Bytes
  | [] => []
  | l :: ls => l ++ ls.flatMap (10 :: ·)

theorem flatMap_newline_comm (ls : List Bytes) :
    10 :: ls.flatMap (· ++ [10]) = ls.flatMap (10 :: ·) ++ [10] := by
  induction ls with
  | nil => rfl
  | cons l ls ih =>
      rw [List.flatMap_cons, List.flatMap_cons, List.append_assoc, List.singleton_append, ih]
      simp

/-- **The first blank line ends the header block**, whatever the message. -/
theorem splitBlankLine_lines {ls : List Bytes} (hls : ∀ l ∈ ls, IsHeaderLine l) (hne : ls ≠ [])
    (message : Bytes) :
    splitBlankLine (ls.flatMap (· ++ [10]) ++ 10 :: message) = some (joinLines ls, message) := by
  have hrest : ∀ ls : List Bytes, (∀ l ∈ ls, IsHeaderLine l) →
      splitBlankLine (ls.flatMap (10 :: ·) ++ 10 :: 10 :: message) =
        some (ls.flatMap (10 :: ·), message) := by
    intro ls
    induction ls with
    | nil => exact fun _ => rfl
    | cons l ls ih =>
        intro hls
        have hl := hls l List.mem_cons_self
        have hhead : (l ++ (ls.flatMap (10 :: ·) ++ 10 :: 10 :: message)).head? ≠ some 10 := by
          cases l with
          | nil => exact absurd rfl hl.ne_nil
          | cons b l => exact hl.head_newline
        rw [List.flatMap_cons, List.cons_append, List.cons_append, List.append_assoc,
          splitBlankLine_cons fun _ => hhead, splitBlankLine_append hl.folded,
          ih fun l' hl' => hls l' (List.mem_cons_of_mem l hl')]
        rfl
  cases ls with
  | nil => exact absurd rfl hne
  | cons l ls =>
      have hshape : (l :: ls).flatMap (· ++ [10]) ++ 10 :: message =
          l ++ (ls.flatMap (10 :: ·) ++ 10 :: 10 :: message) := by
        rw [List.flatMap_cons, List.append_assoc, List.append_assoc, List.singleton_append,
          ← List.cons_append, flatMap_newline_comm, List.append_assoc]
        rfl
      rw [hshape, splitBlankLine_append (hls l List.mem_cons_self).folded,
        hrest ls fun l' hl' => hls l' (List.mem_cons_of_mem l hl')]
      rfl

/-- A folded line is taken whole. -/
theorem headerLines_append {l r acc : Bytes} (h : Folded l) :
    headerLines acc (l ++ r) = headerLines (l.reverse ++ acc) r := by
  induction l generalizing acc with
  | nil => rfl
  | cons b l ih =>
      obtain ⟨hb, hl⟩ := h
      have hnot : ¬(b = 10 ∧ (l ++ r).head? ≠ some 32) := by
        intro ⟨hb10, hne⟩
        have hhead := hb hb10
        rw [Option.or_none] at hhead
        rw [List.head?_append, hhead] at hne
        exact hne rfl
      rw [List.cons_append, headerLines, if_neg hnot, ih hl, List.reverse_cons, List.append_assoc]
      rfl

/-- **The header lines of a block are the lines it was made of.** -/
theorem headerLines_lines {ls : List Bytes} (hls : ∀ l ∈ ls, IsHeaderLine l) :
    headerLines [] (joinLines ls) = ls := by
  cases ls with
  | nil => rfl
  | cons l ls =>
      unfold joinLines
      induction ls generalizing l with
      | nil =>
          have hl := hls l List.mem_cons_self
          rw [headerLines_append hl.folded, List.flatMap_nil, headerLines,
            if_neg (by simpa using hl.ne_nil)]
          simp
      | cons l' ls ih =>
          have hl' := hls l' (List.mem_cons_of_mem l List.mem_cons_self)
          have hhead : (l' ++ ls.flatMap (10 :: ·)).head? ≠ some 32 := by
            cases l' with
            | nil => exact absurd rfl hl'.ne_nil
            | cons b l' => exact hl'.head_space
          rw [headerLines_append (hls l List.mem_cons_self).folded, List.flatMap_cons,
            List.cons_append, headerLines, if_pos ⟨rfl, hhead⟩,
            ih l' fun x hx => hls x (List.mem_cons_of_mem l hx)]
          simp

/-! ## Commits -/

/-- A hex form holds neither a newline nor a space. -/
theorem mem_toUtf8_toHex {id : ObjectId} {b : UInt8} (h : b ∈ toUtf8 id.toHex) :
    b ≠ 10 ∧ b ≠ 32 := by
  obtain ⟨c, hc, hb⟩ := mem_toUtf8_ascii (fun c hc => by have := ObjectId.mem_toHex hc; omega) h
  have hrange := ObjectId.mem_toHex hc
  constructor
  · rintro rfl
    rw [show (10 : UInt8).toNat = 10 from rfl] at hb
    omega
  · rintro rfl
    rw [show (32 : UInt8).toNat = 32 from rfl] at hb
    omega

/-- A keyword and a value without a newline make a header line. -/
theorem isHeaderLine_keyword (a : UInt8) (keyword : Bytes) {value : Bytes} (ha : a ≠ 10 ∧ a ≠ 32)
    (hkeyword : 10 ∉ keyword) (hvalue : Folded value) : IsHeaderLine (a :: keyword ++ value) where
  ne_nil := List.cons_ne_nil _ _
  head_newline := fun h => ha.1 (Option.some.inj h)
  head_space := fun h => ha.2 (Option.some.inj h)
  folded := by
    refine foldedTo_append.mpr ⟨foldedTo_of_not_mem fun hmem => ?_, hvalue⟩
    rcases List.mem_cons.mp hmem with hmem | hmem
    · exact ha.1 hmem.symm
    · exact hkeyword hmem

namespace Commit

/-- The keywords of the headers that are read into fields. -/
def wellKnown : List Bytes := [bytes "tree ", bytes "parent ", bytes "author ", bytes "committer "]

/-- A header line that is kept as it is. -/
structure IsExtraLine (l : Bytes) : Prop extends IsHeaderLine l where
  unknown : ∀ keyword ∈ wellKnown, ¬keyword <+: l

/-- A commit in the form the format gives it: ids of the repository's algorithm, stamps
whose fields can be told apart, and extra header lines of other keywords. -/
structure Canonical (algo : HashAlgo) (c : Commit) : Prop where
  tree_algo : c.tree.algo = algo
  parents_algo : ∀ p ∈ c.parents, p.algo = algo
  author : c.author.Plain
  author_folded : Folded c.author.serialize
  committer : c.committer.Plain
  committer_folded : Folded c.committer.serialize
  extra : ∃ ls : List Bytes, (∀ l ∈ ls, IsExtraLine l) ∧ c.extraHeaders = ls.flatMap (· ++ [10])

/-- The lines of a commit's header block. -/
def block (c : Commit) (extra : List Bytes) : List Bytes :=
  (bytes "tree " ++ toUtf8 c.tree.toHex) ::
    (c.parents.map (fun p => bytes "parent " ++ toUtf8 p.toHex) ++
      ((bytes "author " ++ c.author.serialize) ::
        (bytes "committer " ++ c.committer.serialize) :: extra))

theorem serialize_eq {c : Commit} {extra : List Bytes}
    (h : c.extraHeaders = extra.flatMap (· ++ [10])) :
    c.serialize = (block c extra).flatMap (· ++ [10]) ++ 10 :: c.message := by
  rw [serialize, block, h]
  simp [List.flatMap_map, List.flatMap_append]

theorem parseHexOid_toHex {algo : HashAlgo} {id : ObjectId} (h : id.algo = algo) :
    parseHexOid algo (toUtf8 id.toHex) = .ok id := by
  rw [parseHexOid, fromUtf8_toUtf8]
  simp only
  rw [ObjectId.trim_toHex]
  exact ObjectId.fromHex_toHex_iff.mpr ⟨h, rfl⟩

section
variable {algo : HashAlgo}

theorem headerLine_tree {id : ObjectId} (h : id.algo = algo) (f : Header) :
    headerLine algo f (bytes "tree " ++ toUtf8 id.toHex) = .ok { f with tree := some id } := by
  rw [headerLine, stripPrefix?_eq_some.mpr rfl]
  simp only
  rw [parseHexOid_toHex h]
  rfl

theorem headerLine_parent {id : ObjectId} (h : id.algo = algo) (f : Header) :
    headerLine algo f (bytes "parent " ++ toUtf8 id.toHex) =
      .ok { f with parents := f.parents ++ [id] } := by
  have htree : ∀ v, stripPrefix? (bytes "tree ") (bytes "parent " ++ v) = none := fun v => rfl
  rw [headerLine, htree, stripPrefix?_eq_some.mpr rfl]
  simp only
  rw [parseHexOid_toHex h]
  rfl

theorem headerLine_author {s : Signature} (h : s.Plain) (f : Header) :
    headerLine algo f (bytes "author " ++ s.serialize) = .ok { f with author := some s } := by
  have htree : ∀ v, stripPrefix? (bytes "tree ") (bytes "author " ++ v) = none := fun v => rfl
  have hparent : ∀ v, stripPrefix? (bytes "parent ") (bytes "author " ++ v) = none := fun v => rfl
  rw [headerLine, htree, hparent, stripPrefix?_eq_some.mpr rfl]
  simp only
  rw [Signature.parse_serialize h]
  rfl

theorem headerLine_committer {s : Signature} (h : s.Plain) (f : Header) :
    headerLine algo f (bytes "committer " ++ s.serialize) = .ok { f with committer := some s } := by
  have htree : ∀ v, stripPrefix? (bytes "tree ") (bytes "committer " ++ v) = none := fun v => rfl
  have hparent : ∀ v, stripPrefix? (bytes "parent ") (bytes "committer " ++ v) =
    none := fun v => rfl
  have hauthor : ∀ v, stripPrefix? (bytes "author ") (bytes "committer " ++ v) =
    none := fun v => rfl
  rw [headerLine, htree, hparent, hauthor, stripPrefix?_eq_some.mpr rfl]
  simp only
  rw [Signature.parse_serialize h]
  rfl

theorem headerLine_extra {l : Bytes} (h : IsExtraLine l) (f : Header) :
    headerLine algo f l = .ok { f with extra := f.extra ++ l ++ [10] } := by
  have hnone : ∀ keyword ∈ wellKnown, stripPrefix? keyword l = none := by
    intro keyword hk
    refine Option.eq_none_iff_forall_ne_some.mpr fun v hv => ?_
    exact h.unknown keyword hk ⟨v, (stripPrefix?_eq_some.mp hv).symm⟩
  rw [headerLine, hnone _ (by simp [wellKnown]), hnone _ (by simp [wellKnown]),
    hnone _ (by simp [wellKnown]), hnone _ (by simp [wellKnown])]

theorem foldlM_parents {parents : List ObjectId} (h : ∀ p ∈ parents, p.algo = algo) (f : Header) :
    (parents.map fun p => bytes "parent " ++ toUtf8 p.toHex).foldlM (headerLine algo) f =
      .ok { f with parents := f.parents ++ parents } := by
  induction parents generalizing f with
  | nil =>
      rw [List.append_nil]
      rfl
  | cons p parents ih =>
      rw [List.map_cons, List.foldlM_cons, headerLine_parent (h p List.mem_cons_self)]
      refine (ih (fun q hq => h q (List.mem_cons_of_mem p hq)) _).trans ?_
      rw [List.append_assoc]
      rfl

theorem foldlM_extra {extra : List Bytes} (h : ∀ l ∈ extra, IsExtraLine l) (f : Header) :
    extra.foldlM (headerLine algo) f =
      .ok { f with extra := f.extra ++ extra.flatMap (· ++ [10]) } := by
  induction extra generalizing f with
  | nil =>
      rw [List.flatMap_nil, List.append_nil]
      rfl
  | cons l extra ih =>
      rw [List.foldlM_cons, headerLine_extra (h l List.mem_cons_self)]
      refine (ih (fun l' hl' => h l' (List.mem_cons_of_mem l hl')) _).trans ?_
      rw [List.flatMap_cons, List.append_assoc, List.append_assoc, List.append_assoc]

/-- The lines of a canonical commit's header block. -/
theorem isHeaderLine_block {c : Commit} (h : Canonical algo c) {extra : List Bytes}
    (hextra : ∀ l ∈ extra, IsExtraLine l) : ∀ l ∈ block c extra, IsHeaderLine l := by
  have hhex : ∀ id : ObjectId, Folded (toUtf8 id.toHex) := fun id =>
    foldedTo_of_not_mem fun hmem => (mem_toUtf8_toHex hmem).1 rfl
  intro l hl
  unfold block at hl
  rcases List.mem_cons.mp hl with hl | hl
  · rw [hl]
    exact isHeaderLine_keyword 116 (bytes "ree ") (by decide) (by decide) (hhex _)
  rcases List.mem_append.mp hl with hl | hl
  · obtain ⟨p, -, hp⟩ := List.mem_map.mp hl
    rw [← hp]
    exact isHeaderLine_keyword 112 (bytes "arent ") (by decide) (by decide) (hhex _)
  rcases List.mem_cons.mp hl with hl | hl
  · rw [hl]
    exact isHeaderLine_keyword 97 (bytes "uthor ") (by decide) (by decide)
      h.author_folded
  rcases List.mem_cons.mp hl with hl | hl
  · rw [hl]
    exact isHeaderLine_keyword 99 (bytes "ommitter ") (by decide) (by decide)
      h.committer_folded
  · exact (hextra l hl).toIsHeaderLine

/-- **A canonical commit is read back from its payload.** -/
theorem parse_serialize_canonical {c : Commit} (h : Canonical algo c) :
    parse algo c.serialize = .ok c := by
  obtain ⟨extra, hextra, heq⟩ := h.extra
  have hblock := isHeaderLine_block h hextra
  have hfold : (block c extra).foldlM (headerLine algo) ⟨none, [], none, none, []⟩ =
      .ok ⟨some c.tree, c.parents, some c.author, some c.committer, c.extraHeaders⟩ := by
    rw [block, List.foldlM_cons, headerLine_tree h.tree_algo, heq]
    show List.foldlM _ _ _ = _
    rw [List.foldlM_append, foldlM_parents h.parents_algo]
    show List.foldlM _ _ _ = _
    rw [List.foldlM_cons, headerLine_author h.author]
    show List.foldlM _ _ _ = _
    rw [List.foldlM_cons, headerLine_committer h.committer]
    exact foldlM_extra hextra _
  rw [parse, serialize_eq heq, splitBlankLine_lines hblock (List.cons_ne_nil _ _)]
  simp only
  rw [headerLines_lines hblock, hfold]
  rfl

end

/-! ### Commits by physical lines -/

/-- Extra headers as the format gives them: newline-terminated, non-empty lines of which
the first is no continuation, those that are no continuation having none of the keywords
that are read into fields. -/
def IsExtraHeaders (x : Bytes) : Prop :=
  ∃ ls : List Bytes, x = ls.flatMap (· ++ [10]) ∧ (∀ l ∈ ls, l ≠ [] ∧ 10 ∉ l) ∧
    (∀ l ∈ ls.head?, l.head? ≠ some 32) ∧
    ∀ l ∈ ls, l.head? ≠ some 32 → ∀ keyword ∈ wellKnown, ¬keyword <+: l

/-- A commit of ids of the repository's algorithm, stamps and extra headers that are all
well formed. -/
structure WellFormed (algo : HashAlgo) (c : Commit) : Prop where
  tree_algo : c.tree.algo = algo
  parents_algo : ∀ p ∈ c.parents, p.algo = algo
  author : c.author.WellFormed
  committer : c.committer.WellFormed
  extra : IsExtraHeaders c.extraHeaders

/-- A line without a newline that is no continuation is a header line. -/
theorem isExtraLine_of_physical {l : Bytes} (hne : l ≠ []) (hnl : 10 ∉ l)
    (hspace : l.head? ≠ some 32) (hunknown : ∀ keyword ∈ wellKnown, ¬keyword <+: l) :
      IsExtraLine l where
  ne_nil := hne
  head_newline := fun h => hnl (List.mem_of_mem_head? h)
  head_space := hspace
  folded := foldedTo_of_not_mem hnl
  unknown := hunknown

/-- A header line with its continuation is a header line. -/
theorem IsExtraLine.continue {l p : Bytes} (h : IsExtraLine l) (hspace : p.head? = some 32)
    (hnl : 10 ∉ p) : IsExtraLine (l ++ 10 :: p) where
  ne_nil := by simp
  head_newline := by
    rw [List.head?_append_of_ne_nil l h.ne_nil]
    exact h.head_newline
  head_space := by
    rw [List.head?_append_of_ne_nil l h.ne_nil]
    exact h.head_space
  folded := by
    exact foldedTo_append.mpr
      ⟨h.folded.foldedTo _, fun _ => by rw [hspace]; rfl, foldedTo_of_not_mem hnl⟩
  unknown := by
    intro keyword hk hpre
    have hnl' : 10 ∉ keyword := by
      have hall : ∀ keyword ∈ wellKnown, 10 ∉ keyword := by decide
      exact hall keyword hk
    -- a keyword holds no newline, so it ends before the line is continued
    rcases List.prefix_or_prefix_of_prefix hpre (List.prefix_append l (10 :: p)) with hl | ⟨t, ht⟩
    · exact h.unknown keyword hk hl
    · rw [← ht, List.prefix_append_right_inj] at hpre
      cases t with
      | nil => exact h.unknown keyword hk ⟨[], by rw [← ht, List.append_nil, List.append_nil]⟩
      | cons b t =>
          obtain ⟨rfl, -⟩ := List.cons_prefix_cons.mp hpre
          exact hnl' (by rw [← ht]; simp)

/-- Physical lines after a header line fold into it and further header lines. -/
theorem exists_extraLines {ls : List Bytes} (hls : ∀ l ∈ ls, l ≠ [] ∧ 10 ∉ l)
    (hunknown : ∀ l ∈ ls, l.head? ≠ some 32 → ∀ keyword ∈ wellKnown, ¬keyword <+: l) {l : Bytes}
    (hl : IsExtraLine l) :
    ∃ extra : List Bytes, (∀ l ∈ extra, IsExtraLine l) ∧
      (l :: ls).flatMap (· ++ [10]) = extra.flatMap (· ++ [10]) := by
  induction ls generalizing l with
  | nil => exact ⟨[l], fun l' hl' => by rw [List.mem_singleton.mp hl']; exact hl, rfl⟩
  | cons p ls ih =>
      obtain ⟨hne, hnl⟩ := hls p List.mem_cons_self
      have hls' := fun l' hl' => hls l' (List.mem_cons_of_mem p hl')
      have hunknown' := fun l' hl' => hunknown l' (List.mem_cons_of_mem p hl')
      by_cases hspace : p.head? = some 32
      · obtain ⟨extra, hextra, heq⟩ := ih hls' hunknown' (hl.continue hspace hnl)
        refine ⟨extra, hextra, ?_⟩
        rw [← heq]
        simp
      · have hp := isExtraLine_of_physical hne hnl hspace (hunknown p List.mem_cons_self hspace)
        obtain ⟨extra, hextra, heq⟩ := ih hls' hunknown' hp
        refine ⟨l :: extra, fun l' hl' => ?_, ?_⟩
        · rcases List.mem_cons.mp hl' with rfl | hl'
          · exact hl
          · exact hextra l' hl'
        · rw [List.flatMap_cons, heq, List.flatMap_cons]

theorem WellFormed.canonical {algo : HashAlgo} {c : Commit} (h : c.WellFormed algo) :
    c.Canonical algo where
  tree_algo := h.tree_algo
  parents_algo := h.parents_algo
  author := h.author.plain
  author_folded := foldedTo_of_not_mem h.author.not_mem_newline
  committer := h.committer.plain
  committer_folded := foldedTo_of_not_mem h.committer.not_mem_newline
  extra := by
    obtain ⟨ls, heq, hls, hfirst, hunknown⟩ := h.extra
    cases ls with
    | nil => exact ⟨[], by simp, heq⟩
    | cons l ls =>
        obtain ⟨hne, hnl⟩ := hls l List.mem_cons_self
        have hspace := hfirst l rfl
        have hl := isExtraLine_of_physical hne hnl hspace (hunknown l List.mem_cons_self hspace)
        rw [heq]
        exact exists_extraLines (fun l' hl' => hls l' (List.mem_cons_of_mem l hl'))
          (fun l' hl' => hunknown l' (List.mem_cons_of_mem l hl')) hl

/-- **Writing a well-formed commit and parsing it gives the commit back**, whatever its
message. -/
theorem parse_serialize_wellFormed {algo : HashAlgo} {c : Commit} (h : c.WellFormed algo) :
    parse algo c.serialize = .ok c :=
  parse_serialize_canonical h.canonical

/-- A merge with a signature over several lines, whose message looks like headers. -/
def signedMerge : Commit where
  tree := .filled 1
  parents := [.filled 2, .filled 3]
  author := ⟨bytes "A  B", bytes "a<b", -1, bytes "+0900"⟩
  committer := ⟨[], bytes "c", 1700000000, []⟩
  extraHeaders := bytes "gpgsig -----BEGIN\n \n tree x\n -----END\nencoding x\n"
  message := bytes "\n\ntree 0\nauthor <"

theorem parse_signedMerge : parse .sha1 signedMerge.serialize = .ok signedMerge := by
  refine parse_serialize_wellFormed ⟨rfl,
    by decide, ⟨by decide, by decide, by decide, by decide, by decide⟩,
    ⟨by decide, by decide, by decide, by decide, by decide⟩, ?_⟩
  refine ⟨[bytes "gpgsig -----BEGIN", bytes " ", bytes " tree x", bytes " -----END",
    bytes "encoding x"], ?_, ?_, ?_, ?_⟩ <;> decide

end Commit

end Puregit
